import Xv6.Fs.Contents
import Xv6.Lib.Pieces

namespace Xv6.Fs.Shared
open Lib Function
set_option autoImplicit true

/-- The most that `filewrite` writes in one transaction. -/
abbrev maxChunk : Nat := (maxOpBlocks - 1 - 1 - 2) / 2 * 512

structure Cursor where
  call : Nat
  i : Nat

/-- One `struct file` on inode `ino`, the data of the calls of `filewrite`, where each process is,
and what its last call has returned. -/
structure St where
  fs : Fs.St
  ino : Nat
  off : UInt32
  calls : List (List UInt8)
  cur : Nat → Option Cursor
  ret : Nat → Option Int

/-- A process writes a transaction or reads, or something else changes the disk. -/
inductive Event where
  | write (data : List UInt8)
  | round
  | read (n : UInt32)
  | other (fs : Fs.St)

def opened (fs : Fs.St) (ino : Nat) : St where
  fs := fs
  ino := ino
  off := 0
  calls := []
  cur _ := none
  ret _ := none

/-- `if(r > 0) f->off += r`. -/
def advance (off : UInt32) (r : Int) : UInt32 :=
  if 0 < r then off + UInt32.ofNat r.toNat else off

def St.call (s : St) (p : Nat) (data : List UInt8) : St :=
  { s with
    calls := s.calls ++ [data]
    cur := update s.cur p (some ⟨s.calls.length, 0⟩) }

/-- `return i == n ? n : -1`. -/
def St.leave (s : St) (p i n : Nat) : St :=
  { s with
    cur := update s.cur p none
    ret := update s.ret p (some (if i = n then n else -1)) }

/-- `i += r`. -/
def St.proceed (s : St) (p : Nat) (x : Cursor) (r : Nat) : St :=
  { s with cur := update s.cur p (some { x with i := x.i + r }) }

/-- The inode and `f->off` after `writei` or `readi` has returned `r`. -/
def St.settle (s : St) (fs : Fs.St) (ip : Inode) (r : Int) : St :=
  { s with fs := fs.cache s.ino ip, off := advance s.off r }

/-- One round of `filewrite`, from `begin_op` to `end_op` and on. -/
def chunk (devsw : Devsw) (s : St) (p : Nat) (x : Cursor) (data : List UInt8) (ip : Inode) :
    Except Fault St := do
  let n1 := min (data.length - x.i) maxChunk
  let (fs, ip, r) ← writei devsw s.fs s.ino ip (fun k => data.getD (x.i + k) 0) s.off (UInt32.ofNat n1)
  let s := s.settle fs ip r
  if r < 0 then .ok (s.leave p x.i data.length)
  else if r ≠ n1 then .error (.panic "short filewrite")
  else .ok (s.proceed p x n1)

def fileread (devsw : Devsw) (s : St) (ip : Inode) (n : UInt32) : Except Fault St := do
  let (fs, ip, _, r) ← readi devsw s.fs ip s.off n
  .ok (s.settle fs ip r)

def step (devsw : Devsw) (s : St) (e : Nat × Event) : Except Fault St :=
  match e.2, s.cur e.1, s.fs.icache s.ino with
  | .write data, none, _ => .ok (s.call e.1 data)
  | .round, some x, some ip =>
    match s.calls[x.call]? with
    | none => .error .blocked
    | some data =>
      if x.i < data.length then chunk devsw s e.1 x data ip
      else .ok (s.leave e.1 x.i data.length)
  | .read n, none, some ip => fileread devsw s ip n
  | .other fs, _, _ => .ok { s with fs := fs }
  | _, _, _ => .error .blocked

def St.bytes (s : St) : List UInt8 :=
  match s.fs.icache s.ino with
  | some ip => content s.fs ip
  | none => []

/-- The file system is intact and has the file, which is no device. -/
structure Ready (s : St) : Prop where
  intact : Intact s.fs
  inode : ∃ ip, s.fs.icache s.ino = some ip ∧ ip.type ≠ tDev
  off : s.off.toNat ≤ s.bytes.length

/-- Other changes keep the file system intact, and do not shorten the file. -/
structure Other (s : St) (fs : Fs.St) : Prop where
  intact : Intact fs
  inode : ∃ ip, fs.icache s.ino = some ip ∧ ip.type ≠ tDev
  longer : s.bytes.length ≤ ({ s with fs := fs } : St).bytes.length

def legal (s : St) (e : Nat × Event) : Prop :=
  ∀ fs, e.2 = .other fs → Other s fs

/-- Only calls of `filewrite` touch the file. -/
def writing (s : St) (e : Nat × Event) : Prop :=
  (∀ n, e.2 ≠ .read n) ∧
    ∀ fs, e.2 = .other fs → Other s fs ∧ ({ s with fs := fs } : St).bytes = s.bytes

section Steps
variable {s s' : St} {p : Nat} {ip : Inode}

theorem bytes_eq (h : s.fs.icache s.ino = some ip) : s.bytes = content s.fs ip := by
  rw [St.bytes, h]

theorem settle_same (hi : s.fs.icache s.ino = some ip) (r : Int) :
    s.settle s.fs ip r = { s with off := advance s.off r } := by
  rw [St.settle, cache_of_cached hi]

theorem writei_cases (h : Intact fs) (hi : fs.icache i = some ip) (ht : ip.type ≠ tDev)
    (ho : writei devsw fs i ip src off n = .ok (fs', ip', r)) :
    (r = -1 ∧ fs' = fs ∧ ip' = ip ∧ (ip.size < off.toNat ∨ off + n < off ∨
      maxFile * bSize < (off + n).toNat)) ∨
    r = n.toNat ∧ (off + n).toNat = off.toNat + n.toNat ∧
      Written fs (fs'.cache i ip') i ip ip' off.toNat n.toNat src := by
  by_cases hov : ip.size < off.toNat ∨ off + n < off
  · rw [writei, if_neg ht, if_pos hov] at ho
    cases ho
    exact .inl ⟨rfl, rfl, rfl, hov.imp_right .inl⟩
  by_cases hmax : maxFile * bSize < (off + n).toNat
  · rw [writei, if_neg ht, if_neg hov, if_pos hmax] at ho
    cases ho
    exact .inl ⟨rfl, rfl, rfl, .inr (.inr hmax)⟩
  · obtain ⟨hr, hw⟩ := writei_written h hi ht ho hov hmax
    exact .inr ⟨hr, toNat_add_of_le fun h => hov (.inr h), hw⟩

/-- What a process has written by one round, at `f->off`. -/
def piece (x : Cursor) (data : List UInt8) : List UInt8 :=
  (data.drop x.i).take maxChunk

theorem length_piece (x : Cursor) (data : List UInt8) :
    (piece x data).length = min (data.length - x.i) maxChunk := by
  rw [piece, List.length_take, List.length_drop, Nat.min_comm]

theorem take_piece (x : Cursor) (data : List UInt8) :
    (data.drop x.i).take (piece x data).length = piece x data := by
  rw [length_piece, piece, List.take_eq_take_iff, List.length_drop]
  omega

theorem map_getD (l : List UInt8) (i n : Nat) (h : i + n ≤ l.length) :
    (List.range n).map (fun k => l.getD (i + k) 0) = (l.drop i).take n := by
  apply List.ext_getElem?
  intro k
  rw [List.getElem?_map, List.getElem?_take, List.getElem?_drop]
  by_cases hk : k < n
  · have hlt : i + k < l.length := by omega
    rw [List.getElem?_range hk, if_pos hk, Option.map_some, List.getElem?_eq_getElem hlt,
      List.getD_eq_getElem _ _ hlt]
  · rw [List.getElem?_eq_none (by rw [List.length_range]; omega), if_neg hk, Option.map_none]

/-- One round writes the next piece at `f->off`, or changes nothing. -/
theorem chunk_cases (h : Ready s) (hi : s.fs.icache s.ino = some ip) (ht : ip.type ≠ tDev)
    (hlt : x.i < data.length) (ho : chunk devsw s p x data ip = .ok s') :
    (s' = s.leave p x.i data.length ∧
      maxFile * bSize < s.off.toNat + (piece x data).length) ∨
    Ready s' ∧ s'.bytes = overwrite s.bytes s.off.toNat (piece x data) ∧
      s'.off.toNat = s.off.toNat + (piece x data).length ∧ s'.calls = s.calls ∧
      s'.cur = update s.cur p (some { x with i := x.i + (piece x data).length }) := by
  obtain ⟨⟨fs, ip', r⟩, hw, hrest⟩ := bind_ok ho
  have hsize : s.off.toNat ≤ ip.size := by
    have hoff := h.off
    rwa [bytes_eq hi, length_content] at hoff
  have hmax : ip.size ≤ maxFile * bSize := h.intact.size_le (by rw [Fs.St.inodes, hi])
  have hlen := length_piece x data
  have hm : (piece x data).length ≤ 1536 := by
    rw [hlen]
    exact Nat.min_le_right _ _
  have hpos : 0 < (piece x data).length := by
    rw [hlen]
    exact Nat.lt_min.2 ⟨Nat.sub_pos_of_lt hlt, by decide⟩
  have hword : (UInt32.ofNat (piece x data).length).toNat = (piece x data).length := by
    apply UInt32.toNat_ofNat_of_lt'
    exact Nat.lt_of_le_of_lt hm (by decide)
  rw [← hlen] at hw hrest
  dsimp only at hrest
  rcases writei_cases h.intact hi ht hw with ⟨rfl, rfl, rfl, hbad⟩ | ⟨rfl, hadd, hwr⟩
  · left
    rw [if_pos (by decide), settle_same hi] at hrest
    refine ⟨(Except.ok.inj hrest).symm, ?_⟩
    simp only [maxFile, nDirect, nIndirect, bSize] at hbad hmax ⊢
    rw [UInt32.lt_iff_toNat_lt, UInt32.toNat_add, hword] at hbad
    omega
  · right
    rw [hword, if_neg (by omega), if_neg (fun h => h rfl)] at hrest
    cases hrest
    have hadvance : (advance s.off ((piece x data).length : Int)).toNat =
        s.off.toNat + (piece x data).length := by
      rw [advance, if_pos (by omega), Int.toNat_natCast, hadd, hword]
    have hcontent : ((s.settle fs ip' (piece x data).length).proceed p x (piece x data).length).bytes =
        content (fs.cache s.ino ip') ip' := bytes_eq hwr.cached
    have hbytes : content (fs.cache s.ino ip') ip' =
        overwrite s.bytes s.off.toNat (piece x data) := by
      rw [bytes_eq hi, hwr.content, hword, map_getD _ _ _ (by rw [hlen]; omega), take_piece]
    refine ⟨⟨hwr.intact, ⟨ip', hwr.cached, by rwa [hwr.type]⟩, ?_⟩, hcontent.trans hbytes, hadvance,
      rfl, rfl⟩
    rw [hcontent, length_content, hwr.size, hword]
    exact Nat.le_trans (Nat.le_of_eq hadvance) (Nat.le_max_right _ _)

theorem step_cases (ho : step devsw s (p, e) = .ok s') :
    (∃ data, e = .write data ∧ s.cur p = none ∧ s' = s.call p data) ∨
    (∃ x ip data, e = .round ∧ s.cur p = some x ∧ s.fs.icache s.ino = some ip ∧
      s.calls[x.call]? = some data ∧
      (x.i < data.length ∧ chunk devsw s p x data ip = .ok s' ∨
        data.length ≤ x.i ∧ s' = s.leave p x.i data.length)) ∨
    (∃ n ip, e = .read n ∧ s.fs.icache s.ino = some ip ∧ fileread devsw s ip n = .ok s') ∨
    ∃ fs, e = .other fs ∧ s' = { s with fs := fs } := by
  unfold step at ho
  split at ho
  · next data he hc =>
    exact .inl ⟨data, he, hc, (Except.ok.inj ho).symm⟩
  · next x ip he hc hi =>
    split at ho
    · cases ho
    · next data hd =>
      refine .inr (.inl ⟨x, ip, data, he, hc, hi, hd, ?_⟩)
      split at ho
      · next hlt => exact .inl ⟨hlt, ho⟩
      · next hlt => exact .inr ⟨Nat.le_of_not_lt hlt, (Except.ok.inj ho).symm⟩
  · next n ip he _ hi => exact .inr (.inr (.inl ⟨n, ip, he, hi, ho⟩))
  · next fs he => exact .inr (.inr (.inr ⟨fs, he, (Except.ok.inj ho).symm⟩))
  · cases ho

theorem Ready.fileread (h : Ready s) (hi : s.fs.icache s.ino = some ip)
    (ho : fileread devsw s ip n = .ok s') : Ready s' := by
  obtain ⟨ip', hi', ht⟩ := h.inode
  obtain rfl := Option.some.inj (hi.symm.trans hi')
  obtain ⟨⟨fs, ip', dst, r⟩, hr, ho⟩ := bind_ok ho
  rw [readi_content h.intact (by rw [Fs.St.inodes, hi]) ht] at hr
  have hoff := h.off
  rw [bytes_eq hi, length_content] at hoff
  split at hr
  · cases hr
    cases ho
    rw [settle_same hi]
    exact h
  · cases hr
    cases ho
    rw [settle_same hi]
    refine ⟨h.intact, h.inode, ?_⟩
    have hmax : ip.size ≤ maxFile * bSize := h.intact.size_le (by rw [Fs.St.inodes, hi])
    have hlen : (((content s.fs ip).drop s.off.toNat).take n.toNat).length ≤ ip.size - s.off.toNat := by
      rw [List.length_take, List.length_drop, length_content]
      exact Nat.min_le_right _ _
    generalize (((content s.fs ip).drop s.off.toNat).take n.toNat).length = len at hlen
    show (advance s.off len).toNat ≤ s.bytes.length
    rw [bytes_eq hi, length_content, advance]
    split
    · rw [Int.toNat_natCast, UInt32.toNat_add, UInt32.toNat_ofNat']
      simp only [maxFile, nDirect, nIndirect, bSize] at hmax
      omega
    · exact hoff

theorem Ready.step (h : Ready s) (hl : legal s (p, e)) (ho : step devsw s (p, e) = .ok s') :
    Ready s' := by
  rcases step_cases ho with ⟨data, rfl, -, rfl⟩ | ⟨x, ip, data, rfl, -, hi, -, hx⟩ |
    ⟨n, ip, rfl, hi, ho⟩ | ⟨fs, rfl, rfl⟩
  · exact ⟨h.intact, h.inode, h.off⟩
  · obtain ⟨ip', hi', ht⟩ := h.inode
    obtain rfl := Option.some.inj (hi.symm.trans hi')
    rcases hx with ⟨hlt, ho⟩ | ⟨-, rfl⟩
    · rcases chunk_cases h hi ht hlt ho with ⟨rfl, -⟩ | ⟨hr, -⟩
      · exact ⟨h.intact, h.inode, h.off⟩
      · exact hr
    · exact ⟨h.intact, h.inode, h.off⟩
  · exact h.fileread hi ho
  · have hl := hl fs rfl
    exact ⟨hl.intact, hl.inode, Nat.le_trans h.off hl.longer⟩

end Steps

def St.total (s : St) : Nat :=
  (s.calls.map List.length).sum

/-- The pieces written since `s₀` follow one another in the file, each call's up to its `i`. -/
structure Logged (s₀ s : St) (log : List (Nat × List UInt8)) : Prop where
  ready : Ready s
  off : s.off.toNat = s₀.off.toNat + (joined log).length
  bytes : s.bytes = overwrite s₀.bytes s₀.off.toNat (joined log)
  chunks : ∀ x ∈ log, x.2.length ≤ 1536 ∧ x.1 < s.calls.length
  cur : ∀ p x, s.cur p = some x →
    ∃ data, s.calls[x.call]? = some data ∧ x.i ≤ data.length ∧ pieces log x.call = data.take x.i
  distinct : ∀ p q x y, s.cur p = some x → s.cur q = some y → x.call = y.call → p = q
  done : ∀ c data, s.calls[c]? = some data →
    (∃ p x, s.cur p = some x ∧ x.call = c) ∨ pieces log c = data

theorem overwrite_overwrite (h : off ≤ old.length) (a b : List UInt8) :
    overwrite (overwrite old off a) (off + a.length) b = overwrite old off (a ++ b) := by
  have hlen : (old.take off ++ a).length = off + a.length := by
    rw [List.length_append, List.length_take_of_le h]
  simp only [overwrite]
  rw [List.take_left' hlen, ← List.drop_drop, List.drop_left' hlen, List.drop_drop,
    List.length_append, ← Nat.add_assoc, List.append_assoc (old.take off)]

theorem take_drop_overwrite (h : off ≤ old.length) (new : List UInt8) :
    ((overwrite old off new).drop off).take new.length = new := by
  rw [overwrite, List.append_assoc, List.drop_left' (List.length_take_of_le h),
    List.take_left' rfl]

theorem sum_range_length (l : List (List α)) :
    ∑ c ∈ Finset.range l.length, (l.getD c []).length = (l.map List.length).sum := by
  induction l with
  | nil => rfl
  | cons x l ih =>
    rw [List.length_cons, Finset.sum_range_succ', List.map_cons, List.sum_cons, ← ih, Nat.add_comm]
    rfl

section Run
variable {s₀ s s' : St} {log : List (Nat × List UInt8)} {p : Nat}

theorem Logged.fits (h : Logged s₀ s log) (hx : s.cur p = some x)
    (hd : s.calls[x.call]? = some data) :
    (joined log).length + (piece x data).length ≤ s.total := by
  have hlt : x.call < s.calls.length := (List.getElem?_eq_some_iff.1 hd).1
  rw [St.total, ← sum_range_length]
  apply joined_add_le (c := x.call)
  · exact fun y hy => Finset.mem_range.2 (h.chunks y hy).2
  · exact Finset.mem_range.2 hlt
  · intro c hc
    have hc := Finset.mem_range.1 hc
    rw [List.getD_eq_getElem _ _ hc]
    rcases h.done c _ (List.getElem?_eq_getElem hc) with ⟨q, y, hy, rfl⟩ | hdone
    · obtain ⟨data', hd', hi, hp⟩ := h.cur q y hy
      obtain ⟨_, rfl⟩ := List.getElem?_eq_some_iff.1 hd'
      rw [hp, List.length_take]
      exact Nat.min_le_right _ _
    · rw [hdone]
  · obtain ⟨data', hd', hi, hp⟩ := h.cur p x hx
    obtain rfl := Option.some.inj (hd.symm.trans hd')
    rw [hp, List.length_take, length_piece, List.getD_eq_getElem?_getD, hd, Option.getD_some]
    omega

theorem Logged.call (h : Logged s₀ s log) (hp : s.cur p = none) (data : List UInt8) :
    Logged s₀ (s.call p data) log := by
  have hnew : pieces log s.calls.length = [] :=
    pieces_eq_nil fun x hx => Nat.ne_of_lt (h.chunks x hx).2
  have hold {c : Nat} {d : List UInt8} (hc : s.calls[c]? = some d) :
      (s.calls ++ [data])[c]? = some d := by
    rw [List.getElem?_append_left (List.getElem?_eq_some_iff.1 hc).1, hc]
  have hlt (q : Nat) (x : Cursor) (hx : s.cur q = some x) : x.call < s.calls.length := by
    obtain ⟨d, hd, -⟩ := h.cur q x hx
    exact (List.getElem?_eq_some_iff.1 hd).1
  constructor
  · exact ⟨h.ready.intact, h.ready.inode, h.ready.off⟩
  · exact h.off
  · exact h.bytes
  · intro x hx
    obtain ⟨hle, hlt⟩ := h.chunks x hx
    refine ⟨hle, Nat.lt_of_lt_of_le hlt ?_⟩
    simp [St.call]
  · intro q x hx
    rcases update_eq_some hx with ⟨-, rfl⟩ | ⟨-, hx⟩
    · exact ⟨data, by simp [St.call], Nat.zero_le _, hnew⟩
    · obtain ⟨d, hd, hi, hp⟩ := h.cur q x hx
      exact ⟨d, hold hd, hi, hp⟩
  · intro q r x y hx hy he
    rcases update_eq_some hx with ⟨rfl, rfl⟩ | ⟨-, hx⟩
    · rcases update_eq_some hy with ⟨rfl, -⟩ | ⟨-, hy⟩
      · rfl
      · exact absurd he.symm (Nat.ne_of_lt (hlt r y hy))
    · rcases update_eq_some hy with ⟨-, rfl⟩ | ⟨-, hy⟩
      · exact absurd he (Nat.ne_of_lt (hlt q x hx))
      · exact h.distinct q r x y hx hy he
  · intro c d hd
    by_cases hc : c < s.calls.length
    · have hd' : s.calls[c]? = some d := by
        rwa [St.call, List.getElem?_append_left hc] at hd
      rcases h.done c d hd' with ⟨q, x, hx, rfl⟩ | hdone
      · left
        have hqp : q ≠ p := by
          rintro rfl
          cases hp.symm.trans hx
        exact ⟨q, x, by simp only [St.call, update_of_ne hqp, hx], rfl⟩
      · exact .inr hdone
    · left
      have hlen := (List.getElem?_eq_some_iff.1 hd).1
      simp only [St.call, List.length_append, List.length_singleton] at hlen
      refine ⟨p, ⟨s.calls.length, 0⟩, update_self .., ?_⟩
      show s.calls.length = c
      omega

theorem Logged.leave (h : Logged s₀ s log) (hx : s.cur p = some x)
    (hd : s.calls[x.call]? = some data) (hi : data.length ≤ x.i) :
    Logged s₀ (s.leave p x.i data.length) log := by
  have hcur (q : Nat) (y : Cursor) (hy : (s.leave p x.i data.length).cur q = some y) :
      s.cur q = some y := by
    by_cases hq : q = p
    · subst hq
      simp only [St.leave, update_self] at hy
      cases hy
    · simpa only [St.leave, update_of_ne hq] using hy
  constructor
  · exact ⟨h.ready.intact, h.ready.inode, h.ready.off⟩
  · exact h.off
  · exact h.bytes
  · exact h.chunks
  · exact fun q y hy => h.cur q y (hcur q y hy)
  · exact fun q r y z hy hz => h.distinct q r y z (hcur q y hy) (hcur r z hz)
  · intro c d hc
    rcases h.done c d hc with ⟨q, y, hy, rfl⟩ | hdone
    · by_cases hq : q = p
      · subst hq
        cases hx.symm.trans hy
        obtain ⟨data', hd', -, hp⟩ := h.cur q x hx
        obtain rfl := Option.some.inj (hd.symm.trans hd')
        obtain rfl := Option.some.inj (hd.symm.trans hc)
        rw [hp, List.take_of_length_le hi]
        exact .inr rfl
      · exact .inl ⟨q, y, by simp only [St.leave, update_of_ne hq, hy], rfl⟩
    · exact .inr hdone

theorem Logged.chunk (h : Logged s₀ s log) (h₀ : s₀.off.toNat ≤ s₀.bytes.length)
    (hx : s.cur p = some x) (hd : s.calls[x.call]? = some data) (hr : Ready s')
    (hb : s'.bytes = overwrite s.bytes s.off.toNat (piece x data))
    (ho : s'.off.toNat = s.off.toNat + (piece x data).length) (hc : s'.calls = s.calls)
    (hcur : s'.cur = update s.cur p (some { x with i := x.i + (piece x data).length })) :
    Logged s₀ s' (log ++ [(x.call, piece x data)]) := by
  obtain ⟨data', hd', hi, hp⟩ := h.cur p x hx
  obtain rfl := Option.some.inj (hd.symm.trans hd')
  have hself : pieces (log ++ [(x.call, piece x data)]) x.call =
      data.take (x.i + (piece x data).length) := by
    rw [pieces_snoc, if_pos rfl, hp, List.take_add, take_piece]
  have hother (c : Nat) (hc : x.call ≠ c) :
      pieces (log ++ [(x.call, piece x data)]) c = pieces log c := by
    rw [pieces_snoc, if_neg hc, List.append_nil]
  constructor
  · exact hr
  · rw [ho, h.off, joined_snoc, List.length_append, Nat.add_assoc]
  · rw [hb, h.bytes, h.off, overwrite_overwrite h₀, joined_snoc]
  · intro y hy
    rw [hc]
    rcases List.mem_append.1 hy with hy | hy
    · exact h.chunks y hy
    · obtain rfl := List.mem_singleton.1 hy
      refine ⟨?_, (List.getElem?_eq_some_iff.1 hd).1⟩
      rw [length_piece]
      exact Nat.min_le_right _ _
  · intro q y hy
    rw [hc]
    rw [hcur] at hy
    rcases update_eq_some hy with ⟨-, rfl⟩ | ⟨hq, hy⟩
    · refine ⟨data, hd, ?_, hself⟩
      have hlen := length_piece x data
      show x.i + (piece x data).length ≤ data.length
      omega
    · obtain ⟨d, hd', hi', hp'⟩ := h.cur q y hy
      exact ⟨d, hd', hi', (hother _ fun he => hq (h.distinct q p y x hy hx he.symm)).trans hp'⟩
  · intro q r y z hy hz he
    rw [hcur] at hy hz
    rcases update_eq_some hy with ⟨rfl, rfl⟩ | ⟨-, hy'⟩
    · rcases update_eq_some hz with ⟨rfl, -⟩ | ⟨-, hz'⟩
      · rfl
      · exact h.distinct q r x z hx hz' he
    · rcases update_eq_some hz with ⟨rfl, rfl⟩ | ⟨-, hz'⟩
      · exact h.distinct q r y x hy' hx he
      · exact h.distinct q r y z hy' hz' he
  · intro c d hc'
    rw [hc] at hc'
    rw [hcur]
    by_cases hxc : x.call = c
    · exact .inl ⟨p, _, update_self .., hxc⟩
    · rcases h.done c d hc' with ⟨q, y, hy, rfl⟩ | hdone
      · left
        have hqp : q ≠ p := by
          rintro rfl
          cases hx.symm.trans hy
          exact hxc rfl
        exact ⟨q, y, by rw [update_of_ne hqp, hy], rfl⟩
      · exact .inr ((hother c hxc).trans hdone)

theorem Logged.step (h : Logged s₀ s log) (h₀ : s₀.off.toNat ≤ s₀.bytes.length)
    (hw : writing s (p, e)) (hfit : s₀.off.toNat + s.total ≤ maxFile * bSize)
    (ho : step devsw s (p, e) = .ok s') : ∃ log', Logged s₀ s' log' := by
  rcases step_cases ho with ⟨data, rfl, hp, rfl⟩ | ⟨x, ip, data, rfl, hx, hi, hd, hround⟩ |
    ⟨n, ip, rfl, -⟩ | ⟨fs, rfl, rfl⟩
  · exact ⟨log, h.call hp data⟩
  · obtain ⟨ip', hi', ht⟩ := h.ready.inode
    obtain rfl := Option.some.inj (hi.symm.trans hi')
    rcases hround with ⟨hlt, ho⟩ | ⟨hge, rfl⟩
    · rcases chunk_cases h.ready hi ht hlt ho with ⟨-, hbad⟩ | ⟨hr, hb, hoff, hc, hcur⟩
      · have hle := h.fits hx hd
        rw [h.off] at hbad
        omega
      · exact ⟨_, h.chunk h₀ hx hd hr hb hoff hc hcur⟩
    · exact ⟨log, h.leave hx hd hge⟩
  · exact absurd rfl (hw.1 n)
  · obtain ⟨hother, hbytes⟩ := hw.2 fs rfl
    refine ⟨log, ⟨hother.intact, hother.inode, ?_⟩, h.off, hbytes.trans h.bytes, h.chunks, h.cur,
      h.distinct, h.done⟩
    exact Nat.le_trans h.ready.off hother.longer

theorem chunk_frame (ho : chunk devsw s p x data ip = .ok s') :
    s'.calls = s.calls ∧ ∀ q, q ≠ p → s'.cur q = s.cur q := by
  obtain ⟨⟨fs, ip', r⟩, -, hrest⟩ := bind_ok ho
  dsimp only at hrest
  split at hrest
  · cases hrest
    exact ⟨rfl, fun q hq => update_of_ne hq ..⟩
  · split at hrest
    · cases hrest
    · cases hrest
      exact ⟨rfl, fun q hq => update_of_ne hq ..⟩

theorem fileread_frame (ho : fileread devsw s ip n = .ok s') :
    s'.calls = s.calls ∧ s'.cur = s.cur := by
  obtain ⟨⟨fs, ip', bytes, r⟩, -, hrest⟩ := bind_ok ho
  cases hrest
  exact ⟨rfl, rfl⟩

theorem cur_step (ho : step devsw s (p, e) = .ok s') (hq : q ≠ p) : s'.cur q = s.cur q := by
  rcases step_cases ho with ⟨data, -, -, rfl⟩ | ⟨x, ip, data, -, -, -, -, hround⟩ |
    ⟨n, ip, -, -, ho⟩ | ⟨fs, -, rfl⟩
  · exact update_of_ne hq ..
  · rcases hround with ⟨-, ho⟩ | ⟨-, rfl⟩
    · exact (chunk_frame ho).2 q hq
    · exact update_of_ne hq ..
  · rw [(fileread_frame ho).2]
  · rfl

theorem cur_exec (h : Exec (step devsw) writing s₀ es s) (hq : ∀ e ∈ es, q ≠ e.1) :
    s.cur q = s₀.cur q := by
  induction h with
  | nil => rfl
  | snoc _ _ ho ih =>
    have hlast := hq _ (List.mem_append_right _ (List.mem_singleton.2 rfl))
    rw [cur_step ho hlast]
    exact ih fun e he => hq e (List.mem_append_left _ he)

theorem total_step (ho : step devsw s (p, e) = .ok s') : s.total ≤ s'.total := by
  rcases step_cases ho with ⟨data, -, -, rfl⟩ | ⟨x, ip, data, -, -, -, -, hround⟩ |
    ⟨n, ip, -, -, ho⟩ | ⟨fs, -, rfl⟩
  · rw [St.total, St.total, St.call, List.map_append, List.sum_append]
    exact Nat.le_add_right _ _
  · rcases hround with ⟨-, ho⟩ | ⟨-, rfl⟩
    · rw [St.total, St.total, (chunk_frame ho).1]
    · exact Nat.le_refl _
  · rw [St.total, St.total, (fileread_frame ho).1]
  · exact Nat.le_refl _

theorem logged_run (h₀ : Ready s₀) (hcalls : s₀.calls = []) (hidle : ∀ p, s₀.cur p = none)
    (h : Exec (step devsw) writing s₀ es s) (hfit : s₀.off.toNat + s.total ≤ maxFile * bSize) :
    ∃ log, Logged s₀ s log := by
  induction h with
  | nil =>
    refine ⟨[], h₀, rfl, ?_, nofun, ?_, ?_, ?_⟩
    · simp [overwrite, joined]
    · intro p x hx
      cases (hidle p).symm.trans hx
    · intro p q x y hx
      cases (hidle p).symm.trans hx
    · intro c data hc
      rw [hcalls] at hc
      cases hc
  | snoc _ hw ho ih =>
    have hle := total_step ho
    obtain ⟨log, hlog⟩ := ih (by omega)
    exact hlog.step h₀.off hw (by omega) ho

theorem Logged.whole (h : Logged s₀ s log) (hidle : ∀ p, s.cur p = none)
    (hc : s.calls[c]? = some data) : pieces log c = data := by
  rcases h.done c data hc with ⟨p, x, hx, -⟩ | hdone
  · cases (hidle p).symm.trans hx
  · exact hdone

theorem Logged.length (h : Logged s₀ s log) (hidle : ∀ p, s.cur p = none) :
    (joined log).length = s.total := by
  rw [St.total, ← sum_range_length,
    length_joined _ fun x hx => Finset.mem_range.2 (h.chunks x hx).2]
  apply Finset.sum_congr rfl
  intro c hc
  have hc := Finset.mem_range.1 hc
  rw [List.getD_eq_getElem _ _ hc, h.whole hidle (List.getElem?_eq_getElem hc)]

end Run

/-- The bytes from the first `f->off` to the last are pieces of at most 1536 bytes, each of one
call, that make up the data of every call in order. -/
theorem shared_writes {devsw : Devsw} {fs : Fs.St} {s₀ s : St} (hfs : Intact fs)
    (hi : fs.icache ino = some ip) (ht : ip.type ≠ tDev)
    (hbefore : Exec (step devsw) legal (opened fs ino) es₀ s₀) (hidle₀ : ∀ p, s₀.cur p = none)
    (h : Exec (step devsw) writing { s₀ with calls := [] } es s) (hidle : ∀ p, s.cur p = none)
    (hfit : s₀.off.toNat + s.total ≤ maxFile * bSize) :
    s.off.toNat = s₀.off.toNat + s.total ∧
      ∃ log, (s.bytes.drop s₀.off.toNat).take (s.off.toNat - s₀.off.toNat) = joined log ∧
        (∀ x ∈ log, x.2.length ≤ 1536 ∧ x.1 < s.calls.length) ∧
        ∀ c data, s.calls[c]? = some data → pieces log c = data := by
  have hopened : Ready (opened fs ino) := ⟨hfs, ⟨ip, hi, ht⟩, Nat.zero_le _⟩
  have hready : Ready s₀ := hbefore.invariant hopened fun _ _ _ hs hl ho => hs.step hl ho
  have hstart : Ready { s₀ with calls := [] } := ⟨hready.intact, hready.inode, hready.off⟩
  obtain ⟨log, hlog⟩ := logged_run hstart rfl hidle₀ h hfit
  have hoff : s.off.toNat = s₀.off.toNat + s.total := by
    rw [hlog.off, hlog.length hidle]
  refine ⟨hoff, log, ?_, hlog.chunks, fun c data hc => hlog.whole hidle hc⟩
  rw [hlog.bytes, hoff, Nat.add_sub_cancel_left, ← hlog.length hidle]
  exact take_drop_overwrite hready.off _

def twoWriters : List (Nat × Event) :=
  [(0, .write (List.replicate 1540 1)), (0, .round), (1, .write [2, 2, 2]), (1, .round),
    (0, .round), (0, .round), (1, .round)]

def Event.isWrite : Event → Bool
  | .write _ | .round => true
  | _ => false

theorem writing_of_isWrite {s : St} (h : e.2.isWrite) : writing s e := by
  obtain ⟨p, e⟩ := e
  cases e with
  | write data => exact ⟨nofun, nofun⟩
  | round => exact ⟨nofun, nofun⟩
  | read n => cases h
  | other fs => cases h

theorem shared_writes_twoWriters : ∃ fs s log, Intact fs ∧
    Exec (step fun _ => none) writing (opened fs 1) twoWriters s ∧ s.off.toNat = 1543 ∧
    s.bytes.take 1543 = joined log ∧ pieces log 0 = List.replicate 1540 1 ∧
    pieces log 1 = [2, 2, 2] := by
  obtain ⟨fs, hfs, hs⟩ := (Option.any_eq_true _ _).1
    (show (runLegal (Fs.step fun _ => none) Fs.legal smallFs [.ialloc 2, .ilock 1]).any
      (fun fs => (fs.icache 1).any (fun ip => ip.type = 2) &&
        (runLegal (step fun _ => none) (fun _ e => e.2.isWrite) (opened fs 1) twoWriters).any
          fun s => s.cur 0 = none ∧ s.cur 1 = none ∧
            s.calls = [List.replicate 1540 1, [2, 2, 2]]) = true by decide +kernel)
  obtain ⟨hip, hrun⟩ := Bool.and_eq_true_iff.1 hs
  obtain ⟨ip, hi, ht⟩ := (Option.any_eq_true _ _).1 hip
  obtain ⟨s, hr, hs⟩ := (Option.any_eq_true _ _).1 hrun
  obtain ⟨h0, h1, hcalls⟩ := of_decide_eq_true hs
  have hw : WellFormed fs := (exec_of_runLegal _ _ _ _ hfs).invariant wellFormed_smallFs
    fun _ _ _ hw hl ho => hw.step hl ho
  have hexec : Exec (step fun _ => none) writing (opened fs 1) twoWriters s :=
    (exec_of_runLegal _ _ _ _ hr).mono fun _ _ he => writing_of_isWrite he
  have hidle (p : Nat) : s.cur p = none := by
    by_cases hp : p = 0 ∨ p = 1
    · rcases hp with rfl | rfl
      · exact h0
      · exact h1
    · apply cur_exec hexec
      intro e he
      have hpid : ∀ e ∈ twoWriters, e.1 = 0 ∨ e.1 = 1 := by decide
      rintro rfl
      exact hp (hpid e he)
  have htotal : s.total = 1543 := by
    rw [St.total, hcalls]
    decide +kernel
  have htype : ip.type ≠ tDev := by
    rw [of_decide_eq_true ht]
    decide
  have hfit : (opened fs 1).off.toNat + s.total ≤ maxFile * bSize := by
    rw [htotal]
    show 0 + 1543 ≤ maxFile * bSize
    decide
  obtain ⟨hoff, log, hbytes, -, hpieces⟩ := shared_writes hw.intact hi htype .nil (fun _ => rfl)
    hexec hidle hfit
  have hend : s.off.toNat = 1543 := by
    rw [hoff, htotal]
    rfl
  rw [hend] at hbytes
  refine ⟨fs, s, log, hw.intact, hexec, hend, hbytes, ?_, ?_⟩
  · exact hpieces 0 _ (by rw [hcalls]; rfl)
  · exact hpieces 1 _ (by rw [hcalls]; rfl)

end Xv6.Fs.Shared
