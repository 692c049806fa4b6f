import Xv6.Sys.Refs

namespace Xv6.Sys
open Lib Fs
set_option autoImplicit true

variable {s s' : St} {f : Nat → Inode} {strict safe parent : Bool}
variable {r : Option (Nat × List UInt8)} {ts ps : List Nat} {c cwd d dp i j k n off p : Nat}
variable {name path : List UInt8} {es : List (List UInt8)}

/-- What a path names, as a function of the inodes alone. -/
def walk (f : Nat → Inode) (i : Nat) (parent : Bool) :
    List (List UInt8) → Option (Nat × List UInt8)
  | [] => if parent then none else some (i, [])
  | name :: rest =>
    if (f i).type ≠ tDir then none
    else if parent ∧ rest = [] then some (i, name)
    else
      match find (f i).dents name with
      | none => none
      | some (_, next) => walk f next parent rest

def start (cwd : Nat) (path : List UInt8) : Nat :=
  if path.headD 0 = slash then rootIno else cwd

/-- What `namei` or `nameiparent` finds for a process in directory `cwd`. -/
def St.lookup (s : St) (cwd : Nat) (path : List UInt8) (parent : Bool) :
    Option (Nat × List UInt8) :=
  walk s.inode (start cwd path) parent (elems path)

theorem skipelem_length (h : skipelem path = some (name, rest)) : rest.length < path.length := by
  rw [skipelem] at h
  have hlen := (path.dropWhile_sublist (· = slash)).length_le
  have hhead := List.head?_dropWhile_not (· = slash) path
  generalize path.dropWhile (· = slash) = q at h hlen hhead
  simp only at h
  obtain ⟨hq, h⟩ := Option.ite_none_left_eq_some.1 h
  cases h
  cases q with
  | nil => exact absurd rfl hq
  | cons y q =>
    have hy : y ≠ slash ∧ y ≠ 0 := ⟨by simpa using hhead, hq⟩
    have hsub := (((y :: q).drop ((y :: q).takeWhile fun c => c ≠ slash ∧ c ≠ 0).length
      ).dropWhile_sublist (· = slash)).length_le
    rw [List.length_drop, List.takeWhile_cons_of_pos (by simpa using hy)] at hsub
    simp only [List.length_cons] at hsub hlen
    rw [List.takeWhile_cons_of_pos (by simpa using hy)]
    simp only [List.length_cons]
    omega

theorem elemsFrom_of_le (h : path.length ≤ n) : elemsFrom n path = elems path := by
  have hstep (n m : Nat) (path : List UInt8) (hn : path.length ≤ n) (hm : path.length ≤ m) :
      elemsFrom n path = elemsFrom m path := by
    induction n generalizing m path with
    | zero =>
      obtain rfl := List.eq_nil_of_length_eq_zero (Nat.le_zero.1 hn)
      cases m <;> rfl
    | succ n ih =>
      cases m with
      | zero =>
        obtain rfl := List.eq_nil_of_length_eq_zero (Nat.le_zero.1 hm)
        rfl
      | succ m =>
        rw [elemsFrom, elemsFrom]
        split
        · next name rest hs =>
          have hlt := skipelem_length hs
          rw [ih m rest (by omega) (by omega)]
        · rfl
  exact hstep n path.length path h (Nat.le_refl _)

/-- `elems` is what calling `skipelem` to the end gives. -/
theorem elems_eq (path : List UInt8) : elems path =
    match skipelem path with
    | some (name, rest) => name :: elems rest
    | none => [] := by
  rw [← elemsFrom_of_le (Nat.le_succ path.length), elemsFrom]
  cases hs : skipelem path with
  | none => rfl
  | some q => simp only [elemsFrom_of_le (Nat.le_of_lt (skipelem_length hs))]

theorem Inv.dirlookup (h : Inv strict safe s ts ps)
    (ho : Sys.dirlookup s d name = .ok (s', q)) : (s.inode d).type = tDir ∧ Same s s' ∧
      q = find (s.inode d).dents name ∧
      Inv strict safe s' ((q.map Prod.snd).toList ++ ts) ps := by
  rw [Sys.dirlookup] at ho
  obtain ⟨ht, ho⟩ := unless_ok ho
  refine ⟨not_not.1 ht, ?_⟩
  split at ho
  · next off i hf =>
    cases ho
    exact ⟨same_iget s i, hf.symm, h.same (same_iget s i) (h.refs.iget i)⟩
  · next hf =>
    cases ho
    exact ⟨Same.refl s, hf.symm, h⟩

/-- The loop of `namex` finds what the path names, with one reference. -/
theorem Inv.namexLoop (h : Inv strict safe s (i :: ts) ps) (hn : NoOrphan s)
    (ho : Sys.namexLoop s i parent es = .ok (s', r)) : Same s s' ∧
      r = walk s.inode i parent es ∧
      Inv strict safe s' ((r.map Prod.fst).toList ++ ts) ps := by
  induction es generalizing s i with
  | nil =>
    rw [Sys.namexLoop] at ho
    rw [walk]
    split at ho
    · next hp =>
      cases ho
      obtain ⟨hr, hs⟩ := h.refs.iput_same hn
      exact ⟨hs, (if_pos hp).symm, h.same hs hr⟩
    · next hp =>
      cases ho
      exact ⟨Same.refl _, (if_neg hp).symm, h⟩
  | cons name rest ih =>
    rw [Sys.namexLoop] at ho
    obtain ⟨s₁, hl, ho⟩ := bind_ok ho
    obtain ⟨hr₁, hs₁, -, -, -⟩ := h.refs.ilock (h.refs.pos_of_mem List.mem_cons_self) hl
    have h₁ := h.same hs₁ hr₁
    have hn₁ := hn.same hs₁
    rw [walk]
    rw [hs₁.inode] at ho
    split at ho
    · next ht =>
      cases ho
      obtain ⟨hr, hs⟩ := hr₁.iput_same hn₁
      exact ⟨hs₁.trans hs, by rw [if_pos ht], h₁.same hs hr⟩
    · next ht =>
      rw [if_neg ht]
      split at ho
      · next hp =>
        cases ho
        exact ⟨hs₁, by rw [if_pos hp], h₁⟩
      · next hp =>
        rw [if_neg hp]
        obtain ⟨⟨s₂, q⟩, hd, ho⟩ := bind_ok ho
        obtain ⟨-, hs₂, hq, h₂⟩ := h₁.dirlookup hd
        have hn₂ := hn₁.same hs₂
        rw [hs₁.inode] at hq
        rw [← hq]
        cases q with
        | none =>
          cases ho
          obtain ⟨hr, hs⟩ := h₂.refs.iput_same hn₂
          exact ⟨(hs₁.trans hs₂).trans hs, rfl, h₂.same hs hr⟩
        | some q =>
          obtain ⟨off, next⟩ := q
          have h₃ := h₂.perm (List.Perm.swap i next ts)
          obtain ⟨hr, hs₃⟩ := h₃.refs.iput_same hn₂
          have hs := (hs₁.trans hs₂).trans hs₃
          obtain ⟨hs', hr', h'⟩ := ih (h₃.same hs₃ hr) (hn₂.same hs₃) ho
          rw [hs.inode] at hr'
          exact ⟨hs.trans hs', hr', h'⟩

/-- What `namex` does, for a process that holds a reference to `cwd`. -/
theorem Inv.namex (h : Inv strict safe s ts ps) (hn : NoOrphan s) (hc : 0 < s.ref cwd)
    (ho : Sys.namex s cwd path parent = .ok (s', r)) : Same s s' ∧
      r = s.lookup cwd path parent ∧
      Inv strict safe s' ((r.map Prod.fst).toList ++ ts) ps := by
  rw [Sys.namex] at ho
  rw [St.lookup, start]
  split at ho
  · next hp =>
    have hs := same_iget s rootIno
    rw [if_pos hp]
    obtain ⟨hs', hr, h'⟩ := (h.same hs (h.refs.iget rootIno)).namexLoop (hn.same hs) ho
    exact ⟨hs.trans hs', hr, h'⟩
  · next hp =>
    have hs := same_idup s cwd
    rw [if_neg hp]
    obtain ⟨hs', hr, h'⟩ := (h.same hs (h.refs.idup hc)).namexLoop (hn.same hs) ho
    exact ⟨hs.trans hs', hr, h'⟩

theorem walk_parent (h : walk f i true es = some (d, name)) : (f d).type = tDir := by
  induction es generalizing i with
  | nil => cases h
  | cons e rest ih =>
    rw [walk] at h
    obtain ⟨ht, h⟩ := Option.ite_none_left_eq_some.1 h
    split at h
    · cases h
      exact not_not.1 ht
    · split at h
      · cases h
      · exact ih h

end Xv6.Sys
