import Xv6.Shell.Complete
import Xv6.Lib.Exec

namespace Xv6.Shell
open Lib
set_option autoImplicit true

/-- The words of a command, in the order of `nulterminate`. -/
def Cmd.words : Cmd ω → List ω
  | .exec argv => argv
  | .redir cmd file _ _ => cmd.words ++ [file]
  | .pipe left right => left.words ++ right.words
  | .list left right => left.words ++ right.words
  | .back cmd => cmd.words

def endWords (buf : List UInt8) (ws : List Word) : List UInt8 :=
  ws.foldl (fun buf w => setNul buf w.eq) buf

theorem endWords_append (buf : List UInt8) (ws ws' : List Word) :
    endWords buf (ws ++ ws') = endWords (endWords buf ws) ws' :=
  List.foldl_append

theorem nulterminate_eq (buf : List UInt8) (c : Cmd Word) :
    nulterminate buf c = endWords buf c.words := by
  induction c generalizing buf with
  | exec argv => rfl
  | redir c file mode fd ih =>
    rw [nulterminate, ih, Cmd.words, endWords_append]
    rfl
  | pipe l r ihl ihr => rw [nulterminate, ihl, ihr, Cmd.words, endWords_append]
  | list l r ihl ihr => rw [nulterminate, ihl, ihr, Cmd.words, endWords_append]
  | back c ih => exact ih buf

section Buffer
variable {b buf : List UInt8} {w : Word} {ws : List Word} {x : List UInt8} {i : Nat}

theorem length_endWords (buf : List UInt8) (ws : List Word) :
    (endWords buf ws).length = buf.length := by
  induction ws generalizing buf with
  | nil => rfl
  | cons w ws ih => exact (ih (setNul buf w.eq)).trans List.length_set

theorem endWords_other (h : ∀ w ∈ ws, i ≠ buf.length - 1 - w.eq.length) :
    (endWords buf ws)[i]? = buf[i]? := by
  induction ws generalizing buf with
  | nil => rfl
  | cons w ws ih =>
    have hw := h w List.mem_cons_self
    have hlen : (setNul buf w.eq).length = buf.length := List.length_set
    have hrest : ∀ w' ∈ ws, i ≠ (setNul buf w.eq).length - 1 - w'.eq.length := by
      intro w' hw'
      rw [hlen]
      exact h w' (List.mem_cons_of_mem w hw')
    exact (ih hrest).trans (List.getElem?_set_ne hw.symm)

theorem endWords_nul (h : buf[i]? = some 0) : (endWords buf ws)[i]? = some 0 := by
  induction ws generalizing buf with
  | nil => exact h
  | cons w ws ih =>
    apply ih
    show (setNul buf w.eq)[i]? = some 0
    rw [setNul, List.getElem?_set]
    split
    · split
      · rfl
      · next hi => rw [List.getElem?_eq_none (by omega)] at h; cases h
    · exact h

theorem endWords_self (buf : List UInt8) (hw : w ∈ ws) (hb : 0 < buf.length) :
    (endWords buf ws)[buf.length - 1 - w.eq.length]? = some 0 := by
  induction ws generalizing buf with
  | nil => cases hw
  | cons w' ws ih =>
    have hlen : (setNul buf w'.eq).length = buf.length := List.length_set
    rcases List.mem_cons.1 hw with rfl | hw
    · have hset : (setNul buf w.eq)[buf.length - 1 - w.eq.length]? = some 0 := by
        rw [setNul, List.getElem?_set_self (by omega)]
      show (endWords (setNul buf w.eq) ws)[buf.length - 1 - w.eq.length]? = some 0
      exact endWords_nul hset
    · have h := ih _ hw (by rwa [hlen])
      rwa [hlen] at h

theorem WordAt.getElem (h : WordAt b w x) (hi : i < x.length) :
    (b ++ [0])[b.length - w.q.length + i]? = x[i]? ∧ b.length - w.q.length + i < b.length := by
  obtain ⟨pre, rfl⟩ := h.suffix
  rw [h.text]
  have hpos : (pre ++ (x ++ w.eq)).length - (x ++ w.eq).length + i = pre.length + i := by
    simp only [List.length_append]
    omega
  rw [hpos]
  refine ⟨?_, ?_⟩
  · rw [List.append_assoc, List.append_assoc, List.getElem?_append_right (by omega),
      List.getElem?_append_left (by omega), Nat.add_sub_cancel_left]
  · simp only [List.length_append]
    omega

theorem WordAt.apart {w' : Word} {x' : List UInt8} (h : WordAt b w x) (h' : WordAt b w' x')
    (hi : i < x.length) : b.length - w.q.length + i ≠ b.length - w'.eq.length := by
  intro he
  obtain ⟨hget, hlt⟩ := h.getElem hi
  obtain ⟨pre, hpre⟩ := h'.suffix
  cases heq : w'.eq with
  | nil =>
    rw [he, heq, List.length_nil] at hlt
    omega
  | cons c cs =>
    have hpos : b.length - w'.eq.length = (pre ++ x').length := by
      rw [← hpre, h'.text]
      simp only [List.length_append]
      omega
    have hc : (b ++ [0])[b.length - w'.eq.length]? = some c := by
      rw [hpos, ← hpre, h'.text, heq]
      simp
    rw [he, hc] at hget
    have hword := h.chars c (List.mem_of_getElem? hget.symm)
    rw [h'.stops c (by rw [heq]; rfl)] at hword
    cases hword

theorem takeWhile_eq (hx : ∀ i < x.length, buf[i]? = x[i]?) (hz : buf[x.length]? = some 0)
    (h0 : 0 ∉ x) : buf.takeWhile (· ≠ 0) = x := by
  induction x generalizing buf with
  | nil =>
    cases buf with
    | nil => rfl
    | cons c buf =>
      obtain rfl : c = 0 := Option.some.inj hz
      rfl
  | cons d x ih =>
    cases buf with
    | nil => cases hz
    | cons c buf =>
      obtain rfl : c = d := Option.some.inj (hx 0 (Nat.zero_lt_succ _))
      have hc : c ≠ 0 := fun hc => h0 (hc ▸ List.mem_cons_self)
      rw [List.takeWhile_cons_of_pos (by simpa using hc)]
      congr 1
      apply ih
      · intro i hi
        exact hx (i + 1) (Nat.succ_lt_succ hi)
      · exact hz
      · exact fun hm => h0 (List.mem_cons_of_mem c hm)

theorem cstring_endWords (h0 : 0 ∉ b) (hall : ∀ w ∈ ws, ∃ x, WordAt b w x) (hw : w ∈ ws)
    (h : WordAt b w x) : cstring (endWords (b ++ [0]) ws) w = x := by
  have hlen : (endWords (b ++ [0]) ws).length - 1 = b.length := by
    rw [length_endWords, List.length_append]
    rfl
  have hq : w.q.length = x.length + w.eq.length := by
    rw [h.text, List.length_append]
  have hle := h.suffix.length_le
  rw [cstring, hlen]
  apply takeWhile_eq
  · intro i hi
    rw [List.getElem?_drop, endWords_other, (h.getElem hi).1]
    intro w' hw'
    obtain ⟨x', hx'⟩ := hall w' hw'
    rw [List.length_append, List.length_singleton, Nat.add_sub_cancel]
    exact h.apart hx' hi
  · have hself := endWords_self (b ++ [0]) hw (by simp)
    rw [List.length_append, List.length_singleton, Nat.add_sub_cancel] at hself
    rw [List.getElem?_drop]
    rwa [show b.length - w.q.length + x.length = b.length - w.eq.length by omega]
  · intro hm
    apply h0
    apply h.suffix.subset
    rw [h.text]
    exact List.mem_append_left _ hm

end Buffer

theorem map_eq_of_forall₂ {l : List ω} {l' : List ω'} (h : List.Forall₂ R l l')
    (hf : ∀ w x, w ∈ l → R w x → f w = x) : l.map f = l' := by
  induction h with
  | nil => rfl
  | @cons a b l l' hab _ ih =>
    rw [List.map_cons, hf a b List.mem_cons_self hab,
      ih fun w x hw => hf w x (List.mem_cons_of_mem a hw)]

theorem Cmd.Rel.map_eq (h : Cmd.Rel R c d) (hf : ∀ w x, w ∈ c.words → R w x → f w = x) :
    c.map f = d := by
  induction c generalizing d with
  | exec argv =>
    cases d with
    | exec argv' =>
      exact congrArg Cmd.exec (map_eq_of_forall₂ h hf)
    | _ => cases h
  | redir c file mode fd ih =>
    cases d with
    | redir c' file' mode' fd' =>
      obtain ⟨hc, hfile, rfl, rfl⟩ := h
      rw [Cmd.map, ih hc fun w x hw => hf w x (List.mem_append_left _ hw),
        hf file file' (List.mem_append_right _ List.mem_cons_self) hfile]
    | _ => cases h
  | pipe l r ihl ihr =>
    cases d with
    | pipe l' r' =>
      rw [Cmd.map, ihl h.1 fun w x hw => hf w x (List.mem_append_left _ hw),
        ihr h.2 fun w x hw => hf w x (List.mem_append_right _ hw)]
    | _ => cases h
  | list l r ihl ihr =>
    cases d with
    | list l' r' =>
      rw [Cmd.map, ihl h.1 fun w x hw => hf w x (List.mem_append_left _ hw),
        ihr h.2 fun w x hw => hf w x (List.mem_append_right _ hw)]
    | _ => cases h
  | back c ih =>
    cases d with
    | back c' => exact congrArg Cmd.back (ih h hf)
    | _ => cases h

theorem Cmd.Rel.words (h : Cmd.Rel R c d) : ∀ w ∈ c.words, ∃ x, R w x := by
  induction c generalizing d with
  | exec argv =>
    cases d with
    | exec argv' =>
      intro w hw
      obtain ⟨i, hi, rfl⟩ := List.mem_iff_getElem.1 hw
      exact ⟨_, h.get hi (h.length_eq ▸ hi)⟩
    | _ => cases h
  | redir c file mode fd ih =>
    cases d with
    | redir c' file' mode' fd' =>
      intro w hw
      rcases List.mem_append.1 hw with hw | hw
      · exact ih h.1 w hw
      · obtain rfl := List.mem_singleton.1 hw
        exact ⟨file', h.2.1⟩
    | _ => cases h
  | pipe l r ihl ihr =>
    cases d with
    | pipe l' r' =>
      intro w hw
      rcases List.mem_append.1 hw with hw | hw
      · exact ihl h.1 w hw
      · exact ihr h.2 w hw
    | _ => cases h
  | list l r ihl ihr =>
    cases d with
    | list l' r' =>
      intro w hw
      rcases List.mem_append.1 hw with hw | hw
      · exact ihl h.1 w hw
      · exact ihr h.2 w hw
    | _ => cases h
  | back c ih =>
    cases d with
    | back c' => exact ih (d := c') h
    | _ => cases h

theorem map_cstring {b : List UInt8} {c : Cmd Word} (h0 : 0 ∉ b) (h : c.Rel (WordAt b) d) :
    c.map (cstring (nulterminate (b ++ [0]) c)) = d := by
  rw [nulterminate_eq]
  exact h.map_eq fun w x hw hx => cstring_endWords h0 h.words hw hx

theorem dropSpace_nil (h : tokens s = []) : s.dropWhile isSpace = [] := by
  cases hq : s.dropWhile isSpace with
  | nil => rfl
  | cons c q =>
    obtain ⟨t, ht, -⟩ := token_cons (s := q) (dropSpace_head s hq)
    rw [← hq, tokens_dropSpace, h] at ht
    cases ht

theorem parsecmd_eq (b : List UInt8) :
    parsecmd b = (parseline (4 * b.length + 4)).run b >>= fun x =>
      if x.2.dropWhile isSpace ≠ [] then .error (.panic "syntax")
      else .ok (x.1, nulterminate (b ++ [0]) x.1) :=
  rfl

theorem cur_line (b : List UInt8) : Cur b (tokens b) b.length b :=
  ⟨List.suffix_rfl, rfl, Nat.le_refl _, boundary_self b⟩

theorem parseline_line (b : List UInt8) :
    Triple (Cur b (tokens b) b.length) (parseline (4 * b.length + 4))
      (Parsed b (tokens b) b.length (Sound b Line)) Panics :=
  (soundAt (4 * b.length + 4)).line b (tokens b) b.length (Nat.le_refl _)

/-- `parsecmd` returns a derivation of the line, with pointers around its words. -/
theorem parsecmd_rel (h : parsecmd b = .ok (c, buf)) :
    buf = nulterminate (b ++ [0]) c ∧ ∃ d, Line (tokens b) d ∧ c.Rel (WordAt b) d := by
  rw [parsecmd_eq] at h
  obtain ⟨⟨c', s⟩, hr, h⟩ := bind_ok h
  obtain ⟨us, vs, hts, ⟨d, hd, hc⟩, hs⟩ := (parseline_line b).ok (cur_line b) hr
  dsimp only at h
  obtain ⟨hend, h⟩ := unless_ok h
  obtain ⟨rfl, rfl⟩ := Prod.mk.inj (Except.ok.inj h)
  have hvs : vs = [] := by
    rw [← hs.tokens, ← tokens_dropSpace, not_not.1 hend]
    rfl
  rw [hvs, List.append_nil] at hts
  rw [hts]
  exact ⟨rfl, d, hd, hc⟩

theorem parsecmd_panics (h : parsecmd b = .error e) : ∃ msg, e = .panic msg := by
  rw [parsecmd_eq] at h
  rcases bind_error h with hr | ⟨⟨c, s⟩, -, h⟩
  · exact (parseline_line b).error (cur_line b) hr
  · dsimp only at h
    split at h
    · exact ⟨_, (Except.error.inj h).symm⟩
    · cases h

theorem parsecmd_complete (h0 : 0 ∉ b) (hd : Line (tokens b) d) :
    ∃ c buf, parsecmd b = .ok (c, buf) ∧ c.map (cstring buf) = d := by
  have hcomplete : Reads b (tokens b) [] b.length (parseline (4 * b.length + 4)) d :=
    (completeAt _).line b (tokens b) [] b.length d hd (fun _ _ h => by cases h) (Nat.le_refl _)
  simp only [Reads, List.append_nil] at hcomplete
  cases hr : (parseline (4 * b.length + 4)).run b with
  | error e => exact (hcomplete.error (cur_line b) hr).elim
  | ok x =>
    obtain ⟨hs, hrel⟩ := hcomplete.ok (cur_line b) hr
    refine ⟨x.1, nulterminate (b ++ [0]) x.1, ?_, map_cstring h0 hrel⟩
    rw [parsecmd_eq, hr]
    exact if_neg (not_not.2 (dropSpace_nil hs.tokens))

/-- The parser stops on every line, and accepts exactly those of the grammar, with their tree. -/
theorem parsecmd_correct (b : List UInt8) (h0 : 0 ∉ b) :
    (∀ e, parsecmd b = .error e → ∃ msg, e = .panic msg) ∧
    ∀ d, Line (tokens b) d ↔
      ∃ c buf, parsecmd b = .ok (c, buf) ∧ c.map (cstring buf) = d := by
  refine ⟨fun e he => parsecmd_panics he, fun d => ⟨parsecmd_complete h0, ?_⟩⟩
  rintro ⟨c, buf, hok, rfl⟩
  obtain ⟨rfl, d, hd, hrel⟩ := parsecmd_rel hok
  rw [map_cstring h0 hrel]
  exact hd

def sample : List UInt8 :=
  [108, 115, 32, 62, 120, 32, 124, 40, 97, 32, 98, 38, 59, 41]

def sampleTree : Tree :=
  .pipe (.redir (.exec [[108, 115]]) [120] 0x201 1) (.list (.back (.exec [[97], [98]])) (.exec []))

theorem parsecmd_correct_sample : 0 ∉ sample ∧ Line (tokens sample) sampleTree := by
  obtain ⟨⟨c, buf⟩, hx, hs⟩ := (Option.any_eq_true _ _).1
    (show (parsecmd sample).toOption.any (fun x => x.1.map (cstring x.2) = sampleTree) = true by
      decide +kernel)
  have hline := (parsecmd_correct sample (by decide)).2 sampleTree
  exact ⟨by decide, hline.2 ⟨c, buf, ok_of_toOption hx, of_decide_eq_true hs⟩⟩

end Xv6.Shell
