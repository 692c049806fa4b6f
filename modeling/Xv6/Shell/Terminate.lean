import Xv6.Shell.Command

namespace Xv6.Shell
open Lib
set_option autoImplicit true

/-- `x` is a maximal word of the line at place `i`. -/
def WordToken (b : List UInt8) (i : Nat) (x : List UInt8) : Prop :=
  ∃ pre post, b = pre ++ (x ++ post) ∧ pre.length = i ∧ x ≠ [] ∧ (∀ c ∈ x, isWordChar c = true) ∧
    (∀ c, pre.getLast? = some c → isWordChar c = false) ∧
    ∀ c, post.head? = some c → isWordChar c = false

theorem WordAt.token (h : WordAt b w x) : WordToken b (b.length - w.q.length) x := by
  obtain ⟨pre, hpre⟩ := h.suffix
  obtain ⟨d, x', rfl⟩ := List.exists_cons_of_ne_nil h.nonempty
  refine ⟨pre, w.eq, ?_, ?_, h.nonempty, h.chars, ?_, h.stops⟩
  · rw [← hpre, h.text]
  · rw [← hpre, List.length_append, Nat.add_sub_cancel]
  · intro c hc
    obtain ⟨pre', rfl⟩ := List.getLast?_eq_some_iff.1 hc
    rw [List.append_assoc, List.singleton_append] at hpre
    by_contra hword
    have hd := h.start pre' c hpre.symm (Bool.of_not_eq_false hword) d (by rw [h.text]; rfl)
    rw [h.chars d List.mem_cons_self] at hd
    cases hd

theorem WordToken.char (h : WordToken b j x) (hle : j ≤ i) (hlt : i < j + x.length) :
    ∃ c, b[i]? = some c ∧ isWordChar c = true := by
  obtain ⟨pre, post, rfl, rfl, -, hchars, -⟩ := h
  have hi : i - pre.length < x.length := by omega
  refine ⟨x[i - pre.length], ?_, hchars _ (List.getElem_mem hi)⟩
  rw [List.getElem?_append_right hle, List.getElem?_append_left hi, List.getElem?_eq_getElem hi]

theorem WordAt.ends_outside (h : WordAt b w x) (ht : WordToken b j y) :
    ¬ (j ≤ b.length - w.eq.length ∧ b.length - w.eq.length < j + y.length) := by
  rintro ⟨hle, hlt⟩
  obtain ⟨c, hc, hword⟩ := ht.char hle hlt
  obtain ⟨pre, hpre⟩ := h.suffix
  have hpos : b.length - w.eq.length = (pre ++ x).length := by
    rw [← hpre, h.text]
    simp only [List.length_append]
    omega
  rw [hpos, ← hpre, h.text, ← List.append_assoc, List.getElem?_append_right (Nat.le_refl _),
    Nat.sub_self, ← List.head?_eq_getElem?] at hc
  rw [h.stops c hc] at hword
  cases hword

theorem dropWord_ne_nil (hpre : ∀ e, (c :: pre).getLast? = some e → isWordChar e = false)
    (hc : isWordChar c = true) : pre.dropWhile isWordChar ≠ [] := by
  intro hnil
  have hall : ∀ e ∈ c :: pre, isWordChar e = true :=
    List.forall_mem_cons.2 ⟨hc, List.dropWhile_eq_nil_iff.1 hnil⟩
  have hlast := hpre _ (List.getLast?_eq_getLast_of_ne_nil (List.cons_ne_nil c pre))
  rw [hall _ (List.getLast_mem _)] at hlast
  cases hlast

theorem tokens_append (hpre : ∀ c, pre.getLast? = some c → isWordChar c = false)
    (hd : isWordChar d = true) : ∃ us, tokens (pre ++ d :: s) = us ++ tokens (d :: s) := by
  induction hn : pre.length using Nat.strong_induction_on generalizing pre with
  | _ n ih =>
    cases pre with
    | nil => exact ⟨[], rfl⟩
    | cons c pre =>
      have hrest (ts : List Token) (q : List UInt8) (hq : q <:+ pre)
          (ht : tokens (c :: (pre ++ d :: s)) = ts ++ tokens (q ++ d :: s)) :
          ∃ us, tokens (c :: (pre ++ d :: s)) = us ++ tokens (d :: s) := by
        have hlt : q.length < n := by
          rw [← hn, List.length_cons]
          exact Nat.lt_succ_of_le hq.length_le
        have hlast : ∀ e, q.getLast? = some e → isWordChar e = false := by
          intro e he
          obtain ⟨r, rfl⟩ := hq
          apply hpre
          rw [← List.cons_append, List.getLast?_append, he]
          rfl
        obtain ⟨us, hus⟩ := ih q.length hlt hlast rfl
        exact ⟨ts ++ us, by rw [ht, hus, List.append_assoc]⟩
      rw [List.cons_append]
      by_cases hspace : isSpace c = true
      · exact hrest [] pre List.suffix_rfl (tokens_space hspace)
      by_cases hgt : c = 62
      · subst hgt
        by_cases hhead : (pre ++ d :: s).headD 0 = 62
        · cases pre with
          | nil =>
            obtain rfl : d = 62 := hhead
            cases hd
          | cons e pre =>
            obtain rfl : e = 62 := hhead
            exact hrest [.gtgt] pre (List.suffix_cons _ _) (by rw [List.cons_append, tokens]; rfl)
        · exact hrest [.gt] pre List.suffix_rfl (tokens_gt hhead)
      by_cases hsym : isSymbol c = true
      · exact hrest [.symbol c] pre List.suffix_rfl (tokens_symbol hsym hgt)
      · have hc : isWordChar c = true := by
          simp [isWordChar, Bool.of_not_eq_true hspace, Bool.of_not_eq_true hsym]
        have hleft := dropWord_ne_nil hpre hc
        refine hrest [.word (c :: (pre ++ d :: s).takeWhile isWordChar)] _
          (List.dropWhile_suffix isWordChar) ?_
        rw [tokens_word hc, List.dropWhile_append, if_neg (by simpa using hleft)]
        rfl

theorem WordToken.mem_tokens (h : WordToken b i x) : .word x ∈ tokens b := by
  obtain ⟨pre, post, rfl, -, hne, hchars, hpre, hpost⟩ := h
  obtain ⟨d, x, rfl⟩ := List.exists_cons_of_ne_nil hne
  obtain ⟨hd, hx⟩ := List.forall_mem_cons.1 hchars
  obtain ⟨us, hus⟩ := tokens_append (s := x ++ post) hpre hd
  have hstop : post.takeWhile isWordChar = [] := by
    cases post with
    | nil => rfl
    | cons c post => exact List.takeWhile_cons_of_neg (by simp [hpost c rfl])
  rw [List.cons_append, hus, tokens_word hd, List.takeWhile_append_of_pos hx, hstop,
    List.append_nil]
  exact List.mem_append_right _ List.mem_cons_self

theorem endWords_changes (h : (endWords buf ws)[i]? ≠ buf[i]?) :
    (endWords buf ws)[i]? = some 0 ∧ ∃ w ∈ ws, i = buf.length - 1 - w.eq.length := by
  by_cases hw : ∃ w ∈ ws, i = buf.length - 1 - w.eq.length
  · obtain ⟨w, hw, rfl⟩ := hw
    refine ⟨endWords_self buf hw ?_, w, hw, rfl⟩
    rw [List.length_pos_iff]
    rintro rfl
    apply h
    have hlen := length_endWords [] ws
    rw [List.eq_nil_of_length_eq_zero hlen]
  · exact absurd (endWords_other fun w hm hi => hw ⟨w, hm, hi⟩) h

/-- Ending the words in place keeps them, and overwrites only what is inside the buffer and outside
all words. -/
theorem nulterminate_keeps_words (b : List UInt8) (h0 : 0 ∉ b) (h : parsecmd b = .ok (c, buf)) :
    Line (tokens b) (c.map (cstring buf)) ∧
      (∀ w ∈ c.words, WordToken b (b.length - w.q.length) (cstring buf w) ∧
        .word (cstring buf w) ∈ tokens b) ∧
      (∀ w ∈ c.words, w.eq <:+ b ∧ ∀ j x, WordToken b j x →
        ¬ (j ≤ b.length - w.eq.length ∧ b.length - w.eq.length < j + x.length)) ∧
      buf.length = (b ++ [0]).length ∧
      ∀ i, buf[i]? ≠ (b ++ [0])[i]? →
        buf[i]? = some 0 ∧ ∃ w ∈ c.words, i = b.length - w.eq.length := by
  obtain ⟨hbuf, d, hd, hrel⟩ := parsecmd_rel h
  have hwords := hrel.words
  have htree : c.map (cstring buf) = d := hbuf ▸ map_cstring h0 hrel
  rw [nulterminate_eq] at hbuf
  refine ⟨htree ▸ hd, ?_, ?_, ?_, ?_⟩
  · intro w hw
    obtain ⟨x, hx⟩ := hwords w hw
    have htext : cstring buf w = x := hbuf ▸ cstring_endWords h0 hwords hw hx
    rw [htext]
    exact ⟨hx.token, hx.token.mem_tokens⟩
  · intro w hw
    obtain ⟨x, hx⟩ := hwords w hw
    refine ⟨?_, fun j y hy => hx.ends_outside hy⟩
    have hq := hx.suffix
    rw [hx.text] at hq
    exact (List.suffix_append x w.eq).trans hq
  · rw [hbuf, length_endWords]
  · intro i hi
    rw [hbuf] at hi ⊢
    obtain ⟨hnul, w, hw, hpos⟩ := endWords_changes hi
    refine ⟨hnul, w, hw, ?_⟩
    rw [hpos, List.length_append, List.length_singleton, Nat.add_sub_cancel]

def tightLine : List UInt8 :=
  [108, 115, 59, 97, 62, 98]

theorem nulterminate_keeps_words_tightLine : ∃ c buf, parsecmd tightLine = .ok (c, buf) ∧
    Line (tokens tightLine) (c.map (cstring buf)) ∧
      ∀ w ∈ c.words, .word (cstring buf w) ∈ tokens tightLine := by
  obtain ⟨⟨c, buf⟩, hx, -⟩ := (Option.any_eq_true _ _).1
    (show (parsecmd tightLine).toOption.any (fun _ => true) = true by decide +kernel)
  obtain ⟨hline, hwords, -⟩ := nulterminate_keeps_words tightLine (by decide) (ok_of_toOption hx)
  exact ⟨c, buf, ok_of_toOption hx, hline, fun w hw => (hwords w hw).2⟩

end Xv6.Shell
