import Mathlib.Data.List.TakeWhile
import Xv6.Shell.Grammar

namespace Xv6.Shell
open Lib
set_option autoImplicit true

theorem tokens_space (h : isSpace c = true) : tokens (c :: cs) = tokens cs := by
  rw [tokens]
  · rw [if_pos h]
  · rintro cs' rfl
    cases h

theorem tokens_symbol (h : isSymbol c = true) (hc : c ≠ 62) :
    tokens (c :: cs) = .symbol c :: tokens cs := by
  have hs : isSpace c = false := by
    simp only [isSymbol, List.mem_cons, List.not_mem_nil, or_false, decide_eq_true_eq] at h
    rcases h with rfl | rfl | rfl | rfl | rfl | rfl | rfl <;> rfl
  rw [tokens]
  · rw [if_neg (by simp [hs]), if_neg hc, if_pos h]
  · rintro cs' rfl
    exact absurd rfl hc

theorem tokens_gt (h : cs.headD 0 ≠ 62) : tokens (62 :: cs) = .gt :: tokens cs := by
  rw [tokens]
  · rfl
  · rintro cs' _ rfl
    exact h rfl

theorem isWordChar_iff : isWordChar c = true ↔ isSpace c = false ∧ isSymbol c = false := by
  simp [isWordChar]

theorem tokens_wordChar (h : isWordChar c = true) :
    tokens (c :: cs) = Token.consWord c (cs.head?.any isWordChar) (tokens cs) := by
  obtain ⟨hs, hsym⟩ := isWordChar_iff.1 h
  have hc : c ≠ 62 := by
    rintro rfl
    cases hsym
  rw [tokens]
  · rw [if_neg (by simp [hs]), if_neg hc, if_neg (by simp [hsym])]
  · rintro cs' rfl
    exact absurd rfl hc

theorem tokens_word (h : isWordChar c = true) :
    tokens (c :: cs) = .word (c :: cs.takeWhile isWordChar) :: tokens (cs.dropWhile isWordChar) := by
  induction cs generalizing c with
  | nil => rw [tokens_wordChar h]; rfl
  | cons d cs ih =>
    rw [tokens_wordChar h]
    cases hd : isWordChar d with
    | true =>
      rw [ih hd, List.takeWhile_cons_of_pos hd, List.dropWhile_cons_of_pos hd]
      simp [Token.consWord, hd]
    | false =>
      rw [List.takeWhile_cons_of_neg (by simp [hd]), List.dropWhile_cons_of_neg (by simp [hd])]
      simp only [List.head?_cons, Option.any_some, hd]
      cases tokens (d :: cs) with
      | nil => rfl
      | cons t ts => cases t <;> rfl

theorem tokens_dropSpace (s : List UInt8) : tokens (s.dropWhile isSpace) = tokens s := by
  induction s with
  | nil => rfl
  | cons c s ih =>
    cases hc : isSpace c with
    | true => rw [List.dropWhile_cons_of_pos hc, ih, tokens_space hc]
    | false => rw [List.dropWhile_cons_of_neg (by simp [hc])]

def Token.code : Token → UInt8
  | .word _ => 97
  | .lt => 60
  | .gt => 62
  | .gtgt => 43
  | .bar => 124
  | .amp => 38
  | .semi => 59
  | .lpar => 40
  | .rpar => 41

def Token.opens : Token → UInt8
  | .word _ => 0
  | .gtgt => 62
  | t => t.code

/-- The pointer `s` into the line `b` is not inside a word. -/
def Boundary (b : List UInt8) (s : Ptr) : Prop :=
  ∀ pre c, b = pre ++ c :: s → isWordChar c = true → ∀ d, s.head? = some d → isWordChar d = false

theorem boundary_self (b : List UInt8) : Boundary b b := by
  intro pre c hb
  have hlen := congrArg List.length hb
  rw [List.length_append, List.length_cons] at hlen
  omega

theorem boundary_of_head (h : ∀ d, s.head? = some d → isWordChar d = false) : Boundary b s :=
  fun _ _ _ _ => h

theorem boundary_of_char (h : c :: s <:+ b) (hc : isWordChar c = false) : Boundary b s := by
  obtain ⟨pre, rfl⟩ := h
  intro pre' c' hb hc'
  obtain rfl := (List.cons.inj (List.append_inj_right' hb rfl)).1
  cases hc.symm.trans hc'

theorem Boundary.dropSpace (h : Boundary b s) (hs : s <:+ b) :
    Boundary b (s.dropWhile isSpace) := by
  induction s with
  | nil => exact h
  | cons c s ih =>
    cases hc : isSpace c with
    | true =>
      have hword : isWordChar c = false := by simp [isWordChar, hc]
      rw [List.dropWhile_cons_of_pos hc]
      exact ih (boundary_of_char hs hword) ((List.suffix_cons c s).trans hs)
    | false =>
      rw [List.dropWhile_cons_of_neg (by simp [hc])]
      exact h

/-- The pointers of `w` enclose the whole word `x` of the line `b`. -/
structure WordAt (b : List UInt8) (w : Word) (x : List UInt8) : Prop where
  suffix : w.q <:+ b
  text : w.q = x ++ w.eq
  chars : ∀ c ∈ x, isWordChar c = true
  stops : ∀ c, w.eq.head? = some c → isWordChar c = false
  start : Boundary b w.q
  nonempty : x ≠ []

/-- The pointer `s` into the line `b` has the tokens `ts` before it. -/
structure Cur (b : List UInt8) (ts : List Token) (k : Nat) (s : Ptr) : Prop where
  suffix : s <:+ b
  tokens : tokens s = ts
  length : s.length ≤ k
  start : Boundary b s

theorem dropSpace_head (s : List UInt8) (h : s.dropWhile isSpace = c :: cs) :
    isSpace c = false := by
  have hne : s.dropWhile isSpace ≠ [] := by
    rw [h]
    exact List.cons_ne_nil c cs
  have hd := List.head_dropWhile_not isSpace hne
  simp only [h, List.head_cons] at hd
  exact hd

theorem symbol_code (h : isSymbol c = true) (hc : c ≠ 62) : (Token.symbol c).code = c ∧
    (Token.symbol c).opens = c ∧ ∀ x, Token.symbol c ≠ .word x := by
  simp only [isSymbol, List.mem_cons, List.not_mem_nil, or_false, decide_eq_true_eq] at h
  rcases h with rfl | rfl | rfl | rfl | rfl | rfl | rfl
  · exact ⟨rfl, rfl, nofun⟩
  · exact ⟨rfl, rfl, nofun⟩
  · exact absurd rfl hc
  · exact ⟨rfl, rfl, nofun⟩
  · exact ⟨rfl, rfl, nofun⟩
  · exact ⟨rfl, rfl, nofun⟩
  · exact ⟨rfl, rfl, nofun⟩

theorem token_cons (hc : isSpace c = false) : ∃ t, tokens (c :: s) = t :: tokens (token (c :: s)).2 ∧
    (token (c :: s)).1 = t.code ∧ (token (c :: s)).2 <:+ s ∧
    (t.opens = c ∨ isWordChar c = true ∧ t.opens = 0) ∧
    ∀ b, (c :: s) <:+ b → Boundary b (c :: s) → Boundary b (token (c :: s)).2 ∧
      ∀ x, t = .word x → WordAt b ⟨c :: s, (token (c :: s)).2⟩ x := by
  by_cases hgt : c = 62
  · subst hgt
    by_cases hs : s.headD 0 = 62
    · cases s with
      | nil => cases hs
      | cons d s =>
        obtain rfl : d = 62 := hs
        refine ⟨.gtgt, by rw [tokens]; rfl, rfl, List.suffix_cons 62 s, .inl rfl, ?_⟩
        intro b hsuffix _
        exact ⟨boundary_of_char ((List.suffix_cons 62 _).trans hsuffix) rfl, nofun⟩
    · have htok : token (62 :: s) = (62, s) := by
        rw [token, if_pos rfl, if_neg hs]
      rw [htok]
      refine ⟨.gt, tokens_gt hs, rfl, List.suffix_rfl, .inl rfl, ?_⟩
      intro b hsuffix _
      exact ⟨boundary_of_char hsuffix rfl, nofun⟩
  · cases hsym : isSymbol c with
    | true =>
      obtain ⟨hcode, hopens, hword⟩ := symbol_code hsym hgt
      have htok : token (c :: s) = (c, s) := by
        rw [token, if_neg hgt, if_pos hsym]
      rw [htok]
      refine ⟨.symbol c, tokens_symbol hsym hgt, hcode.symm, List.suffix_rfl, .inl hopens, ?_⟩
      intro b hsuffix _
      have hchar : isWordChar c = false := by simp [isWordChar, hsym]
      exact ⟨boundary_of_char hsuffix hchar, fun x hx => absurd hx (hword x)⟩
    | false =>
      have hword : isWordChar c = true := isWordChar_iff.2 ⟨hc, hsym⟩
      have htok : token (c :: s) = (97, s.dropWhile isWordChar) := by
        rw [token, if_neg hgt, if_neg (by simp [hsym]), List.dropWhile_cons_of_pos hword]
      rw [htok]
      refine ⟨_, tokens_word hword, rfl, List.dropWhile_suffix _, .inr ⟨hword, rfl⟩, ?_⟩
      intro b hsuffix hstart
      have hstops : ∀ d, (s.dropWhile isWordChar).head? = some d → isWordChar d = false := by
        intro d hd
        have hne : s.dropWhile isWordChar ≠ [] := by
          rintro he
          rw [he] at hd
          cases hd
        have hh := List.head_dropWhile_not isWordChar hne
        rw [List.head?_eq_some_head hne] at hd
        rwa [← Option.some.inj hd]
      refine ⟨boundary_of_head hstops, ?_⟩
      rintro x hx
      obtain rfl := Token.word.inj hx
      refine ⟨hsuffix, ?_, ?_, hstops, hstart, List.cons_ne_nil _ _⟩
      · show c :: s = c :: s.takeWhile isWordChar ++ s.dropWhile isWordChar
        rw [List.cons_append, List.takeWhile_append_dropWhile]
      · intro d hd
        rcases List.mem_cons.1 hd with rfl | hd
        · exact hword
        · exact List.mem_takeWhile_imp hd

section Specs
variable {b : List UInt8} {ts : List Token} {k : Nat} {E : Stop → Prop}

theorem Cur.mono (h : Cur b ts k s) (hk : k ≤ k') : Cur b ts k' s :=
  ⟨h.suffix, h.tokens, h.length.trans hk, h.start⟩

theorem Cur.dropSpace (h : Cur b ts k s) : Cur b ts k (s.dropWhile isSpace) :=
  ⟨(List.dropWhile_suffix _).trans h.suffix, (tokens_dropSpace s).trans h.tokens,
    (List.dropWhile_suffix _).length_le.trans h.length, h.start.dropSpace h.suffix⟩

theorem gettoken_nil :
    Triple (Cur b [] k) gettoken (fun r s => Cur b [] k s ∧ r.1 = 0) E := by
  apply Triple.get
  intro s hs
  have hd := hs.dropSpace
  cases hq : s.dropWhile isSpace with
  | nil =>
    rw [hq] at hd
    exact fun _ _ => ⟨hd, rfl⟩
  | cons c q =>
    obtain ⟨t, ht, -⟩ := token_cons (s := q) (dropSpace_head s hq)
    rw [hq] at hd
    cases ht.symm.trans hd.tokens

theorem gettoken_cons :
    Triple (Cur b (t :: ts) k) gettoken (fun r s => Cur b ts (k - 1) s ∧
      1 ≤ k ∧ r.1 = t.code ∧ ∀ x, t = .word x → WordAt b r.2 x) E := by
  apply Triple.get
  intro s hs
  have hd := hs.dropSpace
  cases hq : s.dropWhile isSpace with
  | nil =>
    rw [hq] at hd
    cases hd.tokens
  | cons c q =>
    rw [hq] at hd
    obtain ⟨t', ht, hcode, hsuffix, -, hat⟩ := token_cons (s := q) (dropSpace_head s hq)
    obtain ⟨hstart, hword⟩ := hat b hd.suffix hd.start
    obtain ⟨rfl, hts⟩ := List.cons.inj (ht.symm.trans hd.tokens)
    have hlen := hd.length
    have hle := hsuffix.length_le
    rw [List.length_cons] at hlen
    have hcur : Cur b ts (k - 1) (token (c :: q)).2 :=
      ⟨hsuffix.trans ((List.suffix_cons c q).trans hd.suffix), hts, by omega, hstart⟩
    exact fun _ _ => ⟨hcur.dropSpace, by omega, hcode, hword⟩

theorem peek_spec (htoks : toks.all isSymbol = true) :
    Triple (Cur b ts k) (peek toks)
      (fun r s => Cur b ts k s ∧ r = ts.head?.any fun t => t.opens ∈ toks) E := by
  apply Triple.get
  intro s hs
  have hd := hs.dropSpace
  refine fun _ _ => ⟨hd, ?_⟩
  cases hq : s.dropWhile isSpace with
  | nil =>
    rw [hq] at hd
    rw [← hd.tokens]
    rfl
  | cons c q =>
    rw [hq] at hd
    obtain ⟨t, ht, -, -, hopens, -⟩ := token_cons (s := q) (dropSpace_head s hq)
    rw [← hd.tokens, ht]
    show decide (c :: q ≠ [] ∧ c ∈ toks) = decide (t.opens ∈ toks)
    rcases hopens with ho | ⟨hw, ho⟩
    · simp [ho]
    · have hc : c ∉ toks := by
        intro hmem
        have hsym := (isWordChar_iff.1 hw).2
        rw [List.all_eq_true.1 htoks c hmem] at hsym
        cases hsym
      have h0 : (0 : UInt8) ∉ toks := fun hmem => by cases List.all_eq_true.1 htoks 0 hmem
      simp [ho, hc, h0]

end Specs

end Xv6.Shell
