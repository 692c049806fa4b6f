import Xv6.Shell.Sound

namespace Xv6.Shell
open Lib
set_option autoImplicit true

/-- The next token, if any, does not start like one of `toks`. -/
def Stops (toks : List UInt8) (vs : List Token) : Prop :=
  ∀ t us, vs = t :: us → t.opens ∉ toks

/-- The next token, if there is one, starts like one of `toks`. -/
def Follows (toks : List UInt8) (vs : List Token) : Prop :=
  ∀ t us, vs = t :: us → t.opens ∈ toks

abbrev Never (_ : Stop) : Prop := False

section Rules
variable {b : List UInt8} {t : Token} {ts us vs : List Token} {k n : Nat} {E : Stop → Prop}

theorem Follows.stops (h : Follows toks vs) (hd : toks.all fun c => c ∉ toks') : Stops toks' vs :=
  fun t us ht => of_decide_eq_true (List.all_eq_true.1 hd _ (h t us ht))

theorem Follows.mono (h : Follows toks vs) (hs : toks.all fun c => c ∈ toks') : Follows toks' vs :=
  fun t us ht => of_decide_eq_true (List.all_eq_true.1 hs _ (h t us ht))

theorem follows_cons (h : t.opens ∈ toks) : Follows toks (t :: us) := by
  rintro _ _ ⟨⟩
  exact h

theorem stops_nil : Stops toks [] :=
  fun _ _ h => by cases h

theorem stops_cons (h : t.opens ∉ toks) : Stops toks (t :: us) := by
  rintro _ _ ⟨⟩
  exact h

theorem Redirs.stops (h : Redirs us rs) (hv : Stops toks vs) (hlt : 60 ∉ toks) (hgt : 62 ∉ toks) :
    Stops toks (us ++ vs) := by
  cases h with
  | nil => exact hv
  | cons hr _ =>
    cases hr with
    | input => exact stops_cons hlt
    | output => exact stops_cons hgt
    | append => exact stops_cons hgt

theorem Words.stops (h : Words us ws rs) (hv : Stops toks vs) (h0 : 0 ∉ toks) :
    Stops toks (us ++ vs) := by
  cases h with
  | nil => exact hv
  | cons _ _ => exact stops_cons h0

theorem peek_yes {m : Bool → Parser α} {Q : α → Ptr → Prop} (htoks : toks.all isSymbol = true)
    (ht : t.opens ∈ toks) (hm : Triple (Cur b (t :: ts) k) (m true) Q E) :
    Triple (Cur b (t :: ts) k) (peek toks >>= m) Q E := by
  apply peek_bind htoks
  · exact fun _ _ _ _ => hm
  · exact fun h => absurd ht (h t ts rfl)

theorem peek_no {m : Bool → Parser α} {Q : α → Ptr → Prop} (htoks : toks.all isSymbol = true)
    (hs : Stops toks ts) (hm : Triple (Cur b ts k) (m false) Q E) :
    Triple (Cur b ts k) (peek toks >>= m) Q E := by
  apply peek_bind htoks
  · exact fun t us hts ht => absurd ht (hs t us hts)
  · exact fun _ => hm

theorem parseredirs_complete (h : Redirs us rs') (hv : Stops [60, 62] vs) (hn : k < n) :
    Triple (Cur b (us ++ vs) k) (parseredirs n)
      (fun rs s => Cur b vs k s ∧ RedirsAt b rs rs') Never := by
  induction h generalizing k n with
  | nil =>
    obtain ⟨n, rfl⟩ := Nat.exists_eq_succ_of_ne_zero (Nat.ne_zero_of_lt hn)
    apply peek_no (by decide) hv
    exact Triple.pure fun _ hs => ⟨hs, .nil⟩
  | @cons ts r us rs hr _ ih =>
    obtain ⟨n, rfl⟩ := Nat.exists_eq_succ_of_ne_zero (Nat.ne_zero_of_lt hn)
    obtain ⟨t, x, rfl, ht, hmode⟩ : ∃ t x, ts = [t, .word x] ∧ t.opens ∈ [60, 62] ∧
        r = ⟨x, (redirMode t.code).1, (redirMode t.code).2⟩ := by
      cases hr with
      | input => exact ⟨.lt, _, rfl, by decide, rfl⟩
      | output => exact ⟨.gt, _, rfl, by decide, rfl⟩
      | append => exact ⟨.gtgt, _, rfl, by decide, rfl⟩
    apply peek_yes (by decide) ht
    apply gettoken_bind
    intro _ hk _
    apply gettoken_bind
    intro w hk' hw
    apply (ih (by omega)).bind
    intro rs₁
    apply Triple.known
    intro hat
    apply Triple.pure
    intro s hs
    rw [hmode]
    exact ⟨hs.mono (by omega), .cons ⟨hw x rfl, rfl, rfl⟩ hat⟩

theorem parseargs_complete (h : Words us ws rs') (hv : Follows [124, 41, 38, 59] vs) (hn : k < n)
    (hlen : argv.length + ws.length < maxArgs) :
    Triple (Cur b (us ++ vs) k) (parseargs n argv rs)
      (fun r s => Cur b vs k s ∧ ∃ a rs₁, r = (argv ++ a, rs ++ rs₁) ∧
        List.Forall₂ (WordAt b) a ws ∧ RedirsAt b rs₁ rs') Never := by
  induction h generalizing k n argv rs with
  | nil =>
    obtain ⟨n, rfl⟩ := Nat.exists_eq_succ_of_ne_zero (Nat.ne_zero_of_lt hn)
    have hend : ∃ a rs₁, (argv, rs) = (argv ++ a, rs ++ rs₁) ∧
        List.Forall₂ (WordAt b) a [] ∧ RedirsAt b rs₁ [] := ⟨[], [], by simp, .nil, .nil⟩
    cases vs with
    | nil =>
      apply peek_no (by decide) stops_nil
      apply gettoken_end
      intro w
      exact Triple.pure fun _ hs => ⟨hs, hend⟩
    | cons t vs =>
      apply peek_yes (by decide) (hv t vs rfl)
      exact Triple.pure fun _ hs => ⟨hs, hend⟩
  | @cons ts rs'' us ws rs' x hr hw ih =>
    obtain ⟨n, rfl⟩ := Nat.exists_eq_succ_of_ne_zero (Nat.ne_zero_of_lt hn)
    rw [List.length_cons] at hlen
    apply peek_no (by decide) (stops_cons (show (0 : UInt8) ∉ [124, 41, 38, 59] by decide))
    apply gettoken_bind
    intro w hk hword
    show Triple (Cur b (ts ++ us ++ vs) (k - 1)) _ _ _
    dsimp only
    rw [if_neg (code_ne_zero _), if_neg (show ¬(Token.word x).code ≠ 97 from not_not.2 rfl),
      if_neg (by omega), if_neg (by omega), List.append_assoc]
    apply (parseredirs_complete hr ?_ (by omega)).bind
    · intro rs₁
      apply Triple.known
      intro hat
      apply (ih (by omega) ?_).conseq (fun _ hs => hs)
      · rintro r s ⟨hs, a, rs₂, rfl, ha, hat'⟩
        exact ⟨hs.mono (by omega), w :: a, rs₁ ++ rs₂, by simp, .cons (hword x rfl) ha,
          List.rel_append hat hat'⟩
      · rw [List.length_append, List.length_singleton]
        omega
    · exact hw.stops (hv.stops (by decide)) (by decide)

theorem parsebacks_complete (m : Nat) (cmd : Cmd Word) (hv : Stops [38] vs) (hn : k < n) :
    Triple (Cur b (List.replicate m .amp ++ vs) k) (parsebacks n cmd)
      (fun c s => Cur b vs k s ∧ c = Cmd.back^[m] cmd) Never := by
  induction m generalizing k n cmd with
  | zero =>
    obtain ⟨n, rfl⟩ := Nat.exists_eq_succ_of_ne_zero (Nat.ne_zero_of_lt hn)
    apply peek_no (by decide) hv
    exact Triple.pure fun _ hs => ⟨hs, rfl⟩
  | succ m ih =>
    obtain ⟨n, rfl⟩ := Nat.exists_eq_succ_of_ne_zero (Nat.ne_zero_of_lt hn)
    apply peek_yes (by decide) (by decide)
    apply gettoken_bind
    intro _ hk _
    apply (ih (.back cmd) (by omega)).conseq (fun _ hs => hs)
    rintro c s ⟨hs, rfl⟩
    exact ⟨hs.mono (by omega), rfl⟩

/-- The parser reads the tokens before `vs`, and its tree is `d`. -/
abbrev Reads (b : List UInt8) (us vs : List Token) (k : Nat) (m : Parser (Cmd Word)) (d : Tree) :
    Prop :=
  Triple (Cur b (us ++ vs) k) m (fun c s => Cur b vs k s ∧ c.Rel (WordAt b) d) Never

theorem parsesimple_complete (hr : Redirs ts rs) (hw : Words us ws rs')
    (hlen : ws.length ≤ maxArgs - 1) (hv : Follows [124, 41, 38, 59] vs) (hn : k < n) :
    Reads b (ts ++ us) vs k (parsesimple n) ((Cmd.exec ws).wrap (rs ++ rs')) := by
  have hmax : ws.length < maxArgs := Nat.lt_of_le_pred (by decide) hlen
  have hargs : ([] : List Word).length + ws.length < maxArgs := by
    rwa [List.length_nil, Nat.zero_add]
  rw [Reads, List.append_assoc]
  apply (parseredirs_complete hr (hw.stops (hv.stops (by decide)) (by decide)) hn).bind
  intro rs₁
  apply Triple.known
  intro hat
  apply (parseargs_complete hw hv hn hargs).bind
  rintro r
  apply Triple.known
  rintro ⟨a, rs₂, rfl, ha, hat'⟩
  dsimp only
  rw [List.nil_append, if_neg (by rw [ha.length_eq]; exact Nat.not_le.2 hmax)]
  exact Triple.pure fun _ hs => ⟨hs, Cmd.Rel.wrap ha (List.rel_append hat hat')⟩

/-- What holds of the mutually recursive functions with `n` rounds left. -/
structure CompleteAt (n : Nat) : Prop where
  line : ∀ b us vs k d, Line us d → Follows [41] vs → 4 * k + 4 ≤ n →
    Reads b us vs k (parseline n) d
  pipe : ∀ b us vs k d, Pipe us d → Follows [41, 38, 59] vs → 4 * k + 3 ≤ n →
    Reads b us vs k (parsepipe n) d
  exec : ∀ b us vs k d, Exec us d → Follows [124, 41, 38, 59] vs → 4 * k + 2 ≤ n →
    Reads b us vs k (parseexec n) d
  block : ∀ b us ts vs k d rs, Line us d → Redirs ts rs → Follows [124, 41, 38, 59] vs →
    4 * k + 1 ≤ n → Reads b (.lpar :: us ++ .rpar :: ts) vs k (parseblock n) (d.wrap rs)

theorem parsepipe_complete (h : CompleteAt n) (hp : Pipe us d) (hv : Follows [41, 38, 59] vs)
    (hn : 4 * k + 3 ≤ n + 1) : Reads b us vs k (parsepipe (n + 1)) d := by
  cases hp with
  | last he =>
    apply (h.exec b us vs k d he (hv.mono (by decide)) (by omega)).bind
    intro c
    apply Triple.known
    intro hc
    apply peek_no (by decide) (hv.stops (by decide))
    exact Triple.pure fun _ hs => ⟨hs, hc⟩
  | @bar ts c us d he hp =>
    rw [Reads, List.append_assoc]
    apply (h.exec b ts _ k c he (follows_cons (by decide)) (by omega)).bind
    intro c
    apply Triple.known
    intro hc
    apply peek_yes (by decide) (by decide)
    apply gettoken_bind
    intro _ hk _
    apply (h.pipe b us vs (k - 1) d hp hv (by omega)).bind
    intro r
    apply Triple.known
    intro hr
    exact Triple.pure fun _ hs => ⟨hs.mono (by omega), hc, hr⟩

theorem backs_complete {f : Cmd Word → Parser (Cmd Word)} (h : CompleteAt n) (hp : Pipe us c)
    (m : Nat) (hv : Follows [59, 41] vs) (hn : 4 * k + 4 ≤ n + 1)
    (hf : ∀ c', Cmd.Rel (WordAt b) c' (Cmd.back^[m] c) →
      Triple (Cur b vs k) (f c') (fun c s => Cur b xs k s ∧ c.Rel (WordAt b) d) Never) :
    Triple (Cur b (us ++ List.replicate m .amp ++ vs) k)
      (do let c ← parsepipe n; let c ← parsebacks n c; f c)
      (fun c s => Cur b xs k s ∧ c.Rel (WordAt b) d) Never := by
  have hamp : Follows [41, 38, 59] (List.replicate m .amp ++ vs) := by
    cases m with
    | zero => exact hv.mono (by decide)
    | succ m => exact follows_cons (by decide)
  rw [List.append_assoc]
  apply (h.pipe b us _ k c hp hamp (by omega)).bind
  intro c
  apply Triple.known
  intro hc
  apply (parsebacks_complete m c (hv.stops (by decide)) (by omega)).bind
  intro c'
  apply Triple.known
  rintro rfl
  exact hf _ (hc.backs m)

theorem parseline_complete (h : CompleteAt n) (hl : Line us d) (hv : Follows [41] vs)
    (hn : 4 * k + 4 ≤ n + 1) : Reads b us vs k (parseline (n + 1)) d := by
  cases hl with
  | last hp m =>
    apply backs_complete h hp m (hv.mono (by decide)) hn
    intro c hc
    apply peek_no (by decide) (hv.stops (by decide))
    exact Triple.pure fun _ hs => ⟨hs, hc⟩
  | @seq ts c us d hp m hl =>
    rw [Reads, List.append_assoc]
    apply backs_complete h hp m (follows_cons (by decide)) hn
    intro c hc
    apply peek_yes (by decide) (by decide)
    apply gettoken_bind
    intro _ hk _
    apply (h.line b us vs (k - 1) d hl hv (by omega)).bind
    intro r
    apply Triple.known
    intro hr
    exact Triple.pure fun _ hs => ⟨hs.mono (by omega), hc, hr⟩

theorem parseblock_complete (h : CompleteAt n) (hl : Line us d) (hr : Redirs ts rs)
    (hv : Follows [124, 41, 38, 59] vs) (hn : 4 * k + 1 ≤ n + 1) :
    Reads b (.lpar :: us ++ .rpar :: ts) vs k (parseblock (n + 1)) (d.wrap rs) := by
  rw [Reads, List.append_assoc]
  apply peek_yes (by decide) (by decide)
  apply gettoken_bind
  intro _ hk _
  apply (h.line b us _ (k - 1) d hl (follows_cons (by decide)) (by omega)).bind
  intro c
  apply Triple.known
  intro hc
  apply peek_yes (by decide) (by decide)
  apply gettoken_bind
  intro _ hk' _
  apply (parseredirs_complete hr (hv.stops (by decide)) (by omega)).bind
  intro rs₁
  apply Triple.known
  intro hat
  exact Triple.pure fun _ hs => ⟨hs.mono (by omega), hc.wrap hat⟩

theorem parseexec_complete (h : CompleteAt n) (he : Exec us d)
    (hv : Follows [124, 41, 38, 59] vs) (hn : 4 * k + 2 ≤ n + 1) :
    Reads b us vs k (parseexec (n + 1)) d := by
  cases he with
  | block hl hr =>
    apply peek_yes (by decide) (by decide)
    exact h.block b _ _ vs k _ _ hl hr hv (by omega)
  | simple hr hw hlen =>
    apply peek_no (by decide)
    · rw [List.append_assoc]
      exact hr.stops (hw.stops (hv.stops (by decide)) (by decide)) (by decide) (by decide)
    · exact parsesimple_complete hr hw hlen hv (by omega)

theorem completeAt (n : Nat) : CompleteAt n := by
  induction n with
  | zero =>
    refine ⟨?_, ?_, ?_, ?_⟩
    · exact fun _ _ _ _ _ _ _ hn => by cases hn
    · exact fun _ _ _ _ _ _ _ hn => by cases hn
    · exact fun _ _ _ _ _ _ _ hn => by cases hn
    · exact fun _ _ _ _ _ _ _ _ _ _ hn => by cases hn
  | succ n ih =>
    refine ⟨?_, ?_, ?_, ?_⟩
    · exact fun _ _ _ _ _ hl hv hn => parseline_complete ih hl hv hn
    · exact fun _ _ _ _ _ hp hv hn => parsepipe_complete ih hp hv hn
    · exact fun _ _ _ _ _ he hv hn => parseexec_complete ih he hv hn
    · exact fun _ _ _ _ _ _ _ hl hr hv hn => parseblock_complete ih hl hr hv hn

end Rules

end Xv6.Shell
