import Mathlib.Data.List.Forall2
import Xv6.Shell.Lexer

namespace Xv6.Shell
open Lib
set_option autoImplicit true

/-- Two commands have the same shape, and their words are related. -/
def Cmd.Rel (R : ω → ω' → Prop) : Cmd ω → Cmd ω' → Prop
  | .exec argv, .exec argv' => List.Forall₂ R argv argv'
  | .redir c file mode fd, .redir c' file' mode' fd' =>
    c.Rel R c' ∧ R file file' ∧ mode = mode' ∧ fd = fd'
  | .pipe l r, .pipe l' r' => l.Rel R l' ∧ r.Rel R r'
  | .list l r, .list l' r' => l.Rel R l' ∧ r.Rel R r'
  | .back c, .back c' => c.Rel R c'
  | _, _ => False

structure RedirAt (b : List UInt8) (r : Redirection Word) (r' : Redirection (List UInt8)) :
    Prop where
  file : WordAt b r.file r'.file
  mode : r.mode = r'.mode
  fd : r.fd = r'.fd

abbrev RedirsAt (b : List UInt8) := List.Forall₂ (RedirAt b)

theorem Cmd.Rel.wrap (h : Cmd.Rel (WordAt b) c c') (hrs : RedirsAt b rs rs') :
    (c.wrap rs).Rel (WordAt b) (c'.wrap rs') := by
  induction hrs generalizing c c' with
  | nil => exact h
  | cons hr _ ih => exact ih ⟨h, hr.file, hr.mode, hr.fd⟩

theorem Cmd.Rel.backs (h : Cmd.Rel (WordAt b) c c') (n : Nat) :
    Cmd.Rel (WordAt b) (Cmd.back^[n] c) (Cmd.back^[n] c') := by
  induction n generalizing c c' with
  | zero => exact h
  | succ n ih => exact ih (show Cmd.Rel (WordAt b) (.back c) (.back c') from h)

def Panics (e : Stop) : Prop :=
  ∃ msg, e = .panic msg

/-- Of the tokens `ts` the parser has read some that give `a`. -/
def Parsed (b : List UInt8) (ts : List Token) (k : Nat) (D : α → List Token → Prop) (a : α)
    (s : Ptr) : Prop :=
  ∃ us vs, ts = us ++ vs ∧ D a us ∧ Cur b vs k s

section Rules
variable {b : List UInt8} {t : Token} {ts : List Token} {k n : Nat} {E : Stop → Prop}

theorem Parsed.bind {P : Ptr → Prop} {m : Parser α} {f : α → Parser β}
    {D : α → List Token → Prop} {Q : β → Ptr → Prop} (hm : Triple P m (Parsed b ts k D) E)
    (hf : ∀ a us vs, ts = us ++ vs → D a us → Triple (Cur b vs k) (f a) Q E) :
    Triple P (m >>= f) Q E := by
  apply hm.bind
  rintro a s ⟨us, vs, hts, hD, hs⟩
  exact hf a us vs hts hD s hs

theorem Parsed.mono {D D' : α → List Token → Prop} (h : Parsed b vs k D a s) (us : List Token)
    (hts : ts = us ++ vs) (hk : k ≤ k') (hD : ∀ ws, D a ws → D' a (us ++ ws)) : Parsed b ts k' D' a s := by
  obtain ⟨ws, xs, rfl, hws, hs⟩ := h
  exact ⟨us ++ ws, xs, by rw [hts, List.append_assoc], hD ws hws, hs.mono hk⟩

theorem parsed_pure {D : α → List Token → Prop} (hD : D a []) :
    Triple (Cur b ts k) (pure a : Parser α) (Parsed b ts k D) E :=
  Triple.pure fun _ hs => ⟨[], ts, rfl, hD, hs⟩

theorem throw_panic {P : Ptr → Prop} {Q : α → Ptr → Prop} (msg : String) :
    Triple P (throw (.panic msg) : Parser α) Q Panics :=
  Triple.throw ⟨msg, rfl⟩

theorem peek_bind {m : Bool → Parser α} {Q : α → Ptr → Prop}
    (htoks : toks.all isSymbol = true)
    (hyes : ∀ t us, ts = t :: us → t.opens ∈ toks → Triple (Cur b ts k) (m true) Q E)
    (hno : (∀ t us, ts = t :: us → t.opens ∉ toks) → Triple (Cur b ts k) (m false) Q E) :
    Triple (Cur b ts k) (peek toks >>= m) Q E := by
  apply (peek_spec htoks).bind
  intro r
  apply Triple.known
  rintro rfl
  cases ts with
  | nil => exact hno nofun
  | cons t us =>
    by_cases ht : t.opens ∈ toks
    · simpa [ht] using hyes t us rfl ht
    · simpa [ht] using hno fun t' us' he => by
        obtain ⟨rfl, -⟩ := List.cons.inj he
        exact ht

theorem gettoken_bind {m : UInt8 × Word → Parser α} {Q : α → Ptr → Prop}
    (h : ∀ w, 1 ≤ k → (∀ x, t = .word x → WordAt b w x) →
      Triple (Cur b ts (k - 1)) (m (t.code, w)) Q E) :
    Triple (Cur b (t :: ts) k) (gettoken >>= m) Q E := by
  apply gettoken_cons.bind
  rintro ⟨r, w⟩
  apply Triple.known
  rintro ⟨hk, rfl, hw⟩
  exact h w hk hw

theorem gettoken_end {m : UInt8 × Word → Parser α} {Q : α → Ptr → Prop}
    (h : ∀ w, Triple (Cur b [] k) (m (0, w)) Q E) :
    Triple (Cur b [] k) (gettoken >>= m) Q E := by
  apply gettoken_nil.bind
  rintro ⟨r, w⟩
  apply Triple.known
  rintro rfl
  exact h w

theorem code_word (h : t.code = 97) : ∃ x, t = .word x := by
  cases t with
  | word x => exact ⟨x, rfl⟩
  | _ => cases h

theorem code_ne_zero (t : Token) : t.code ≠ 0 := by
  cases t <;> exact nofun

theorem redir_of_opens (h : t.opens ∈ [60, 62]) (x : List UInt8) :
    Redir [t, .word x] ⟨x, (redirMode t.code).1, (redirMode t.code).2⟩ := by
  cases t with
  | lt => exact .input
  | gt => exact .output
  | gtgt => exact .append
  | _ => simp [Token.opens, Token.code] at h

def SoundRedirs (b : List UInt8) (rs : List (Redirection Word)) (us : List Token) : Prop :=
  ∃ rs', Redirs us rs' ∧ RedirsAt b rs rs'

theorem parseredirs_sound (hn : k < n) :
    Triple (Cur b ts k) (parseredirs n) (Parsed b ts k (SoundRedirs b)) Panics := by
  induction n generalizing ts k with
  | zero => cases hn
  | succ n ih =>
    apply peek_bind (by decide)
    · rintro t us rfl ht
      apply gettoken_bind
      intro _ hk _
      cases us with
      | nil =>
        apply gettoken_end
        intro w
        exact throw_panic _
      | cons t' us =>
        apply gettoken_bind
        intro w hk' hw
        by_cases ht' : t'.code = 97
        · obtain ⟨x, rfl⟩ := code_word ht'
          have hword := hw x rfl
          apply Parsed.bind (ih (by omega))
          rintro rs vs ws rfl ⟨rs', hrs, hat⟩
          apply Triple.pure
          intro s hs
          exact ⟨[t, .word x] ++ vs, ws, rfl,
            ⟨_, .cons (redir_of_opens ht x) hrs, .cons ⟨hword, rfl, rfl⟩ hat⟩, hs.mono (by omega)⟩
        · dsimp only
          rw [if_pos ht']
          exact throw_panic _
    · intro _
      exact parsed_pure ⟨[], .nil, .nil⟩

/-- The words and redirections that `parseexec` has added. -/
def SoundArgs (b : List UInt8) (argv : List Word) (rs : List (Redirection Word))
    (r : List Word × List (Redirection Word)) (us : List Token) : Prop :=
  ∃ a rs₁ ws rs', r = (argv ++ a, rs ++ rs₁) ∧ r.1.length < maxArgs ∧ Words us ws rs' ∧
    List.Forall₂ (WordAt b) a ws ∧ RedirsAt b rs₁ rs'

theorem soundArgs_nil (h : argv.length < maxArgs) : SoundArgs b argv rs (argv, rs) [] :=
  ⟨[], [], [], [], by simp, h, .nil, .nil, .nil⟩

theorem parseargs_sound (hn : k < n) (hargv : argv.length < maxArgs) :
    Triple (Cur b ts k) (parseargs n argv rs) (Parsed b ts k (SoundArgs b argv rs)) Panics := by
  induction n generalizing ts k argv rs with
  | zero => cases hn
  | succ n ih =>
    apply peek_bind (by decide)
    · rintro t us rfl ht
      exact parsed_pure (soundArgs_nil hargv)
    · intro _
      cases ts with
      | nil =>
        apply gettoken_end
        intro w
        exact parsed_pure (soundArgs_nil hargv)
      | cons t us =>
        apply gettoken_bind
        intro w hk hw
        by_cases ht : t.code = 97
        · obtain ⟨x, rfl⟩ := code_word ht
          have hword := hw x rfl
          dsimp only
          rw [if_neg (code_ne_zero _), if_neg (not_not.2 ht), if_neg (Nat.not_le.2 hargv)]
          split
          · exact throw_panic _
          · next hmax =>
            apply Parsed.bind (parseredirs_sound (by omega))
            rintro rs₁ vs ws rfl ⟨rs', hrs, hat⟩
            have hargv' : (argv ++ [w]).length < maxArgs := by
              rw [List.length_append, List.length_singleton]
              omega
            apply (ih (by omega) hargv').conseq (fun _ hs => hs)
            rintro r s hs
            apply hs.mono (.word x :: vs) rfl (Nat.sub_le k 1)
            rintro us ⟨a, rs₂, words, rs'', hr, hlen, hwords, ha, hrs₂⟩
            refine ⟨w :: a, rs₁ ++ rs₂, x :: words, rs' ++ rs'', ?_, hlen, .cons hrs hwords,
              .cons hword ha, List.rel_append hat hrs₂⟩
            rw [hr, List.append_assoc, List.append_assoc]
            rfl
        · dsimp only
          rw [if_neg (code_ne_zero t), if_pos ht]
          exact throw_panic _

theorem parsebacks_sound (hn : k < n) (cmd : Cmd Word) :
    Triple (Cur b ts k) (parsebacks n cmd)
      (Parsed b ts k fun c us => ∃ m, c = Cmd.back^[m] cmd ∧ us = List.replicate m .amp) Panics := by
  induction n generalizing ts k cmd with
  | zero => cases hn
  | succ n ih =>
    apply peek_bind (by decide)
    · rintro t us rfl ht
      obtain rfl : t = .amp := by
        cases t <;> simp [Token.opens, Token.code] at ht ⊢
      apply gettoken_bind
      intro _ hk _
      apply (ih (by omega) (.back cmd)).conseq (fun _ hs => hs)
      intro c s hs
      apply hs.mono [.amp] rfl (Nat.sub_le k 1)
      rintro us ⟨m, rfl, rfl⟩
      exact ⟨m + 1, rfl, rfl⟩
    · intro _
      exact parsed_pure ⟨0, rfl, rfl⟩

/-- The tree of a derivation from the tokens read. -/
def Sound (b : List UInt8) (D : List Token → Tree → Prop) (c : Cmd Word) (us : List Token) : Prop :=
  ∃ d, D us d ∧ c.Rel (WordAt b) d

theorem parsesimple_sound (hn : k < n) :
    Triple (Cur b ts k) (parsesimple n) (Parsed b ts k (Sound b Exec)) Panics := by
  apply Parsed.bind (parseredirs_sound hn)
  rintro rs us vs rfl ⟨rs', hrs, hat⟩
  apply Parsed.bind (parseargs_sound hn (by decide))
  rintro _ ws xs rfl ⟨a, rs₁, words, rs'', rfl, hlen, hwords, ha, hat'⟩
  dsimp only
  rw [if_neg (Nat.not_le.2 hlen)]
  apply Triple.pure
  intro s hs
  refine ⟨us ++ ws, xs, (List.append_assoc ..).symm, ?_, hs⟩
  refine ⟨_, .simple hrs hwords ?_, Cmd.Rel.wrap ?_ (List.rel_append hat hat')⟩
  · rw [← ha.length_eq]
    exact Nat.le_pred_of_lt hlen
  · exact ha

/-- What holds of the mutually recursive functions with `n` rounds left. -/
structure SoundAt (n : Nat) : Prop where
  line : ∀ b ts k, 4 * k + 4 ≤ n →
    Triple (Cur b ts k) (parseline n) (Parsed b ts k (Sound b Line)) Panics
  pipe : ∀ b ts k, 4 * k + 3 ≤ n →
    Triple (Cur b ts k) (parsepipe n) (Parsed b ts k (Sound b Pipe)) Panics
  exec : ∀ b ts k, 4 * k + 2 ≤ n →
    Triple (Cur b ts k) (parseexec n) (Parsed b ts k (Sound b Exec)) Panics
  block : ∀ b ts k, 4 * k + 1 ≤ n →
    Triple (Cur b ts k) (parseblock n) (Parsed b ts k (Sound b Exec)) Panics

theorem parseline_sound (h : SoundAt n) (hn : 4 * k + 4 ≤ n + 1) :
    Triple (Cur b ts k) (parseline (n + 1)) (Parsed b ts k (Sound b Line)) Panics := by
  apply Parsed.bind (h.pipe b ts k (by omega))
  rintro c us vs rfl ⟨d, hd, hc⟩
  apply Parsed.bind (parsebacks_sound (by omega) c)
  rintro _ ws xs rfl ⟨m, rfl, rfl⟩
  apply peek_bind (by decide)
  · rintro t ys rfl ht
    obtain rfl : t = .semi := by
      cases t <;> simp [Token.opens, Token.code] at ht ⊢
    apply gettoken_bind
    intro _ hk _
    apply Parsed.bind (h.line b ys (k - 1) (by omega))
    rintro r zs vs rfl ⟨d', hd', hr⟩
    apply Triple.pure
    intro s hs
    refine ⟨us ++ List.replicate m .amp ++ .semi :: zs, vs, by simp, ?_, hs.mono (Nat.sub_le k 1)⟩
    exact ⟨_, .seq hd m hd', hc.backs m, hr⟩
  · intro _
    apply Triple.pure
    intro s hs
    exact ⟨us ++ List.replicate m .amp, xs, (List.append_assoc ..).symm,
      ⟨_, .last hd m, hc.backs m⟩, hs⟩

theorem parsepipe_sound (h : SoundAt n) (hn : 4 * k + 3 ≤ n + 1) :
    Triple (Cur b ts k) (parsepipe (n + 1)) (Parsed b ts k (Sound b Pipe)) Panics := by
  apply Parsed.bind (h.exec b ts k (by omega))
  rintro c us vs rfl ⟨d, hd, hc⟩
  apply peek_bind (by decide)
  · rintro t ys rfl ht
    obtain rfl : t = .bar := by
      cases t <;> simp [Token.opens, Token.code] at ht ⊢
    apply gettoken_bind
    intro _ hk _
    apply Parsed.bind (h.pipe b ys (k - 1) (by omega))
    rintro r zs vs rfl ⟨d', hd', hr⟩
    apply Triple.pure
    intro s hs
    refine ⟨us ++ .bar :: zs, vs, by simp, ⟨_, .bar hd hd', hc, hr⟩, hs.mono (Nat.sub_le k 1)⟩
  · intro _
    apply Triple.pure
    intro s hs
    exact ⟨us, vs, rfl, ⟨d, .last hd, hc⟩, hs⟩

theorem parseblock_sound (h : SoundAt n) (hn : 4 * k + 1 ≤ n + 1) :
    Triple (Cur b ts k) (parseblock (n + 1)) (Parsed b ts k (Sound b Exec)) Panics := by
  apply peek_bind (by decide)
  · rintro t us rfl ht
    obtain rfl : t = .lpar := by
      cases t <;> simp [Token.opens, Token.code] at ht ⊢
    apply gettoken_bind
    intro _ hk _
    apply Parsed.bind (h.line b us (k - 1) (by omega))
    rintro c vs ws rfl ⟨d, hd, hc⟩
    apply peek_bind (by decide)
    · rintro t xs rfl ht'
      obtain rfl : t = .rpar := by
        cases t <;> simp [Token.opens, Token.code] at ht' ⊢
      apply gettoken_bind
      intro _ hk' _
      apply Parsed.bind (parseredirs_sound (by omega))
      rintro rs ys zs rfl ⟨rs', hrs, hat⟩
      apply Triple.pure
      intro s hs
      refine ⟨.lpar :: vs ++ .rpar :: ys, zs, by simp, ?_, hs.mono (by omega)⟩
      exact ⟨_, .block hd hrs, hc.wrap hat⟩
    · intro _
      exact throw_panic _
  · intro _
    exact throw_panic _

theorem soundAt (n : Nat) : SoundAt n := by
  induction n with
  | zero => exact ⟨nofun, nofun, nofun, nofun⟩
  | succ n ih =>
    refine ⟨fun b ts k hn => parseline_sound ih hn, fun b ts k hn => parsepipe_sound ih hn,
      fun b ts k hn => ?_, fun b ts k hn => parseblock_sound ih hn⟩
    apply peek_bind (by decide)
    · intro t us hts ht
      exact ih.block b ts k (by omega)
    · intro _
      exact parsesimple_sound (by omega)

end Rules

end Xv6.Shell
