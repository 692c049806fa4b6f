import Mathlib.Algebra.Order.BigOperators.Group.List
import Xv6.Vm.Transfer

namespace Xv6.Vm
open Lib
set_option autoImplicit true

def pad (s : List UInt8) : Nat := (s.length + 4) / 4 * 4

def argBytes (argv : List (List UInt8)) : Nat := (argv.map pad).sum

/-- The addresses of the strings, pushed from `sp` down. -/
def argAddrs : Nat → List (List UInt8) → List Nat
  | _, [] => []
  | sp, s :: argv => (sp - pad s) :: argAddrs (sp - pad s) argv

/-- The memory after the strings have been pushed. -/
def pushStrings (f : Nat → UInt8) : Nat → List (List UInt8) → Nat → UInt8
  | _, [] => f
  | sp, s :: argv => pushStrings (overlay f (sp - pad s) (s ++ [0])) (sp - pad s) argv

/-- The room that the strings and the vector take on the stack. -/
def stackBytes (argv : List (List UInt8)) : Nat := argBytes argv + (argv.length + 4) * 4

/-- The memory after `exec` has made the stack, which ends at `sz`. -/
def stackImage (f : Nat → UInt8) (sz : Nat) (argv : List (List UInt8)) : Nat → UInt8 :=
  overlay (pushStrings f sz argv) (sz - stackBytes argv)
    ((ustack (sz - argBytes argv) (argAddrs sz argv)).flatMap (leBytes 4))

/-- All pages are for user programs but the one below the stack. -/
def guarded (g : Nat) : Nat → Bool := Function.update (fun _ => true) g false

variable {L : Image} {k₀ k k' : Kmem} {d : Pgdir} {b g sp n va i j : Nat} {f : Nat → UInt8}
  {s buf : List UInt8} {argv : List (List UInt8)} {ptrs : List Nat}

theorem guarded_eq_true : guarded g w = true ↔ w ≠ g := by
  rw [guarded]
  by_cases h : w = g
  · subst h
    rw [Function.update_self]
    exact iff_of_false nofun fun h => h rfl
  · rw [Function.update_of_ne h]
    exact iff_of_true rfl h

theorem guarded_eq_false : guarded g w = false ↔ w = g := by
  rw [← Bool.not_eq_true, guarded_eq_true, not_not]

theorem length_lt_pad (s : List UInt8) : s.length < pad s := by
  rw [pad]
  omega

theorem pad_lt (s : List UInt8) : pad s < s.length + 5 := by
  rw [pad]
  omega

theorem length_lt_stackBytes (hs : s ∈ argv) : s.length + 1 ≤ stackBytes argv := by
  have hpad := length_lt_pad s
  have hsum : pad s ≤ argBytes argv := List.single_le_sum (fun _ _ => Nat.zero_le _) _ (List.mem_map_of_mem hs)
  have hbytes : stackBytes argv = argBytes argv + (argv.length + 4) * 4 := rfl
  omega

theorem pad_mod (s : List UInt8) : pad s % 4 = 0 := Nat.mul_mod_left _ _

theorem subWord_of_le (h : n ≤ sp) (hsp : sp < 2 ^ 32) : subWord sp n = sp - n := by
  rw [subWord]
  omega

theorem length_argAddrs (sp : Nat) (argv : List (List UInt8)) : (argAddrs sp argv).length = argv.length := by
  induction argv generalizing sp with
  | nil => rfl
  | cons s argv ih => rw [argAddrs, List.length_cons, List.length_cons, ih]

theorem length_ustack (sp : Nat) (ptrs : List Nat) :
    ((ustack sp ptrs).flatMap (leBytes 4)).length = (ptrs.length + 4) * 4 := by
  have hword (vs : List Nat) : (vs.flatMap (leBytes 4)).length = vs.length * 4 := by
    rw [List.length_flatMap]
    simp only [length_leBytes, List.map_const', List.sum_replicate, smul_eq_mul]
  rw [hword, ustack, List.length_append, List.length_append]
  simp only [List.length_cons, List.length_nil]
  omega

theorem le_pages (hn : n ≤ sz) : n ≤ pagesUp sz * pgSize := by
  apply Nat.le_trans hn
  rw [← Nat.not_lt, page_lt]
  exact Nat.lt_irrefl _

section Stack
variable (hb : b = (g + 1) * pgSize) (h : Space L k₀ k d (b + pgSize) f (guarded g))
include hb h

theorem Space.copyout_stack (va : Nat) (buf : List UInt8) (h₁ : b ≤ va) (h₂ : va + buf.length ≤ b + pgSize) :
    ∃ k', Vm.copyout k d va buf = .ok (k', 0) ∧
      Space L k₀ k' d (b + pgSize) (overlay f va buf) (guarded g) := by
  obtain ⟨k', r, ho, hr⟩ := h.copyout (le_pages h₂)
  rcases hr with ⟨rfl, -, hs⟩ | ⟨-, ⟨a, ha, -, hu⟩, -⟩
  · exact ⟨k', ho, hs⟩
  · have hpage := guarded_eq_false.1 hu
    have hlow : g + 1 ≤ a / pgSize := by
      rw [Nat.le_div_iff_mul_le (by decide), ← hb]
      exact Nat.le_trans h₁ ha
    rw [hpage] at hlow
    exact absurd hlow (Nat.not_succ_le_self g)

theorem Space.copyout_guard (va : Nat) (buf : List UInt8) (hbuf : 0 < buf.length) (h₁ : va < b)
    (h₂ : b < va + buf.length + pgSize) (h₃ : va + buf.length ≤ b + pgSize) :
    ∃ k', Vm.copyout k d va buf = .ok (k', -1) ∧ Held L k₀ k' d := by
  obtain ⟨k', r, ho, hr⟩ := h.copyout (le_pages h₃)
  rcases hr with ⟨-, hall, -⟩ | ⟨rfl, -, hh⟩
  · have hlow : g * pgSize + pgSize = b := by rw [hb, Nat.succ_mul]
    have hmeet : ∃ a, va ≤ a ∧ a < va + buf.length ∧ g * pgSize ≤ a ∧ a < b := by
      clear hb
      generalize g * pgSize = c at hlow
      simp only [pgSize] at h₂ hlow
      by_cases hva : va ≤ c
      · exact ⟨c, hva, by omega, Nat.le_refl _, by omega⟩
      · exact ⟨va, Nat.le_refl _, by omega, by omega, h₁⟩
    obtain ⟨a, h₁, h₂, h₃, h₄⟩ := hmeet
    rw [hb] at h₄
    exact absurd (Nat.div_eq_of_lt_le h₃ h₄) (guarded_eq_true.1 (hall a h₁ h₂))
  · exact ⟨k', ho, hh⟩

theorem Space.push (h₁ : b ≤ sp) (h₂ : sp ≤ b + pgSize) (h₄ : sp % 4 = 0)
    (hs : s.length + 1 ≤ b + 2 ^ 25) :
    ∃ k' r, Vm.copyout k d (subWord sp (s.length + 1) / 4 * 4) (s ++ [0]) = .ok (k', r) ∧
      (r = 0 ∧ b + pad s ≤ sp ∧ subWord sp (s.length + 1) / 4 * 4 = sp - pad s ∧
          Space L k₀ k' d (b + pgSize) (overlay f (sp - pad s) (s ++ [0])) (guarded g) ∨
        r = -1 ∧ sp < b + pad s ∧ Held L k₀ k' d) := by
  have hlt : b + pgSize < 2 ^ 31 := h.lt
  have hpos : pgSize ≤ b := by
    rw [hb]
    exact Nat.le_mul_of_pos_left _ (Nat.succ_pos _)
  have hbuf : (s ++ [0]).length = s.length + 1 := List.length_append
  have hpad := length_lt_pad s
  have hpad' := pad_lt s
  have hpage : 3 < pgSize := by decide
  by_cases hwrap : s.length + 1 ≤ sp
  · have haddr : subWord sp (s.length + 1) / 4 * 4 = sp - pad s := by
      rw [subWord_of_le hwrap (by omega), pad]
      omega
    rw [haddr]
    by_cases hfit : b + pad s ≤ sp
    · obtain ⟨k', ho, hs⟩ := h.copyout_stack hb (sp - pad s) (s ++ [0]) (by omega)
        (by omega)
      exact ⟨k', 0, ho, .inl ⟨rfl, hfit, rfl, hs⟩⟩
    · obtain ⟨k', ho, hh⟩ := h.copyout_guard hb (sp - pad s) (s ++ [0]) (by omega)
        (by omega) (by omega) (by omega)
      exact ⟨k', -1, ho, .inr ⟨rfl, by omega, hh⟩⟩
  · have hkernel : KernelPage (subWord sp (s.length + 1) / 4 * 4 / pgSize) := by
      clear hb
      right
      simp only [subWord, devSpace, pgSize, nPages] at h₂ hlt ⊢
      omega
    exact ⟨k, -1, h.kernel.copyout hkernel (by omega), .inr ⟨rfl, by omega, h.toHeld⟩⟩

end Stack

theorem pushArgs_spec (hb : b = (g + 1) * pgSize) (h : Space L k₀ k d (b + pgSize) f (guarded g))
    (h₁ : b ≤ sp) (h₂ : sp ≤ b + pgSize) (h₄ : sp % 4 = 0)
    (hargs : ∀ s ∈ argv, s.length + 1 ≤ b + 2 ^ 25) :
    ∃ k' o, pushArgs d argv k sp ptrs = .ok (k', o) ∧
      (o = some (sp - argBytes argv, ptrs ++ argAddrs sp argv) ∧
          (argv ≠ [] → ptrs.length + argv.length ≤ maxArg) ∧ b + argBytes argv ≤ sp ∧
          Space L k₀ k' d (b + pgSize) (pushStrings f sp argv) (guarded g) ∨
        o = none ∧ (maxArg < ptrs.length + argv.length ∨ sp < b + argBytes argv) ∧
          Held L k₀ k' d) := by
  induction argv generalizing k f sp ptrs with
  | nil =>
    have hsum : argBytes [] = 0 := rfl
    refine ⟨k, _, rfl, .inl ⟨?_, nofun, ?_, h⟩⟩
    · rw [argAddrs, List.append_nil, hsum, Nat.sub_zero]
    · rw [hsum]
      exact h₁
  | cons s argv ih =>
    have hsum : argBytes (s :: argv) = pad s + argBytes argv := List.sum_cons
    rw [pushArgs]
    by_cases hmax : maxArg ≤ ptrs.length
    · rw [if_pos hmax]
      refine ⟨k, none, rfl, .inr ⟨rfl, .inl ?_, h.toHeld⟩⟩
      rw [List.length_cons]
      omega
    rw [if_neg hmax]
    obtain ⟨k₁, r, ho, hr⟩ := h.push hb h₁ h₂ h₄ (hargs s List.mem_cons_self)
    dsimp only
    rw [ho, ok_bind]
    dsimp only
    rcases hr with ⟨rfl, hfit, haddr, hs⟩ | ⟨rfl, hfit, hh⟩
    · have hmod := pad_mod s
      rw [if_neg (by decide), haddr]
      obtain ⟨k', o, ho, hr⟩ := @ih k₁ (sp - pad s) _ (ptrs ++ [sp - pad s]) hs (by omega) (by omega) (by omega)
        fun t ht => hargs t (List.mem_cons_of_mem _ ht)
      refine ⟨k', o, ho, ?_⟩
      rw [List.length_append, List.length_singleton, Nat.add_assoc, Nat.add_comm 1] at hr
      rcases hr with ⟨rfl, hcount, hroom, hs⟩ | ⟨rfl, hbad, hh⟩
      · refine .inl ⟨?_, ?_, by omega, hs⟩
        · rw [hsum, Nat.sub_sub, argAddrs, List.append_assoc, List.singleton_append]
        · intro _
          rw [List.length_cons]
          by_cases hnil : argv = []
          · rw [hnil, List.length_nil]
            omega
          · exact hcount hnil
      · exact .inr ⟨rfl, hbad.imp_right fun hbad => by omega, hh⟩
    · rw [if_pos (by decide)]
      exact ⟨k₁, none, rfl, .inr ⟨rfl, .inr (by omega), hh⟩⟩

/-- The stack holds all arguments, or they are too many or do not fit. -/
theorem pushStack_spec (hb : b = (g + 1) * pgSize) (h : Space L k₀ k d (b + pgSize) f (guarded g))
    (argv : List (List UInt8)) (hargs : ∀ s ∈ argv, s.length + 1 ≤ b + 2 ^ 25) :
    ∃ k' o, pushStack k d argv (b + pgSize) = .ok (k', o) ∧
      (o = some (b + pgSize - stackBytes argv) ∧ argv.length ≤ maxArg ∧ stackBytes argv ≤ pgSize ∧
          Space L k₀ k' d (b + pgSize) (stackImage f (b + pgSize) argv) (guarded g) ∨
        o = none ∧ (maxArg < argv.length ∨ pgSize < stackBytes argv) ∧ Held L k₀ k' d) := by
  have hlt : b + pgSize < 2 ^ 31 := h.lt
  have hpos : pgSize ≤ b := by
    rw [hb]
    exact Nat.le_mul_of_pos_left _ (Nat.succ_pos _)
  have halign : (b + pgSize) % 4 = 0 := by
    simp only [hb, pgSize]
    omega
  have hbytes : stackBytes argv = argBytes argv + (argv.length + 4) * 4 := rfl
  obtain ⟨k₁, o, ho, hr⟩ : ∃ k₁ o, pushArgs d argv k (b + pgSize) [] = .ok (k₁, o) ∧ _ :=
    pushArgs_spec hb h (Nat.le_add_right _ _) (Nat.le_refl _) halign hargs
  rw [pushStack, ho, ok_bind]
  rcases hr with ⟨rfl, hcount, hroom, hs⟩ | ⟨rfl, hbad, hh⟩
  · have hmax : argv.length ≤ maxArg := by
      by_cases hnil : argv = []
      · rw [hnil]
        exact Nat.zero_le _
      · have hle := hcount hnil
        rwa [List.length_nil, Nat.zero_add] at hle
    have hlen : ([] ++ argAddrs (b + pgSize) argv).length = argv.length := length_argAddrs _ _
    have hvec : (argv.length + 4) * 4 ≤ pgSize := by
      simp only [maxArg] at hmax
      simp only [pgSize]
      omega
    have haddr : subWord (b + pgSize - argBytes argv) ((3 + argv.length + 1) * 4) =
        b + pgSize - stackBytes argv := by
      rw [subWord_of_le, hbytes]
      · omega
      · omega
      · omega
    have hbuf := length_ustack (b + pgSize - argBytes argv) (argAddrs (b + pgSize) argv)
    rw [length_argAddrs] at hbuf
    dsimp only
    rw [hlen, haddr, List.nil_append]
    by_cases hfit : stackBytes argv ≤ pgSize
    · obtain ⟨k', ho', hs'⟩ := hs.copyout_stack hb (b + pgSize - stackBytes argv)
        ((ustack (b + pgSize - argBytes argv) (argAddrs (b + pgSize) argv)).flatMap (leBytes 4))
        (by omega) (by omega)
      rw [ho', ok_bind]
      refine ⟨k', some _, ?_, .inl ⟨rfl, hmax, hfit, hs'⟩⟩
      dsimp only
      rw [if_neg (by decide)]
    · obtain ⟨k', ho', hh⟩ := hs.copyout_guard hb (b + pgSize - stackBytes argv)
        ((ustack (b + pgSize - argBytes argv) (argAddrs (b + pgSize) argv)).flatMap (leBytes 4))
        (by omega) (by omega) (by omega) (by omega)
      rw [ho', ok_bind]
      refine ⟨k', none, ?_, .inr ⟨rfl, .inr (Nat.lt_of_not_le hfit), hh⟩⟩
      dsimp only
      rw [if_pos (by decide)]
  · refine ⟨k₁, none, rfl, .inr ⟨rfl, ?_, hh⟩⟩
    rw [List.length_nil, Nat.zero_add] at hbad
    omega

theorem pushStrings_of_le (hroom : argBytes argv ≤ sp) (ha : sp ≤ a) : pushStrings f sp argv a = f a := by
  induction argv generalizing f sp with
  | nil => rfl
  | cons s argv ih =>
    have hsum : argBytes (s :: argv) = pad s + argBytes argv := List.sum_cons
    have hlen : (s ++ [0]).length = s.length + 1 := List.length_append
    have hpad := length_lt_pad s
    rw [pushStrings, ih (by omega) (by omega)]
    exact overlay_of_le (by omega)

theorem pushStrings_of_lt (hroom : argBytes argv ≤ sp) (ha : a < sp - argBytes argv) :
    pushStrings f sp argv a = f a := by
  induction argv generalizing f sp with
  | nil => rfl
  | cons s argv ih =>
    have hsum : argBytes (s :: argv) = pad s + argBytes argv := List.sum_cons
    rw [pushStrings, ih (by omega) (by omega)]
    exact overlay_of_lt (by omega)

theorem argAddrs_le (hroom : argBytes argv ≤ sp) (hs : argv[i]? = some s)
    (hp : (argAddrs sp argv)[i]? = some p) : p + s.length + 1 ≤ sp := by
  induction argv generalizing sp i with
  | nil => cases hs
  | cons t argv ih =>
    have hsum : argBytes (t :: argv) = pad t + argBytes argv := List.sum_cons
    have hpad := length_lt_pad t
    cases i with
    | zero =>
      obtain rfl := Option.some.inj hs
      obtain rfl := Option.some.inj hp
      omega
    | succ i => exact Nat.le_trans (ih (by omega) hs hp) (Nat.sub_le _ _)

theorem stored_pushStrings (hroom : argBytes argv ≤ sp) (h₄ : sp % 4 = 0) (hs : argv[i]? = some s)
    (hp : (argAddrs sp argv)[i]? = some p) :
    Stored (pushStrings f sp argv) p (s ++ [0]) ∧ p % 4 = 0 ∧ sp - argBytes argv ≤ p := by
  induction argv generalizing f sp i with
  | nil => cases hs
  | cons t argv ih =>
    have hsum : argBytes (t :: argv) = pad t + argBytes argv := List.sum_cons
    have hlen : (t ++ [0]).length = t.length + 1 := List.length_append
    have hmod := pad_mod t
    have hpad := length_lt_pad t
    cases i with
    | zero =>
      obtain rfl := Option.some.inj hs
      obtain rfl := Option.some.inj hp
      refine ⟨?_, by omega, by omega⟩
      intro i x hx
      rw [← stored_overlay f (sp - pad t) (t ++ [0]) i x hx, pushStrings,
        pushStrings_of_le (by omega) (Nat.le_add_right _ _)]
    | succ i =>
      obtain ⟨hst, h₁, h₂⟩ := ih (f := overlay f (sp - pad t) (t ++ [0])) (by omega)
        (by omega) hs hp
      exact ⟨hst, h₁, by omega⟩

theorem argAddrs_apart (hroom : argBytes argv ≤ sp) (hij : i < j) (hs : argv[j]? = some s)
    (hp : (argAddrs sp argv)[j]? = some p) (hq : (argAddrs sp argv)[i]? = some q) :
    p + s.length + 1 ≤ q := by
  induction argv generalizing sp i j with
  | nil => cases hs
  | cons t argv ih =>
    have hsum : argBytes (t :: argv) = pad t + argBytes argv := List.sum_cons
    have hmod := pad_mod t
    obtain ⟨j, rfl⟩ := Nat.exists_eq_succ_of_ne_zero (Nat.ne_of_gt (Nat.lt_of_le_of_lt (Nat.zero_le i) hij))
    cases i with
    | zero =>
      obtain rfl := Option.some.inj hq
      have hs : argv[j]? = some s := hs
      exact argAddrs_le (by omega) hs hp
    | succ i => exact ih (by omega) (Nat.lt_of_succ_lt_succ hij) hs hp hq

end Xv6.Vm
