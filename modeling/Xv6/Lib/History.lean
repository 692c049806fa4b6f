import Mathlib.Data.List.Basic
import Mathlib.Logic.Function.Basic

namespace Xv6.Lib
set_option autoImplicit true

/-- Operations one after the other on an object with specification `spec`, which they leave in
`t`. -/
inductive Sequential (spec : S → O → S × R) (t₀ : S) : List (P × O × R) → S → Prop where
  | nil : Sequential spec t₀ [] t₀
  | snoc : Sequential spec t₀ l t → spec t o = (t', r) → Sequential spec t₀ (l ++ [(p, o, r)]) t'

section Processes
variable {P O R : Type*} [DecidableEq P] {p q : P} {l : List (P × O × R)}

def opsOf (p : P) (l : List (P × O × R)) : List (O × R) := (l.filter (·.1 = p)).map Prod.snd

theorem opsOf_snoc (l : List (P × O × R)) (x : O × R) (q : P) :
    opsOf q (l ++ [(p, x)]) = opsOf q l ++ if p = q then [x] else [] := by
  rw [opsOf, opsOf, List.filter_append, List.map_append]
  split
  · next h => simp [h]
  · next h => simp [h]

/-- Every operation takes effect once, while under way, and returned what the history says. -/
def Linearizes (l : List (P × O × R)) (returned pending : P → List (O × R)) : Prop :=
  ∀ p, opsOf p l = returned p ++ pending p

variable {returned pending pending' : P → List (O × R)} {x : O × R}

theorem Linearizes.keep (h : Linearizes l returned pending) (he : ∀ q, pending' q = pending q) :
    Linearizes l returned pending' := by
  intro q
  rw [he q]
  exact h q

theorem Linearizes.take (h : Linearizes l returned pending) (hp : pending p = [])
    (hp' : pending' p = [x]) (he : ∀ q, q ≠ p → pending' q = pending q) :
    Linearizes (l ++ [(p, x)]) returned pending' := by
  intro q
  rw [opsOf_snoc, h q]
  by_cases hq : q = p
  · subst hq
    rw [if_pos rfl, hp, hp', List.append_nil]
  · rw [if_neg (Ne.symm hq), he q hq, List.append_nil]

theorem Linearizes.ret (h : Linearizes l returned pending) (hp : pending p = [x])
    (hp' : pending' p = []) (he : ∀ q, q ≠ p → pending' q = pending q) :
    Linearizes l (Function.update returned p (returned p ++ [x])) pending' := by
  intro q
  rw [h q]
  by_cases hq : q = p
  · subst hq
    rw [Function.update_self, hp, hp', List.append_nil]
  · rw [Function.update_of_ne hq, he q hq]

end Processes

end Xv6.Lib
