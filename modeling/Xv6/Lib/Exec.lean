import Mathlib.Data.List.Basic

namespace Xv6.Lib
set_option autoImplicit true

/-- Executions of a step function whose events the environment may issue. -/
inductive Exec (step : σ → α → Except ε σ) (legal : σ → α → Prop) (s₀ : σ) :
    List α → σ → Prop where
  | nil : Exec step legal s₀ [] s₀
  | snoc : Exec step legal s₀ as s → legal s a → step s a = .ok s' →
      Exec step legal s₀ (as ++ [a]) s'

/-- What holds initially and is kept by every step holds after every execution. -/
theorem Exec.invariant {I : σ → Prop} (h : Exec step legal s₀ as s) (h₀ : I s₀)
    (hstep : ∀ s a s', I s → legal s a → step s a = .ok s' → I s') : I s := by
  induction h with
  | nil => exact h₀
  | snoc _ hl hs ih => exact hstep _ _ _ ih hl hs

theorem Exec.mono (h : Exec step legal s₀ as s) (hl : ∀ s a, legal s a → legal' s a) :
    Exec step legal' s₀ as s := by
  induction h with
  | nil => exact .nil
  | snoc _ h' hs ih => exact .snoc ih (hl _ _ h') hs

/-- Run a list of events, refusing those that may not be issued. -/
def runLegal (step : σ → α → Except ε σ) (legal : σ → α → Bool) : σ → List α → Option σ
  | s, [] => some s
  | s, a :: as =>
    if legal s a then
      match step s a with
      | .ok s' => runLegal step legal s' as
      | .error _ => none
    else none

theorem exec_append_of_runLegal {legal : σ → α → Bool}
    (h : Exec step (fun s a => legal s a) s₀ as s)
    (hr : runLegal step legal s bs = some s') :
    Exec step (fun s a => legal s a) s₀ (as ++ bs) s' := by
  induction bs generalizing as s with
  | nil =>
    simp only [runLegal, Option.some.injEq] at hr
    subst hr
    simpa only [List.append_nil] using h
  | cons b bs ih =>
    rw [runLegal] at hr
    split at hr
    · next hl =>
      split at hr
      · next hs =>
        have h' := ih (h.snoc hl hs) hr
        simpa only [List.append_assoc, List.singleton_append] using h'
      · cases hr
    · cases hr

theorem exec_of_runLegal (step : σ → α → Except ε σ) (legal : σ → α → Bool) (s₀ : σ)
    (as : List α) (hr : runLegal step legal s₀ as = some s) :
    Exec step (fun s a => legal s a) s₀ as s :=
  exec_append_of_runLegal .nil hr

theorem ok_bind (a : α) (f : α → Except ε β) : (Except.ok a >>= f) = f a :=
  rfl

theorem bind_ok {x : Except ε α} {f : α → Except ε β} (h : x >>= f = .ok b) :
    ∃ a, x = .ok a ∧ f a = .ok b := by
  cases x with
  | error e => cases h
  | ok a => exact ⟨a, rfl, h⟩

theorem ite_ok {c : Prop} [Decidable c] (h : (if c then .ok a else .error e) = (.ok b : Except ε α)) :
    c ∧ b = a := by
  split at h
  · next hc => exact ⟨hc, (Except.ok.inj h).symm⟩
  · cases h

theorem if_ok {c : Prop} [Decidable c] {x : Except ε α} (h : (if c then x else .error e) = .ok a) :
    c ∧ x = .ok a := by
  split at h
  · next hc => exact ⟨hc, h⟩
  · cases h

theorem unless_ok {c : Prop} [Decidable c] {x : Except ε α}
    (h : (if c then .error e else x) = .ok a) : ¬ c ∧ x = .ok a := by
  split at h
  · cases h
  · next hc => exact ⟨hc, h⟩

theorem bind_error {x : Except ε α} {f : α → Except ε β} (h : x >>= f = .error e) :
    x = .error e ∨ ∃ a, x = .ok a ∧ f a = .error e := by
  cases x with
  | error e' =>
    cases h
    exact .inl rfl
  | ok a => exact .inr ⟨a, rfl, h⟩

theorem ok_of_toOption {x : Except ε α} (h : x.toOption = some a) : x = .ok a := by
  cases x with
  | error e => cases h
  | ok b => exact congrArg Except.ok (Option.some.inj h)

end Xv6.Lib
