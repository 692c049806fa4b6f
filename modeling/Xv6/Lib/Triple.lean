import Mathlib.Logic.Basic

namespace Xv6.Lib
set_option autoImplicit true

/-- Programs that change a state and may stop with a fault. -/
abbrev Prog (σ ε : Type) := StateT σ (Except ε)

/-- A program ends with a result that `Q` allows, or a fault that `E` allows. -/
def Ends (Q : α → σ → Prop) (E : ε → Prop) : Except ε (α × σ) → Prop
  | .ok (a, s) => Q a s
  | .error e => E e

/-- From every state in which `P` holds, `m` ends as `Q` and `E` say. -/
def Triple (P : σ → Prop) (m : Prog σ ε α) (Q : α → σ → Prop) (E : ε → Prop) : Prop :=
  ∀ s, P s → Ends Q E (m.run s)

section Rules
variable {σ ε α β : Type} {P P' : σ → Prop} {Q Q' : α → σ → Prop} {R : β → σ → Prop}
variable {E E' : ε → Prop} {m : Prog σ ε α} {k : α → Prog σ ε β}

theorem Triple.pure {a : α} (h : ∀ s, P s → Q a s) : Triple P (Pure.pure a : Prog σ ε α) Q E :=
  h

theorem Triple.throw {e : ε} (h : E e) : Triple P (MonadExcept.throw e : Prog σ ε α) Q E :=
  fun _ _ => h

theorem Triple.bind (hm : Triple P m Q E) (hk : ∀ a, Triple (Q a) (k a) R E) :
    Triple P (m >>= k) R E := by
  intro s hs
  have hend := hm s hs
  rw [StateT.run_bind]
  cases hr : m.run s with
  | error e =>
    rw [hr] at hend
    exact hend
  | ok x =>
    rw [hr] at hend
    exact hk x.1 x.2 hend

theorem Triple.get {k : σ → Prog σ ε β} (hk : ∀ s, P s → Triple (· = s) (k s) R E) :
    Triple P (MonadState.get >>= k) R E :=
  fun s hs => hk s hs s rfl

theorem Triple.set {t : σ} {R : Unit → σ → Prop} (h : ∀ s, P s → R () t) :
    Triple P (MonadStateOf.set t : Prog σ ε PUnit) R E :=
  h

theorem Triple.modify {f : σ → σ} {R : PUnit → σ → Prop} (h : ∀ s, P s → R () (f s)) :
    Triple P (modify f : Prog σ ε PUnit) R E :=
  h

theorem Triple.conseq (hm : Triple P m Q E) (hP : ∀ s, P' s → P s) (hQ : ∀ a s, Q a s → Q' a s) :
    Triple P' m Q' E := by
  intro s hs
  have hend := hm s (hP s hs)
  cases hr : m.run s with
  | error e =>
    rw [hr] at hend
    exact hend
  | ok x =>
    rw [hr] at hend
    exact hQ x.1 x.2 hend

/-- What holds before the program regardless of its state is known. -/
theorem Triple.known {p : Prop} (hm : p → Triple P m Q E) : Triple (fun s => P s ∧ p) m Q E :=
  fun s hs => hm hs.2 s hs.1

theorem Triple.ok (hm : Triple P m Q E) (hs : P s) (hr : m.run s = .ok (a, s')) : Q a s' := by
  have hend := hm s hs
  rw [hr] at hend
  exact hend

theorem Triple.error (hm : Triple P m Q E) (hs : P s) (hr : m.run s = .error e) : E e := by
  have hend := hm s hs
  rw [hr] at hend
  exact hend

end Rules

end Xv6.Lib
