import Mathlib.Logic.Function.Basic

namespace Xv6.Lib
open Function
set_option autoImplicit true

variable {α κ : Type*} {avail used used' : α → Prop} {own : κ → Option α} {k l : κ} {a : α}

/-- Of `avail`, exactly what is in `used` has an owner, and only one. -/
structure Owns (avail used : α → Prop) (own : κ → Option α) : Prop where
  inside : ∀ k a, own k = some a → avail a
  unique : ∀ k l a, own k = some a → own l = some a → k = l
  exact : ∀ a, avail a → (used a ↔ ∃ k, own k = some a)

/-- What has an owner is in `avail` and in `used`, and has only one. -/
structure Holds (avail used : α → Prop) (own : κ → Option α) : Prop where
  inside : ∀ k a, own k = some a → avail a
  unique : ∀ k l a, own k = some a → own l = some a → k = l
  used : ∀ k a, own k = some a → used a

theorem Owns.holds (h : Owns avail used own) : Holds avail used own :=
  ⟨h.inside, h.unique, fun k a hk => (h.exact a (h.inside k a hk)).2 ⟨k, hk⟩⟩

theorem Holds.ne_of_free (h : Holds avail used own) (ha : ¬used a) (k : κ) : own k ≠ some a := by
  intro hk
  exact ha (h.used k a hk)

theorem Holds.congr (h : Holds avail used own) (hu : ∀ a, avail a → used a → used' a) :
    Holds avail used' own :=
  ⟨h.inside, h.unique, fun k a hk => hu a (h.inside k a hk) (h.used k a hk)⟩

theorem Owns.congr (h : Owns avail used own) (hu : ∀ a, avail a → (used' a ↔ used a)) :
    Owns avail used' own := by
  constructor
  · exact h.inside
  · exact h.unique
  · intro a ha
    rw [hu a ha]
    exact h.exact a ha

section Update
variable [DecidableEq κ]

theorem update_eq_some {f : κ → Option α} (h : update f k (some a) l = some b) :
    l = k ∧ b = a ∨ l ≠ k ∧ f l = some b := by
  by_cases hlk : l = k
  · subst hlk
    rw [update_self, Option.some.injEq] at h
    exact .inl ⟨rfl, h.symm⟩
  · rw [update_of_ne hlk] at h
    exact .inr ⟨hlk, h⟩

theorem Holds.take (h : Holds avail used own) (ha : avail a) (hf : ¬used a)
    (hu : ∀ b, avail b → (used' b ↔ used b ∨ b = a)) :
    Holds avail used' (update own k (some a)) := by
  have hinside (l : κ) (b : α) (hl : update own k (some a) l = some b) : avail b := by
    rcases update_eq_some hl with ⟨-, rfl⟩ | ⟨-, hl⟩
    · exact ha
    · exact h.inside l b hl
  refine ⟨hinside, fun l m b hl hm => ?_, fun l b hl => ?_⟩
  · rcases update_eq_some hl with ⟨hlk, hb⟩ | ⟨-, hl'⟩
    · rcases update_eq_some hm with ⟨hmk, -⟩ | ⟨-, hm'⟩
      · rw [hlk, hmk]
      · rw [hb] at hm'
        exact absurd hm' (h.ne_of_free hf m)
    · rcases update_eq_some hm with ⟨-, hb⟩ | ⟨-, hm'⟩
      · rw [hb] at hl'
        exact absurd hl' (h.ne_of_free hf l)
      · exact h.unique l m b hl' hm'
  · rw [hu b (hinside l b hl)]
    rcases update_eq_some hl with ⟨-, rfl⟩ | ⟨-, hl⟩
    · exact .inr rfl
    · exact .inl (h.used l b hl)

theorem Owns.take (h : Owns avail used own) (ha : avail a) (hf : ¬used a) (hk : own k = none)
    (hu : ∀ b, avail b → (used' b ↔ used b ∨ b = a)) :
    Owns avail used' (update own k (some a)) := by
  have ht : Holds avail used' (update own k (some a)) := h.holds.take ha hf hu
  constructor
  · exact ht.inside
  · exact ht.unique
  · intro b hb
    rw [hu b hb, h.exact b hb]
    constructor
    · rintro (⟨l, hl⟩ | rfl)
      · have hlk : l ≠ k := by
          rintro rfl
          cases hk.symm.trans hl
        exact ⟨l, by rw [update_of_ne hlk, hl]⟩
      · exact ⟨k, update_self ..⟩
    · rintro ⟨l, hl⟩
      by_cases hlk : l = k
      · subst hlk
        rw [update_self, Option.some.injEq] at hl
        exact .inr hl.symm
      · rw [update_of_ne hlk] at hl
        exact .inl ⟨l, hl⟩

theorem Owns.drop (h : Owns avail used own) (hk : own k = some a)
    (hu : ∀ b, avail b → (used' b ↔ used b ∧ b ≠ a)) :
    Owns avail used' (update own k none) := by
  have hne (l : κ) (b : α) (hl : update own k none l = some b) :
      l ≠ k ∧ own l = some b := by
    by_cases hlk : l = k
    · subst hlk
      rw [update_self] at hl
      cases hl
    · rw [update_of_ne hlk] at hl
      exact ⟨hlk, hl⟩
  constructor
  · intro l b hl
    exact h.inside l b (hne l b hl).2
  · intro l m b hl hm
    exact h.unique l m b (hne l b hl).2 (hne m b hm).2
  · intro b hb
    rw [hu b hb, h.exact b hb]
    constructor
    · rintro ⟨⟨l, hl⟩, hba⟩
      have hlk : l ≠ k := by
        rintro rfl
        exact hba (Option.some.inj (hl.symm.trans hk))
      exact ⟨l, by rw [update_of_ne hlk, hl]⟩
    · rintro ⟨l, hl⟩
      obtain ⟨hlk, hl⟩ := hne l b hl
      refine ⟨⟨l, hl⟩, ?_⟩
      rintro rfl
      exact hlk (h.unique l k b hl hk)

end Update

end Xv6.Lib
