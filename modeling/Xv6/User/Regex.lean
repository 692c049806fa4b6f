import Mathlib.Computability.Language

namespace Xv6.User
open Computability
set_option autoImplicit true

/-- `.` stands for every character, and every other character for itself. -/
def fits (c t : UInt8) : Bool :=
  c = 46 || t = c

/-- `matchstar`, where `here` is `matchhere` of the pattern after the star. -/
def matchstar (c : UInt8) (here : List UInt8 → Bool) : List UInt8 → Bool
  | [] => here []
  | t :: text => here (t :: text) || (fits c t && matchstar c here text)

def matchhere : List UInt8 → List UInt8 → Bool
  | [], _ => true
  | c :: 42 :: re, text => matchstar c (matchhere re) text
  | [36], text => text = []
  | _ :: _, [] => false
  | c :: re, t :: text => fits c t && matchhere re text

def matchloop (re : List UInt8) : List UInt8 → Bool
  | [] => matchhere re []
  | t :: text => matchhere re (t :: text) || matchloop re text

def rematch (re text : List UInt8) : Bool :=
  match re with
  | 94 :: re => matchhere re text
  | re => matchloop re text

inductive Item where
  | one (c : UInt8)
  | star (c : UInt8)
  deriving DecidableEq

/-- A regular expression: whether it starts with `^`, its items, and a final `$`. -/
structure Regex where
  start : Bool
  items : List Item
  stop : Bool
  deriving DecidableEq

/-- The items, and whether an anchor follows them. -/
def readItems : List UInt8 → List Item × Bool
  | [] => ([], false)
  | c :: 42 :: re => (.star c :: (readItems re).1, (readItems re).2)
  | [36] => ([], true)
  | c :: re => (.one c :: (readItems re).1, (readItems re).2)

def readRegex (re : List UInt8) : Regex :=
  match re with
  | 94 :: re => ⟨true, (readItems re).1, (readItems re).2⟩
  | re => ⟨false, (readItems re).1, (readItems re).2⟩

def letter (c : UInt8) : Language UInt8 :=
  {w | ∃ t, fits c t = true ∧ w = [t]}

def Item.lang : Item → Language UInt8
  | .one c => letter c
  | .star c => (letter c)∗

def itemsLang (is : List Item) : Language UInt8 :=
  (is.map Item.lang).prod

/-- Some part of the text is in the language, where the anchors want it. -/
def Regex.Finds (r : Regex) (text : List UInt8) : Prop :=
  ∃ pre w post, text = pre ++ w ++ post ∧ w ∈ itemsLang r.items ∧
    (r.start = true → pre = []) ∧ (r.stop = true → post = [])

theorem mem_lang_star : w ∈ (Item.star c).lang ↔ ∀ t ∈ w, fits c t = true := by
  rw [Item.lang, Language.mem_kstar]
  constructor
  · rintro ⟨ws, rfl, hws⟩ t ht
    obtain ⟨x, hx, htx⟩ := List.mem_flatten.1 ht
    obtain ⟨t', hfit, rfl⟩ := hws x hx
    rwa [List.mem_singleton.1 htx]
  · intro h
    refine ⟨w.map fun t => [t], (List.flatMap_singleton' w).symm, ?_⟩
    · intro x hx
      obtain ⟨t, ht, rfl⟩ := List.mem_map.1 hx
      exact ⟨t, h t ht, rfl⟩

theorem mem_itemsLang_nil : w ∈ itemsLang [] ↔ w = [] :=
  Language.mem_one w

theorem mem_itemsLang_cons :
    w ∈ itemsLang (i :: is) ↔ ∃ u v, w = u ++ v ∧ u ∈ i.lang ∧ v ∈ itemsLang is := by
  rw [itemsLang, List.map_cons, List.prod_cons, Language.mem_mul]
  constructor
  · rintro ⟨u, hu, v, hv, rfl⟩
    exact ⟨u, v, rfl, hu, hv⟩
  · rintro ⟨u, v, rfl, hu, hv⟩
    exact ⟨u, hu, v, hv, rfl⟩

/-- Every split of the text after characters that fit is tried. -/
theorem matchstar_iff (here : List UInt8 → Bool) (text : List UInt8) :
    matchstar c here text = true ↔
      ∃ u v, text = u ++ v ∧ (∀ t ∈ u, fits c t = true) ∧ here v = true := by
  induction text with
  | nil =>
    rw [matchstar]
    constructor
    · intro h
      exact ⟨[], [], rfl, nofun, h⟩
    · rintro ⟨u, v, huv, -, h⟩
      obtain ⟨rfl, rfl⟩ := List.append_eq_nil_iff.1 huv.symm
      exact h
  | cons t text ih =>
    rw [matchstar, Bool.or_eq_true, Bool.and_eq_true, ih]
    constructor
    · rintro (h | ⟨ht, u, v, rfl, hu, h⟩)
      · exact ⟨[], t :: text, rfl, nofun, h⟩
      · exact ⟨t :: u, v, rfl, List.forall_mem_cons.2 ⟨ht, hu⟩, h⟩
    · rintro ⟨u, v, huv, hu, h⟩
      cases u with
      | nil =>
        obtain rfl : t :: text = v := huv
        exact .inl h
      | cons t' u =>
        obtain ⟨rfl, rfl⟩ := List.cons.inj huv
        obtain ⟨ht, hu⟩ := List.forall_mem_cons.1 hu
        exact .inr ⟨ht, u, v, rfl, hu, h⟩

/-- The text starts with a word of the items, or is one if anchored. -/
def Starts (p : List Item × Bool) (text : List UInt8) : Prop :=
  ∃ w post, text = w ++ post ∧ w ∈ itemsLang p.1 ∧ (p.2 = true → post = [])

theorem starts_cons :
    Starts (i :: is, b) text ↔ ∃ u v, text = u ++ v ∧ u ∈ i.lang ∧ Starts (is, b) v := by
  constructor
  · rintro ⟨w, post, rfl, hw, hb⟩
    obtain ⟨u, v, rfl, hu, hv⟩ := mem_itemsLang_cons.1 hw
    exact ⟨u, v ++ post, List.append_assoc .., hu, v, post, rfl, hv, hb⟩
  · rintro ⟨u, v, rfl, hu, w, post, rfl, hw, hb⟩
    exact ⟨u ++ w, post, (List.append_assoc ..).symm, mem_itemsLang_cons.2 ⟨u, w, rfl, hu, hw⟩, hb⟩

theorem starts_nil : Starts ([], b) text ↔ (b = true → text = []) := by
  constructor
  · rintro ⟨w, post, rfl, hw, hb⟩ h
    rw [mem_itemsLang_nil.1 hw, hb h]
    rfl
  · intro h
    exact ⟨[], text, rfl, mem_itemsLang_nil.2 rfl, h⟩

theorem not_starts_one : ¬ Starts (.one c :: is, b) [] := by
  intro h
  obtain ⟨u, v, huv, ⟨t, -, rfl⟩, -⟩ := starts_cons.1 h
  cases huv

theorem starts_one :
    Starts (.one c :: is, b) (t :: text) ↔ fits c t = true ∧ Starts (is, b) text := by
  rw [starts_cons]
  constructor
  · rintro ⟨u, v, huv, ⟨t', ht, rfl⟩, hv⟩
    obtain ⟨rfl, rfl⟩ := List.cons.inj huv
    exact ⟨ht, hv⟩
  · rintro ⟨ht, h⟩
    exact ⟨[t], text, rfl, ⟨t, ht, rfl⟩, h⟩

theorem matchhere_iff (re text : List UInt8) :
    matchhere re text = true ↔ Starts (readItems re) text := by
  induction re using readItems.induct generalizing text with
  | case1 => simp [matchhere, readItems, starts_nil]
  | case2 c re ih =>
    rw [matchhere, matchstar_iff, readItems, starts_cons]
    simp only [mem_lang_star, ih]
  | case3 => simp [matchhere, readItems, starts_nil]
  | case4 c re hstar hstop ih =>
    rw [readItems.eq_4 c re hstar hstop]
    cases text with
    | nil =>
      rw [matchhere.eq_4 c re hstar hstop]
      exact iff_of_false Bool.false_ne_true not_starts_one
    | cons t text =>
      rw [matchhere.eq_5 c re t text hstar hstop, Bool.and_eq_true, ih, starts_one]

theorem matchloop_iff (re text : List UInt8) :
    matchloop re text = true ↔ ∃ pre v, text = pre ++ v ∧ matchhere re v = true := by
  induction text with
  | nil =>
    rw [matchloop]
    constructor
    · intro h
      exact ⟨[], [], rfl, h⟩
    · rintro ⟨pre, v, hv, h⟩
      obtain ⟨-, rfl⟩ := List.append_eq_nil_iff.1 hv.symm
      exact h
  | cons t text ih =>
    rw [matchloop, Bool.or_eq_true, ih]
    constructor
    · rintro (h | ⟨pre, v, rfl, h⟩)
      · exact ⟨[], t :: text, rfl, h⟩
      · exact ⟨t :: pre, v, rfl, h⟩
    · rintro ⟨pre, v, hv, h⟩
      cases pre with
      | nil =>
        obtain rfl : t :: text = v := hv
        exact .inl h
      | cons t' pre =>
        obtain ⟨rfl, rfl⟩ := List.cons.inj hv
        exact .inr ⟨pre, v, rfl, h⟩

/-- `match` returns 1 exactly if part of the text is in the language. -/
theorem rematch_iff (re text : List UInt8) :
    rematch re text = true ↔ (readRegex re).Finds text := by
  rw [rematch.eq_def, readRegex.eq_def]
  split
  · next re =>
    rw [matchhere_iff]
    constructor
    · rintro ⟨w, post, rfl, hw, hstop⟩
      exact ⟨[], w, post, rfl, hw, fun _ => rfl, hstop⟩
    · rintro ⟨pre, w, post, rfl, hw, hstart, hstop⟩
      rw [hstart rfl]
      exact ⟨w, post, rfl, hw, hstop⟩
  · rw [matchloop_iff]
    constructor
    · rintro ⟨pre, v, rfl, h⟩
      obtain ⟨w, post, rfl, hw, hstop⟩ := (matchhere_iff _ v).1 h
      exact ⟨pre, w, post, (List.append_assoc ..).symm, hw, nofun, hstop⟩
    · rintro ⟨pre, w, post, rfl, hw, -, hstop⟩
      refine ⟨pre, w ++ post, List.append_assoc .., ?_⟩
      exact (matchhere_iff _ _).2 ⟨w, post, rfl, hw, hstop⟩

example : rematch [94, 97, 46, 42, 36, 36] [97, 98, 36] = true := by
  decide

end Xv6.User
