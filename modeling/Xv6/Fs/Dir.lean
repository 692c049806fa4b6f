import Xv6.Fs.Layout

namespace Xv6.Fs
set_option autoImplicit true

abbrev dirSiz : Nat := 14

structure Dirent where
  inum : Nat
  name : List UInt8
  deriving DecidableEq, Repr

variable {dents : List Dirent} {de : Dirent} {name s t : List UInt8} {i k l n off : Nat}

/-- `strncmp`; a string ends where its list does. -/
def strncmp : Nat → List UInt8 → List UInt8 → Int
  | 0, _, _ => 0
  | n + 1, p, q =>
    if p.headD 0 ≠ 0 ∧ p.headD 0 = q.headD 0 then strncmp n p.tail q.tail
    else (p.headD 0).toNat - (q.headD 0).toNat

/-- The bytes that `strncpy` leaves in its destination. -/
def strncpy : Nat → List UInt8 → List UInt8
  | 0, _ => []
  | n + 1, t =>
    if t.headD 0 ≠ 0 then t.headD 0 :: strncpy n t.tail else 0 :: List.replicate n 0

def namecmp (s t : List UInt8) : Int := strncmp dirSiz s t

/-- A name as far as directories tell names apart. -/
def key (s : List UInt8) : List UInt8 := (s.take dirSiz).takeWhile (· ≠ 0)

theorem strncmp_eq_zero (n : Nat) (p q : List UInt8) : strncmp n p q = 0 ↔
    (p.take n).takeWhile (· ≠ 0) = (q.take n).takeWhile (· ≠ 0) := by
  induction n generalizing p q with
  | zero => simp [strncmp]
  | succ n ih =>
    have hnat (x y : UInt8) : (x.toNat : Int) - y.toNat = 0 ↔ x = y := by
      rw [Int.sub_eq_zero, Int.ofNat_inj, UInt8.toNat_inj]
    have hzero (x : UInt8) : x.toNat = 0 ↔ x = 0 := UInt8.toNat_inj (b := 0)
    rw [strncmp]
    cases p with
    | nil =>
      simp only [List.headD_nil, ne_eq, not_true_eq_false, false_and, ↓reduceIte, hnat,
        List.take_nil, List.takeWhile_nil]
      cases q with
      | nil => simp
      | cons y q =>
        by_cases hy : y = 0
        · simp [hy]
        · simp [hy, Ne.symm hy]
    | cons x p =>
      cases q with
      | nil =>
        by_cases hx : x = 0
        · simp [hx]
        · simp [hx, hzero]
      | cons y q =>
        by_cases hx : x = 0
        · by_cases hy : y = 0
          · simp [hx, hy]
          · simp [hx, hy, hzero, Ne.symm hy]
        · by_cases hxy : x = y
          · subst hxy
            simpa [hx] using ih p q
          · by_cases hy : y = 0
            · simp [hx, hy, hzero]
            · simp [hx, hy, hxy, hnat]

theorem namecmp_eq_zero : namecmp s t = 0 ↔ key s = key t :=
  strncmp_eq_zero dirSiz s t

theorem take_strncpy (n : Nat) (t : List UInt8) :
    ((strncpy n t).take n).takeWhile (· ≠ 0) = (t.take n).takeWhile (· ≠ 0) := by
  induction n generalizing t with
  | zero => simp [strncpy]
  | succ n ih =>
    rw [strncpy]
    cases t with
    | nil => simp
    | cons y t =>
      by_cases hy : y = 0
      · simp [hy]
      · simpa [hy] using ih t

theorem key_strncpy (t : List UInt8) : key (strncpy dirSiz t) = key t :=
  take_strncpy dirSiz t

def Dirent.zero : Dirent := ⟨0, List.replicate dirSiz 0⟩

/-- The entry at index `k`; there is none past the end. -/
def entry (dents : List Dirent) (k : Nat) : Dirent := dents.getD k .zero

/-- The loop of `dirlookup`: index and inode number of the entry found. -/
def find (dents : List Dirent) (name : List UInt8) : Option (Nat × Nat) :=
  (dents.findIdx? fun de => de.inum ≠ 0 ∧ namecmp name de.name = 0).map fun k =>
    (k, (entry dents k).inum)

/-- The loop of `dirlink` that looks for an empty entry. -/
def emptySlot (dents : List Dirent) : Nat := dents.findIdx (·.inum = 0)

/-- `writei` of one entry at index `k`, which may be the end. -/
def putDirent (dents : List Dirent) (k : Nat) (de : Dirent) : List Dirent :=
  if k < dents.length then dents.set k de else dents ++ [de]

theorem entry_of_le (h : dents.length ≤ k) : entry dents k = .zero := by
  rw [entry, List.getD_eq_default _ _ h]

theorem entry_of_lt (h : k < dents.length) : entry dents k = dents[k] := by
  rw [entry, List.getD_eq_getElem _ _ h]

theorem lt_of_inum_ne (h : (entry dents k).inum ≠ 0) : k < dents.length := by
  by_contra hk
  rw [entry_of_le (Nat.le_of_not_lt hk)] at h
  exact h rfl

theorem entry_putDirent (h : k ≤ dents.length) (l : Nat) :
    entry (putDirent dents k de) l = if l = k then de else entry dents l := by
  rw [putDirent]
  split
  · next hk =>
    by_cases hl : l = k
    · subst hl
      rw [if_pos rfl, entry_of_lt (by simpa using hk), List.getElem_set_self]
    · rw [if_neg hl, entry, entry, List.getD_eq_getElem?_getD, List.getD_eq_getElem?_getD,
        List.getElem?_set_ne (Ne.symm hl)]
  · next hk =>
    obtain rfl : k = dents.length := by omega
    by_cases hl : l = dents.length
    · subst hl
      rw [if_pos rfl, entry_of_lt (by simp), List.getElem_concat_length rfl]
    · rw [if_neg hl]
      by_cases hlt : l < dents.length
      · rw [entry_of_lt (by simp; omega), entry_of_lt hlt, List.getElem_append_left hlt]
      · rw [entry_of_le (by simp; omega), entry_of_le (Nat.le_of_not_lt hlt)]

theorem find_some (h : find dents name = some (k, i)) : (entry dents k).inum = i ∧ i ≠ 0 ∧
    key name = key (entry dents k).name ∧
    ∀ l, l < k → (entry dents l).inum ≠ 0 → key name ≠ key (entry dents l).name := by
  obtain ⟨k', hk, he⟩ := Option.map_eq_some_iff.1 h
  cases he
  obtain ⟨hlt, hp, hmin⟩ := List.findIdx?_eq_some_iff_getElem.1 hk
  simp only [decide_eq_true_eq] at hp hmin
  rw [entry_of_lt hlt]
  refine ⟨rfl, hp.1, namecmp_eq_zero.1 hp.2, ?_⟩
  intro l hl hne hkey
  have hllt := Nat.lt_trans hl hlt
  rw [entry_of_lt hllt] at hne hkey
  exact hmin l hl ⟨hne, namecmp_eq_zero.2 hkey⟩

theorem find_none (h : find dents name = none) (hne : (entry dents l).inum ≠ 0) :
    key name ≠ key (entry dents l).name := by
  have hlt := lt_of_inum_ne hne
  rw [find, Option.map_eq_none_iff, List.findIdx?_eq_none_iff] at h
  intro hkey
  rw [entry_of_lt hlt] at hne hkey
  have hp := h dents[l] (List.getElem_mem hlt)
  simp only [decide_eq_false_iff_not] at hp
  exact hp ⟨hne, namecmp_eq_zero.2 hkey⟩

theorem emptySlot_le (dents : List Dirent) : emptySlot dents ≤ dents.length :=
  List.findIdx_le_length

theorem entry_emptySlot (dents : List Dirent) : (entry dents (emptySlot dents)).inum = 0 := by
  by_cases h : emptySlot dents < dents.length
  · rw [entry_of_lt h]
    exact of_decide_eq_true (List.findIdx_getElem (w := h))
  · rw [entry_of_le (Nat.le_of_not_lt h)]
    rfl

theorem le_emptySlot (h : ∀ l, l < k → (entry dents l).inum ≠ 0) : k ≤ emptySlot dents := by
  by_contra hlt
  exact h _ (Nat.lt_of_not_le hlt) (entry_emptySlot dents)

end Xv6.Fs
