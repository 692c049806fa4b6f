import Mathlib.Data.List.TakeWhile
import Xv6.Sys.Lookup

namespace Xv6.Sys.Resolve
open Lib Fs
set_option autoImplicit true

def word (path : List UInt8) : List UInt8 :=
  path.takeWhile fun c => c ≠ slash ∧ c ≠ 0

/-- `skipelem` with the array `name`: what is left of the path, and the array. -/
def skipelem (path name : List UInt8) : Option (List UInt8 × List UInt8) :=
  let path := path.dropWhile (· = slash)
  if path.headD 0 = 0 then none
  else
    let s := word path
    let name :=
      if dirSiz ≤ s.length then s.take dirSiz ++ name.drop dirSiz
      else s ++ 0 :: name.drop (s.length + 1)
    some ((path.drop s.length).dropWhile (· = slash), name)

/-- The loop of `namex`, which takes at most `fuel` rounds. -/
def namexLoop (parent : Bool) : Nat → St → Nat → List UInt8 → List UInt8 →
    Except Fault (St × Option Nat × List UInt8)
  | 0, _, _, _, _ => .error .blocked
  | fuel + 1, s, ip, path, name =>
    match skipelem path name with
    | none => if parent then .ok (iput s ip, none, name) else .ok (s, some ip, name)
    | some (path, name) => do
      let s ← ilock s ip
      if (s.inode ip).type ≠ tDir then .ok (iput s ip, none, name)
      else if parent ∧ path.headD 0 = 0 then .ok (s, some ip, name)
      else
        let (s, r) ← dirlookup s ip name
        match r with
        | none => .ok (iput s ip, none, name)
        | some (_, next) => namexLoop parent fuel (iput s ip) next path name

def namex (parent : Bool) (fuel : Nat) (s : St) (cwd : Nat) (path name : List UInt8) :
    Except Fault (St × Option Nat × List UInt8) :=
  if path.headD 0 = slash then namexLoop parent fuel (iget s rootIno) rootIno path name
  else namexLoop parent fuel (idup s cwd) cwd path name

/-- `namei`; `name` is what the array on the stack holds. -/
def namei (fuel : Nat) (s : St) (cwd : Nat) (path name : List UInt8) :
    Except Fault (St × Option Nat) := do
  let (s, r, _) ← namex false fuel s cwd path name
  .ok (s, r)

def nameiparent (fuel : Nat) (s : St) (cwd : Nat) (path name : List UInt8) :
    Except Fault (St × Option Nat × List UInt8) :=
  namex true fuel s cwd path name

/-- The parts of a path between runs of `/`, cut to the size of a name. -/
def components (path : List UInt8) : List (List UInt8) :=
  (((path.takeWhile (· ≠ 0)).splitOn slash).filter (· ≠ [])).map fun w => w.take dirSiz

/-- Where the components lead to from inode `i`. -/
def resolve (f : Nat → Inode) (i : Nat) : List (List UInt8) → Option Nat
  | [] => some i
  | name :: rest =>
    if (f i).type = tDir then
      match find (f i).dents name with
      | none => none
      | some (_, next) => resolve f next rest
    else none

/-- The directory that the last component is to be looked up in. -/
def resolveParent (f : Nat → Inode) (i : Nat) (names : List (List UInt8)) : Option Nat :=
  if names = [] then none
  else (resolve f i names.dropLast).filter fun dp => (f dp).type = tDir

section Split

def words (c : List UInt8) : List (List UInt8) :=
  (c.splitOn slash).filter (· ≠ [])

theorem words_slash (c : List UInt8) : words (slash :: c) = words c := by
  have hsplit : (slash :: c).splitOn slash = [[]] ++ c.splitOn slash :=
    List.splitOnP_append_cons [] c (beq_self_eq_true slash)
  rw [words, hsplit, List.filter_append]
  rfl

theorem words_dropWhile (c : List UInt8) : words (c.dropWhile (· = slash)) = words c := by
  induction c with
  | nil => rfl
  | cons x c ih =>
    by_cases hx : x = slash
    · subst hx
      rw [List.dropWhile_cons_of_pos (by simp), ih, words_slash]
    · rw [List.dropWhile_cons_of_neg (by simpa using hx)]

theorem words_word (hw : w ≠ []) (hs : slash ∉ w) (hr : r.headD slash = slash) :
    words (w ++ r) = w :: words r := by
  have hone : w.splitOn slash = [w] := List.splitOn_eq_singleton hs
  cases r with
  | nil =>
    rw [List.append_nil, words, hone]
    simp [hw, words]
  | cons x r =>
    obtain rfl : x = slash := hr
    have hsplit : (w ++ slash :: r).splitOn slash = w.splitOn slash ++ r.splitOn slash :=
      List.splitOnP_append_cons w r (beq_self_eq_true slash)
    rw [words_slash, words, hsplit, hone, List.filter_append]
    simp [hw, words]

def text (path : List UInt8) : List UInt8 :=
  path.takeWhile (· ≠ 0)

theorem components_eq (path : List UInt8) :
    components path = (words (text path)).map fun w => w.take dirSiz :=
  rfl

theorem text_dropWhile (path : List UInt8) :
    text (path.dropWhile (· = slash)) = (text path).dropWhile (· = slash) := by
  induction path with
  | nil => rfl
  | cons x path ih =>
    by_cases hx : x = slash
    · subst hx
      rw [List.dropWhile_cons_of_pos (by simp), ih, text, text,
        List.takeWhile_cons_of_pos (by decide), List.dropWhile_cons_of_pos (by simp)]
    · rw [List.dropWhile_cons_of_neg (by simpa using hx), text]
      by_cases h0 : x = 0
      · rw [List.takeWhile_cons_of_neg (by simpa using h0)]
        rfl
      · rw [List.takeWhile_cons_of_pos (by simpa using h0),
          List.dropWhile_cons_of_neg (by simpa using hx)]

theorem components_dropWhile (path : List UInt8) :
    components (path.dropWhile (· = slash)) = components path := by
  rw [components_eq, components_eq, text_dropWhile, words_dropWhile]

theorem text_eq_nil (h : path.headD 0 = 0) : text path = [] := by
  cases path with
  | nil => rfl
  | cons x path =>
    obtain rfl : x = 0 := h
    rfl

theorem components_eq_nil (h : path.headD 0 = 0) : components path = [] := by
  rw [components_eq, text_eq_nil h]
  rfl

theorem text_append (h : 0 ∉ w) (path : List UInt8) : text (w ++ path) = w ++ text path := by
  rw [text, List.takeWhile_append_of_pos]
  · rfl
  · intro x hx
    exact decide_eq_true fun he => h (he ▸ hx)

theorem components_word (hw : w ≠ []) (hs : slash ∉ w) (h0 : 0 ∉ w)
    (hr : rest.headD 0 = slash ∨ rest.headD 0 = 0) :
    components (w ++ rest) = w.take dirSiz :: components rest := by
  have hhead : (text rest).headD slash = slash := by
    rcases hr with hr | hr
    · cases rest with
      | nil => rfl
      | cons x rest =>
        obtain rfl : x = slash := hr
        rw [text, List.takeWhile_cons_of_pos (by decide)]
        rfl
    · rw [text_eq_nil hr]
      rfl
  rw [components_eq, components_eq, text_append h0, words_word hw hs hhead, List.map_cons]

theorem mem_word (h : c ∈ word path) : c ≠ slash ∧ c ≠ 0 := by
  have hc := List.mem_takeWhile_imp (p := fun c => c ≠ slash ∧ c ≠ 0) h
  simpa using hc

theorem drop_word (path : List UInt8) :
    path.drop (word path).length = path.dropWhile fun c => c ≠ slash ∧ c ≠ 0 := by
  have hsplit := List.takeWhile_append_dropWhile (p := fun c => c ≠ slash ∧ c ≠ 0) (l := path)
  have hdrop : (word path ++ path.dropWhile fun c => c ≠ slash ∧ c ≠ 0).drop (word path).length =
      path.dropWhile fun c => c ≠ slash ∧ c ≠ 0 := List.drop_left
  rwa [word, hsplit] at hdrop

theorem word_ne_nil (hs : path.headD 0 ≠ slash) (h0 : path.headD 0 ≠ 0) : word path ≠ [] := by
  cases path with
  | nil => exact absurd rfl h0
  | cons x path =>
    have hx : decide (x ≠ slash ∧ x ≠ 0) = true := decide_eq_true ⟨hs, h0⟩
    simp only [word, List.takeWhile_cons, hx, ↓reduceIte]
    exact List.cons_ne_nil x _

theorem components_cons (hs : path.headD 0 ≠ slash) (h0 : path.headD 0 ≠ 0) :
    components path = (word path).take dirSiz :: components (path.drop (word path).length) := by
  have hsplit : word path ++ path.drop (word path).length = path := by
    rw [drop_word]
    exact List.takeWhile_append_dropWhile
  have hrest : (path.drop (word path).length).headD 0 = slash ∨
      (path.drop (word path).length).headD 0 = 0 := by
    have hhead := List.head?_dropWhile_not (fun c => c ≠ slash ∧ c ≠ 0) path
    rw [drop_word]
    cases hd : path.dropWhile fun c => c ≠ slash ∧ c ≠ 0 with
    | nil => exact .inr rfl
    | cons x rest =>
      rw [hd] at hhead
      have hx : ¬(x ≠ slash ∧ x ≠ 0) := by simpa using hhead
      rwa [not_and_or, not_not, not_not] at hx
  have hword := components_word (word_ne_nil hs h0) (fun h => (mem_word h).1 rfl) (fun h => (mem_word h).2 rfl) hrest
  rwa [hsplit] at hword

theorem headD_dropWhile (path : List UInt8) : (path.dropWhile (· = slash)).headD 0 ≠ slash := by
  have hhead := List.head?_dropWhile_not (· = slash) path
  cases hd : path.dropWhile (· = slash) with
  | nil => decide
  | cons x rest =>
    rw [hd] at hhead
    simpa using hhead

theorem key_long {w : List UInt8} (h : dirSiz ≤ w.length) (h0 : 0 ∉ w) (x : List UInt8) :
    key (w.take dirSiz ++ x) = w.take dirSiz := by
  have hlen : (w.take dirSiz).length = dirSiz := List.length_take_of_le h
  rw [key, List.take_left' hlen, List.takeWhile_eq_self_iff]
  intro c hc
  exact decide_eq_true fun he => h0 (he ▸ List.mem_of_mem_take hc)

theorem key_short {w : List UInt8} (h : w.length < dirSiz) (h0 : 0 ∉ w) (x : List UInt8) :
    key (w ++ 0 :: x) = w.take dirSiz := by
  obtain ⟨k, hk⟩ := Nat.exists_eq_add_of_lt h
  rw [key, List.take_of_length_le (Nat.le_of_lt h), List.take_append,
    List.take_of_length_le (Nat.le_of_lt h), List.takeWhile_append_of_pos,
    show dirSiz - w.length = k + 1 by omega, List.take_succ_cons,
    List.takeWhile_cons_of_neg (by decide), List.append_nil]
  intro c hc
  exact decide_eq_true fun he => h0 (he ▸ hc)

theorem skipelem_none (h : skipelem path name = none) : components path = [] := by
  rw [skipelem] at h
  dsimp only at h
  split at h
  · next hq => rw [← components_dropWhile, components_eq_nil hq]
  · cases h

theorem skipelem_some (h : skipelem path name = some (rest, name')) :
    components path = key name' :: components rest ∧ rest.length < path.length ∧
      (rest.headD 0 = 0 ↔ components rest = []) := by
  have hlen := (path.dropWhile_sublist (· = slash)).length_le
  have hs := headD_dropWhile path
  rw [skipelem] at h
  dsimp only at h
  rw [← components_dropWhile path]
  generalize path.dropWhile (· = slash) = q at h hlen hs
  split at h
  · cases h
  next h0 =>
  rw [Option.some.injEq, Prod.mk.injEq] at h
  obtain ⟨rfl, rfl⟩ := h
  have hcons := components_cons hs h0
  have hzero : 0 ∉ word q := fun h => (mem_word h).2 rfl
  refine ⟨?_, ?_, ?_⟩
  · rw [hcons, ← components_dropWhile (q.drop _)]
    congr 1
    split
    · next hle => exact (key_long hle hzero _).symm
    · next hlt => exact (key_short (Nat.lt_of_not_le hlt) hzero _).symm
  · have hsub := ((q.drop (word q).length).dropWhile_sublist (· = slash)).length_le
    have hpos := List.length_pos_of_ne_nil (word_ne_nil hs h0)
    have hle : (word q).length ≤ q.length := (List.takeWhile_sublist _).length_le
    rw [List.length_drop] at hsub
    omega
  · have hs' := headD_dropWhile (q.drop (word q).length)
    constructor
    · exact components_eq_nil
    · intro hnil
      by_contra h0'
      rw [components_cons hs' h0'] at hnil
      cases hnil

end Split

/-- An inode that exists, and is not freed when a new reference is dropped. -/
structure Alive (s : St) (i : Nat) : Prop where
  type : (s.inode i).type ≠ 0
  kept : (s.inode i).nlink ≠ 0 ∨ s.ref i ≠ 0

/-- The root and what directories name are inodes. -/
structure Graph (s : St) : Prop where
  root : Alive s rootIno
  named : ∀ d, (s.inode d).type = tDir → ∀ de ∈ (s.inode d).dents, de.inum ≠ 0 → Alive s de.inum

/-- Only cached copies and the references in `l` have changed since `s`. -/
structure Took (s t : St) (l : List Nat) : Prop where
  same : Same s t
  ref : ∀ j, t.ref j = s.ref j + l.count j

section Loop
variable {s t : St} {i : Nat} {l : List Nat}

theorem Took.iget (h : Took s t l) (i : Nat) : Took s (iget t i) (i :: l) := by
  refine ⟨h.same.trans (same_iget t i), ?_⟩
  intro j
  have hj := h.ref j
  by_cases hji : j = i
  · subst hji
    simp only [Sys.iget, Function.update_self, List.count_cons_self]
    omega
  · simp only [Sys.iget, Function.update_of_ne hji, List.count_cons_of_ne (Ne.symm hji), hj]

theorem Took.idup (h : Took s t l) (i : Nat) : Took s (idup t i) (i :: l) :=
  ⟨h.same.trans (same_idup t i), (h.iget i).ref⟩

theorem Took.ilock (h : Took s t l) (ha : Alive s i) : ∃ t', ilock t i = .ok t' ∧ Took s t' l := by
  rw [Sys.ilock]
  split
  · exact ⟨t, rfl, h⟩
  · rw [if_neg (by rw [h.same.inode]; exact ha.type)]
    exact ⟨_, rfl, ⟨h.same.ninodes, h.same.inode, h.same.held⟩, h.ref⟩

theorem Took.iput (h : Took s t (i :: l)) (ha : Alive s i) : Took s (iput t i) l := by
  have hi := h.ref i
  rw [List.count_cons_self] at hi
  have hkeep : ¬(t.valid i = true ∧ (t.inode i).nlink = 0 ∧ t.ref i = 1) := by
    rintro ⟨-, hl, hr⟩
    rw [h.same.inode] at hl
    rcases ha.kept with hk | hk
    · exact hk hl
    · omega
  rw [Sys.iput, if_neg hkeep]
  refine ⟨⟨h.same.ninodes, h.same.inode, h.same.held⟩, ?_⟩
  intro j
  have hj := h.ref j
  by_cases hji : j = i
  · subst hji
    simp only [Function.update_self]
    omega
  · rw [List.count_cons_of_ne (Ne.symm hji)] at hj
    simp only [Function.update_of_ne hji, hj]

theorem Took.perm (h : Took s t l) (hp : l.Perm l') : Took s t l' :=
  ⟨h.same, fun j => by rw [h.ref j, hp.count_eq]⟩

theorem Graph.find (g : Graph s) (hd : (s.inode i).type = tDir)
    (hf : find (s.inode i).dents name = some (k, j)) : Alive s j := by
  obtain ⟨rfl, hne, -⟩ := find_some hf
  have hlt := lt_of_inum_ne hne
  rw [entry_of_lt hlt] at hne ⊢
  exact g.named i hd _ (List.getElem_mem hlt) hne

theorem key_key (name : List UInt8) : key (key name) = key name := by
  have hlen : (key name).length ≤ dirSiz := by
    have htake := (List.takeWhile_sublist (· ≠ 0) (l := name.take dirSiz)).length_le
    rw [List.length_take] at htake
    exact Nat.le_trans htake (Nat.min_le_left _ _)
  rw [key, List.take_of_length_le hlen, List.takeWhile_eq_self_iff]
  intro c hc
  have hne := List.mem_takeWhile_imp hc
  simpa using hne

/-- Names are compared as far as the array of an entry goes. -/
theorem find_key (dents : List Dirent) (name : List UInt8) :
    Fs.find dents name = Fs.find dents (key name) := by
  have hcmp (de : Dirent) : namecmp name de.name = 0 ↔ namecmp (key name) de.name = 0 := by
    rw [namecmp_eq_zero, namecmp_eq_zero, key_key]
  simp only [Fs.find, hcmp]

/-- What the loop of `namex` is to return. -/
def target (parent : Bool) (f : Nat → Inode) (i : Nat) (names : List (List UInt8)) : Option Nat :=
  if parent then resolveParent f i names else resolve f i names

theorem resolve_cons (hd : (f i).type = tDir) (name : List UInt8) (rest : List (List UInt8)) :
    resolve f i (name :: rest) =
      (Fs.find (f i).dents name).bind fun x => resolve f x.2 rest := by
  rw [resolve, if_pos hd]
  cases Fs.find (f i).dents name <;> rfl

theorem target_nil (parent : Bool) (f : Nat → Inode) (i : Nat) :
    target parent f i [] = if parent then none else some i := by
  cases parent <;> rfl

theorem target_file (h : (f i).type ≠ tDir) (parent : Bool) (name : List UInt8)
    (rest : List (List UInt8)) : target parent f i (name :: rest) = none := by
  cases parent with
  | false => exact if_neg h
  | true =>
    cases rest with
    | nil => simp [target, resolveParent, resolve, h]
    | cons n rest => simp [target, resolveParent, resolve, h]

theorem target_last (hd : (f i).type = tDir) (name : List UInt8) :
    target true f i [name] = some i := by
  simp [target, resolveParent, resolve, hd]

theorem target_dir (parent : Bool) (hd : (f i).type = tDir) (hp : ¬(parent = true ∧ rest = []))
    (name : List UInt8) : target parent f i (name :: rest) =
      (Fs.find (f i).dents name).bind fun x => target parent f x.2 rest := by
  cases parent with
  | false => exact resolve_cons hd name rest
  | true =>
    have hne : rest ≠ [] := fun hr => hp ⟨rfl, hr⟩
    simp only [target, resolveParent, ↓reduceIte, List.cons_ne_nil, hne,
      List.dropLast_cons_of_ne_nil hne, resolve_cons hd]
    cases Fs.find (f i).dents name <;> rfl

/-- The loop of `namex` ends, with what the components lead to and a reference to it. -/
theorem namexLoop_spec (g : Graph s) (ht : Took s t [i]) (ha : Alive s i)
    (hfuel : path.length < fuel) (name : List UInt8) :
    ∃ t' r name', namexLoop parent fuel t i path name = .ok (t', r, name') ∧
      r = target parent s.inode i (components path) ∧ Took s t' r.toList ∧
      (parent = true → r ≠ none → (components path).getLast? = some (key name')) := by
  induction fuel generalizing t i path name with
  | zero => cases hfuel
  | succ fuel ih =>
    rw [namexLoop]
    cases hs : skipelem path name with
    | none =>
      rw [skipelem_none hs, target_nil]
      dsimp only
      cases parent with
      | false => exact ⟨t, some i, name, rfl, rfl, ht, nofun⟩
      | true => exact ⟨_, none, name, rfl, rfl, ht.iput ha, fun _ h => absurd rfl h⟩
    | some x =>
      obtain ⟨rest, name'⟩ := x
      obtain ⟨hcons, hlen, hlast⟩ := skipelem_some hs
      obtain ⟨t₁, hl, ht₁⟩ := ht.ilock ha
      dsimp only
      rw [hl, ok_bind, hcons, ht₁.same.inode]
      split
      · next hd =>
        rw [target_file hd]
        exact ⟨_, none, name', rfl, rfl, ht₁.iput ha, fun _ h => absurd rfl h⟩
      next hd =>
      have hd := not_not.1 hd
      split
      · next hp =>
        rw [hlast] at hp
        rw [hp.1, hp.2, target_last hd]
        exact ⟨t₁, some i, name', rfl, rfl, ht₁, fun _ _ => rfl⟩
      next hp =>
      rw [hlast] at hp
      rw [target_dir parent hd hp, ← find_key, dirlookup, ht₁.same.inode, if_neg (not_not.2 hd)]
      cases hf : Fs.find (s.inode i).dents name' with
      | none => exact ⟨_, none, name', rfl, rfl, ht₁.iput ha, fun _ h => absurd rfl h⟩
      | some x =>
        obtain ⟨k, next⟩ := x
        have htook : Took s (iput (iget t₁ next) i) [next] :=
          ((ht₁.iget next).perm (List.Perm.swap i next [])).iput ha
        have hfuel' : rest.length < fuel := by omega
        obtain ⟨t', r, name'', ho, hr, ht', hname⟩ := ih htook (g.find hd hf) hfuel' name'
        refine ⟨t', r, name'', ho, hr, ht', ?_⟩
        intro hpar hne
        have hrest : components rest ≠ [] := fun hnil => hp ⟨hpar, hnil⟩
        rw [List.getLast?_cons_of_ne_nil hrest]
        exact hname hpar hne

theorem namex_spec (parent : Bool) (g : Graph s) (hcwd : Alive s cwd) (hfuel : path.length < fuel)
    (name : List UInt8) :
    ∃ t r name', namex parent fuel s cwd path name = .ok (t, r, name') ∧
      r = target parent s.inode (start cwd path) (components path) ∧ Took s t r.toList ∧
      (parent = true → r ≠ none → (components path).getLast? = some (key name')) := by
  have hs : Took s s [] := ⟨Same.refl s, fun _ => rfl⟩
  rw [namex, start]
  split
  · exact namexLoop_spec g (hs.iget rootIno) g.root hfuel name
  · exact namexLoop_spec g (hs.idup cwd) hcwd hfuel name

theorem resolve_of_parent (h : resolveParent f i names = some dp) (hl : names.getLast? = some c) :
    resolve f i names = (Fs.find (f dp).dents c).map Prod.snd := by
  induction names generalizing i with
  | nil => cases hl
  | cons name rest ih =>
    by_cases hd : (f i).type = tDir
    · by_cases hr : rest = []
      · subst hr
        have hp := target_last hd name
        rw [target, if_pos rfl] at hp
        obtain rfl := Option.some.inj (h.symm.trans hp)
        rw [List.getLast?_singleton] at hl
        obtain rfl := Option.some.inj hl
        rw [resolve_cons hd]
        cases Fs.find (f dp).dents name <;> rfl
      · have hp := target_dir true hd (fun hp => hr hp.2) name
        rw [target, if_pos rfl, h] at hp
        obtain ⟨x, hx, hpar⟩ := Option.bind_eq_some_iff.1 hp.symm
        rw [List.getLast?_cons_of_ne_nil hr] at hl
        rw [resolve_cons hd, hx, Option.bind_some]
        exact ih hpar hl
    · have hp := target_file hd true name rest
      rw [target, if_pos rfl, h] at hp
      cases hp

end Loop

/-- A path names what its components lead to, its parent what all but the last do; the only
reference taken is to the result. -/
theorem namei_resolves (g : Graph s) (hcwd : Alive s cwd) (hfuel : path.length < fuel)
    (name : List UInt8) :
    (∃ t, namei fuel s cwd path name =
        .ok (t, resolve s.inode (start cwd path) (components path)) ∧
      Took s t (resolve s.inode (start cwd path) (components path)).toList) ∧
    ∃ t r name', nameiparent fuel s cwd path name = .ok (t, r, name') ∧
      r = resolveParent s.inode (start cwd path) (components path) ∧ Took s t r.toList ∧
      ∀ dp, r = some dp → (components path).getLast? = some (key name') ∧
        resolve s.inode (start cwd path) (components path) =
          (find (s.inode dp).dents name').map Prod.snd := by
  constructor
  · obtain ⟨t, r, name', ho, rfl, ht, -⟩ := namex_spec false g hcwd hfuel name
    refine ⟨t, ?_, ht⟩
    rw [namei, ho]
    rfl
  · obtain ⟨t, r, name', ho, hr, ht, hlast⟩ := namex_spec true g hcwd hfuel name
    refine ⟨t, r, name', ho, hr, ht, ?_⟩
    rintro dp rfl
    have hname := hlast rfl nofun
    refine ⟨hname, ?_⟩
    rw [find_key]
    exact resolve_of_parent hr.symm hname

def usrFs : St where
  ninodes := 8
  inode i :=
    if i = 1 then ⟨tDir, 0, 0, 1, [⟨1, [46]⟩, ⟨1, [46, 46]⟩, ⟨2, [117, 115, 114]⟩]⟩
    else if i = 2 then ⟨tDir, 0, 0, 1, [⟨2, [46]⟩, ⟨1, [46, 46]⟩, ⟨3, [97]⟩]⟩
    else if i = 3 then ⟨tFile, 0, 0, 1, []⟩
    else ⟨0, 0, 0, 0, []⟩
  ref i := if i = rootIno then 1 else 0
  valid _ := false
  held
    | .cwd 0 => some rootIno
    | _ => none

theorem alive_usrFs (h : i = 1 ∨ i = 2 ∨ i = 3) : Alive usrFs i := by
  rcases h with rfl | rfl | rfl
  · exact ⟨by decide, .inl (by decide)⟩
  · exact ⟨by decide, .inl (by decide)⟩
  · exact ⟨by decide, .inl (by decide)⟩

theorem graph_usrFs : Graph usrFs := by
  refine ⟨alive_usrFs (.inl rfl), ?_⟩
  intro d hd de hde _
  apply alive_usrFs
  by_cases h1 : d = 1
  · subst h1
    have hnames : ∀ de ∈ (usrFs.inode 1).dents, de.inum = 1 ∨ de.inum = 2 ∨ de.inum = 3 := by decide
    exact hnames de hde
  by_cases h2 : d = 2
  · subst h2
    have hnames : ∀ de ∈ (usrFs.inode 2).dents, de.inum = 1 ∨ de.inum = 2 ∨ de.inum = 3 := by decide
    exact hnames de hde
  simp only [usrFs, if_neg h1, if_neg h2] at hde
  split at hde <;> cases hde

/-- The path `//usr/./a/` names inode 3. -/
theorem namei_resolves_usrFs :
    ∃ t, namei 16 usrFs 1 [47, 47, 117, 115, 114, 47, 46, 47, 97, 47] [] = .ok (t, some 3) ∧
      Took usrFs t [3] :=
  (namei_resolves graph_usrFs (alive_usrFs (.inl rfl)) (by decide) []).1

end Xv6.Sys.Resolve
