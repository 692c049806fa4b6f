import Xv6.Dir.Machine

namespace Xv6.Dir
open Lib Fs Function
set_option autoImplicit true

variable {s s' : St} {p q : Pid} {x : Pc} {op : Op} {res : Res} {dents dents' dents₀ : List Dirent}
variable {name k : List UInt8} {off i inum : Nat} {m m' : List UInt8 → Option Nat} {ok : Bool}

/-- A directory as a finite map from names, cut to `DIRSIZ` bytes. -/
def spec (m : List UInt8 → Option Nat) : Op → (List UInt8 → Option Nat) × Res
  | .dirlookup name =>
    match m (key name) with
    | some i => (m, .present i)
    | none => (m, .absent)
  | .create name inum | .link name inum =>
    match m (key name) with
    | some i => (m, .present i)
    | none => (update m (key name) (some inum), .inserted inum)
  | .unlink name ok =>
    if key name = [46] ∨ key name = [46, 46] then (m, .refused)
    else
      match m (key name) with
      | some i =>
        if ok then (update m (key name) none, .removed i) else (m, .refused)
      | none => (m, .absent)

/-- The entry of a history that sets or removes name `k`. -/
def effect (k : List UInt8) (e : Pid × Op × Res) : Option (Option Nat) :=
  if key e.2.1.name = k then
    match e.2.2 with
    | .inserted i => some (some i)
    | .removed _ => some none
    | _ => none
  else none

/-- The last insertion or removal of name `k`. -/
def lastEffect (k : List UInt8) (hist : List (Pid × Op × Res)) : Option (Option Nat) :=
  hist.reverse.findSome? (effect k)

theorem lastEffect_snoc (k : List UInt8) (hist : List (Pid × Op × Res)) (e : Pid × Op × Res) :
    lastEffect k (hist ++ [e]) = (effect k e).or (lastEffect k hist) := by
  rw [lastEffect, List.reverse_append, List.reverse_singleton, List.singleton_append,
    List.findSome?_cons, lastEffect]
  cases effect k e with
  | none => rfl
  | some o => rfl

theorem update_getD (m : List UInt8 → Option Nat) (a k : List UInt8) (o : Option Nat) :
    update m a o k = (if a = k then some o else none).getD (m k) := by
  split
  · next h => rw [h, update_self, Option.getD_some]
  · next h => rw [update_of_ne (Ne.symm h), Option.getD_none]

theorem spec_effect (h : spec m op = (m', res)) (p : Pid) (k : List UInt8) :
    m' k = (effect k (p, op, res)).getD (m k) := by
  cases op with
  | dirlookup name =>
    simp only [spec] at h
    split at h
    · cases h
      simp only [effect, ite_self, Option.getD_none]
    · cases h
      simp only [effect, ite_self, Option.getD_none]
  | create name inum | link name inum =>
    simp only [spec] at h
    split at h
    · cases h
      simp only [effect, ite_self, Option.getD_none]
    · cases h
      exact update_getD m (key name) k (some inum)
  | unlink name ok =>
    simp only [spec] at h
    split at h
    · cases h
      simp only [effect, ite_self, Option.getD_none]
    · split at h
      · split at h
        · cases h
          exact update_getD m (key name) k none
        · cases h
          simp only [effect, ite_self, Option.getD_none]
      · cases h
        simp only [effect, ite_self, Option.getD_none]

theorem sequential_lastEffect {hist : List (Pid × Op × Res)} {m₀ : List UInt8 → Option Nat}
    (h : Sequential spec m₀ hist m) (k : List UInt8) :
    m k = (lastEffect k hist).getD (m₀ k) := by
  induction h with
  | nil => rfl
  | snoc _ ho ih =>
    rw [spec_effect ho, lastEffect_snoc]
    cases effect k _ with
    | none => exact ih
    | some o => rfl

def Pc.holds : Pc → Bool
  | .idle | .start _ => false
  | _ => true

def Pc.operation : Pc → Option Op
  | .idle => none
  | .start op | .locked op | .dirlink op _ | .write op _ _ | .check op _ _ _ | .clear op _ _
  | .unlock op _ => some op

/-- An operation that has taken effect and has not returned. -/
def Pc.pending : Pc → List (Op × Res)
  | .unlock op res => [(op, res)]
  | _ => []

def Op.Adds (op : Op) (inum : Nat) : Prop :=
  (∃ name, op = .create name inum ∨ op = .link name inum) ∧ inum ≠ 0 ∧ inum < 2 ^ 16

def Op.Proper : Op → Prop
  | .create _ inum | .link _ inum => inum ≠ 0 ∧ inum < 2 ^ 16
  | _ => True

def Removes (dents : List Dirent) (op : Op) (ok : Bool) (off i : Nat) : Prop :=
  ∃ name, op = .unlink name ok ∧ ¬(key name = [46] ∨ key name = [46, 46]) ∧
    find dents name = some (off, i)

/-- What a process knows of the directory. -/
def Knows (dents : List Dirent) : Pc → Prop
  | .idle | .unlock _ _ => True
  | .start op | .locked op => op.Proper
  | .dirlink op inum => op.Adds inum ∧ (op.isCreate = true → find dents op.name = none)
  | .write op inum off =>
    op.Adds inum ∧ find dents op.name = none ∧ off = emptySlot dents
  | .check op ok off i => Removes dents op ok off i
  | .clear op off i => Removes dents op true off i

theorem Knows.of_not_holds (h : Knows dents x) (hx : x.holds = false) : Knows dents' x := by
  cases x with
  | idle => trivial
  | start op => exact h
  | _ => cases hx

/-- The directory is the map that its history makes of the first one. -/
structure Inv (dents₀ : List Dirent) (s : St) : Prop where
  distinct : Distinct s.dents
  lock : Tracks s.holder Pc.holds s.pc
  knows : ∀ p, Knows s.dents (s.pc p)
  map : ∃ m, Sequential spec (lookup dents₀) s.hist m ∧ ∀ name, lookup s.dents name = m (key name)
  linear : Linearizes s.hist s.returned fun p => (s.pc p).pending

theorem inv_boot (h : Distinct dents₀) : Inv dents₀ (boot dents₀) := by
  refine ⟨h, ?_, fun _ => trivial, ⟨_, .nil, ?_⟩, fun _ => rfl⟩
  · intro p
    simp [boot, Pc.holds]
  · intro name
    exact lookup_congr (key_key name).symm

theorem knows_update (h : Inv dents₀ s) (hx : Knows dents' x)
    (he : dents' = s.dents ∨ (s.pc p).holds = true) (q : Pid) :
    Knows dents' (update s.pc p x q) := by
  by_cases hq : q = p
  · subst hq
    rw [update_self]
    exact hx
  · rw [update_of_ne hq]
    rcases he with rfl | he
    · exact h.knows q
    · apply (h.knows q).of_not_holds
      cases hh : (s.pc q).holds with
      | false => rfl
      | true => exact absurd (h.lock.unique hh he) hq

theorem Inv.goto (h : Inv dents₀ s) (hh : x.holds = (s.pc p).holds) (hk : Knows s.dents x)
    (hp : x.pending = (s.pc p).pending) : Inv dents₀ (s.goto p x) := by
  refine ⟨h.distinct, h.lock.keep rfl hh, knows_update h hk (.inl rfl), h.map, ?_⟩
  exact h.linear.keep (proj_update Pc.pending s.pc hp)

/-- The operation that holds the lock takes effect as the map's. -/
theorem Inv.finish (h : Inv dents₀ s) (hh : (s.pc p).holds = true)
    (hp : (s.pc p).pending = []) (hd : Distinct dents')
    (hm : ∀ m, (∀ name, lookup s.dents name = m (key name)) →
      ∃ m', spec m op = (m', res) ∧ ∀ name, lookup dents' name = m' (key name)) :
    Inv dents₀ (s.finish p op res dents') := by
  obtain ⟨m, hs, hl⟩ := h.map
  obtain ⟨m', ho, hl'⟩ := hm m hl
  refine ⟨hd, h.lock.keep rfl hh.symm, knows_update h trivial (.inr hh), ⟨m', hs.snoc ho, hl'⟩, ?_⟩
  apply h.linear.take hp
  · simp only [St.finish, St.goto, update_self]
    rfl
  · intro q hq
    simp only [St.finish, St.goto, update_of_ne hq]

theorem spec_read (h : ∀ name, lookup dents name = m (key name)) (ho : spec m op = (m, res)) :
    ∃ m', spec m op = (m', res) ∧ ∀ name, lookup dents name = m' (key name) :=
  ⟨m, ho, h⟩

theorem Inv.found (h : Inv dents₀ s) (hh : (s.pc p).holds = true)
    (hp : (s.pc p).pending = []) (hop : ∀ name ok, op ≠ .unlink name ok)
    (hf : find s.dents op.name = some (off, i)) :
    Inv dents₀ (s.finish p op (.present i) s.dents) := by
  apply h.finish hh hp h.distinct
  intro m hm
  apply spec_read hm
  have hk : m (key op.name) = some i := by rw [← hm, lookup_of_find hf]
  cases op with
  | unlink name ok => exact absurd rfl (hop name ok)
  | _ =>
    simp only [Op.name] at hk
    simp only [spec, hk]

theorem Inv.insert (h : Inv dents₀ s) (hh : (s.pc p).holds = true)
    (hp : (s.pc p).pending = []) (ha : op.Adds inum) (hf : find s.dents op.name = none) :
    Inv dents₀ (s.finish p op (.inserted inum)
      (putDirent s.dents (emptySlot s.dents) ⟨inum % 2 ^ 16, strncpy dirSiz op.name⟩)) := by
  obtain ⟨⟨name, hop⟩, hi0, hi⟩ := ha
  rw [Nat.mod_eq_of_lt hi]
  have hl := lookup_eq_none.2 hf
  have hlen := emptySlot_le s.dents
  have hkey : key (strncpy dirSiz op.name) = key op.name := key_strncpy op.name
  apply h.finish hh hp (h.distinct.insert hl hlen hkey)
  intro m hm
  have hk : m (key op.name) = none := by rw [← hm, hl]
  refine ⟨update m (key op.name) (some inum), ?_, ?_⟩
  · rcases hop with rfl | rfl
    · simp only [Op.name] at hk ⊢
      simp only [spec, hk]
    · simp only [Op.name] at hk ⊢
      simp only [spec, hk]
  · intro name
    rw [h.distinct.lookup_insert hl hlen (entry_emptySlot _) hi0 hkey]
    split
    · next he => rw [he, update_self]
    · next he => rw [update_of_ne he, hm]

theorem Inv.remove (h : Inv dents₀ s) (hh : (s.pc p).holds = true)
    (hp : (s.pc p).pending = []) (hr : Removes s.dents op true off i) :
    Inv dents₀ (s.finish p op (.removed i) (putDirent s.dents off .zero)) := by
  obtain ⟨name, rfl, hdots, hf⟩ := hr
  apply h.finish hh hp (h.distinct.remove hf)
  intro m hm
  have hk : m (key name) = some i := by rw [← hm, lookup_of_find hf]
  refine ⟨update m (key name) none, ?_, ?_⟩
  · simp only [spec, hdots, hk, ↓reduceIte]
  · intro name
    rw [h.distinct.lookup_remove hf]
    split
    · next he => rw [he, update_self]
    · next he => rw [update_of_ne he, hm]

theorem dots_iff (name : List UInt8) : namecmp name [46] = 0 ∨ namecmp name [46, 46] = 0 ↔
    key name = [46] ∨ key name = [46, 46] := by
  rw [namecmp_eq_zero, namecmp_eq_zero]
  rfl

theorem Inv.locked (h : Inv dents₀ s) (hpc : s.pc p = .locked op)
    (ho : procStep s p = .ok s') : Inv dents₀ s' := by
  have hproper : op.Proper := by
    have hk := h.knows p
    rwa [hpc] at hk
  have hh : (s.pc p).holds = true := by rw [hpc]; rfl
  have hp : (s.pc p).pending = [] := by rw [hpc]; rfl
  rw [procStep, hpc] at ho
  cases op with
  | dirlookup name =>
    simp only at ho
    split at ho
    · next off i hf =>
      cases ho
      exact h.found hh hp nofun hf
    · next hf =>
      cases ho
      apply h.finish hh hp h.distinct
      intro m hm
      apply spec_read hm
      have hk : m (key name) = none := by rw [← hm, lookup_eq_none.2 hf]
      simp only [spec, hk]
  | create name inum =>
    simp only at ho
    split at ho
    · next off i hf =>
      cases ho
      exact h.found hh hp nofun hf
    · next hf =>
      cases ho
      exact h.goto hh.symm ⟨⟨⟨name, .inl rfl⟩, hproper⟩, fun _ => hf⟩ hp.symm
  | link name inum =>
    cases ho
    exact h.goto hh.symm ⟨⟨⟨name, .inr rfl⟩, hproper⟩, nofun⟩ hp.symm
  | unlink name ok =>
    simp only at ho
    split at ho
    · next hd =>
      cases ho
      rw [dots_iff] at hd
      apply h.finish hh hp h.distinct
      intro m hm
      apply spec_read hm
      simp only [spec, hd, ↓reduceIte]
    · next hd =>
      rw [dots_iff] at hd
      split at ho
      · next off i hf =>
        cases ho
        exact h.goto hh.symm ⟨name, rfl, hd, hf⟩ hp.symm
      · next hf =>
        cases ho
        apply h.finish hh hp h.distinct
        intro m hm
        apply spec_read hm
        have hk : m (key name) = none := by rw [← hm, lookup_eq_none.2 hf]
        simp only [spec, hd, hk, ↓reduceIte]

theorem Inv.procStep (h : Inv dents₀ s) (ho : procStep s p = .ok s') : Inv dents₀ s' := by
  cases hpc : s.pc p with
  | idle =>
    rw [Dir.procStep, hpc] at ho
    cases ho
  | start op =>
    have hk := h.knows p
    rw [hpc] at hk
    rw [Dir.procStep, hpc] at ho
    simp only at ho
    obtain ⟨hl, ho⟩ := if_ok ho
    cases ho
    have hlock := h.lock
    rw [hl] at hlock
    refine ⟨h.distinct, hlock.take rfl, knows_update h hk (.inl rfl), h.map, ?_⟩
    exact h.linear.keep (proj_update Pc.pending s.pc (by rw [hpc]; rfl))
  | locked op => exact h.locked hpc ho
  | dirlink op inum =>
    obtain ⟨ha, hc⟩ : Knows s.dents (.dirlink op inum) := by
      rw [← hpc]
      exact h.knows p
    have hh : (s.pc p).holds = true := by rw [hpc]; rfl
    have hp : (s.pc p).pending = [] := by rw [hpc]; rfl
    rw [Dir.procStep, hpc] at ho
    simp only at ho
    split at ho
    · next off i hf =>
      obtain ⟨-, ho⟩ := unless_ok ho
      cases ho
      apply h.found hh hp _ hf
      rintro name ok rfl
      obtain ⟨⟨_, he | he⟩, -⟩ := ha
      · cases he
      · cases he
    · next hf =>
      cases ho
      exact h.goto hh.symm ⟨ha, hf, rfl⟩ hp.symm
  | write op inum off =>
    obtain ⟨ha, hf, rfl⟩ : Knows s.dents (.write op inum off) := by
      rw [← hpc]
      exact h.knows p
    rw [Dir.procStep, hpc] at ho
    simp only at ho
    split at ho
    · cases ho
    · cases ho
      exact h.insert (by rw [hpc]; rfl) (by rw [hpc]; rfl) ha hf
  | check op ok off i =>
    have hr : Removes s.dents op ok off i := by
      have hk := h.knows p
      rwa [hpc] at hk
    have hh : (s.pc p).holds = true := by rw [hpc]; rfl
    have hp : (s.pc p).pending = [] := by rw [hpc]; rfl
    rw [Dir.procStep, hpc] at ho
    simp only at ho
    split at ho
    · next hok =>
      cases ho
      subst hok
      exact h.goto hh.symm hr hp.symm
    · next hok =>
      cases ho
      obtain ⟨name, rfl, hdots, hf⟩ := hr
      apply h.finish hh hp h.distinct
      intro m hm
      apply spec_read hm
      have hk : m (key name) = some i := by rw [← hm, lookup_of_find hf]
      simp only [spec, hdots, hk, hok, Bool.false_eq_true, ↓reduceIte]
  | clear op off i =>
    have hr : Removes s.dents op true off i := by
      have hk := h.knows p
      rwa [hpc] at hk
    rw [Dir.procStep, hpc] at ho
    cases ho
    exact h.remove (by rw [hpc]; rfl) (by rw [hpc]; rfl) hr
  | unlock op res =>
    rw [Dir.procStep, hpc] at ho
    cases ho
    refine ⟨h.distinct, h.lock.drop hpc rfl rfl, knows_update h trivial (.inl rfl),
      h.map, ?_⟩
    apply h.linear.ret
    · rw [hpc]
      rfl
    · simp only [St.goto, update_self]
      rfl
    · intro q hq
      simp only [St.goto, update_of_ne hq]

theorem Inv.step {e : Event} (h : Inv dents₀ s) (hl : legal s e = true)
    (ho : Dir.step s e = .ok s') : Inv dents₀ s' := by
  cases e with
  | call p op =>
    rw [Dir.step] at ho
    obtain ⟨hidle, ho⟩ := if_ok ho
    cases ho
    apply h.goto (by rw [hidle]; rfl) _ (by rw [hidle]; rfl)
    cases op with
    | create name inum | link name inum =>
      have hi : inum ≠ 0 ∧ inum < 2 ^ 16 := of_decide_eq_true hl
      exact hi
    | dirlookup name | unlink name ok => trivial
  | step p => exact h.procStep ho

theorem Inv.exec {es : List Event} (h₀ : Distinct dents₀)
    (hx : Exec Dir.step (fun s e => legal s e) (boot dents₀) es s) : Inv dents₀ s :=
  hx.invariant (inv_boot h₀) fun _ _ _ h hl ho => h.step hl ho

theorem hist_procStep (ho : procStep s p = .ok s') (hop : (s.pc p).operation = some op) :
    s'.hist = s.hist ∨ ∃ res, s'.hist = s.hist ++ [(p, op, res)] := by
  cases hpc : s.pc p with
  | idle =>
    rw [hpc] at hop
    cases hop
  | start op' =>
    rw [procStep, hpc] at ho
    simp only at ho
    obtain ⟨-, ho⟩ := if_ok ho
    cases ho
    exact .inl rfl
  | locked op' =>
    rw [hpc] at hop
    cases hop
    rw [procStep, hpc] at ho
    cases op with
    | dirlookup name =>
      simp only at ho
      split at ho
      · cases ho
        exact .inr ⟨_, rfl⟩
      · cases ho
        exact .inr ⟨_, rfl⟩
    | create name inum =>
      simp only at ho
      split at ho
      · cases ho
        exact .inr ⟨_, rfl⟩
      · cases ho
        exact .inl rfl
    | link name inum =>
      cases ho
      exact .inl rfl
    | unlink name ok =>
      simp only at ho
      split at ho
      · cases ho
        exact .inr ⟨_, rfl⟩
      · split at ho
        · cases ho
          exact .inl rfl
        · cases ho
          exact .inr ⟨_, rfl⟩
  | dirlink op' inum =>
    rw [hpc] at hop
    cases hop
    rw [procStep, hpc] at ho
    simp only at ho
    split at ho
    · split at ho
      · cases ho
      · cases ho
        exact .inr ⟨_, rfl⟩
    · cases ho
      exact .inl rfl
  | write op' inum off =>
    rw [hpc] at hop
    cases hop
    rw [procStep, hpc] at ho
    simp only at ho
    split at ho
    · cases ho
    · cases ho
      exact .inr ⟨_, rfl⟩
  | check op' ok off i =>
    rw [hpc] at hop
    cases hop
    rw [procStep, hpc] at ho
    simp only at ho
    split at ho
    · cases ho
      exact .inl rfl
    · cases ho
      exact .inr ⟨_, rfl⟩
  | clear op' off i =>
    rw [hpc] at hop
    cases hop
    rw [procStep, hpc] at ho
    cases ho
    exact .inr ⟨_, rfl⟩
  | unlock op' res =>
    rw [procStep, hpc] at ho
    cases ho
    exact .inl rfl

theorem Inv.lookup_eq (h : Inv dents₀ s) (name : List UInt8) :
    lookup s.dents name = (lastEffect (key name) s.hist).getD (lookup dents₀ name) := by
  obtain ⟨m, hs, hm⟩ := h.map
  rw [hm, sequential_lastEffect hs, lookup_congr (key_key name)]

theorem Inv.lookup_other (h : Inv dents₀ s) (hop : (s.pc p).operation = some op)
    (ho : Dir.procStep s p = .ok s') (hne : key name ≠ key op.name) :
    lookup s'.dents name = lookup s.dents name := by
  rw [h.lookup_eq, (h.procStep ho).lookup_eq]
  rcases hist_procStep ho hop with he | ⟨res, he⟩
  · rw [he]
  · rw [he, lastEffect_snoc, effect, if_neg (Ne.symm hne)]
    rfl

/-- Under the lock, `dirlink` does not find the name `create` has not found. -/
theorem Inv.create_dirlink (h : Inv dents₀ s) (p : Pid) :
    Dir.procStep s p ≠ .error (.panic "create: dirlink") := by
  intro ho
  cases hpc : s.pc p with
  | dirlink op inum =>
    obtain ⟨-, hc⟩ : Knows s.dents (.dirlink op inum) := by
      rw [← hpc]
      exact h.knows p
    rw [Dir.procStep, hpc] at ho
    simp only at ho
    split at ho
    · next hf =>
      split at ho
      · next hcreate =>
        rw [hc hcreate] at hf
        cases hf
      · cases ho
    · cases ho
  | locked op =>
    rw [Dir.procStep, hpc] at ho
    cases op with
    | dirlookup name | create name inum =>
      simp only at ho
      split at ho
      · cases ho
      · cases ho
    | link name inum => cases ho
    | unlink name ok =>
      simp only at ho
      split at ho
      · cases ho
      · split at ho
        · cases ho
        · cases ho
  | write op inum off =>
    rw [Dir.procStep, hpc] at ho
    simp only at ho
    split at ho
    · exact absurd ho (by simp)
    · cases ho
  | start op | check op ok off i =>
    rw [Dir.procStep, hpc] at ho
    simp only at ho
    split at ho
    · cases ho
    · cases ho
  | idle | clear op off i | unlock op res =>
    rw [Dir.procStep, hpc] at ho
    cases ho

/-- A directory is a finite map under any interleaving: names stay distinct, and each operation
takes effect once, between its call and its return. -/
theorem directory_is_map {es : List Event} (h₀ : Distinct dents₀)
    (hx : Exec Dir.step (fun s e => legal s e) (boot dents₀) es s) :
    Distinct s.dents ∧
      (∀ name, lookup s.dents name =
        (lastEffect (key name) s.hist).getD (lookup dents₀ name)) ∧
      (∃ m, Sequential spec (lookup dents₀) s.hist m ∧
        ∀ name, lookup s.dents name = m (key name)) ∧
      Linearizes s.hist s.returned (fun p => (s.pc p).pending) ∧
      (∀ p op s' name, (s.pc p).operation = some op → Dir.step s (.step p) = .ok s' →
        key name ≠ key op.name → lookup s'.dents name = lookup s.dents name) ∧
      ∀ p, Dir.step s (.step p) ≠ .error (.panic "create: dirlink") := by
  have h := Inv.exec h₀ hx
  exact ⟨h.distinct, h.lookup_eq, h.map, h.linear,
    fun p op s' name hop ho hne => h.lookup_other hop ho hne, h.create_dirlink⟩

def createRun : List Event :=
  [.call 0 (.create [97] 7), .call 1 (.create [97] 8), .step 0, .step 0, .step 0, .step 0,
    .step 0, .step 1, .step 1, .step 1, .call 2 (.unlink [97] true), .step 2, .step 2, .step 2,
    .step 2, .step 2, .call 1 (.link [98] 8), .step 1, .step 1, .step 1, .step 1, .step 1]

theorem directory_is_map_createRun : ∃ s,
    Exec Dir.step (fun s e => legal s e) (boot []) createRun s ∧ Distinct s.dents ∧
      s.hist = [(0, .create [97] 7, .inserted 7), (1, .create [97] 8, .present 7),
        (2, .unlink [97] true, .removed 7), (1, .link [98] 8, .inserted 8)] := by
  have hr : (runLegal Dir.step legal (boot []) createRun).any (fun s =>
      s.hist = [(0, .create [97] 7, .inserted 7), (1, .create [97] 8, .present 7),
        (2, .unlink [97] true, .removed 7), (1, .link [98] 8, .inserted 8)]) = true := by
    decide +kernel
  obtain ⟨s, hs, hq⟩ := (Option.any_eq_true _ _).1 hr
  have he := exec_of_runLegal _ _ _ _ hs
  have hd : Distinct [] := fun k l hk => absurd rfl hk
  exact ⟨s, he, (directory_is_map hd he).1, of_decide_eq_true hq⟩

end Xv6.Dir
