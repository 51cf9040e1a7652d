import LoNetfw.Config.ConfigData
import LoNetfw.Util.Yaml
import Mathlib.Logic.Function.Basic

namespace LoNetfw.Config

open Basis Util

/-!
# `Config` — the registry of items

The static functions of `config/config.h` on the map of all items, for items of any types.  Each
call holds the lock of the map, so that calls of any threads come one after another; `getDataBase`,
which takes no lock, is read as one of them.

* `Registry` — the map from lower-case names to objects, and the objects themselves;
* `setData`, `registerData`, `getData`, `getDataBase` — the functions of the source;
* `Registry.step` — these calls, objects made elsewhere, and changes of an object's value;
* `Kept` — what such a run leaves of an object that is in the map;
* `registered_once` — the first registration of a name decides, up to letter case, what all later
  lookups of it return.
-/

variable {τ : Type} {Val : τ → Type} {C : Type}

/-- A `ConfigData<T>` behind a `ConfigDataBase::Ptr`, for the type with the name `type`. -/
structure ConfigObject (Val : τ → Type) (C : Type) where
  name : Text
  type : τ
  item : ConfigData (Val type) C

/-- `getDatas()` and the objects, which are numbered in the order of their creation. -/
structure Registry (Val : τ → Type) (C : Type) where
  heap : ℕ → Option (ConfigObject Val C)
  next : ℕ
  datas : Text → Option ℕ

namespace Registry

/-- `std::make_shared<ConfigData<T>>(name, data)`. -/
def makeShared (name : Text) (type : τ) (data : Val type) (s : Registry Val C) : Registry Val C :=
  { s with
    heap := Function.update s.heap s.next (some ⟨name, type, ⟨data, []⟩⟩)
    next := s.next + 1 }

/-- `getDatas()[name_lower] = data_ptr`. -/
def assign (nameLower : Text) (p : ℕ) (s : Registry Val C) : Registry Val C :=
  { s with datas := Function.update s.datas nameLower (some p) }

/-- `getType()` of an object. -/
def typeOf (s : Registry Val C) (p : ℕ) : Option τ := (s.heap p).map ConfigObject.type

variable [DecidableEq τ]

/-- `std::dynamic_pointer_cast<ConfigData<T>>`. -/
def cast (type : τ) (s : Registry Val C) (p : ℕ) : Option ℕ :=
  if s.typeOf p = some type then some p else none

/-- `setData<T>(name, data)`; a null pointer is `none`. -/
def setData (name : Text) (type : τ) (data : Val type) (s : Registry Val C) :
    Option ℕ × Registry Val C :=
  let nameLower := toLower name
  if isValidParamName nameLower = false then (none, s)
  else
    match s.datas nameLower with
    | some p => (s.cast type p, s)
    | none => (some s.next, (s.makeShared name type data).assign nameLower s.next)

/-- `setData(data_ptr)` for the object `p`. -/
def registerData (p : ℕ) (o : ConfigObject Val C) (s : Registry Val C) : Registry Val C :=
  let nameLower := toLower o.name
  if isValidParamName nameLower = false then s
  else
    match s.datas nameLower with
    -- with the same type there is a warning, and otherwise an error
    | some _ => s
    | none => s.assign nameLower p

/-- `getData<T>(name)`. -/
def getData (name : Text) (type : τ) (s : Registry Val C) : Option ℕ :=
  let nameLower := toLower name
  if isValidParamName nameLower = false then none else (s.datas nameLower).bind (s.cast type)

/-- `getDataBase(name)`, for the name as it is. -/
def getDataBase (name : Text) (s : Registry Val C) : Option ℕ := s.datas name

end Registry

/-- Calls of any threads; a change of a value is the second section of `ConfigData::setData`, or one
    of its callbacks. -/
inductive ConfigAction (Val : τ → Type) (C : Type)
  | setData (name : Text) (type : τ) (data : Val type)
  | makeShared (name : Text) (type : τ) (data : Val type)
  | registerData (p : ℕ)
  | change (p : ℕ) (f : (type : τ) → ConfigData (Val type) C → ConfigData (Val type) C)

namespace Registry

variable [DecidableEq τ]

def step (s : Registry Val C) : ConfigAction Val C → Option (Registry Val C)
  | .setData name type data => some (s.setData name type data).2
  | .makeShared name type data => some (s.makeShared name type data)
  | .registerData p => (s.heap p).map fun o => s.registerData p o
  | .change p f => (s.heap p).map fun o =>
      { s with heap := Function.update s.heap p (some { o with item := f o.type o.item }) }

def new : Registry Val C where
  heap _ := none
  next := 0
  datas _ := none

/-! ### Invariant -/

/-- Each name of the map is the lower-case name of its object, and valid. -/
structure Inv (s : Registry Val C) : Prop where
  named : ∀ k p, s.datas k = some p →
    isValidParamName k = true ∧ ∃ o, s.heap p = some o ∧ toLower o.name = k
  fresh : ∀ p, s.next ≤ p → s.heap p = none

/-- What a run leaves of the objects and of the map: no name is taken away or given to another
    object, and an object keeps its name and its type. -/
structure Kept (s s' : Registry Val C) : Prop where
  datas : ∀ k p, s.datas k = some p → s'.datas k = some p
  heap : ∀ p o, s.heap p = some o → ∃ o', s'.heap p = some o' ∧ o'.name = o.name ∧ o'.type = o.type

omit [DecidableEq τ] in
/-- Nothing is registered at first. -/
theorem inv_new : (new : Registry Val C).Inv where
  named _ _ h := absurd h (Option.some_ne_none _).symm
  fresh _ _ := rfl

omit [DecidableEq τ] in
/-- Nothing happens to the items. -/
theorem Kept.refl (s : Registry Val C) : Kept s s where
  datas _ _ h := h
  heap _ o h := ⟨o, h, rfl, rfl⟩

variable {s s' t : Registry Val C} {a : ConfigAction Val C}

omit [DecidableEq τ] in
/-- What two parts of a run keep, the run keeps. -/
theorem Kept.trans (h : Kept s t) (h' : Kept t s') : Kept s s' where
  datas k p hp := h'.datas k p (h.datas k p hp)
  heap p o ho := by
    obtain ⟨o₁, ho₁, hname₁, htype₁⟩ := h.heap p o ho
    obtain ⟨o₂, ho₂, hname₂, htype₂⟩ := h'.heap p o₁ ho₁
    exact ⟨o₂, ho₂, hname₂.trans hname₁, htype₂.trans htype₁⟩

omit [DecidableEq τ] in
/-- A new object takes a number that was free. -/
theorem inv_makeShared (h : s.Inv) (name : Text) (type : τ) (data : Val type) :
    (s.makeShared name type data).Inv ∧ Kept s (s.makeShared name type data) := by
  -- the object has a new number
  have hne : ∀ p o, s.heap p = some o → p ≠ s.next := by
    rintro p o ho rfl
    exact absurd (ho.symm.trans (h.fresh _ le_rfl)) (Option.some_ne_none o)
  have hheap : ∀ p o, s.heap p = some o → (s.makeShared name type data).heap p = some o :=
    fun p o ho => (Function.update_of_ne (hne p o ho) _ _).trans ho
  refine ⟨⟨?_, ?_⟩, ⟨fun _ _ hp => hp, fun p o ho => ⟨o, hheap p o ho, rfl, rfl⟩⟩⟩
  · intro k p hp
    obtain ⟨hvalid, o, ho, hname⟩ := h.named k p hp
    exact ⟨hvalid, o, hheap p o ho, hname⟩
  · intro p hp
    have hlt : s.next < p := hp
    exact (Function.update_of_ne hlt.ne' _ _).trans (h.fresh p hlt.le)

omit [DecidableEq τ] in
/-- A name that was free is given to an object that has it. -/
theorem inv_assign (h : s.Inv) {p : ℕ} {o : ConfigObject Val C} (ho : s.heap p = some o)
    (hvalid : isValidParamName (toLower o.name) = true) (hfree : s.datas (toLower o.name) = none) :
    (s.assign (toLower o.name) p).Inv ∧ Kept s (s.assign (toLower o.name) p) := by
  refine ⟨⟨?_, h.fresh⟩, ⟨?_, fun _ o ho => ⟨o, ho, rfl, rfl⟩⟩⟩
  · intro k q hq
    by_cases hk : k = toLower o.name
    · subst hk
      have hself : (s.assign (toLower o.name) p).datas (toLower o.name) = some p :=
        Function.update_self ..
      obtain rfl : p = q := Option.some.inj (hself.symm.trans hq)
      exact ⟨hvalid, o, ho, rfl⟩
    · exact h.named k q ((Function.update_of_ne hk _ _).symm.trans hq)
  · intro k q hq
    -- the name was free, so no other object loses its place
    have hk : k ≠ toLower o.name := by
      rintro rfl
      exact absurd (hq.symm.trans hfree) (Option.some_ne_none q)
    exact (Function.update_of_ne hk _ _).trans hq

/-- **Step.** What each call keeps. -/
theorem inv_step (h : s.Inv) (hstep : step s a = some s') : s'.Inv ∧ Kept s s' := by
  cases a with
  | setData name type data =>
    obtain rfl := Option.some.inj hstep
    unfold setData
    dsimp only
    split
    · exact ⟨h, Kept.refl s⟩
    · next hvalid =>
      cases hfind : s.datas (toLower name) with
      | some p => exact ⟨h, Kept.refl s⟩
      | none =>
        obtain ⟨hinv, hkept⟩ := inv_makeShared h name type data
        obtain ⟨hinv', hkept'⟩ := inv_assign (o := ⟨name, type, ⟨data, []⟩⟩) hinv
          (Function.update_self ..) (by simpa using hvalid) hfind
        exact ⟨hinv', hkept.trans hkept'⟩
  | makeShared name type data =>
    obtain rfl := Option.some.inj hstep
    exact inv_makeShared h name type data
  | registerData p =>
    obtain ⟨o, ho, rfl⟩ := Option.map_eq_some_iff.mp hstep
    unfold registerData
    dsimp only
    split
    · exact ⟨h, Kept.refl s⟩
    · next hvalid =>
      cases hfind : s.datas (toLower o.name) with
      | some q => exact ⟨h, Kept.refl s⟩
      | none => exact inv_assign h ho (by simpa using hvalid) hfind
  | change p f =>
    obtain ⟨o, ho, rfl⟩ := Option.map_eq_some_iff.mp hstep
    -- the object keeps its name and its type
    have hheap : ∀ q u, s.heap q = some u → ∃ u',
        Function.update s.heap p (some { o with item := f o.type o.item }) q = some u' ∧
          u'.name = u.name ∧ u'.type = u.type := by
      intro q u hu
      by_cases hq : q = p
      · subst hq
        obtain rfl : o = u := Option.some.inj (ho.symm.trans hu)
        exact ⟨_, Function.update_self .., rfl, rfl⟩
      · exact ⟨u, (Function.update_of_ne hq _ _).trans hu, rfl, rfl⟩
    refine ⟨⟨?_, ?_⟩, ⟨fun _ _ hq => hq, hheap⟩⟩
    · intro k q hq
      obtain ⟨hvalid, u, hu, hname⟩ := h.named k q hq
      obtain ⟨u', hu', hname', -⟩ := hheap q u hu
      exact ⟨hvalid, u', hu', hname' ▸ hname⟩
    · intro q hq
      have hne : q ≠ p := by
        rintro rfl
        exact absurd (ho.symm.trans (h.fresh q hq)) (Option.some_ne_none o)
      exact (Function.update_of_ne hne _ _).trans (h.fresh q hq)

/-- **Run.** What a run keeps. -/
theorem inv_run (h : s.Inv) {as : List (ConfigAction Val C)} (hrun : runFrom step s as = some s') :
    s'.Inv ∧ Kept s s' := by
  have hinv := run_invariant_of_step (fun _ _ _ h hstep => (inv_step h hstep).1) h hrun
  exact ⟨hinv, run_relation (C := fun _ _ => True) Kept.refl (fun _ _ _ => Kept.trans)
    (fun _ _ _ h _ hstep => (inv_step h hstep).1) (fun _ _ _ h _ hstep => (inv_step h hstep).2) h
    (along_of_forall s fun _ _ _ => trivial) hrun⟩

/-! ### Values -/

/-- The action is not a change of the object `p`. -/
def Spares (p : ℕ) : ConfigAction Val C → Prop
  | .change q _ => q ≠ p
  | .setData _ _ _ | .makeShared _ _ _ | .registerData _ => True

/-- **Step.** Only a change of an object changes it. -/
theorem heap_step (h : s.Inv) {p : ℕ} {o : ConfigObject Val C} (ho : s.heap p = some o)
    (ha : Spares p a) (hstep : step s a = some s') : s'.heap p = some o := by
  -- a new object has another number
  have hmake : ∀ (name : Text) (type : τ) (data : Val type),
      (s.makeShared name type data).heap p = some o := by
    intro name type data
    have hne : p ≠ s.next := by
      rintro rfl
      exact absurd (ho.symm.trans (h.fresh _ le_rfl)) (Option.some_ne_none o)
    exact (Function.update_of_ne hne _ _).trans ho
  cases a with
  | setData name type data =>
    obtain rfl := Option.some.inj hstep
    unfold setData
    dsimp only
    split
    · exact ho
    · cases s.datas (toLower name) with
      | some q => exact ho
      | none => exact hmake name type data
  | makeShared name type data =>
    obtain rfl := Option.some.inj hstep
    exact hmake name type data
  | registerData q =>
    obtain ⟨u, -, rfl⟩ := Option.map_eq_some_iff.mp hstep
    unfold registerData
    dsimp only
    split
    · exact ho
    · cases s.datas (toLower u.name) <;> exact ho
  | change q f =>
    obtain ⟨u, -, rfl⟩ := Option.map_eq_some_iff.mp hstep
    exact (Function.update_of_ne (Ne.symm ha) _ _).trans ho

/-- **Run.** An object that no action of a run changes is the same after it. -/
theorem heap_run (h : s.Inv) {as : List (ConfigAction Val C)} {p : ℕ} {o : ConfigObject Val C}
    (ho : s.heap p = some o) (hspares : ∀ a ∈ as, Spares p a)
    (hrun : runFrom step s as = some s') : s'.heap p = some o :=
  (run_invariant (I := fun s => s.Inv ∧ s.heap p = some o) (C := fun _ a => Spares p a)
    (fun _ _ _ h ha hstep => ⟨(inv_step h.1 hstep).1, heap_step h.1 h.2 ha hstep⟩) ⟨h, ho⟩
    (along_of_forall s fun a ha _ => hspares a ha) hrun).2

/-! ### Lookups -/

/-- A cast gives the same pointer, for the type of the item. -/
theorem cast_eq_some {type : τ} {p q : ℕ} :
    s.cast type q = some p ↔ q = p ∧ s.typeOf q = some type := by
  unfold cast
  split
  · next h => simp [h]
  · next h => simp [h]

/-- An object that a call has returned is in the map, and has the name and the type of the call. -/
theorem setData_spec (h : s.Inv) {name : Text} {type : τ} {data : Val type} {p : ℕ}
    (hset : s.setData name type data = (some p, t)) :
    isValidParamName (toLower name) = true ∧ t.datas (toLower name) = some p ∧
      ∃ o, t.heap p = some o ∧ o.type = type ∧ toLower o.name = toLower name := by
  unfold setData at hset
  dsimp only at hset
  split at hset
  · exact absurd (congrArg Prod.fst hset) (Option.some_ne_none p).symm
  · next hvalid =>
    have hvalid : isValidParamName (toLower name) = true := by simpa using hvalid
    refine ⟨hvalid, ?_⟩
    cases hfind : s.datas (toLower name) with
    | some q =>
      rw [hfind] at hset
      obtain ⟨hcast, rfl⟩ := Prod.mk.inj hset
      -- an object under the name is given out if the type is right
      obtain ⟨rfl, htype⟩ := cast_eq_some.mp hcast
      obtain ⟨-, o, ho, hname⟩ := h.named _ q hfind
      refine ⟨hfind, o, ho, ?_, hname⟩
      unfold typeOf at htype
      rw [ho] at htype
      exact Option.some.inj htype
    | none =>
      rw [hfind] at hset
      obtain ⟨hp, rfl⟩ := Prod.mk.inj hset
      obtain rfl := Option.some.inj hp
      exact ⟨Function.update_self .., _, Function.update_self .., rfl, rfl⟩

/-- **Lookups.** In a state where the object `p` is in the map, the lookups that return it are those
    of its name, up to letter case, with its type; `getDataBase` takes the lower-case name only. -/
theorem lookups_iff (h : s.Inv) {p : ℕ} {o : ConfigObject Val C} (ho : s.heap p = some o)
    (hp : s.datas (toLower o.name) = some p) :
    (∀ name' type', s.getData name' type' = some p ↔
        toLower name' = toLower o.name ∧ type' = o.type) ∧
      (∀ name' type' data', (s.setData name' type' data').1 = some p ↔
        toLower name' = toLower o.name ∧ type' = o.type) ∧
      ∀ name', s.getDataBase name' = some p ↔ name' = toLower o.name := by
  have hvalid := (h.named _ p hp).1
  have hkey : ∀ k, s.datas k = some p ↔ k = toLower o.name := by
    intro k
    constructor
    · intro hk
      obtain ⟨-, u, hu, hname⟩ := h.named k p hk
      obtain rfl : o = u := Option.some.inj (ho.symm.trans hu)
      exact hname.symm
    · rintro rfl
      exact hp
  have htype : ∀ type', s.typeOf p = some type' ↔ type' = o.type := by
    intro type'
    unfold typeOf
    rw [ho, Option.map_some, Option.some.injEq]
    exact eq_comm
  have hbind : ∀ name' type', (s.datas (toLower name')).bind (s.cast type') = some p ↔
      toLower name' = toLower o.name ∧ type' = o.type := by
    intro name' type'
    rw [Option.bind_eq_some_iff, ← hkey, ← htype]
    constructor
    · rintro ⟨q, hq, hcast⟩
      obtain ⟨rfl, hq'⟩ := cast_eq_some.mp hcast
      exact ⟨hq, hq'⟩
    · rintro ⟨hname, hp'⟩
      exact ⟨p, hname, cast_eq_some.mpr ⟨rfl, hp'⟩⟩
  refine ⟨fun name' type' => ?_, fun name' type' data' => ?_, hkey⟩
  · rw [← hbind]
    unfold getData
    dsimp only
    split
    · next hinvalid =>
      refine iff_of_false (Option.some_ne_none p).symm fun hsome => ?_
      rw [((hbind name' type').mp hsome).1, hvalid] at hinvalid
      exact absurd hinvalid (by decide)
    · exact Iff.rfl
  · rw [← hbind]
    unfold setData
    dsimp only
    split
    · next hinvalid =>
      refine iff_of_false (Option.some_ne_none p).symm fun hsome => ?_
      rw [((hbind name' type').mp hsome).1, hvalid] at hinvalid
      exact absurd hinvalid (by decide)
    · cases s.datas (toLower name') with
      | some q => exact Iff.rfl
      | none =>
        -- the object would be a new one
        refine iff_of_false (fun hsome => ?_) (Option.some_ne_none p).symm
        obtain rfl : s.next = p := Option.some.inj hsome
        exact absurd (ho.symm.trans (h.fresh _ le_rfl)) (Option.some_ne_none o)

/-- **The first registration of a name decides.**  In any run after a call that has returned an
    object, the lookups that return this object are those of its name, up to letter case, with the
    type of the call; its value is the one it had, where no action of the run changes it. -/
theorem registered_once {as bs : List (ConfigAction Val C)} {name : Text} {type : τ}
    {data : Val type} {p : ℕ} (hrun : runFrom step new as = some s)
    (hset : s.setData name type data = (some p, t)) (hrun' : runFrom step t bs = some s') :
    (∀ name' type', s'.getData name' type' = some p ↔
        toLower name' = toLower name ∧ type' = type) ∧
      (∀ name' type' data', (s'.setData name' type' data').1 = some p ↔
        toLower name' = toLower name ∧ type' = type) ∧
      (∀ name', s'.getDataBase name' = some p ↔ name' = toLower name) ∧
      ((∀ b ∈ bs, Spares p b) → s'.heap p = t.heap p) := by
  have hs : s.Inv := (inv_run inv_new hrun).1
  -- the registry is as its calls leave it
  have ht : t.Inv := by
    have hstep : step s (.setData name type data) = some t := by
      change some (s.setData name type data).2 = some t
      rw [hset]
    exact (inv_step hs hstep).1
  obtain ⟨-, hp, o, ho, htype, hname⟩ := setData_spec hs hset
  obtain ⟨hs', hkept⟩ := inv_run ht hrun'
  obtain ⟨o', ho', hname', htype'⟩ := hkept.heap p o ho
  have hlower : toLower o'.name = toLower name := by rw [hname', hname]
  have hlookups := lookups_iff hs' ho' (hlower ▸ hkept.datas _ p hp)
  rw [hlower, htype', htype] at hlookups
  refine ⟨hlookups.1, hlookups.2.1, hlookups.2.2, fun hspares => ?_⟩
  rw [ho]
  exact heap_run ht ho hspares hrun'

/-- `Log` is registered with a number, and then looked up, after another value was tried for it. -/
theorem registered_once_log :
    ∃ t s' : Registry (fun _ : Bool => ℕ) Unit,
      new.setData (ascii "Log") true 1 = (some 0, t) ∧
        runFrom step t [.setData (ascii "LOG") true 2, .setData (ascii "log") false 3] = some s' ∧
        s'.getData (ascii "lOg") true = some 0 ∧ s'.getData (ascii "log") false ≠ some 0 ∧
        s'.heap 0 = t.heap 0 := by
  refine ⟨_, _, rfl, rfl, ?_⟩
  have hrun : runFrom step (new : Registry (fun _ : Bool => ℕ) Unit) [] = some new := rfl
  have hset : (new : Registry (fun _ : Bool => ℕ) Unit).setData (ascii "Log") true 1 =
      (some 0, _) := rfl
  obtain ⟨hget, -, -, hheap⟩ := registered_once hrun hset
    (show runFrom step _ [.setData (ascii "LOG") true 2, .setData (ascii "log") false 3] = some _
      from rfl)
  refine ⟨(hget _ _).mpr (by decide), ?_, hheap (by simp [Spares])⟩
  rw [ne_eq, hget]
  decide

end Registry

end LoNetfw.Config
