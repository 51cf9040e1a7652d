import LoNetfw.Basis.OrderedSet
import LoNetfw.Basis.StepSystem

namespace LoNetfw.Config

open Basis

/-!
# `ConfigData` — a value with change callbacks

The members of `config/configdata.h` on one item, and what the callback registry makes of sequences
of calls.

* `setData` is a read-locked comparison that also calls the callbacks (`compareAndNotify`), followed
  by a write-locked assignment (`store`), which is not reached when a callback throws;
* `fromString` catches a `std::runtime_error`, of the conversion or of a callback;
* `m_key`, the key of the next callback, is never changed, and the tests of `del` and `get` take the
  end of the map for a hit and a hit for the end;
* `Lawful` says what a call of a map with fresh keys does, `lawful_iff` when a call here does it, and
  `registry_iff` carries that along any sequence of calls.

Of a callback the model has its name and whether it throws (`Throws`): it does not touch the item,
and what it throws is a `std::runtime_error`.  In the sequences of calls the callbacks return.
-/

/-- Undefined behaviour of the registry. -/
inductive Fault
  | erasedEnd
  | dereferencedEnd
  deriving DecidableEq, Repr

/-- `ConfigData<T>` with callbacks `C`. -/
structure ConfigData (T C : Type) where
  data : T
  /-- `m_cbs`, in the order of the keys. -/
  cbs : List (ℕ × C)
  deriving DecidableEq, Repr

/-- One call of a registered callback. -/
structure Notification (T C : Type) where
  entry : ℕ × C
  old : T
  new : T
  deriving DecidableEq, Repr

/-- Whether a callback throws a `std::runtime_error` when it is called with an old and a new value. -/
abbrev Throws (T C : Type) := C → T → T → Bool

/-- The callbacks return. -/
def Throws.never {T C : Type} : Throws T C := fun _ _ _ => false

namespace ConfigData

variable {T C : Type}

/-- `static int m_key = 0`, shared by all items of one type; nothing changes it. -/
def mKey : ℕ := 0

/-- `m_cbs.find(key)`. -/
def find (key : ℕ) (d : ConfigData T C) : Option C := (d.cbs.find? fun e => e.1 == key).map (·.2)

/-! ### `setData` -/

/-- The loop over the callbacks: the calls it makes, and whether it comes to its end; the callbacks
    behind one that throws are not called. -/
def notify (throws : Throws T C) (old value : T) :
    List (ℕ × C) → List (Notification T C) × Bool
  | [] => ([], true)
  | it :: cbs =>
    if throws it.2 old value then ([⟨it, old, value⟩], false)
    else
      let rest := notify throws old value cbs
      (⟨it, old, value⟩ :: rest.1, rest.2)

/-- The first section of `setData`: `none` when the value does not change. -/
def compareAndNotify [DecidableEq T] (throws : Throws T C) (value : T) (d : ConfigData T C) :
    Option (List (Notification T C) × Bool) :=
  if d.data = value then none
  else some (notify throws d.data value d.cbs)

/-- The second section. -/
def store (value : T) (d : ConfigData T C) : ConfigData T C := { d with data := value }

/-- Whether `setData` returns, the item after it, and the callbacks it has called. -/
def setData [DecidableEq T] (throws : Throws T C) (value : T) (d : ConfigData T C) :
    Bool × ConfigData T C × List (Notification T C) :=
  match d.compareAndNotify throws value with
  | none => (true, d, [])
  | some (calls, true) => (true, d.store value, calls)
  -- the exception of a callback leaves `setData` before `m_data = data`
  | some (calls, false) => (false, d, calls)

/-- `fromString`: `false` when the conversion or a callback throws, and the value is as it was. -/
def fromString [DecidableEq T] {S : Type} (throws : Throws T C) (fromStr : S → Option T) (str : S)
    (d : ConfigData T C) : Bool × ConfigData T C × List (Notification T C) :=
  match fromStr str with
  | none => (false, d, [])
  | some value => d.setData throws value

def getData (d : ConfigData T C) : T := d.data

/-- `toString`: the empty string when the conversion throws. -/
def toString {S : Type} (toStr : T → Option (List S)) (d : ConfigData T C) : List S :=
  (toStr d.getData).getD []

/-! ### The registry -/

def addConfigDataChangeCB (cb : C) (d : ConfigData T C) : ConfigData T C × ℕ :=
  match d.find mKey with
  -- `return false`
  | some _ => (d, 0)
  | none => ({ d with cbs := setInsert (fun a b => decide (a.1 < b.1)) (mKey, cb) d.cbs }, mKey)

def delConfigDataChangeCB (key : ℕ) (d : ConfigData T C) : Except Fault (ConfigData T C × Bool) :=
  match d.find key with
  | some _ => .ok (d, false)
  -- `m_cbs.erase(m_cbs.end())`
  | none => .error .erasedEnd

/-- `nullptr` is `none`. -/
def getConfigDataChangeCB (key : ℕ) (d : ConfigData T C) : Except Fault (Option C) :=
  match d.find key with
  | some _ => .ok none
  -- `m_cbs.end()->second`
  | none => .error .dereferencedEnd

def clearConfigDataChangeCB (d : ConfigData T C) : ConfigData T C := { d with cbs := [] }

variable {d : ConfigData T C}

/-- Without callbacks no key is found. -/
theorem find_nil (h : d.cbs = []) (j : ℕ) : d.find j = none := by
  rw [find, h]
  rfl

/-- With one callback its key is found, and no other. -/
theorem find_single {k : ℕ} {cb : C} (h : d.cbs = [(k, cb)]) (j : ℕ) :
    d.find j = if j = k then some cb else none := by
  rw [find, h, List.find?_singleton]
  by_cases hj : j = k
  · rw [if_pos hj, if_pos (beq_iff_eq.mpr hj.symm)]
    rfl
  · rw [if_neg hj, if_neg (by rw [beq_iff_eq]; exact fun h => hj h.symm)]
    rfl

/-- The first callback gets the key that all want. -/
theorem add_of_nil (h : d.cbs = []) (cb : C) :
    d.addConfigDataChangeCB cb = ({ d with cbs := [(mKey, cb)] }, mKey) := by
  rw [addConfigDataChangeCB, find_nil h, h]
  rfl

/-- Another callback is not registered; `false` reads as the key that is taken. -/
theorem add_of_single {cb₀ : C} (h : d.cbs = [(mKey, cb₀)]) (cb : C) :
    d.addConfigDataChangeCB cb = (d, mKey) := by
  rw [addConfigDataChangeCB, find_single h, if_pos rfl]
  rfl

section SetData

variable {throws : Throws T C} {value : T}

/-- The loop comes to its end exactly when no callback throws. -/
theorem notify_snd (old : T) (cbs : List (ℕ × C)) :
    (notify throws old value cbs).2 = cbs.all fun it => !throws it.2 old value := by
  induction cbs with
  | nil => rfl
  | cons it cbs ih =>
    rw [notify, List.all_cons, ← ih]
    cases throws it.2 old value <;> rfl

/-- Callbacks that return are all called, in the order of their keys. -/
theorem notify_never (old : T) (cbs : List (ℕ × C)) :
    notify .never old value cbs = (cbs.map fun it => ⟨it, old, value⟩, true) := by
  induction cbs with
  | nil => rfl
  | cons it cbs ih =>
    rw [notify, ih]
    rfl

variable [DecidableEq T]

/-- When no callback throws, all are called with the old value and the new one. -/
theorem compareAndNotify_never (h : d.data ≠ value) :
    d.compareAndNotify .never value = some (d.cbs.map fun it => ⟨it, d.data, value⟩, true) := by
  rw [compareAndNotify, if_neg h, notify_never]

/-- A value that is there already is not set again. -/
theorem setData_of_eq (h : d.data = value) : d.setData throws value = (true, d, []) := by
  rw [setData, compareAndNotify, if_pos h]

/-- When no callback throws, a new value is stored after the calls. -/
theorem setData_never_of_ne (h : d.data ≠ value) : d.setData .never value =
    (true, d.store value, d.cbs.map fun it => ⟨it, d.data, value⟩) := by
  rw [setData, compareAndNotify_never h]

/-- The item takes the value unless a callback throws; then it has the old one. -/
theorem setData_data (throws : Throws T C) (value : T) (d : ConfigData T C) :
    (d.setData throws value).2.1.data =
      if d.cbs.all (fun it => !throws it.2 d.data value) then value else d.data := by
  by_cases h : d.data = value
  · rw [setData_of_eq h]
    split
    · exact h
    · rfl
  · rw [setData, compareAndNotify, if_neg h, ← notify_snd]
    obtain ⟨calls, returned⟩ := notify throws d.data value d.cbs
    cases returned <;> rfl

/-- The item has the value afterwards when the callbacks return, whether it changed or not. -/
theorem setData_never_data (value : T) (d : ConfigData T C) :
    (d.setData .never value).2.1.data = value := by
  rw [setData_data, if_pos]
  exact List.all_eq_true.mpr fun _ _ => rfl

/-- When no callback throws, `setData` returns. -/
theorem setData_never_returns (value : T) (d : ConfigData T C) :
    (d.setData .never value).1 = true := by
  by_cases h : d.data = value
  · rw [setData_of_eq h]
  · rw [setData_never_of_ne h]

/-- The callbacks stay, whatever they do. -/
theorem setData_cbs (value : T) (d : ConfigData T C) :
    (d.setData throws value).2.1.cbs = d.cbs := by
  rw [setData]
  split <;> rfl

end SetData

end ConfigData

/-! ### Sequences of calls -/

inductive RegistryCall (T C : Type)
  | add (cb : C)
  | del (key : ℕ)
  | get (key : ℕ)
  | clear
  | set (value : T)
  deriving DecidableEq, Repr

/-- What a call returns, and the callbacks it calls. -/
inductive RegistryReply (T C : Type)
  | key (k : ℕ)
  | erased (b : Bool)
  | callback (cb : Option C)
  | unit (calls : List (Notification T C))
  deriving DecidableEq, Repr

variable {T C : Type} [DecidableEq T]

/-- Execute a call; the callbacks return. -/
def execRegistry (d : ConfigData T C) :
    RegistryCall T C → Except Fault (RegistryReply T C × ConfigData T C)
  | .add cb => .ok (.key (d.addConfigDataChangeCB cb).2, (d.addConfigDataChangeCB cb).1)
  | .del key => (d.delConfigDataChangeCB key).map fun r => (.erased r.2, r.1)
  | .get key => (d.getConfigDataChangeCB key).map fun cb => (.callback cb, d)
  | .clear => .ok (.unit [], d.clearConfigDataChangeCB)
  | .set value => .ok (.unit (d.setData .never value).2.2, (d.setData .never value).2.1)

/-- The item after a call; none follows undefined behaviour. -/
def registryStep (d : ConfigData T C) (c : RegistryCall T C) : Option (ConfigData T C) :=
  match execRegistry d c with
  | .ok (_, d') => some d'
  | .error _ => none

/-- What a map with fresh keys does, of which `d.find` is the content: the reply of a call and the
    content and value after it. -/
def Lawful (d : ConfigData T C) : RegistryCall T C → Prop
  | .add cb => ∃ k d', execRegistry d (.add cb) = .ok (.key k, d') ∧ d.find k = none ∧
      d'.data = d.data ∧ ∀ j, d'.find j = if j = k then some cb else d.find j
  | .del key => ∃ d', execRegistry d (.del key) = .ok (.erased (d.find key).isSome, d') ∧
      d'.data = d.data ∧ ∀ j, d'.find j = if j = key then none else d.find j
  | .get key => execRegistry d (.get key) = .ok (.callback (d.find key), d)
  | .clear => ∃ d', execRegistry d .clear = .ok (.unit [], d') ∧ d'.data = d.data ∧
      ∀ j, d'.find j = none
  | .set value => ∃ calls d', execRegistry d (.set value) = .ok (.unit calls, d') ∧
      d'.data = value ∧ (∀ j, d'.find j = d.find j) ∧
      -- every registered callback, once
      (d.data ≠ value → (calls.map (·.entry)).Nodup ∧
        (∀ e, e ∈ calls.map (·.entry) ↔ d.find e.1 = some e.2) ∧
        ∀ n ∈ calls, n.old = d.data ∧ n.new = value)

/-- The calls that do so. -/
def Sound (d : ConfigData T C) : RegistryCall T C → Prop
  | .add _ => d.cbs = []
  | .del _ | .get _ => False
  | .clear | .set _ => True

/-! ### Which calls are lawful -/

/-- The only key ever used is `m_key`, once. -/
def OneKey (d : ConfigData T C) : Prop := d.cbs = [] ∨ ∃ cb, d.cbs = [(ConfigData.mKey, cb)]

section OneKey

omit [DecidableEq T]

variable {d : ConfigData T C}

/-- The callbacks of such a registry, each under its key. -/
theorem OneKey.find_eq_some (h : OneKey d) (e : ℕ × C) : d.find e.1 = some e.2 ↔ e ∈ d.cbs := by
  rcases h with h | ⟨cb, h⟩
  · rw [ConfigData.find_nil h, h]
    exact iff_of_false nofun List.not_mem_nil
  · rw [ConfigData.find_single h, h, List.mem_singleton]
    constructor
    · intro he
      split at he
      · next hk => exact Prod.ext hk (Option.some.inj he).symm
      · exact nomatch he
    · rintro rfl
      exact if_pos rfl

/-- No callback is registered twice. -/
theorem OneKey.nodup (h : OneKey d) : d.cbs.Nodup := by
  rcases h with h | ⟨cb, h⟩
  · rw [h]
    exact List.nodup_nil
  · rw [h]
    exact List.pairwise_singleton _ _

end OneKey

section Calls

variable {d d' : ConfigData T C}

/-- The first registration is lawful. -/
theorem lawful_add (h : d.cbs = []) (cb : C) : Lawful d (.add cb) := by
  refine ⟨ConfigData.mKey, { d with cbs := [(ConfigData.mKey, cb)] }, ?_,
    ConfigData.find_nil h _, rfl, fun j => ?_⟩
  · rw [execRegistry, ConfigData.add_of_nil h]
  · rw [ConfigData.find_single rfl, ConfigData.find_nil h]

/-- A second registration is not lawful: it would take the same key. -/
theorem not_lawful_add {cb₀ : C} (h : d.cbs = [(ConfigData.mKey, cb₀)]) (cb : C) :
    ¬ Lawful d (.add cb) := by
  rintro ⟨k, d', hexec, hfree, -⟩
  rw [execRegistry, ConfigData.add_of_single h, Except.ok.injEq, Prod.mk.injEq, RegistryReply.key.injEq]
    at hexec
  -- the key that is returned is in use
  rw [← hexec.1, ConfigData.find_single h, if_pos rfl] at hfree
  exact nomatch hfree

/-- `del` changes nothing under a registered key, and erases the end of the map under any other. -/
theorem exec_del (key : ℕ) :
    (∃ cb, d.find key = some cb ∧ execRegistry d (.del key) = .ok (.erased false, d)) ∨
      execRegistry d (.del key) = .error .erasedEnd := by
  rw [execRegistry, ConfigData.delConfigDataChangeCB]
  cases d.find key with
  | none => exact .inr rfl
  | some cb => exact .inl ⟨cb, rfl, rfl⟩

/-- `get` gives null under a registered key, and dereferences the end of the map under any other. -/
theorem exec_get (key : ℕ) :
    (∃ cb, d.find key = some cb ∧ execRegistry d (.get key) = .ok (.callback none, d)) ∨
      execRegistry d (.get key) = .error .dereferencedEnd := by
  rw [execRegistry, ConfigData.getConfigDataChangeCB]
  cases d.find key with
  | none => exact .inr rfl
  | some cb => exact .inl ⟨cb, rfl, rfl⟩

/-- A registered key is not deleted. -/
theorem not_lawful_del (key : ℕ) : ¬ Lawful d (.del key) := by
  rintro ⟨d', hexec, -⟩
  rcases exec_del (d := d) key with ⟨cb, hfind, hdel⟩ | hdel
  · rw [hdel, hfind] at hexec
    exact nomatch hexec
  · rw [hdel] at hexec
    exact nomatch hexec

/-- Nor is it found. -/
theorem not_lawful_get (key : ℕ) : ¬ Lawful d (.get key) := by
  intro hexec
  rw [Lawful] at hexec
  rcases exec_get (d := d) key with ⟨cb, hfind, hget⟩ | hget
  · rw [hget, hfind] at hexec
    exact nomatch hexec
  · rw [hget] at hexec
    exact nomatch hexec

/-- Every registered callback is called once. -/
theorem lawful_set (h : OneKey d) (value : T) : Lawful d (.set value) := by
  by_cases hv : d.data = value
  · refine ⟨[], d, ?_, hv, fun _ => rfl, fun hne => absurd hv hne⟩
    rw [execRegistry, ConfigData.setData_of_eq hv]
  · have hentries : (d.cbs.map fun it => (⟨it, d.data, value⟩ : Notification T C)).map (·.entry) =
        d.cbs := by
      rw [List.map_map]
      exact List.map_id _
    refine ⟨_, d.store value, by rw [execRegistry, ConfigData.setData_never_of_ne hv], rfl,
      fun _ => rfl, fun _ => ?_⟩
    rw [hentries]
    -- the map has every key once, and so does the round
    refine ⟨h.nodup, fun e => (h.find_eq_some e).symm, fun n hn => ?_⟩
    obtain ⟨it, -, rfl⟩ := List.mem_map.mp hn
    exact ⟨rfl, rfl⟩

/-- A call that answers with the item itself does not change it. -/
theorem eq_of_exec {c : RegistryCall T C} {reply : RegistryReply T C} {e : Fault}
    (hexec : execRegistry d c = .ok (reply, d) ∨ execRegistry d c = .error e)
    (hstep : registryStep d c = some d') : d = d' := by
  rw [registryStep] at hstep
  rcases hexec with hexec | hexec
  · rw [hexec] at hstep
    exact Option.some.inj hstep
  · rw [hexec] at hstep
    exact nomatch hstep

/-- `del` does not change the item. -/
theorem eq_of_del {key : ℕ} (hstep : registryStep d (.del key) = some d') : d = d' :=
  eq_of_exec ((exec_del key).imp_left fun ⟨_, _, hdel⟩ => hdel) hstep

/-- A look-up changes nothing. -/
theorem eq_of_get {key : ℕ} (hstep : registryStep d (.get key) = some d') : d = d' :=
  eq_of_exec ((exec_get key).imp_left fun ⟨_, _, hget⟩ => hget) hstep

end Calls

/-- **One call.**  It is that of a map with fresh keys exactly when it clears the registry, sets the
    value or adds the first callback. -/
theorem lawful_iff {d : ConfigData T C} (h : OneKey d) (c : RegistryCall T C) :
    Lawful d c ↔ Sound d c := by
  cases c with
  | add cb =>
    rcases h with h | ⟨cb₀, h⟩
    · exact iff_of_true (lawful_add h cb) h
    · exact iff_of_false (not_lawful_add h cb) (by rw [Sound, h]; exact List.cons_ne_nil _ _)
  | del key => exact iff_of_false (not_lawful_del key) id
  | get key => exact iff_of_false (not_lawful_get key) id
  | clear => exact iff_of_true ⟨_, rfl, rfl, ConfigData.find_nil rfl⟩ trivial
  | set value => exact iff_of_true (lawful_set h value) trivial

/-- No call registers under another key. -/
theorem oneKey_step {d d' : ConfigData T C} {c : RegistryCall T C} (h : OneKey d)
    (hstep : registryStep d c = some d') : OneKey d' := by
  cases c with
  | add cb =>
    obtain rfl := Option.some.inj hstep
    right
    -- every registration is made under the one key there is
    rcases h with h | ⟨cb₀, h⟩
    · exact ⟨cb, by rw [ConfigData.add_of_nil h]⟩
    · exact ⟨cb₀, by rw [ConfigData.add_of_single h, h]⟩
  | del key => exact eq_of_del hstep ▸ h
  | get key => exact eq_of_get hstep ▸ h
  | clear =>
    obtain rfl := Option.some.inj hstep
    exact .inl rfl
  | set value =>
    obtain rfl := Option.some.inj hstep
    rw [OneKey, ConfigData.setData_cbs]
    exact h

/-- **The callback registry.**  In any sequence of calls on a new item, every call is that of a map
    with fresh keys exactly when no callback is looked up or deleted and callbacks are only added to
    an empty registry. -/
theorem registry_iff (data : T) (calls : List (RegistryCall T C)) :
    Along registryStep Lawful ⟨data, []⟩ calls ↔ Along registryStep Sound ⟨data, []⟩ calls :=
  along_congr_of_inv (I := OneKey) (fun _ _ _ h hstep => oneKey_step h hstep)
    (fun _ c h => lawful_iff h c) (.inl rfl)

/-- A callback is added and looked up under the key that was returned: the result is null. -/
theorem registry_lookup :
    execRegistry (⟨5, []⟩ : ConfigData ℕ ℕ) (.add 7) = .ok (.key 0, ⟨5, [(0, 7)]⟩) ∧
      execRegistry (⟨5, [(0, 7)]⟩ : ConfigData ℕ ℕ) (.get 0) = .ok (.callback none, ⟨5, [(0, 7)]⟩) ∧
      ¬ Along registryStep Lawful (⟨5, []⟩ : ConfigData ℕ ℕ) [.add 7, .get 0] := by
  refine ⟨by decide, by decide, ?_⟩
  rintro ⟨-, hget⟩
  have hlaw := (hget ⟨5, [(0, 7)]⟩ (by decide)).1
  rw [Lawful] at hlaw
  exact absurd hlaw (by decide)

end LoNetfw.Config
