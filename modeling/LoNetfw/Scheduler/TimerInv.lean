import LoNetfw.Scheduler.TimerRun
import Mathlib.Data.List.Nodup

namespace LoNetfw.Scheduler

open Basis

/-!
# Timers — the set invariant and at-most-once firing

Every operation on `m_timers` takes a timer out, changes its key, and puts it back or
disarms it.  So the invariant is stated with a list of armed timers that are out of the set
for the moment, and each operation is a composition of three moves on that list.

* `Detached` — the invariant with a list of armed timers outside the set;
* `Detached.detach`, `Detached.attach`, `Detached.disarm` — the three moves;
* `Evolves` — what no operation does to a timer: change `m_is_loop`, or arm it again;
* `refresh_of_armed`, `resetLocked_of_armed` — the two operations that move an armed timer;
* `step_advance` — everything one step of an interleaving can do;
* `timer_set_invariant` — the order, the membership and the firing of timers along every
  interleaving.
-/

/-! ### The comparator -/

/-- The comparator: by deadline, then by address. -/
theorem Timer.before_iff {a b : Timer} :
    a.before b = true ↔ a.next < b.next ∨ (a.next = b.next ∧ a.addr < b.addr) := by
  unfold Timer.before
  split
  · simp_all
  · split <;> simp <;> omega

namespace TimerManager

variable {m m' : TimerManager} {pending l : List ℕ} {t : ℕ} {v : Timer}

/-- The comparator is irreflexive. -/
theorem lt_irrefl (a : ℕ) : m.lt a a = false := by
  rw [← Bool.not_eq_true]
  intro h
  have := Timer.before_iff.mp h
  omega

/-- The comparator is transitive. -/
theorem lt_trans (a b c : ℕ) (hab : m.lt a b = true) (hbc : m.lt b c = true) :
    m.lt a c = true := by
  have hab := Timer.before_iff.mp hab
  have hbc := Timer.before_iff.mp hbc
  exact Timer.before_iff.mpr (by omega)

/-- Timers at different addresses are comparable. -/
theorem lt_total {a b : ℕ} (h : (m.heap a).addr ≠ (m.heap b).addr) :
    m.lt a b = true ∨ m.lt b a = true := by
  unfold lt
  rw [Timer.before_iff, Timer.before_iff]
  omega

@[simp] theorem setTimer_heap_self : (m.setTimer t v).heap t = v := by simp [setTimer]

/-- The other timers stay. -/
theorem setTimer_heap_of_ne {a : ℕ} (h : a ≠ t) : (m.setTimer t v).heap a = m.heap a := by
  simp [setTimer, h]

@[simp] theorem setTimer_timers : (m.setTimer t v).timers = m.timers := rfl

/-- Assigning to a timer that is not in a list leaves the order of the list. -/
theorem sorted_setTimer (hl : SetSorted m.lt l) (ht : t ∉ l) :
    SetSorted (m.setTimer t v).lt l := by
  apply hl.congr
  intro a ha b hb hab
  have hat : a ≠ t := fun h => ht (h ▸ ha)
  have hbt : b ≠ t := fun h => ht (h ▸ hb)
  unfold lt
  rw [setTimer_heap_of_ne hat, setTimer_heap_of_ne hbt]
  exact hab

/-- Assigning to a timer without changing its key leaves the comparator. -/
theorem lt_setTimer_of_key (hnext : v.next = (m.heap t).next) (haddr : v.addr = (m.heap t).addr) :
    (m.setTimer t v).lt = m.lt := by
  -- the comparator reads the deadline and the address only
  have key : ∀ a, ((m.setTimer t v).heap a).next = (m.heap a).next ∧
      ((m.setTimer t v).heap a).addr = (m.heap a).addr := by
    intro a
    by_cases ha : a = t
    · subst ha
      rw [setTimer_heap_self]
      exact ⟨hnext, haddr⟩
    · rw [setTimer_heap_of_ne ha]
      exact ⟨rfl, rfl⟩
  funext a b
  unfold lt Timer.before
  rw [(key a).1, (key a).2, (key b).1, (key b).2]

/-! ### The invariant -/

/-- The set invariant while the armed timers `pending` are out of the set. -/
structure Detached (pending : List ℕ) (m : TimerManager) : Prop where
  sorted : SetSorted m.lt m.timers
  armed : ∀ t, t ∈ pending ++ m.timers ↔ (m.heap t).cb.isSome
  nodup : (pending ++ m.timers).Nodup
  addr : ∀ a ∈ pending ++ m.timers, ∀ b ∈ pending ++ m.timers,
    (m.heap a).addr = (m.heap b).addr → a = b
  allocated : ∀ t ∈ pending ++ m.timers, t < m.allocated

/-- The set invariant: no timer is out of the set. -/
def Inv (m : TimerManager) : Prop := m.Detached []

/-- A new set is empty. -/
theorem inv_new (now : ℕ) : (new now).Inv where
  sorted := List.Pairwise.nil
  armed := fun t => by simp [new]; rfl
  nodup := List.nodup_nil
  addr := fun a ha => absurd ha (by simp [new])
  allocated := fun t ht => absurd ht (by simp [new])

/-- A timer is in the set exactly when it is armed. -/
theorem Inv.mem_iff (h : m.Inv) (t : ℕ) : t ∈ m.timers ↔ (m.heap t).cb.isSome := h.armed t

/-- A search for an armed timer finds it. -/
theorem Inv.find_of_armed (h : m.Inv) (hcb : (m.heap t).cb.isSome) :
    setFind m.lt t m.timers = some t :=
  setFind_of_mem lt_irrefl h.sorted ((h.mem_iff t).mpr hcb)

/-- A timer of the set is taken out. -/
theorem Detached.detach (h : m.Inv) (ht : t ∈ m.timers) :
    Detached [t] { m with timers := m.timers.erase t } := by
  have hperm : (t :: m.timers.erase t).Perm m.timers := (List.perm_cons_erase ht).symm
  refine ⟨h.sorted.sublist List.erase_sublist, fun a => ?_, hperm.nodup_iff.mpr h.nodup,
    fun a ha b hb => ?_, fun a ha => ?_⟩
  · exact (hperm.mem_iff (a := a)).trans (h.armed a)
  · exact h.addr a (hperm.mem_iff.mp ha) b (hperm.mem_iff.mp hb)
  · exact h.allocated a (hperm.mem_iff.mp ha)

/-- A prefix of the set is taken out. -/
theorem Detached.detach_prefix {rest : List ℕ} (h : m.Inv) (hl : m.timers = l ++ rest) :
    Detached l { m with timers := rest } := by
  obtain ⟨hsorted, harmed, hnodup, haddr, halloc⟩ := h
  simp only [hl, List.nil_append] at hsorted harmed hnodup haddr halloc
  exact ⟨hsorted.sublist (List.sublist_append_right l rest), harmed, hnodup, haddr, halloc⟩

/-- The facts about the timer a move takes from the list. -/
theorem Detached.head (h : Detached (t :: pending) m) :
    t ∉ pending ++ m.timers ∧ ∀ a ∈ pending ++ m.timers, (m.heap a).addr ≠ (m.heap t).addr := by
  have hnodup := h.nodup
  rw [List.cons_append, List.nodup_cons] at hnodup
  refine ⟨hnodup.1, fun a ha haddr => ?_⟩
  have hat := h.addr a (List.mem_cons_of_mem t ha) t (by simp) haddr
  exact hnodup.1 (hat ▸ ha)

/-- A timer that is out is put back with a new key; it stays armed and where it is. -/
theorem Detached.attach (h : Detached (t :: pending) m) (hcb : v.cb.isSome)
    (haddr : v.addr = (m.heap t).addr) :
    Detached pending { m.setTimer t v with
      timers := setInsert (m.setTimer t v).lt t m.timers } := by
  obtain ⟨hfresh, hother⟩ := h.head
  have hset : t ∉ m.timers := fun ht => hfresh (List.mem_append_right pending ht)
  have hne : ∀ a ∈ pending ++ m.timers, (m.setTimer t v).heap a = m.heap a :=
    fun a ha => setTimer_heap_of_ne (fun hat => hfresh (hat ▸ ha))
  -- The new key is comparable with every key in the set, as the addresses differ.
  have hcomp : ∀ y ∈ m.timers,
      (m.setTimer t v).lt y t = true ∨ (m.setTimer t v).lt t y = true := by
    intro y hy
    apply lt_total
    rw [hne y (List.mem_append_right pending hy), setTimer_heap_self, haddr]
    exact hother y (List.mem_append_right pending hy)
  have hmem : ∀ a, a ∈ pending ++ setInsert (m.setTimer t v).lt t m.timers ↔
      a ∈ t :: pending ++ m.timers := by
    intro a
    rw [List.mem_append, mem_setInsert hcomp, List.cons_append, List.mem_cons, List.mem_append]
    tauto
  have hsorted := setInsert_sorted lt_trans (sorted_setTimer (v := v) h.sorted hset) t
  have hheap : ∀ a, ((m.setTimer t v).heap a).addr = (m.heap a).addr := by
    intro a
    by_cases ha : a = t
    · rw [ha, setTimer_heap_self, haddr]
    · rw [setTimer_heap_of_ne ha]
  refine ⟨hsorted, fun a => ?_, ?_, fun a ha b hb hab => ?_, fun a ha => ?_⟩
  · rw [hmem a, h.armed a]
    by_cases ha : a = t
    · subst ha
      have : (m.heap a).cb.isSome := (h.armed a).mp (by simp)
      simp [this, hcb]
    · show _ ↔ ((m.setTimer t v).heap a).cb.isSome
      rw [setTimer_heap_of_ne ha]
  · have hnodup := h.nodup
    rw [List.cons_append, List.nodup_cons, List.nodup_append'] at hnodup
    rw [List.nodup_append']
    refine ⟨hnodup.2.1, hsorted.nodup lt_irrefl, fun a hap hat => ?_⟩
    rcases (mem_setInsert hcomp).mp hat with rfl | hat
    · exact hnodup.1 (List.mem_append_left _ hap)
    · exact hnodup.2.2.2 hap hat
  · rw [hheap, hheap] at hab
    exact h.addr a ((hmem a).mp ha) b ((hmem b).mp hb) hab
  · exact h.allocated a ((hmem a).mp ha)

/-- A timer that is out is disarmed. -/
theorem Detached.disarm (h : Detached (t :: pending) m) (hcb : v.cb = none) :
    Detached pending (m.setTimer t v) := by
  obtain ⟨hfresh, -⟩ := h.head
  -- the timer is out of the set, so its callback plays no part in the order
  have hset : t ∉ m.timers := fun ht => hfresh (List.mem_append_right pending ht)
  have hne : ∀ a ∈ pending ++ m.timers, (m.setTimer t v).heap a = m.heap a :=
    fun a ha => setTimer_heap_of_ne (fun hat => hfresh (hat ▸ ha))
  refine ⟨sorted_setTimer h.sorted hset, fun a => ?_, ?_, fun a ha b hb hab => ?_, fun a ha => ?_⟩
  · by_cases ha : a = t
    · subst ha
      rw [setTimer_heap_self, hcb]
      simpa using hfresh
    · rw [setTimer_heap_of_ne ha, ← h.armed a]
      simp [ha]
  · exact (List.nodup_cons.mp h.nodup).2
  · rw [setTimer_timers] at ha hb
    rw [hne a ha, hne b hb] at hab
    exact h.addr a (List.mem_cons_of_mem t ha) b (List.mem_cons_of_mem t hb) hab
  · exact h.allocated a (List.mem_cons_of_mem t ha)

/-- A new timer is armed and not yet in the set. -/
theorem Detached.create (h : m.Inv) (hcb : v.cb.isSome)
    (haddr : ∀ a ∈ m.timers, (m.heap a).addr ≠ v.addr) :
    Detached [m.allocated] { m.setTimer m.allocated v with allocated := m.allocated + 1 } := by
  -- the number of a new timer is not in the set
  have hset : m.allocated ∉ m.timers := fun ht => Nat.lt_irrefl _ (h.allocated _ ht)
  have hne : ∀ a ∈ m.timers, (m.setTimer m.allocated v).heap a = m.heap a :=
    fun a ha => setTimer_heap_of_ne (fun hat => hset (hat ▸ ha))
  refine ⟨sorted_setTimer h.sorted hset, fun a => ?_, List.nodup_cons.mpr ⟨hset, h.nodup⟩,
    fun a ha b hb hab => ?_, fun a ha => ?_⟩
  · show a ∈ m.allocated :: m.timers ↔ ((m.setTimer m.allocated v).heap a).cb.isSome
    by_cases ha : a = m.allocated
    · subst ha
      simp [hcb]
    · rw [setTimer_heap_of_ne ha, ← h.mem_iff a]
      simp [ha]
  · change ((m.setTimer m.allocated v).heap a).addr = ((m.setTimer m.allocated v).heap b).addr at hab
    rcases List.mem_cons.mp ha with rfl | ha <;> rcases List.mem_cons.mp hb with rfl | hb
    · rfl
    · rw [setTimer_heap_self, hne b hb] at hab
      exact absurd hab.symm (haddr b hb)
    · rw [setTimer_heap_self, hne a ha] at hab
      exact absurd hab (haddr a ha)
    · rw [hne a ha, hne b hb] at hab
      exact h.addr a ha b hb hab
  · rcases List.mem_cons.mp ha with rfl | ha
    · exact Nat.lt_succ_self _
    · exact Nat.lt_succ_of_lt (h.allocated a ha)

/-! ### What no operation does to a timer -/

/-- No timer disappears, changes `m_is_loop`, or is armed again once it is disarmed. -/
structure Evolves (m m' : TimerManager) : Prop where
  allocated : m.allocated ≤ m'.allocated
  isLoop : ∀ t < m.allocated, (m'.heap t).isLoop = (m.heap t).isLoop
  disarmed : ∀ t < m.allocated, (m.heap t).cb = none → (m'.heap t).cb = none

/-- Nothing happens. -/
theorem Evolves.refl (m : TimerManager) : Evolves m m :=
  ⟨Nat.le_refl _, fun _ _ => rfl, fun _ _ h => h⟩

/-- What two sections keep, both keep. -/
theorem Evolves.trans {m'' : TimerManager} (h : Evolves m m') (h' : Evolves m' m'') :
    Evolves m m'' where
  allocated := Nat.le_trans h.allocated h'.allocated
  isLoop := fun t ht =>
    (h'.isLoop t (Nat.lt_of_lt_of_le ht h.allocated)).trans (h.isLoop t ht)
  disarmed := fun t ht hcb =>
    h'.disarmed t (Nat.lt_of_lt_of_le ht h.allocated) (h.disarmed t ht hcb)

/-- Assigning to the key or the period of a timer, or clearing its callback. -/
theorem Evolves.setTimer (hloop : v.isLoop = (m.heap t).isLoop)
    (hcb : (m.heap t).cb = none → v.cb = none) : Evolves m (m.setTimer t v) := by
  refine ⟨Nat.le_refl _, fun a _ => ?_, fun a _ ha => ?_⟩
  · by_cases hat : a = t
    · rw [hat, setTimer_heap_self, hloop]
    · rw [setTimer_heap_of_ne hat]
  · by_cases hat : a = t
    · subst hat
      rw [setTimer_heap_self, hcb ha]
    · rw [setTimer_heap_of_ne hat, ha]

/-! ### The operations -/

/-- `insertTimer` puts a timer that is out into the set as it stands. -/
theorem Detached.insertTimer (h : Detached [t] m) : (m.insertTimer t).1.Inv := by
  have hcb : (m.heap t).cb.isSome := (h.armed t).mp (by simp)
  have hsame : m.setTimer t (m.heap t) = m := by simp [setTimer]
  have hin := h.attach (v := m.heap t) hcb rfl
  rw [hsame] at hin
  exact ⟨hin.sorted, hin.armed, hin.nodup, hin.addr, hin.allocated⟩

/-- A new timer is armed and in the set. -/
theorem addTimer_inv (h : m.Inv) {ms cb now addr : ℕ} {isLoop : Bool}
    (haddr : ∀ a ∈ m.timers, (m.heap a).addr ≠ addr) :
    (m.addTimer ms (some cb) isLoop now addr).1.Inv :=
  Detached.insertTimer (Detached.create h (v := ⟨some cb, isLoop, ms, wadd now ms, addr⟩) rfl haddr)

/-- It has a new number. -/
theorem addTimer_evolves (ms now addr : ℕ) (cb : Option ℕ) (isLoop : Bool) :
    Evolves m (m.addTimer ms cb isLoop now addr).1 := by
  have hold : ∀ t < m.allocated, (m.addTimer ms cb isLoop now addr).1.heap t = m.heap t :=
    fun t ht => setTimer_heap_of_ne (Nat.ne_of_lt ht)
  exact ⟨Nat.le_succ _, fun t ht => by rw [hold t ht], fun t ht hcb => by rw [hold t ht, hcb]⟩

/-- `cancel` on an armed timer finds it, disarms it and takes it out of the set. -/
theorem cancel_of_armed (h : m.Inv) (hcb : (m.heap t).cb.isSome) :
    m.cancel t = .ok (true, { m.setTimer t { m.heap t with cb := none } with
      timers := m.timers.erase t }) := by
  unfold cancel
  have hkey : (m.setTimer t { m.heap t with cb := none }).lt = m.lt := lt_setTimer_of_key rfl rfl
  simp only [hcb, if_true, hkey, setTimer_timers, h.find_of_armed hcb]

/-- A timer that is not armed cannot be cancelled. -/
theorem cancel_of_disarmed (hcb : ¬ (m.heap t).cb.isSome) : m.cancel t = .ok (false, m) := by
  unfold cancel
  rw [if_neg hcb]

/-- Cancelling an armed timer takes it out of the set with its callback. -/
theorem cancel_inv (h : m.Inv) (hcb : (m.heap t).cb.isSome) :
    Inv { m.setTimer t { m.heap t with cb := none } with timers := m.timers.erase t } :=
  (Detached.detach h ((h.mem_iff t).mpr hcb)).disarm rfl

/-- `m'` is `m` with the armed timer `t` moved to a new key. -/
def Moved (m : TimerManager) (t : ℕ) (m' : TimerManager) : Prop :=
  (m.heap t).cb.isSome ∧ ∃ (v : Timer) (notified : Bool),
    v.cb = (m.heap t).cb ∧ v.isLoop = (m.heap t).isLoop ∧ v.addr = (m.heap t).addr ∧
    m' = { m.setTimer t v with
      timers := setInsert (m.setTimer t v).lt t (m.timers.erase t), notified := notified }

/-- A timer that is moved to a new key stays in the set. -/
theorem Moved.inv (h : m.Inv) (hmoved : Moved m t m') : m'.Inv := by
  obtain ⟨hcb, v, notified, hvcb, -, hvaddr, rfl⟩ := hmoved
  have hout : Detached [t] { m with timers := m.timers.erase t } :=
    Detached.detach h ((h.mem_iff t).mpr hcb)
  have hin := hout.attach (v := v) (by rw [hvcb]; exact hcb) hvaddr
  exact ⟨hin.sorted, hin.armed, hin.nodup, hin.addr, hin.allocated⟩

/-- A timer that is moved to a new key stays armed. -/
theorem Moved.evolves (hmoved : Moved m t m') : Evolves m m' := by
  obtain ⟨-, v, notified, hvcb, hloop, -, rfl⟩ := hmoved
  have hset := Evolves.setTimer hloop (fun hnone => hvcb.trans hnone)
  exact ⟨hset.allocated, hset.isLoop, hset.disarmed⟩

/-- What may move a timer keeps the set invariant. -/
theorem inv_of_moved (h : m.Inv) (hcases : m' = m ∨ Moved m t m') : m'.Inv := by
  rcases hcases with rfl | hmoved
  · exact h
  · exact hmoved.inv h

/-- A timer that is moved or left alone stays armed. -/
theorem evolves_of_moved (hcases : m' = m ∨ Moved m t m') : Evolves m m' := by
  rcases hcases with rfl | hmoved
  · exact .refl _
  · exact hmoved.evolves

/-- A timer that is not armed is not refreshed. -/
theorem refresh_of_disarmed (hcb : ¬ (m.heap t).cb.isSome) (now : ℕ) : (m.refresh t now).2 = m := by
  unfold refresh
  rw [if_pos (by simpa using hcb)]

/-- The search finds an armed timer, so it is taken out and inserted with its new deadline. -/
theorem refresh_of_armed (h : m.Inv) (hcb : (m.heap t).cb.isSome) (now : ℕ) :
    (m.refresh t now).2 =
      let moved := m.setTimer t { m.heap t with next := wadd now (m.heap t).ms }
      { moved with timers := setInsert moved.lt t (m.timers.erase t) } := by
  unfold refresh
  rw [if_neg (by simpa [Option.isSome_iff_ne_none] using hcb), h.find_of_armed hcb]
  rfl

/-- `refresh` does nothing, or moves an armed timer to a new key. -/
theorem refresh_cases (h : m.Inv) (now : ℕ) :
    (m.refresh t now).2 = m ∨ Moved m t (m.refresh t now).2 := by
  by_cases hcb : (m.heap t).cb.isSome
  · right
    refine ⟨hcb, { m.heap t with next := wadd now (m.heap t).ms }, m.notified, rfl, rfl, rfl, ?_⟩
    exact refresh_of_armed h hcb now
  · left
    exact refresh_of_disarmed hcb now

/-- A timer that is not armed is not reset. -/
theorem resetLocked_of_disarmed (hcb : ¬ (m.heap t).cb.isSome) (ms now : ℕ) (fromNow : Bool) :
    (m.resetLocked t ms fromNow now).2 = m := by
  unfold resetLocked
  rw [if_pos (by simpa using hcb)]

/-- The front flag may be set, as for a timer that is added. -/
theorem resetLocked_of_armed (h : m.Inv) (hcb : (m.heap t).cb.isSome) (ms now : ℕ) (fromNow : Bool) :
    (m.resetLocked t ms fromNow now).2 =
      let base := if fromNow then now else wsub (m.heap t).next (m.heap t).ms
      let moved := m.setTimer t { m.heap t with ms := ms, next := wadd base ms }
      { moved with
        timers := setInsert moved.lt t (m.timers.erase t)
        notified := (m.resetLocked t ms fromNow now).2.notified } := by
  unfold resetLocked
  rw [if_neg (by simpa [Option.isSome_iff_ne_none] using hcb), h.find_of_armed hcb]
  rfl

/-- The locked part of `reset` does nothing, or moves an armed timer to a new key and
    period and may set the front flag. -/
theorem resetLocked_cases (h : m.Inv) (ms now : ℕ) (fromNow : Bool) :
    (m.resetLocked t ms fromNow now).2 = m ∨ Moved m t (m.resetLocked t ms fromNow now).2 := by
  by_cases hcb : (m.heap t).cb.isSome
  · right
    refine ⟨hcb, { m.heap t with
      ms := ms
      next := wadd (if fromNow then now else wsub (m.heap t).next (m.heap t).ms) ms },
      (m.resetLocked t ms fromNow now).2.notified, rfl, rfl, rfl, ?_⟩
    exact resetLocked_of_armed h hcb ms now fromNow
  · left
    exact resetLocked_of_disarmed hcb ms now fromNow

/-! ### Expiry -/

/-- One turn of the loop over the expired timers. -/
theorem Detached.rearmTimer (h : Detached (t :: pending) m) (now : ℕ) :
    Detached pending (m.rearmTimer now t) := by
  unfold TimerManager.rearmTimer
  split
  · exact h.attach (v := { m.heap t with next := wadd now (m.heap t).ms })
      ((h.armed t).mp (by simp)) rfl
  · exact h.disarm rfl

/-- An expired timer is not armed again. -/
theorem rearmTimer_evolves (now : ℕ) : Evolves m (m.rearmTimer now t) := by
  unfold rearmTimer
  split
  · have hset := Evolves.setTimer (m := m) (t := t)
      (v := { m.heap t with next := wadd now (m.heap t).ms }) rfl (fun hcb => hcb)
    exact ⟨hset.allocated, hset.isLoop, hset.disarmed⟩
  · exact Evolves.setTimer rfl (fun _ => rfl)

/-- An expired timer loses its callback unless it is a loop timer. -/
theorem rearmTimer_disarms (now : ℕ) (hloop : (m.heap t).isLoop = false) :
    ((m.rearmTimer now t).heap t).cb = none := by
  unfold rearmTimer
  rw [hloop]
  simp

/-- The loop collects one callback for each expired timer, in order. -/
theorem rearm_timers (now : ℕ) : ∀ (l : List ℕ) (m : TimerManager),
    (rearm now l m).2.map Prod.fst = l
  | [], _ => rfl
  | t :: l, m => congrArg (List.cons t) (rearm_timers now l (m.rearmTimer now t))

/-- The whole loop: the set invariant holds again, and the expired timers that are not loop
    timers are disarmed. -/
theorem Detached.rearm (now : ℕ) : ∀ {pending : List ℕ} {m : TimerManager}, Detached pending m →
    (rearm now pending m).1.Inv ∧ Evolves m (TimerManager.rearm now pending m).1 ∧
    ∀ t ∈ pending, (m.heap t).isLoop = false →
      ((TimerManager.rearm now pending m).1.heap t).cb = none := by
  intro pending
  induction pending with
  | nil => exact fun h => ⟨h, Evolves.refl _, fun t ht => absurd ht (by simp)⟩
  | cons t pending ih =>
    intro m h
    obtain ⟨hinv, hevolves, hdisarm⟩ := ih (h.rearmTimer now)
    have hone : Evolves m (m.rearmTimer now t) := rearmTimer_evolves now
    refine ⟨hinv, hone.trans hevolves, fun a ha hloop => ?_⟩
    have hsize : a < m.allocated := h.allocated a (List.mem_append_left _ ha)
    rcases List.mem_cons.mp ha with rfl | ha
    -- The timer of this turn is disarmed here and stays so in the later turns.
    · exact hevolves.disarmed a (Nat.lt_of_lt_of_le hsize hone.allocated)
        (rearmTimer_disarms now hloop)
    · exact hdisarm a ha ((hone.isLoop a hsize).trans hloop)

/-- The set is cut in two. -/
theorem splitExpired_append (isModified : Bool) (now probe : ℕ) :
    (m.splitExpired isModified now probe).1 ++ (m.splitExpired isModified now probe).2
      = m.timers := by
  unfold splitExpired
  split
  · exact List.append_nil _
  · simp only [List.append_assoc, List.takeWhile_append_dropWhile]

/-- What an expiry that leaves the manager `r.1` and returns the callbacks `r.2` does: it
    takes timers out of the set, each once, and disarms those that are not loop timers. -/
def Expires (m : TimerManager) (r : TimerManager × List (ℕ × Option ℕ)) : Prop :=
  r.1.Inv ∧ Evolves m r.1 ∧ (r.2.map Prod.fst).Nodup ∧
    ∀ t ∈ r.2.map Prod.fst, t ∈ m.timers ∧ ((m.heap t).isLoop = false → (r.1.heap t).cb = none)

/-- The loop over the timers that were cut off. -/
theorem rearm_expires {rest : List ℕ} (h : m.Inv) (hl : m.timers = l ++ rest) (now : ℕ) :
    Expires m (TimerManager.rearm now l { m with timers := rest }) := by
  obtain ⟨hinv, hevolves, hdisarm⟩ := (Detached.detach_prefix h hl).rearm now
  unfold Expires
  rw [rearm_timers]
  refine ⟨hinv, ⟨hevolves.allocated, hevolves.isLoop, hevolves.disarmed⟩, ?_, fun t ht => ?_⟩
  · have hnodup : (l ++ rest).Nodup := hl ▸ h.nodup
    exact hnodup.of_append_left
  · exact ⟨hl ▸ List.mem_append_left rest ht, hdisarm t ht⟩

/-- An expiry takes timers out of the set, each once. -/
theorem getExpiredCbsList_expires (h : m.Inv) (now probe : ℕ) :
    Expires m (m.getExpiredCbsList now probe) := by
  -- the time of the last call is no part of the invariant
  have hstored : Inv { m with previousTime := now } :=
    ⟨h.sorted, h.armed, h.nodup, h.addr, h.allocated⟩
  have hnone : ∀ t ∈ ([] : List (ℕ × Option ℕ)).map Prod.fst, t ∈ m.timers ∧
      ((m.heap t).isLoop = false → (m.heap t).cb = none) := fun t ht => absurd ht (by simp)
  unfold getExpiredCbsList
  split
  · exact ⟨h, Evolves.refl _, List.nodup_nil, hnone⟩
  · dsimp only
    split
    · -- nothing is due: only `m_previous_time` has changed
      exact ⟨hstored, ⟨Nat.le_refl _, fun _ _ => rfl, fun _ _ h => h⟩, List.nodup_nil, hnone⟩
    · obtain ⟨hinv, hevolves, hnodup, hmem⟩ :=
        rearm_expires hstored (splitExpired_append _ now probe).symm now
      exact ⟨hinv, ⟨hevolves.allocated, hevolves.isLoop, hevolves.disarmed⟩, hnodup, hmem⟩

end TimerManager

namespace TimerRun

variable {s s' : TimerRun} {a : TimerAction}

/-! ### One step of an interleaving -/

/-- Everything a step can do to a manager with the set invariant. -/
structure Advance (s s' : TimerRun) : Prop where
  manager : s'.manager.Inv
  evolves : s.manager.Evolves s'.manager
  fault : s'.fault = none
  /-- Timers of the set, each once, fire; those that are not loop timers are disarmed. -/
  fired : ∃ l : List ℕ, s'.firedTimers = s.firedTimers ++ l ∧ l.Nodup ∧ ∀ t ∈ l,
    t ∈ s.manager.timers ∧
      ((s.manager.heap t).isLoop = false → (s'.manager.heap t).cb = none)
  canceled : ∀ t ∈ s'.canceled,
    t ∈ s.canceled ∨ (t < s'.manager.allocated ∧ (s'.manager.heap t).cb = none)

/-- A step that fires nothing and cancels nothing. -/
theorem Advance.of_manager (hinv : s'.manager.Inv) (hevolves : s.manager.Evolves s'.manager)
    (hfault : s'.fault = none) (hfired : s'.fired = s.fired) (hcanceled : s'.canceled = s.canceled) :
    Advance s s' where
  manager := hinv
  evolves := hevolves
  fault := hfault
  fired := ⟨[], by simp [firedTimers, hfired], List.nodup_nil, fun t ht => absurd ht (by simp)⟩
  canceled := fun t ht => Or.inl (hcanceled ▸ ht)

/-- The callbacks that are returned are those of the timers that were taken. -/
theorem firings_timers (m : TimerManager) (now : ℕ) (cbs : List (ℕ × Option ℕ)) :
    (firings m now cbs).map Firing.timer = cbs.map Prod.fst := by
  simp [firings]

/-- **Step lemma.** Every step from a state with the set invariant and no fault. -/
theorem step_advance (hm : s.manager.Inv) (hstep : step s a = some s') : Advance s s' := by
  have hsame : s.manager.Evolves s.manager := .refl _
  cases a with
  | addTimer ms cb isLoop now addr =>
    simp only [step, Option.ite_none_right_eq_some, Option.some.injEq] at hstep
    obtain ⟨⟨hfault, haddr⟩, rfl⟩ := hstep
    exact .of_manager (TimerManager.addTimer_inv hm haddr)
      (TimerManager.addTimer_evolves ms now addr (some cb) isLoop) hfault rfl rfl
  -- a timer that is cancelled loses its callback for good
  | cancel t =>
    simp only [step, Option.ite_none_right_eq_some] at hstep
    obtain ⟨⟨hfault, ht⟩, hstep⟩ := hstep
    by_cases hcb : (s.manager.heap t).cb.isSome
    · rw [TimerManager.cancel_of_armed hm hcb, Option.some.injEq] at hstep
      subst hstep
      have hset := TimerManager.Evolves.setTimer (m := s.manager) (t := t)
        (v := { s.manager.heap t with cb := none }) rfl (fun _ => rfl)
      refine ⟨TimerManager.cancel_inv hm hcb, ⟨hset.allocated, hset.isLoop, hset.disarmed⟩, hfault,
        ⟨[], by simp [firedTimers], List.nodup_nil, fun t ht => absurd ht (by simp)⟩, ?_⟩
      intro a ha
      rcases List.mem_cons.mp ha with rfl | ha
      · exact Or.inr ⟨ht, by simp⟩
      · exact Or.inl ha
    · rw [TimerManager.cancel_of_disarmed hcb, Option.some.injEq] at hstep
      subst hstep
      exact .of_manager hm hsame hfault rfl rfl
  | refresh t now =>
    simp only [step, Option.ite_none_right_eq_some, Option.some.injEq] at hstep
    obtain ⟨⟨hfault, -⟩, rfl⟩ := hstep
    have hcases := TimerManager.refresh_cases (t := t) hm now
    exact .of_manager (TimerManager.inv_of_moved hm hcases) (TimerManager.evolves_of_moved hcases)
      hfault rfl rfl
  -- the test of `reset` is made before the lock is taken
  | resetTest t ms fromNow =>
    simp only [step, Option.ite_none_right_eq_some, Option.some.injEq] at hstep
    obtain ⟨⟨hfault, -⟩, rfl⟩ := hstep
    split <;> exact .of_manager hm hsame hfault rfl rfl
  | reset t ms fromNow now =>
    simp only [step, Option.ite_none_right_eq_some, Option.some.injEq] at hstep
    obtain ⟨⟨hfault, -⟩, rfl⟩ := hstep
    have hcases := TimerManager.resetLocked_cases (t := t) hm ms now fromNow
    exact .of_manager (TimerManager.inv_of_moved hm hcases) (TimerManager.evolves_of_moved hcases)
      hfault rfl rfl
  | getNextTimerTimeMs now =>
    simp only [step, Option.ite_none_right_eq_some, Option.some.injEq] at hstep
    obtain ⟨hfault, rfl⟩ := hstep
    -- only the flag of the notification changes
    have hnext : (s.manager.getNextTimerTimeMs now).2 = { s.manager with notified := false } := by
      unfold TimerManager.getNextTimerTimeMs
      split <;> rfl
    refine .of_manager ?_ ?_ hfault rfl rfl
    · rw [hnext]
      exact ⟨hm.sorted, hm.armed, hm.nodup, hm.addr, hm.allocated⟩
    · rw [hnext]
      exact ⟨Nat.le_refl _, fun _ _ => rfl, fun _ _ h => h⟩
  | sample now =>
    simp only [step, Option.ite_none_right_eq_some, Option.some.injEq] at hstep
    obtain ⟨hfault, rfl⟩ := hstep
    exact .of_manager hm hsame hfault rfl rfl
  | getExpiredCbsList now probe =>
    simp only [step, Option.ite_none_right_eq_some, Option.some.injEq] at hstep
    obtain ⟨⟨hfault, -⟩, rfl⟩ := hstep
    obtain ⟨hinv, hevolves, hnodup, hmem⟩ := TimerManager.getExpiredCbsList_expires hm now probe
    refine ⟨hinv, hevolves, hfault, ⟨_, ?_, hnodup, hmem⟩, fun t ht => Or.inl ht⟩
    simp only [firedTimers, List.map_append, firings_timers]

/-! ### Whole interleavings -/

/-- The invariant of an interleaving. -/
structure Inv (s : TimerRun) : Prop where
  manager : s.manager.Inv
  fault : s.fault = none
  fired : ∀ t ∈ s.firedTimers, t < s.manager.allocated
  /-- A timer that is not a loop timer has not fired while it is armed. -/
  once : ∀ t, (s.manager.heap t).isLoop = false →
    s.firedTimers.count t ≤ if (s.manager.heap t).cb.isSome then 0 else 1
  canceled : ∀ t ∈ s.canceled, t < s.manager.allocated ∧ (s.manager.heap t).cb = none

/-- Nothing has happened at first. -/
theorem inv_new (now : ℕ) : (new now).Inv where
  manager := TimerManager.inv_new now
  fault := rfl
  fired := fun t ht => absurd ht (by simp [new, firedTimers])
  once := fun t _ => by simp [new, firedTimers]
  canceled := fun t ht => absurd ht (by simp [new])

/-- A timer that fires is not yet fired, if it is not a loop timer. -/
theorem Inv.count_of_mem (h : s.Inv) {t : ℕ} (ht : t ∈ s.manager.timers)
    (hloop : (s.manager.heap t).isLoop = false) : s.firedTimers.count t = 0 := by
  have honce := h.once t hloop
  rw [if_pos ((h.manager.mem_iff t).mp ht)] at honce
  exact Nat.le_zero.mp honce

/-- What a section can do keeps the invariant of the run. -/
theorem Inv.advance (h : s.Inv) (hs : Advance s s') : s'.Inv := by
  obtain ⟨hinv, hevolves, hfault, ⟨l, hfired, hnodup, hmem⟩, hcanceled⟩ := hs
  have hold : ∀ t ∈ l, t < s.manager.allocated := fun t ht =>
    h.manager.allocated t (hmem t ht).1
  refine ⟨hinv, hfault, fun t ht => ?_, fun t hloop => ?_, fun t ht => ?_⟩
  · rw [hfired, List.mem_append] at ht
    exact Nat.lt_of_lt_of_le (ht.elim (h.fired t) (hold t)) hevolves.allocated
  · rw [hfired, List.count_append]
    by_cases hnew : t < s.manager.allocated
    · have hloop' : (s.manager.heap t).isLoop = false := (hevolves.isLoop t hnew).symm.trans hloop
      by_cases htl : t ∈ l
      -- `t` fires in this step: for the first time, and it is disarmed.
      · rw [h.count_of_mem (hmem t htl).1 hloop', (hmem t htl).2 hloop',
          List.count_eq_one_of_mem hnodup htl]
        simp
      · rw [List.count_eq_zero_of_not_mem htl, Nat.add_zero]
        apply Nat.le_trans (h.once t hloop')
        cases hcb : (s.manager.heap t).cb with
        | none => simp [hevolves.disarmed t hnew hcb]
        | some c => simp
    · -- A timer created in this step has not fired.
      have hcount : s.firedTimers.count t = 0 :=
        List.count_eq_zero_of_not_mem (fun ht => hnew (h.fired t ht))
      have hcount' : l.count t = 0 := List.count_eq_zero_of_not_mem (fun ht => hnew (hold t ht))
      omega
  · rcases hcanceled t ht with ht | hdone
    · obtain ⟨halloc, hcb⟩ := h.canceled t ht
      exact ⟨Nat.lt_of_lt_of_le halloc hevolves.allocated, hevolves.disarmed t halloc hcb⟩
    · exact hdone

/-- What stays as it is about the disarmed timers of `s`. -/
def Settled (s s' : TimerRun) : Prop :=
  s.manager.allocated ≤ s'.manager.allocated ∧
  ∀ t < s.manager.allocated, (s.manager.heap t).cb = none →
    (s'.manager.heap t).cb = none ∧ s'.firedTimers.count t = s.firedTimers.count t

/-- Nothing happens to the disarmed timers. -/
theorem Settled.refl (s : TimerRun) : Settled s s := ⟨Nat.le_refl _, fun _ _ h => ⟨h, rfl⟩⟩

/-- What two parts of a run keep, the run keeps. -/
theorem Settled.trans {s'' : TimerRun} (h : Settled s s') (h' : Settled s' s'') :
    Settled s s'' := by
  refine ⟨Nat.le_trans h.1 h'.1, fun t ht hcb => ?_⟩
  obtain ⟨hcb', hcount⟩ := h.2 t ht hcb
  obtain ⟨hcb'', hcount'⟩ := h'.2 t (Nat.lt_of_lt_of_le ht h.1) hcb'
  exact ⟨hcb'', hcount'.trans hcount⟩

/-- A timer that is disarmed stays so. -/
theorem Settled.advance (h : s.Inv) (hs : Advance s s') : Settled s s' := by
  obtain ⟨-, hevolves, -, ⟨l, hfired, -, hmem⟩, -⟩ := hs
  refine ⟨hevolves.allocated, fun t ht hcb => ⟨hevolves.disarmed t ht hcb, ?_⟩⟩
  have htl : t ∉ l := by
    intro htl
    have harmed := (h.manager.mem_iff t).mp (hmem t htl).1
    rw [hcb] at harmed
    exact absurd harmed (by simp)
  rw [hfired, List.count_append, List.count_eq_zero_of_not_mem htl, Nat.add_zero]

/-- **Timer set invariant and at-most-once firing.** In every state that any interleaving
    reaches, the set is strictly ordered by the current `m_next` and the address and has no
    duplicates, a timer is in it exactly when its callback is non-empty, and no `erase(end())`
    has happened; a timer that is not a loop timer has fired at most once; and once `cancel()`
    has returned `true` on a timer, no continuation places a callback of it in an expired
    list again. -/
theorem timer_set_invariant (start : ℕ) (as : List TimerAction) (s : TimerRun)
    (hrun : runFrom step (new start) as = some s) :
    SetSorted s.manager.lt s.manager.timers ∧ s.manager.timers.Nodup ∧
    (∀ t, t ∈ s.manager.timers ↔ (s.manager.heap t).cb.isSome) ∧
    s.fault = none ∧
    (∀ t, (s.manager.heap t).isLoop = false → s.firedTimers.count t ≤ 1) ∧
    (∀ t ∈ s.canceled, ∀ (bs : List TimerAction) (s' : TimerRun), runFrom step s bs = some s' →
      s'.firedTimers.count t = s.firedTimers.count t) := by
  have hinv : s.Inv := run_invariant_of_step (fun _ _ _ h hs => h.advance (step_advance h.manager hs))
    (inv_new start) hrun
  refine ⟨hinv.manager.sorted, hinv.manager.nodup, hinv.manager.mem_iff, hinv.fault,
    fun t hloop => ?_, fun t ht bs s' hrun' => ?_⟩
  · have honce := hinv.once t hloop
    split at honce <;> omega
  -- from here on a timer without a callback stays so and does not fire
  · have hsettled : Settled s s' := run_relation (C := fun _ _ => True) Settled.refl
      (fun _ _ _ => Settled.trans)
      (fun _ _ _ h _ hs => h.advance (step_advance h.manager hs))
      (fun _ _ _ h _ hs => Settled.advance h (step_advance h.manager hs)) hinv
      (along_of_forall s (fun _ _ _ => trivial)) hrun'
    obtain ⟨halloc, hcb⟩ := hinv.canceled t ht
    exact (hsettled.2 t halloc hcb).2

/-- The invariant after a one-shot timer has fired and a loop timer was canceled. -/
theorem timer_set_invariant_two_timers :
    ∃ s, runFrom step (new 0) [.addTimer 10 7 false 0 100, .addTimer 20 8 true 0 50, .sample 15,
        .getExpiredCbsList 15 200, .cancel 1] = some s ∧
      s.firedTimers = [0] ∧ s.canceled = [1] ∧ s.fault = none ∧
      (∀ t, t ∈ s.manager.timers ↔ (s.manager.heap t).cb.isSome) := by
  obtain ⟨s, hrun, hfired, hcanceled⟩ : ∃ s, runFrom step (new 0)
      [.addTimer 10 7 false 0 100, .addTimer 20 8 true 0 50, .sample 15,
        .getExpiredCbsList 15 200, .cancel 1] = some s ∧ s.firedTimers = [0] ∧ s.canceled = [1] :=
    ⟨_, rfl, by decide, by decide⟩
  obtain ⟨-, -, hmem, hfault, -⟩ := timer_set_invariant 0 _ s hrun
  exact ⟨s, hrun, hfired, hcanceled, hfault, hmem⟩

end TimerRun

end LoNetfw.Scheduler
