import LoNetfw.Scheduler.TimerExpiry

namespace LoNetfw.Scheduler

open Basis

/-!
# Timers — when a stored deadline is the deadline

A caller of `addTimer`, `refresh` or `reset` starts a period of a timer, and an expiry starts
the next one of a loop timer.  The period is over `ms` after its start; what the timer stores
is that sum in `uint64_t`, and `reset` without `from_now` even has to recover the start from
the stored sum.

* `Period` — a period as it is meant, with a deadline that is an integer;
* `TimerAction.starts` — the periods that one critical section starts;
* `Starts`, `step_starts` — every section stores the sum of each period it starts, modulo
  `2 ^ 64`, and leaves the other timers;
* `deadlines_iff` — in an interleaving all stored deadlines are those that are meant exactly when
  no period that is started reaches `2 ^ 64`.
-/

/-- A period of a timer as it is meant. -/
structure Period where
  start : ℕ
  ms : ℕ
  deriving DecidableEq, Repr

/-- When the period is over; an integer without bound. -/
def Period.deadline (p : Period) : ℕ := p.start + p.ms

/-- The period of timer `t` that an action starts, if it starts one; `period` is what the timers
    are in so far. -/
def TimerAction.starts (m : TimerManager) (period : ℕ → Period) : TimerAction → ℕ → Option Period
  | .addTimer ms _ _ now _, t => if t = m.allocated then some ⟨now, ms⟩ else none
  | .refresh u now, t =>
    if t = u ∧ (m.heap u).cb.isSome then some ⟨now, (m.heap u).ms⟩ else none
  | .reset u ms fromNow now, t =>
    -- the same start with another length, or a new start
    if t = u ∧ (m.heap u).cb.isSome then
      some ⟨if fromNow then now else (period u).start, ms⟩
    else none
  | .getExpiredCbsList now _, t =>
    if t ∈ m.timers ∧ m.expires now t = true ∧ (m.heap t).isLoop = true then
      some ⟨now, (m.heap t).ms⟩
    else none
  | .cancel _, _ | .resetTest _ _ _, _ | .getNextTimerTimeMs _, _ | .sample _, _ => none

/-- The arguments are `uint64_t`. -/
def TimerAction.words : TimerAction → Bool
  | .addTimer ms _ _ now _ | .reset _ ms _ now => ms < 2 ^ 64 ∧ now < 2 ^ 64
  | .refresh _ now | .getNextTimerTimeMs now | .sample now | .getExpiredCbsList now _ => now < 2 ^ 64
  | .resetTest _ ms _ => ms < 2 ^ 64
  | .cancel _ => true

namespace TimerManager

variable {m m' : TimerManager} {t u : ℕ} {started : ℕ → Option Period}

/-! ### What each operation stores -/

/-- The timer stores the period: its length, and its deadline modulo `2 ^ 64`. -/
def Stores (m : TimerManager) (t : ℕ) (p : Period) : Prop :=
  (m.heap t).ms = p.ms ∧ (m.heap t).next = wadd p.start p.ms ∧ p.start < 2 ^ 64 ∧ p.ms < 2 ^ 64

/-- What an operation that starts the periods `started` does to the timers of the set. -/
structure Starts (m m' : TimerManager) (started : ℕ → Option Period) : Prop where
  /-- A timer with a new period is armed and stores it. -/
  stores : ∀ t p, started t = some p → t ∈ m'.timers ∧ m'.Stores t p
  /-- Any other timer of the set was in it and stores what it did. -/
  keeps : ∀ t, started t = none → t ∈ m'.timers →
    t ∈ m.timers ∧ (m'.heap t).ms = (m.heap t).ms ∧ (m'.heap t).next = (m.heap t).next

/-- A timer that an operation does not touch is in the set afterwards only if it was before. -/
theorem mem_of_heap_eq (h : m.Inv) (h' : m'.Inv) (hsame : m'.heap t = m.heap t)
    (ht : t ∈ m'.timers) :
    t ∈ m.timers ∧ (m'.heap t).ms = (m.heap t).ms ∧ (m'.heap t).next = (m.heap t).next := by
  refine ⟨(h.mem_iff t).mpr ?_, by rw [hsame], by rw [hsame]⟩
  rw [← hsame]
  exact (h'.mem_iff t).mp ht

/-- An operation that leaves every timer as it is, or disarmed. -/
theorem Starts.of_none (h : m.Inv) (h' : m'.Inv) (hnone : ∀ t, started t = none)
    (hheap : ∀ t, (m'.heap t).cb.isSome → m'.heap t = m.heap t) : Starts m m' started where
  stores := fun t p hp => absurd ((hnone t).symm.trans hp) (by simp)
  keeps := fun t _ ht => mem_of_heap_eq h h' (hheap t ((h'.mem_iff t).mp ht)) ht

/-- An operation that assigns to one timer and leaves it armed with the period `p`. -/
theorem Starts.of_update {v : Timer} {p : Period} (h : m.Inv) (h' : m'.Inv)
    (hstarted : ∀ t, started t = if t = u then some p else none)
    (hheap : m'.heap = Function.update m.heap u v) (hcb : v.cb.isSome)
    (hv : v.ms = p.ms ∧ v.next = wadd p.start p.ms ∧ p.start < 2 ^ 64 ∧ p.ms < 2 ^ 64) :
    Starts m m' started where
  stores := by
    intro t q hq
    rw [hstarted, Option.ite_none_right_eq_some, Option.some.injEq] at hq
    obtain ⟨rfl, rfl⟩ := hq
    have hself : m'.heap t = v := by rw [hheap, Function.update_self]
    refine ⟨(h'.mem_iff t).mpr (hself ▸ hcb), ?_⟩
    unfold Stores
    rw [hself]
    exact hv
  keeps := by
    intro t hnone ht
    -- a timer without a new period is not the one that was changed
    have htu : t ≠ u := by
      rintro rfl
      simp [hstarted] at hnone
    exact mem_of_heap_eq h h' (by rw [hheap, Function.update_of_ne htu]) ht

/-- `addTimer` starts the period of the new timer. -/
theorem addTimer_starts (h : m.Inv) {ms cb now addr : ℕ} (isLoop : Bool)
    (haddr : ∀ a ∈ m.timers, (m.heap a).addr ≠ addr) (hms : ms < 2 ^ 64) (hnow : now < 2 ^ 64)
    (period : ℕ → Period) :
    Starts m (m.addTimer ms (some cb) isLoop now addr).1
      ((TimerAction.addTimer ms cb isLoop now addr).starts m period) :=
  .of_update h (addTimer_inv h haddr) (fun _ => rfl) rfl rfl ⟨rfl, rfl, hnow, hms⟩

/-- `refresh` starts the period of an armed timer again. -/
theorem refresh_starts (h : m.Inv) (hms : ∀ t ∈ m.timers, (m.heap t).ms < 2 ^ 64) {now : ℕ}
    (hnow : now < 2 ^ 64) (u : ℕ) (period : ℕ → Period) :
    Starts m (m.refresh u now).2 ((TimerAction.refresh u now).starts m period) := by
  by_cases hcb : (m.heap u).cb.isSome
  -- `refresh` stores the time read and the timer's own period
  · have hheap : (m.refresh u now).2.heap
        = Function.update m.heap u { m.heap u with next := wadd now (m.heap u).ms } := by
      rw [refresh_of_armed h hcb]
      rfl
    have hinv : (m.refresh u now).2.Inv := inv_of_moved h (refresh_cases h now)
    apply Starts.of_update (p := ⟨now, (m.heap u).ms⟩) h hinv ?_ hheap hcb
    · exact ⟨rfl, rfl, hnow, hms u ((h.mem_iff u).mpr hcb)⟩
    · intro t
      simp [TimerAction.starts, hcb]
  · rw [refresh_of_disarmed hcb]
    exact .of_none h h (fun t => by simp [TimerAction.starts, hcb]) (fun _ _ => rfl)

/-- `reset` without `from_now` finds the start of the period again, since subtraction takes the
    addition back. -/
theorem resetLocked_starts (h : m.Inv) {period : ℕ → Period}
    (hstores : ∀ t ∈ m.timers, m.Stores t (period t)) {ms now : ℕ} (hms : ms < 2 ^ 64)
    (hnow : now < 2 ^ 64) (u : ℕ) (fromNow : Bool) :
    Starts m (m.resetLocked u ms fromNow now).2
      ((TimerAction.reset u ms fromNow now).starts m period) := by
  by_cases hcb : (m.heap u).cb.isSome
  · obtain ⟨hlen, hnext, hstart, hlt⟩ := hstores u ((h.mem_iff u).mpr hcb)
    -- what was added modulo `2 ^ 64` is taken back, even from a deadline that has wrapped
    have hbase : wsub (m.heap u).next (m.heap u).ms = (period u).start := by
      rw [hnext, hlen, wsub_wadd hstart hlt]
    have hheap : (m.resetLocked u ms fromNow now).2.heap = Function.update m.heap u
        { m.heap u with
          ms := ms, next := wadd (if fromNow then now else (period u).start) ms } := by
      rw [resetLocked_of_armed h hcb, ← hbase]
      rfl
    have hinv : (m.resetLocked u ms fromNow now).2.Inv :=
      inv_of_moved h (resetLocked_cases h ms now fromNow)
    apply Starts.of_update (p := ⟨if fromNow then now else (period u).start, ms⟩) h hinv ?_ hheap hcb
    · refine ⟨rfl, rfl, ?_, hms⟩
      cases fromNow
      · exact hstart
      · exact hnow
    · intro t
      simp [TimerAction.starts, hcb]
  · rw [resetLocked_of_disarmed hcb]
    exact .of_none h h (fun t => by simp [TimerAction.starts, hcb]) (fun _ _ => rfl)

/-- An expiry starts a period of every loop timer it takes, and disarms the other ones. -/
theorem getExpiredCbsList_starts (h : m.Inv) (hms : ∀ t ∈ m.timers, (m.heap t).ms < 2 ^ 64)
    {now : ℕ} (hnow : now < 2 ^ 64) (probe : ℕ) (period : ℕ → Period) :
    Starts m (m.getExpiredCbsList now probe).1
      ((TimerAction.getExpiredCbsList now probe).starts m period) where
  stores := by
    intro t p hp
    simp only [TimerAction.starts, Option.ite_none_right_eq_some, Option.some.injEq] at hp
    obtain ⟨⟨ht, hexpires, hloop⟩, rfl⟩ := hp
    -- a loop timer that has expired starts again at the time read
    have hself := (getExpiredCbsList_heap h now probe t).trans (if_pos ⟨ht, hexpires⟩)
    rw [Timer.expired, if_pos hloop] at hself
    have hinv := (getExpiredCbsList_expires h now probe).1
    refine ⟨(hinv.mem_iff t).mpr ?_, ?_⟩
    · rw [hself]
      exact (h.mem_iff t).mp ht
    · unfold Stores
      rw [hself]
      exact ⟨rfl, rfl, hnow, hms t ht⟩
  keeps := by
    intro t hnone ht
    have hinv := (getExpiredCbsList_expires h now probe).1
    simp only [TimerAction.starts, ite_eq_right_iff, reduceCtorEq, imp_false] at hnone
    have hheap := getExpiredCbsList_heap h now probe t
    by_cases htaken : t ∈ m.timers ∧ m.expires now t = true
    · -- a timer that was taken and is not a loop timer is disarmed, so it is not in the set
      have hloop : ¬ (m.heap t).isLoop = true := fun hloop => hnone ⟨htaken.1, htaken.2, hloop⟩
      rw [if_pos htaken, Timer.expired, if_neg hloop] at hheap
      have hcb := (hinv.mem_iff t).mp ht
      rw [hheap] at hcb
      exact absurd hcb (by simp)
    · rw [if_neg htaken] at hheap
      exact mem_of_heap_eq h hinv hheap ht

end TimerManager

/-! ### Whole interleavings -/

/-- An interleaving with the period each timer is in. -/
structure DeadlineRun where
  run : TimerRun
  period : ℕ → Period

namespace DeadlineRun

/-- A manager created when the clock reads `now`; no timer has a period yet. -/
def new (now : ℕ) : DeadlineRun := ⟨.new now, fun _ => ⟨0, 0⟩⟩

/-- One critical section, and the periods it starts. -/
def step (s : DeadlineRun) (a : TimerAction) : Option DeadlineRun :=
  if a.words then
    (s.run.step a).map fun run =>
      ⟨run, fun t => (a.starts s.run.manager s.period t).getD (s.period t)⟩
  else none

/-- The stored deadlines are those that are meant, and so no timer is due before its period
    is over. -/
def Exact (s : DeadlineRun) : Prop :=
  ∀ t ∈ s.run.manager.timers, (s.run.manager.heap t).next = (s.period t).deadline ∧
    ∀ now, s.run.manager.due now t = true → (s.period t).deadline ≤ now

/-- The condition on a step: the periods it starts are over before `2 ^ 64`. -/
def InRange (s : DeadlineRun) (a : TimerAction) : Prop :=
  ∀ t p, a.starts s.run.manager s.period t = some p → p.deadline < 2 ^ 64

/-- The invariant: every timer of the set stores its period. -/
structure Tracked (s : DeadlineRun) : Prop where
  manager : s.run.manager.Inv
  stores : ∀ t ∈ s.run.manager.timers, s.run.manager.Stores t (s.period t)

variable {s s' : DeadlineRun} {a : TimerAction} {run : TimerRun}

/-- No timer has a period at first. -/
theorem tracked_new (now : ℕ) : (new now).Tracked where
  manager := TimerManager.inv_new now
  stores := fun t ht => absurd ht (by simp [new, TimerRun.new, TimerManager.new])

/-- **Step lemma.** Every critical section stores the periods it starts. -/
theorem step_starts (h : s.Tracked) (hwords : a.words = true) (hstep : s.run.step a = some run) :
    s.run.manager.Starts run.manager (a.starts s.run.manager s.period) := by
  have hm := h.manager
  have hm' := (TimerRun.step_advance hm hstep).manager
  have hms : ∀ t ∈ s.run.manager.timers, (s.run.manager.heap t).ms < 2 ^ 64 := by
    intro t ht
    obtain ⟨hlen, -, -, hlt⟩ := h.stores t ht
    rw [hlen]
    exact hlt
  cases a with
  | addTimer ms cb isLoop now addr =>
    simp only [TimerAction.words, decide_eq_true_eq] at hwords
    simp only [TimerRun.step, Option.ite_none_right_eq_some, Option.some.injEq] at hstep
    obtain ⟨⟨-, haddr⟩, rfl⟩ := hstep
    exact TimerManager.addTimer_starts hm isLoop haddr hwords.1 hwords.2 s.period
  | cancel u =>
    simp only [TimerRun.step, Option.ite_none_right_eq_some] at hstep
    obtain ⟨-, hstep⟩ := hstep
    apply TimerManager.Starts.of_none hm hm' (fun _ => rfl)
    by_cases hcb : (s.run.manager.heap u).cb.isSome
    · -- only the canceled timer changes, and it is not armed any more
      rw [TimerManager.cancel_of_armed hm hcb, Option.some.injEq] at hstep
      subst hstep
      intro t ht
      have htu : t ≠ u := by
        rintro rfl
        exact absurd ht (by simp)
      exact TimerManager.setTimer_heap_of_ne htu
    · rw [TimerManager.cancel_of_disarmed hcb, Option.some.injEq] at hstep
      subst hstep
      exact fun _ _ => rfl
  | refresh u now =>
    simp only [TimerAction.words, decide_eq_true_eq] at hwords
    simp only [TimerRun.step, Option.ite_none_right_eq_some, Option.some.injEq] at hstep
    obtain ⟨-, rfl⟩ := hstep
    exact TimerManager.refresh_starts hm hms hwords u s.period
  | reset u ms fromNow now =>
    simp only [TimerAction.words, decide_eq_true_eq] at hwords
    simp only [TimerRun.step, Option.ite_none_right_eq_some, Option.some.injEq] at hstep
    obtain ⟨-, rfl⟩ := hstep
    exact TimerManager.resetLocked_starts hm h.stores hwords.1 hwords.2 u fromNow
  | getExpiredCbsList now probe =>
    simp only [TimerAction.words, decide_eq_true_eq] at hwords
    simp only [TimerRun.step, Option.ite_none_right_eq_some, Option.some.injEq] at hstep
    obtain ⟨-, rfl⟩ := hstep
    exact TimerManager.getExpiredCbsList_starts hm hms hwords probe s.period
  -- the other sections read the timers, or the clock, and write none
  | resetTest u ms fromNow =>
    simp only [TimerRun.step, Option.ite_none_right_eq_some, Option.some.injEq] at hstep
    obtain ⟨-, rfl⟩ := hstep
    apply TimerManager.Starts.of_none hm hm' (fun _ => rfl)
    split <;> exact fun _ _ => rfl
  | getNextTimerTimeMs now =>
    simp only [TimerRun.step, Option.ite_none_right_eq_some, Option.some.injEq] at hstep
    obtain ⟨-, rfl⟩ := hstep
    apply TimerManager.Starts.of_none hm hm' (fun _ => rfl)
    unfold TimerManager.getNextTimerTimeMs
    split <;> exact fun _ _ => rfl
  | sample now =>
    simp only [TimerRun.step, Option.ite_none_right_eq_some, Option.some.injEq] at hstep
    obtain ⟨-, rfl⟩ := hstep
    exact .of_none hm hm' (fun _ => rfl) (fun _ _ => rfl)

/-- A critical section with its periods. -/
theorem step_eq_some : step s a = some s' ↔ a.words = true ∧ ∃ run, s.run.step a = some run ∧
    s' = ⟨run, fun t => (a.starts s.run.manager s.period t).getD (s.period t)⟩ := by
  unfold step
  rw [Option.ite_none_right_eq_some, Option.map_eq_some_iff]
  simp only [eq_comm]

/-- Each section keeps the invariant. -/
theorem Tracked.step (h : s.Tracked) (hstep : step s a = some s') : s'.Tracked := by
  obtain ⟨hwords, run, hrun, rfl⟩ := step_eq_some.mp hstep
  have hstarts := step_starts h hwords hrun
  refine ⟨(TimerRun.step_advance h.manager hrun).manager, fun t ht => ?_⟩
  dsimp only
  cases hp : a.starts s.run.manager s.period t with
  | some p => exact (hstarts.stores t p hp).2
  | none =>
    obtain ⟨hold, hms, hnext⟩ := hstarts.keeps t hp ht
    have hstores := h.stores t hold
    unfold TimerManager.Stores at hstores ⊢
    rw [hms, hnext]
    exact hstores

/-- No timer is due early once the stored deadlines are right. -/
theorem exact_iff (s : DeadlineRun) : s.Exact ↔
    ∀ t ∈ s.run.manager.timers, (s.run.manager.heap t).next = (s.period t).deadline := by
  refine forall₂_congr fun t _ => and_iff_left_of_imp ?_
  intro hnext now hdue
  rw [← hnext]
  exact TimerManager.due_iff.mp hdue

/-- **Step lemma.** From right deadlines a step leads to right deadlines exactly when it
    is in range. -/
theorem step_exact_iff (h : s.Tracked) (hexact : s.Exact) (hstep : step s a = some s') :
    s'.Exact ↔ s.InRange a := by
  obtain ⟨hwords, run, hrun, rfl⟩ := step_eq_some.mp hstep
  have hstarts := step_starts h hwords hrun
  rw [exact_iff] at hexact ⊢
  constructor
  · intro hexact' t p hp
    obtain ⟨ht, -, hnext, -⟩ := hstarts.stores t p hp
    -- a deadline that was stored in this step is right when the sum does not wrap
    have hright := hexact' t ht
    dsimp only at hright
    rw [hp, Option.getD_some, hnext] at hright
    exact wadd_eq_add_iff.mp hright
  · intro hrange t ht
    dsimp only
    cases hp : a.starts s.run.manager s.period t with
    | some p =>
      obtain ⟨-, -, hnext, -⟩ := hstarts.stores t p hp
      exact hnext.trans (wadd_eq_add_iff.mpr (hrange t p hp))
    | none =>
      obtain ⟨hold, -, hnext⟩ := hstarts.keeps t hp ht
      exact hnext.trans (hexact t hold)

/-- **Deadlines, exactly.** In an interleaving with any periods, flags and clock readings, every
    timer of the set stores the integer sum of the start and the length of its period, and
    is not due before it, in all states, exactly when every period that `addTimer`, `refresh`,
    `reset` or an expiry starts is over before `2 ^ 64`. -/
theorem deadlines_iff (start : ℕ) (as : List TimerAction) (s : DeadlineRun)
    (hrun : runFrom step (new start) as = some s) :
    Always step Exact (new start) as ↔ Along step InRange (new start) as := by
  apply always_iff_along (I := Tracked) (fun _ _ _ h hstep => h.step hstep)
    (fun _ _ _ h hexact hstep => step_exact_iff h hexact hstep) (tracked_new start) ?_ hrun
  rw [exact_iff]
  exact fun t ht => absurd ht (by simp [new, TimerRun.new, TimerManager.new])

/-- A loop timer that fires once and is then reset within its period. -/
theorem deadlines_iff_loop_timer :
    (∃ s, runFrom step (new 1000) [.addTimer 500 7 true 1000 64, .sample 1600,
        .getExpiredCbsList 1600 80, .resetTest 0 700 false, .reset 0 700 false 1700] = some s ∧
      (s.run.manager.heap 0).next = 2300) ∧
    Always step Exact (new 1000) [.addTimer 500 7 true 1000 64, .sample 1600,
      .getExpiredCbsList 1600 80, .resetTest 0 700 false, .reset 0 700 false 1700] := by
  refine ⟨⟨_, rfl, by decide⟩, (deadlines_iff 1000 _ _ rfl).mpr ?_⟩
  -- each step of the run starts the periods of one timer at most, and none of the sums wraps
  apply (along_cons_of_some rfl).mpr
  refine ⟨fun t p hp => ?_, ?_⟩
  · simp only [TimerAction.starts, Option.ite_none_right_eq_some, Option.some.injEq] at hp
    obtain ⟨-, rfl⟩ := hp
    decide
  apply (along_cons_of_some rfl).mpr
  refine ⟨fun t p hp => absurd hp (by simp [TimerAction.starts]), ?_⟩
  apply (along_cons_of_some rfl).mpr
  refine ⟨fun t p hp => ?_, ?_⟩
  · simp only [TimerAction.starts, Option.ite_none_right_eq_some, Option.some.injEq] at hp
    obtain ⟨⟨ht, -⟩, rfl⟩ := hp
    obtain rfl := List.mem_singleton.mp ht
    decide
  apply (along_cons_of_some rfl).mpr
  refine ⟨fun t p hp => absurd hp (by simp [TimerAction.starts]), ?_⟩
  apply (along_cons_of_some rfl).mpr
  refine ⟨fun t p hp => ?_, trivial⟩
  simp only [TimerAction.starts, Option.ite_none_right_eq_some, Option.some.injEq] at hp
  obtain ⟨-, rfl⟩ := hp
  decide

/-- A timer with the longest period is due at once: its deadline wraps to 999. -/
theorem longest_period_due_at_once :
    ¬ ∀ (start : ℕ) (as : List TimerAction) (s : DeadlineRun),
      runFrom step (new start) as = some s → Always step Exact (new start) as := by
  intro h
  have hall := h 1000 [.addTimer (2 ^ 64 - 1) 7 false 1000 64] _ rfl
  have hexact := (hall.2 _ rfl).first 0 (by decide)
  exact absurd hexact.1 (by decide)

end DeadlineRun

end LoNetfw.Scheduler
