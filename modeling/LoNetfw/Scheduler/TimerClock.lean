import LoNetfw.Scheduler.TimerInv
import Mathlib.Data.List.TakeWhile

namespace LoNetfw.Scheduler

open Basis

/-!
# Timers under a monotone clock — when a timer fires early

The workers read one clock that never goes back, but a worker reads it before it takes the
lock, so `getExpiredCbsList` can run with a reading older than `m_previous_time`.  What
happens then depends on `detectTimeModified`, which subtracts one hour from
`m_previous_time` as an unsigned number.

* `ClockRun.step` — the interleavings of `TimerRun` with readings of one clock;
* `detectTimeModified_eq_true_iff` — a roll-back is reported for an older reading below one
  hour, and for a reading more than one hour older;
* `InTime` — the condition on a step under which it fires only timers that are due;
* `no_early_firing_iff` — an interleaving fires no timer early exactly when all its steps
  meet that condition.
-/

/-- One hour, as `detectTimeModified` writes it. -/
def oneHourMs : ℕ := 60 * 60 * 1000

namespace TimerManager

variable {m : TimerManager} {now probe : ℕ}

/-- The test in integers: a step back counts when it is longer than an hour, and always while the
    previous reading is below one hour, as the subtraction wraps there. -/
theorem detectTimeModified_eq_true_iff {previous now : ℕ} :
    detectTimeModified previous now = true ↔
      now < previous ∧ (previous < oneHourMs ∨ now + oneHourMs < previous) := by
  unfold detectTimeModified oneHourMs
  rw [Bool.and_eq_true, decide_eq_true_iff, decide_eq_true_iff]
  apply and_congr_right
  intro hlt
  by_cases hhour : previous < 60 * 60 * 1000
  · rw [wsub_of_lt hhour]
    omega
  · rw [wsub_of_le (by omega)]
    omega

/-! ### The timers one call takes -/

/-- A call that believes in a roll-back takes every timer. -/
theorem getExpiredCbsList_of_modified (hne : m.timers ≠ [])
    (hmod : detectTimeModified m.previousTime now = true) :
    (m.getExpiredCbsList now probe).2.map Prod.fst = m.timers := by
  unfold getExpiredCbsList
  split
  · rename_i hnil
    exact absurd hnil hne
  · simp only [hmod, Bool.not_true, Bool.false_and, Bool.false_eq_true, if_false, rearm_timers]
    rfl

/-- The timers up to the iterator are due. -/
theorem splitExpired_due {t : ℕ} (ht : t ∈ (m.splitExpired false now probe).1) :
    (m.heap t).next ≤ now := by
  unfold splitExpired at ht
  simp only [Bool.false_eq_true, if_false, List.mem_append] at ht
  rcases ht with ht | ht
  · have hbelow := List.mem_takeWhile_imp ht
    rw [Timer.before_iff] at hbelow
    dsimp only at hbelow
    omega
  · have hdue := List.mem_takeWhile_imp ht
    rw [beq_iff_eq] at hdue
    omega

/-- A call that does not believe in a roll-back takes only timers that are due. -/
theorem getExpiredCbsList_due (hmod : detectTimeModified m.previousTime now = false) {t : ℕ}
    (ht : t ∈ (m.getExpiredCbsList now probe).2.map Prod.fst) : (m.heap t).next ≤ now := by
  unfold getExpiredCbsList at ht
  split at ht
  · exact absurd ht (by simp)
  · simp only [hmod] at ht
    split at ht
    · exact absurd ht (by simp)
    · rw [rearm_timers] at ht
      exact splitExpired_due ht

/-- The condition on a call with the reading `now`: the reading is not older than
    `m_previous_time`; or `m_previous_time` is at least one hour, and the reading is at most
    one hour older or every timer is due anyway. -/
def InTime (m : TimerManager) (now : ℕ) : Prop :=
  m.timers = [] ∨ m.previousTime ≤ now ∨
    (oneHourMs ≤ m.previousTime ∧
      (m.previousTime ≤ now + oneHourMs ∨ ∀ t ∈ m.timers, (m.heap t).next ≤ now))

/-- One call takes only timers that are due, and reports a roll-back only of more than one
    hour, exactly when it is in time. -/
theorem inTime_iff (m : TimerManager) (now probe : ℕ) :
    m.InTime now ↔
      (∀ t ∈ (m.getExpiredCbsList now probe).2.map Prod.fst, (m.heap t).next ≤ now) ∧
      (m.timers ≠ [] → detectTimeModified m.previousTime now = true →
        now + oneHourMs < m.previousTime) := by
  unfold InTime
  by_cases hne : m.timers = []
  · simp [hne, getExpiredCbsList]
  by_cases hmod : detectTimeModified m.previousTime now = true
  · -- every timer is taken, so both sides speak about all of them
    rw [getExpiredCbsList_of_modified hne hmod]
    have hlate := detectTimeModified_eq_true_iff.mp hmod
    constructor
    · rintro (hnil | hfresh | ⟨hhour, hshort | hdue⟩)
      · exact absurd hnil hne
      · omega
      · omega
      · exact ⟨hdue, fun _ _ => by omega⟩
    · rintro ⟨hdue, hlong⟩
      exact Or.inr (Or.inr ⟨by have := hlong hne hmod; omega, Or.inr hdue⟩)
  -- no change of the clock is detected, so only what is due is taken
  · refine iff_of_true (Or.inr ?_) ⟨fun t ht => getExpiredCbsList_due (by simpa using hmod) ht,
      fun _ h => absurd h hmod⟩
    rw [detectTimeModified_eq_true_iff] at hmod
    by_cases hfresh : m.previousTime ≤ now
    · exact Or.inl hfresh
    · exact Or.inr ⟨by omega, Or.inl (by omega)⟩

end TimerManager

/-! ### Interleavings with one clock -/

/-- The readings of an action are those of a clock that reads `clock`: a new timer was
    created, and its reading made, before the lock was taken. -/
def TimerAction.reads (clock : ℕ) : TimerAction → Bool
  | .addTimer _ _ _ now _ => now ≤ clock
  | .refresh _ now | .reset _ _ _ now | .getNextTimerTimeMs now | .sample now => now == clock
  | .cancel _ | .resetTest _ _ _ | .getExpiredCbsList _ _ => true

inductive ClockAction
  | tick (clock : ℕ)
  | timer (a : TimerAction)
  deriving DecidableEq, Repr

structure ClockRun where
  run : TimerRun
  clock : ℕ

namespace ClockRun

/-- A manager created when the clock reads `start`. -/
def new (start : ℕ) : ClockRun := ⟨.new start, start⟩

/-- The clock moves forward, or a thread makes a step. -/
def step (s : ClockRun) : ClockAction → Option ClockRun
  | .tick clock => if s.clock ≤ clock ∧ clock < 2 ^ 64 then some { s with clock := clock } else none
  | .timer a =>
    if a.reads s.clock then (s.run.step a).map (fun run => { s with run := run }) else none

/-- No callback was received early, and every reported roll-back is one of more than an hour. -/
def OnTime (s : ClockRun) : Prop :=
  (∀ f ∈ s.run.fired, f.next ≤ f.now) ∧
  ∀ d ∈ s.run.detections, d.isModified = true → d.now + oneHourMs < d.previous

/-- The condition on a step: a call of `getExpiredCbsList` is in time. -/
def InTime (s : ClockRun) : ClockAction → Prop
  | .timer (.getExpiredCbsList now _) => s.run.manager.InTime now
  | _ => True

variable {s s' : ClockRun} {a : ClockAction}

/-- A step of a thread other than an expiry fires nothing and tests nothing. -/
theorem step_logs {t t' : TimerRun} {b : TimerAction} (hb : ∀ now probe, b ≠ .getExpiredCbsList now probe)
    (hstep : t.step b = some t') : t'.fired = t.fired ∧ t'.detections = t.detections := by
  cases b with
  | getExpiredCbsList now probe => exact absurd rfl (hb now probe)
  -- only the expiry writes the two logs
  | cancel u =>
    simp only [TimerRun.step, Option.ite_none_right_eq_some] at hstep
    obtain ⟨-, hstep⟩ := hstep
    split at hstep <;> cases hstep <;> exact ⟨rfl, rfl⟩
  | resetTest u ms fromNow =>
    simp only [TimerRun.step, Option.ite_none_right_eq_some, Option.some.injEq] at hstep
    obtain ⟨-, rfl⟩ := hstep
    split <;> exact ⟨rfl, rfl⟩
  | _ =>
    simp only [TimerRun.step, Option.ite_none_right_eq_some, Option.some.injEq] at hstep
    obtain ⟨-, rfl⟩ := hstep
    exact ⟨rfl, rfl⟩

/-- What an expiry adds to the logs is in order exactly when the call is in time. -/
theorem expiry_onTime_iff (m : TimerManager) (now probe : ℕ) :
    ((∀ f ∈ TimerRun.firings m now (m.getExpiredCbsList now probe).2, f.next ≤ f.now) ∧
      ∀ d ∈ TimerRun.detection m now, d.isModified = true → d.now + oneHourMs < d.previous) ↔
    m.InTime now := by
  rw [m.inTime_iff now probe]
  apply and_congr
  · unfold TimerRun.firings
    rw [List.forall_mem_map, List.forall_mem_map]
  · unfold TimerRun.detection
    by_cases hne : m.timers = []
    · simp [hne]
    · simp [hne]

/-- **Step lemma.** A step keeps everything on time exactly when it meets the condition. -/
theorem step_onTime_iff (hstep : step s a = some s') : s'.OnTime ↔ s.OnTime ∧ s.InTime a := by
  cases a with
  | tick clock =>
    simp only [step, Option.ite_none_right_eq_some, Option.some.injEq] at hstep
    obtain ⟨-, rfl⟩ := hstep
    simp [OnTime, InTime]
  | timer b =>
    simp only [step, Option.ite_none_right_eq_some, Option.map_eq_some_iff] at hstep
    obtain ⟨-, t', hb, rfl⟩ := hstep
    -- only the expiry can fire early
    by_cases hexp : ∃ now probe, b = .getExpiredCbsList now probe
    · obtain ⟨now, probe, rfl⟩ := hexp
      simp only [TimerRun.step, Option.ite_none_right_eq_some, Option.some.injEq] at hb
      obtain ⟨-, rfl⟩ := hb
      simp only [OnTime, InTime, List.forall_mem_append, ← expiry_onTime_iff _ now probe]
      tauto
    · obtain ⟨hfired, hdet⟩ := step_logs (fun now probe h => hexp ⟨now, probe, h⟩) hb
      have hcond : s.InTime (.timer b) := by
        unfold InTime
        split
        · rename_i now probe heq
          exact absurd ⟨now, probe, ClockAction.timer.inj heq⟩ hexp
        · trivial
      simp only [OnTime, hfired, hdet, hcond, and_true]

/-- **No early firing, exactly.** In an interleaving under a clock that never goes back and
    starts anywhere, every callback a worker received belongs to a timer with `m_next` at
    most the worker's reading, and every reported roll-back is one of more than 3600000 ms,
    exactly when each call of `getExpiredCbsList` was in time. -/
theorem no_early_firing_iff (start : ℕ) (as : List ClockAction) (s : ClockRun)
    (hrun : runFrom step (new start) as = some s) :
    ((∀ f ∈ s.run.fired, f.next ≤ f.now) ∧
      ∀ d ∈ s.run.detections, d.isModified = true → d.now + 3600000 < d.previous) ↔
    Along step InTime (new start) as := by
  have hnew : (new start).OnTime := by simp [OnTime, new, TimerRun.new]
  have hiff := run_iff_along (P := OnTime) (C := InTime) (fun _ _ _ => step_onTime_iff) hrun
  unfold OnTime oneHourMs at hiff
  rw [hiff]
  exact ⟨fun h => h.2, fun h => ⟨hnew, h⟩⟩

/-- A timer that fires when it is due: both calls are in time. -/
theorem no_early_firing_iff_when_due :
    (∃ s, runFrom step (new 1000) [.timer (.addTimer 500 7 false 1000 64), .tick 1600,
        .timer (.sample 1600), .timer (.getExpiredCbsList 1600 80)] = some s ∧
      s.run.fired = [⟨0, some 7, 1500, 1600⟩]) ∧
    Along step InTime (new 1000) [.timer (.addTimer 500 7 false 1000 64), .tick 1600,
      .timer (.sample 1600), .timer (.getExpiredCbsList 1600 80)] := by
  refine ⟨⟨_, rfl, by decide⟩, ?_⟩
  refine (no_early_firing_iff 1000 _ _ rfl).mp ⟨?_, ?_⟩
  · decide
  · decide

/-- The reading of a slow worker, 500 ms older than `m_previous_time` and both below one
    hour, counts as a roll-back, and a timer due at 6000 fires at 1000. -/
theorem early_firing_below_one_hour :
    ¬ ∀ (start : ℕ) (as : List ClockAction) (s : ClockRun), runFrom step (new start) as = some s →
      (∀ f ∈ s.run.fired, f.next ≤ f.now) ∧
      ∀ d ∈ s.run.detections, d.isModified = true → d.now + 3600000 < d.previous := by
  intro h
  have hfired := (h 1000 [.timer (.addTimer 5000 7 false 1000 64), .timer (.sample 1000), .tick 1500,
    .timer (.sample 1500), .timer (.getExpiredCbsList 1500 80),
    .timer (.getExpiredCbsList 1000 80)] _ rfl).1 ⟨0, some 7, 6000, 1000⟩ (by decide)
  exact absurd hfired (by decide)

end ClockRun

end LoNetfw.Scheduler
