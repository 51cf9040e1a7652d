import LoNetfw.Scheduler.Timer
import LoNetfw.Basis.StepSystem

namespace LoNetfw.Scheduler

open Basis

/-!
# Timers — interleavings of the critical sections

Threads call the members of `TimerManager` and `Timer` concurrently.  What they do to the
shared state is one critical section after another, so an interleaving is a list of
`TimerAction`s, each one critical section (or one unlocked read that a later section
depends on) with the clock reading it uses.

* `TimerAction`, `TimerRun.step` — the sections and what each does;
* `TimerRun.fired`, `TimerRun.detections`, `TimerRun.canceled` — what the callers have seen:
  the callbacks placed in an expired list, the results of `detectTimeModified`, and the
  timers on which `cancel()` returned `true`.
-/

/-- One step of a thread. -/
inductive TimerAction
  /-- `addTimer(ms, cb, is_loop)`: the timer was created when the clock read `now`, at `addr`. -/
  | addTimer (ms cb : ℕ) (isLoop : Bool) (now addr : ℕ)
  | cancel (t : ℕ)
  | refresh (t now : ℕ)
  /-- The unlocked test at the start of `reset`. -/
  | resetTest (t ms : ℕ) (fromNow : Bool)
  /-- The locked part of a `reset` whose test is over. -/
  | reset (t ms : ℕ) (fromNow : Bool) (now : ℕ)
  | getNextTimerTimeMs (now : ℕ)
  /-- A call of `getExpiredCbsList` samples the clock. -/
  | sample (now : ℕ)
  /-- The write-locked part of a `getExpiredCbsList` that sampled `now`. -/
  | getExpiredCbsList (now probe : ℕ)
  deriving DecidableEq, Repr

/-- A callback placed in an expired list: its timer, the timer's `m_next` at that moment, and
    the clock reading of the call. -/
structure Firing where
  timer : ℕ
  cb : Option ℕ
  next : ℕ
  now : ℕ
  deriving DecidableEq, Repr

/-- A call of `detectTimeModified`: `m_previous_time` before it, its argument and result. -/
structure Detection where
  previous : ℕ
  now : ℕ
  isModified : Bool
  deriving DecidableEq, Repr

structure TimerRun where
  manager : TimerManager
  /-- The calls of `reset` that have passed the test and not yet taken the lock. -/
  resetting : List (ℕ × ℕ × Bool)
  /-- The clock readings of the calls of `getExpiredCbsList` that are on their way. -/
  sampled : List ℕ
  fired : List Firing
  detections : List Detection
  canceled : List ℕ
  fault : Option TimerManager.Fault

namespace TimerRun

/-- A manager created when the clock reads `now`. -/
def new (now : ℕ) : TimerRun where
  manager := .new now
  resetting := []
  sampled := []
  fired := []
  detections := []
  canceled := []
  fault := none

/-- The firings of a call that sampled `now` and returned `cbs` from the manager `m`. -/
def firings (m : TimerManager) (now : ℕ) (cbs : List (ℕ × Option ℕ)) : List Firing :=
  cbs.map (fun c => ⟨c.1, c.2, (m.heap c.1).next, now⟩)

/-- The call of `detectTimeModified` that `getExpiredCbsList` makes, if it makes one. -/
def detection (m : TimerManager) (now : ℕ) : List Detection :=
  if m.timers.isEmpty then []
  else [⟨m.previousTime, now, TimerManager.detectTimeModified m.previousTime now⟩]

/-- One step.  A new timer is at an address no timer of the set has, since the set keeps its
    timers alive; a handle passed to `cancel`, `refresh` or `reset` was returned by `addTimer`.
    After undefined behaviour there are no more steps. -/
def step (s : TimerRun) : TimerAction → Option TimerRun
  | .addTimer ms cb isLoop now addr =>
    if s.fault = none ∧ ∀ t ∈ s.manager.timers, (s.manager.heap t).addr ≠ addr then
      some { s with manager := (s.manager.addTimer ms (some cb) isLoop now addr).1 }
    else none
  | .cancel t =>
    if s.fault = none ∧ t < s.manager.allocated then
      match s.manager.cancel t with
      | .error f => some { s with fault := some f }
      | .ok (true, m) => some { s with manager := m, canceled := t :: s.canceled }
      | .ok (false, m) => some { s with manager := m }
    else none
  | .refresh t now =>
    if s.fault = none ∧ t < s.manager.allocated then
      some { s with manager := (s.manager.refresh t now).2 }
    else none
  | .resetTest t ms fromNow =>
    if s.fault = none ∧ t < s.manager.allocated then
      some (if s.manager.resetSkips t ms fromNow then s
        else { s with resetting := (t, ms, fromNow) :: s.resetting })
    else none
  | .reset t ms fromNow now =>
    if s.fault = none ∧ (t, ms, fromNow) ∈ s.resetting then
      some { s with
        manager := (s.manager.resetLocked t ms fromNow now).2
        resetting := s.resetting.erase (t, ms, fromNow) }
    else none
  | .getNextTimerTimeMs now =>
    if s.fault = none then some { s with manager := (s.manager.getNextTimerTimeMs now).2 }
    else none
  -- The read-locked test for an empty set after it can only end the call.
  | .sample now =>
    if s.fault = none then some { s with sampled := now :: s.sampled } else none
  | .getExpiredCbsList now probe =>
    if s.fault = none ∧ now ∈ s.sampled then
      let (m, cbs) := s.manager.getExpiredCbsList now probe
      some { s with
        manager := m
        sampled := s.sampled.erase now
        fired := s.fired ++ firings s.manager now cbs
        detections := s.detections ++ detection s.manager now }
    else none

/-- The timers of the callbacks placed in an expired list, in order. -/
def firedTimers (s : TimerRun) : List ℕ := s.fired.map Firing.timer

end TimerRun

end LoNetfw.Scheduler
