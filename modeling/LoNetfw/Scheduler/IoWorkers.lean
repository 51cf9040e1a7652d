import LoNetfw.Scheduler.CallbackRun

namespace LoNetfw.Scheduler

open Basis
open LoNetfw.Fiber (State)

/-!
# `IOScheduler` — workers, `idle()`, and the things they wait for

The workers of `Workers` run `IOScheduler::idle()` in their idle fibers: `stopping()`, which
reads the timers, the counter of waiting events and the queue one after the other, then
`epoll_wait`, the expired timers, the reported events, and back to `run`.  `schedule()` writes a
byte into the notify pipe when the queue was empty and some thread counts as idle.

* `IdlePc` — where a worker's idle fiber is in `idle()`;
* `IoPool.idleStep` — the steps of `idle()`;
* `IoPool.step` — these, the steps of `run` with the notifications they send, and what the
  tasks and other threads do: schedule, arm timers, register and trigger events, call `stop()`.

A timer is only counted, and so is an event.  A trigger (of the dispatch loop, or of a cancel)
clears the event's bit and schedules its task in one step, and counts it off
`m_waitting_events_count` in another.  The `notify()` at the end of `schedule()`, and the one after
a scan, belong to the step of the section before them.
-/

/-- What the idle fiber of a worker does next in `idle()`.  `reported` says that the last
    `epoll_wait` reported the notify pipe. -/
inductive IdlePc
  /-- `stopping()`: read the timers, then the waiting events, then the queue and the flags. -/
  | checkTimers
  | checkEvents
  | checkTasks
  /-- Blocked in `epoll_wait`. -/
  | poll
  | expire (reported : Bool)
  /-- `getExpiredCbsList` has returned these callbacks. -/
  | expired (cbs : List ℕ) (reported : Bool)
  | dispatch (reported : Bool)
  | swapOut
  /-- `stopping()` has returned `true`. -/
  | stopped
  deriving DecidableEq, Repr

structure IoPool where
  pool : Pool
  idlePc : ℕ → IdlePc
  /-- The number of timers in `m_timers`. -/
  timers : ℕ
  /-- The number of event bits set. -/
  registered : ℕ
  /-- `m_waitting_events_count`. -/
  waitting : ℤ
  /-- The triggered events that were not counted off yet. -/
  triggered : ℕ
  autoStop : Bool
  stopping : Bool
  /-- The unread bytes of the notify pipe. -/
  bytes : ℕ

inductive IoAction
  /-- The next step of a worker in `run`. -/
  | worker (w : ℕ)
  /-- The next step of a worker's idle fiber in `idle()`: whether `epoll_wait` reports the
      notify pipe, which callbacks have expired, and how many timers were taken out for them. -/
  | idle (w : ℕ) (reported : Bool) (cbs : List ℕ) (removed : ℕ)
  /-- The fiber of a task yields or ends. -/
  | leave (w : ℕ) (st : State)
  | create
  | schedule (ts : List PoolTask)
  | armTimer
  | cancelTimer
  | addEvent
  | delEvent
  | trigger (t : PoolTask)
  | countOff
  /-- The two assignments of `stop()`. -/
  | setAutoStop
  | setStopping
  /-- `notify()`, from `stop()` or `onTimerInsertAtFront()`. -/
  | notify
  deriving DecidableEq, Repr

namespace IoPool

def new (n : ℕ) : IoPool where
  pool := .new n
  idlePc := fun _ => .checkTimers
  timers := 0
  registered := 0
  waitting := 0
  triggered := 0
  autoStop := false
  stopping := false
  bytes := 0

/-- `notify()`. -/
def notify (s : IoPool) : IoPool := if 0 < s.pool.idle then { s with bytes := s.bytes + 1 } else s

/-- `notify()`, if `should_notify`. -/
def notifyIf (s : IoPool) (shouldNotify : Bool) : IoPool := if shouldNotify then s.notify else s

/-- `schedule()` of one task or a batch. -/
def scheduleAll (s : IoPool) (ts : List PoolTask) : IoPool :=
  { s with pool := { s.pool with tasks := s.pool.tasks ++ ts } }.notifyIf
    (s.pool.tasks.isEmpty && !ts.isEmpty)

/-- `should_notify` of a scan: it passed over a task of another thread. -/
def passesPinned (p : Pool) (w : ℕ) : Bool :=
  (p.tasks.takeWhile (fun t => !p.eligible w t)).any
    (fun t => t.thread != none && t.thread != some w)

/-- Whether a step of `run` notifies: after the scan, and when a fiber is scheduled again. -/
def shouldNotify (p : Pool) (w : ℕ) : Pc → Bool
  | .loop => passesPinned p w
  | .requeue _ _ => p.tasks.isEmpty
  | _ => false

def setIdlePc (s : IoPool) (w : ℕ) (pc : IdlePc) : IoPool :=
  { s with idlePc := Function.update s.idlePc w pc }

/-- `Scheduler::stopping()`. -/
def schedulerStopping (s : IoPool) : Bool :=
  s.stopping && s.autoStop && s.pool.tasks.isEmpty && s.pool.active == 0

/-- The next step of `idle()` on the worker `w`, which runs in the fiber `f`. -/
def idleStep (s : IoPool) (w f : ℕ) (reported : Bool) (cbs : List ℕ) (removed : ℕ) : Option IoPool :=
  match s.idlePc w with
  | .checkTimers => some (s.setIdlePc w (if s.timers = 0 then .checkEvents else .poll))
  | .checkEvents => some (s.setIdlePc w (if s.waitting = 0 then .checkTasks else .poll))
  | .checkTasks => some (s.setIdlePc w (if s.schedulerStopping then .stopped else .poll))
  | .poll =>
    if reported → 0 < s.bytes then some (s.setIdlePc w (.expire reported)) else none
  | .expire reported =>
    -- a loop timer is put back at once
    if removed ≤ s.timers ∧ removed ≤ cbs.length ∧ (s.timers = 0 → cbs = []) then
      some ({ s with timers := s.timers - removed }.setIdlePc w (.expired cbs reported))
    else none
  | .expired cbs reported =>
    some ((s.scheduleAll (cbs.map fun c => ⟨.cb c, none⟩)).setIdlePc w (.dispatch reported))
  | .dispatch reported =>
    some ({ s with bytes := if reported then 0 else s.bytes }.setIdlePc w .swapOut)
  -- a bare `swapOut`: the state of the fiber stays `EXEC`
  | .swapOut => some ({ s with pool := s.pool.goto w (.save f .idle) }.setIdlePc w .checkTimers)
  | .stopped => some { s with pool := (s.pool.setState f .term).goto w (.save f .idle) }

def step (s : IoPool) : IoAction → Option IoPool
  | .worker w =>
    (s.pool.step (.step w)).map fun p =>
      { s with pool := p }.notifyIf (shouldNotify s.pool w (s.pool.worker w).pc)
  | .idle w reported cbs removed =>
    match (s.pool.worker w).pc with
    | .running f .idle => s.idleStep w f reported cbs removed
    | _ => none
  | .leave w st =>
    match (s.pool.worker w).pc with
    | .running _ .idle => none
    | _ => (s.pool.step (.leave w st)).map fun p => { s with pool := p }
  | .create => some { s with pool := s.pool.newFiber }
  | .schedule ts =>
    if ∀ t ∈ ts, ∀ f ∈ t.work.fiber?, f < s.pool.created then some (s.scheduleAll ts) else none
  | .armTimer => some { s with timers := s.timers + 1 }
  | .cancelTimer => if 0 < s.timers then some { s with timers := s.timers - 1 } else none
  | .addEvent => some { s with registered := s.registered + 1, waitting := s.waitting + 1 }
  | .delEvent =>
    if 0 < s.registered then
      some { s with registered := s.registered - 1, waitting := s.waitting - 1 }
    else none
  | .trigger t =>
    if 0 < s.registered ∧ ∀ f ∈ t.work.fiber?, f < s.pool.created then
      some ({ s with registered := s.registered - 1, triggered := s.triggered + 1 }.scheduleAll [t])
    else none
  | .countOff =>
    if 0 < s.triggered then
      some { s with triggered := s.triggered - 1, waitting := s.waitting - 1 }
    else none
  | .setAutoStop => some { s with autoStop := true }
  | .setStopping => some { s with stopping := true }
  | .notify => some s.notify

end IoPool

end LoNetfw.Scheduler
