import LoNetfw.Scheduler.FiberExclusion

namespace LoNetfw.Scheduler

open Basis
open LoNetfw.Fiber (State)

/-!
# `Scheduler` — callbacks on their way from `schedule()` to their start

The workers of `Workers` run callbacks that others schedule one by one or in batches.  A
callback is copied from the queue into the worker's local `task`, from there into the worker's
`cb_fiber`, and it starts when the context of that fiber is loaded for the first time.  The
callbacks are numbered in the order they are accepted.

* `CallbackRun` — the pool, with what the local variables hold and the history of pops and
  starts;
* `CallbackRun.step` — the steps of the pool, with what each of them means for the callbacks;
* `CallbackRun.held` — the callback that a worker has taken and not started;
* `Pc.holdsTask` — the worker is between its pop and the decrement of
  `m_active_threads_count`;
* `CallbackRun.CallbackReturns`, `CallbackRun.PopsNoCbFiber` — the conditions on a step: a callback
  does not throw, and nobody pops a fiber while it is still the `cb_fiber` of a worker.

A callback can schedule the fiber it runs on, and `schedule()` does not ask whose fiber that is.
-/

structure CallbackRun where
  pool : Pool
  /-- `task.cb` of each worker, until it is given to `cb_fiber`. -/
  taskCb : ℕ → Option ℕ
  /-- The callback that starts when the context of a fiber is loaded: the context is the one
      that the constructor or `reset` made, and has not been saved over. -/
  entry : ℕ → Option ℕ
  /-- The task that a worker has popped and not counted off. -/
  popped : ℕ → Option PoolTask
  /-- Every pop, with the worker that made it. -/
  pops : List (ℕ × PoolTask)
  /-- The number of callbacks accepted. -/
  accepted : ℕ
  started : List ℕ

inductive CallbackAction
  /-- `schedule(cb, tid)` or `schedule(begin, end, tid)`: `true` stands for a function that is
      not empty. -/
  | schedule (cbs : List Bool) (thread : Option ℕ)
  /-- Somebody schedules a fiber: any fiber there is, also one that a worker runs. -/
  | scheduleFiber (f : ℕ) (thread : Option ℕ)
  | create
  /-- The fiber that runs on a worker yields or ends. -/
  | leave (w : ℕ) (st : State)
  | step (w : ℕ)
  deriving DecidableEq, Repr

/-- The worker is between a pop and the decrement that goes with it. -/
def Pc.holdsTask : Pc → Bool
  | .testTerm _ | .testError _ | .skip | .resetTerm _ true | .resetInit _ true
  | .resetError _ true | .reset _ true => true
  | .testExec _ r | .writeExec _ r | .load _ r | .running _ r | .save _ r | .back _ r => r != .idle
  | _ => false

/-- The worker works on its `cb_fiber`. -/
def Pc.onCb : Pc → Bool
  | .resetTerm _ _ | .resetInit _ _ | .resetError _ _ | .reset _ _ => true
  | .testExec _ r | .writeExec _ r | .load _ r | .running _ r | .save _ r | .back _ r
  | .testReady _ r | .requeue _ r | .testEnded _ r | .testFailed _ r | .writeHold _ r => r == .cb
  | _ => false

/-- The callback of a task. -/
def PoolTask.cb? (t : PoolTask) : Option ℕ :=
  match t.work with
  | .cb c => some c
  | .fiber _ => none

namespace CallbackRun

def new (n : ℕ) : CallbackRun where
  pool := .new n
  taskCb := fun _ => none
  entry := fun _ => none
  popped := fun _ => none
  pops := []
  accepted := 0
  started := []

/-- The tasks that a batch adds: the empty functions are left out. -/
def batch (first : ℕ) (thread : Option ℕ) : List Bool → List PoolTask
  | [] => []
  | false :: cbs => batch first thread cbs
  | true :: cbs => ⟨.cb first, thread⟩ :: batch (first + 1) thread cbs

/-- The worker `w` has popped `t`: a callback is in `task.cb`, or in the new `cb_fiber`. -/
def take (s : CallbackRun) (w : ℕ) (t : PoolTask) (pool : Pool) : CallbackRun :=
  let s' := { s with pool, popped := Function.update s.popped w (some t), pops := s.pops ++ [(w, t)] }
  match t.work, (s.pool.worker w).cbFiber with
  | .fiber _, _ => s'
  | .cb c, some _ => { s' with taskCb := Function.update s.taskCb w (some c) }
  | .cb c, none => { s' with entry := Function.update s.entry s.pool.created (some c) }

/-- What a step of the worker `w` to the pool `pool` means for the callbacks. -/
def record (s : CallbackRun) (w : ℕ) (pool : Pool) : CallbackRun :=
  match (s.pool.worker w).pc with
  | .loop =>
    match s.pool.nextTask w with
    | none => { s with pool }
    | some t => s.take w t pool
  | .skip | .back _ .task | .back _ .cb =>
    { s with pool, popped := Function.update s.popped w none }
  | .reset f reuse =>
    -- `reset(task.cb)` and `task.reset()`, or `reset(nullptr)`
    { s with
      pool
      entry := Function.update s.entry f (if reuse then s.taskCb w else none)
      taskCb := Function.update s.taskCb w none }
  | .load f _ => { s with pool, started := s.started ++ (s.entry f).toList }
  | .save f _ => { s with pool, entry := Function.update s.entry f none }
  | _ => { s with pool }

def step (s : CallbackRun) : CallbackAction → Option CallbackRun
  | .schedule cbs thread =>
    let tasks := batch s.accepted thread cbs
    some { s with
      pool := { s.pool with tasks := s.pool.tasks ++ tasks }
      accepted := s.accepted + tasks.length }
  | .scheduleFiber f thread =>
    (s.pool.step (.schedule ⟨.fiber f, thread⟩)).map (fun pool => { s with pool })
  | .create => (s.pool.step .create).map (fun pool => { s with pool })
  | .leave w st => (s.pool.step (.leave w st)).map (fun pool => { s with pool })
  | .step w => (s.pool.step (.step w)).map (s.record w)

/-! ### The conditions on a step -/

/-- The callback of a worker that leaves its fiber has not thrown. -/
def CallbackReturns (s : CallbackRun) : CallbackAction → Prop
  | .leave w st => (s.pool.worker w).pc.onCb = true → st ≠ .error
  | _ => True

instance (s : CallbackRun) : (a : CallbackAction) → Decidable (s.CallbackReturns a)
  | .leave w st => inferInstanceAs (Decidable ((s.pool.worker w).pc.onCb = true → st ≠ .error))
  | .schedule _ _ | .scheduleFiber _ _ | .create | .step _ => .isTrue trivial

/-- The fiber that the next step of a worker takes out of `m_tasks`. -/
def poppedFiber (s : CallbackRun) (w : ℕ) : Option ℕ :=
  if (s.pool.worker w).pc = .loop then (s.pool.nextTask w).bind (·.work.fiber?) else none

/-- A worker that pops a fiber pops none that a worker still has as its `cb_fiber`: one that its
    callback has scheduled and has not left for good. -/
def PopsNoCbFiber (s : CallbackRun) : CallbackAction → Prop
  | .step w => ∀ f ∈ s.poppedFiber w, ∀ v < s.pool.size, (s.pool.worker v).cbFiber ≠ some f
  | _ => True

instance (s : CallbackRun) : (a : CallbackAction) → Decidable (s.PopsNoCbFiber a)
  | .step w => inferInstanceAs (Decidable (∀ f ∈ s.poppedFiber w, ∀ v < s.pool.size,
      (s.pool.worker v).cbFiber ≠ some f))
  | .schedule _ _ | .scheduleFiber _ _ | .create | .leave _ _ => .isTrue trivial

/-- The callback that a worker holds and has not started. -/
def held (s : CallbackRun) (w : ℕ) : Option ℕ :=
  match (s.pool.worker w).pc with
  | .resetTerm _ true | .resetInit _ true | .resetError _ true | .reset _ true => s.taskCb w
  | .testExec g .cb | .writeExec g .cb | .load g .cb => s.entry g
  | _ => none

/-- The callbacks in `m_tasks`. -/
def queued (s : CallbackRun) : List ℕ := s.pool.tasks.filterMap PoolTask.cb?

end CallbackRun

end LoNetfw.Scheduler
