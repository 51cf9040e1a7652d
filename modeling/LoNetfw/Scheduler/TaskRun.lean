import LoNetfw.Fiber.Fiber
import LoNetfw.Basis.Sums

namespace LoNetfw.Scheduler

open Basis
open LoNetfw.Fiber (State Body Exception)

/-!
# `Scheduler::run` — one worker and its tasks

One worker takes the tasks of a finite queue, runs each until it yields, returns or throws,
and handles the fiber by the state it was left in.  An exception that leaves `run` ends it,
be it from `reset` or from the destructor of a fiber whose last reference is dropped.

* `TaskRun.runTask`, `TaskRun.loop` — the body of the loop in `run`;
* `TaskRun.start` — a queue of callbacks and fibers that were not run before.
-/

/-- A task in the queue. -/
inductive RunTask
  | cb (body : Body)
  | fiber (f : ℕ)
  deriving DecidableEq, Repr

structure TaskRun where
  /-- The fibers, by number. -/
  fibers : ℕ → Fiber
  created : ℕ
  /-- The fibers that are not destroyed. -/
  alive : ℕ → Bool
  /-- The fibers to which there is, or will be, a reference outside of the scheduler. -/
  owned : ℕ → Bool
  /-- `m_tasks`. -/
  tasks : List RunTask
  /-- The local variable `cb_fiber` of `run`. -/
  cbFiber : Option ℕ
  /-- `m_active_threads_count`. -/
  active : ℤ

namespace TaskRun

def setFiber (s : TaskRun) (f : ℕ) (v : Fiber) : TaskRun :=
  { s with fibers := Function.update s.fibers f v }

/-- `schedule(fiber)`, `n` times. -/
def enqueue (s : TaskRun) (f n : ℕ) : TaskRun :=
  { s with tasks := s.tasks ++ List.replicate n (.fiber f) }

/-- There is a reference to a fiber other than the one that is dropped.  While a fiber has
    yielded, the local variable `cur` of `yieldToReady` or `yieldToHold` on its own stack is one. -/
def referenced (s : TaskRun) (f : ℕ) : Bool :=
  s.owned f || s.tasks.contains (.fiber f) || s.cbFiber == some f
    || (s.fibers f).state = .ready || (s.fibers f).state = .hold

/-- A reference to a fiber is dropped; the last one destroys it. -/
def release (s : TaskRun) (f : ℕ) : Except Exception TaskRun :=
  if s.referenced f then .ok s
  else do
    (s.fibers f).destroy
    return { s with alive := Function.update s.alive f false }

/-- `fiber->swapIn(main_fiber)` and `--m_active_threads_count`. -/
def swapIn (s : TaskRun) (f : ℕ) : Except Exception TaskRun := do
  let (v, n) ← (s.fibers f).swapIn
  let s := (s.setFiber f v).enqueue f n
  return { s with active := s.active - 1 }

/-- `fiber->reset(cb)`. -/
def resetFiber (s : TaskRun) (f : ℕ) (body : Option Body) : Except Exception TaskRun := do
  let v ← (s.fibers f).reset body
  return s.setFiber f v

/-- `setState(HOLD)`. -/
def setHold (s : TaskRun) (f : ℕ) : TaskRun := s.setFiber f { s.fibers f with state := .hold }

/-- The constructor of `Fiber`, into `cb_fiber`. -/
def newCbFiber (s : TaskRun) (body : Body) : TaskRun :=
  { s.setFiber s.created (.new (some body)) with
    created := s.created + 1
    alive := Function.update s.alive s.created true
    cbFiber := some s.created }

/-- `cb_fiber.reset()`, except for the reference it drops. -/
def clearCb (s : TaskRun) : TaskRun := { s with cbFiber := none }

/-- `cb_fiber` for a callback: reset, or created. -/
def prepareCb (s : TaskRun) (body : Body) : Except Exception (TaskRun × ℕ) :=
  match s.cbFiber with
  | some g => do
    let s ← s.resetFiber g (some body)
    return (s, g)
  | none => .ok (s.newCbFiber body, s.created)

/-- What `run` does with a task that it has taken. -/
def runTask (s : TaskRun) : RunTask → Except Exception TaskRun
  | .fiber f =>
    if (s.fibers f).state ≠ .term ∧ (s.fibers f).state ≠ .error then do
      let s ← s.swapIn f
      let s :=
        -- `else if` on `TERM` and `ERROR`: an ended fiber is only dropped
        if (s.fibers f).state = .ready then s.enqueue f 1
        else if (s.fibers f).state ≠ .term ∧ (s.fibers f).state ≠ .error then s.setHold f
        else s
      s.release f
    -- `is_active` without a callback: decrement, and `task.reset()` at the top of the loop
    else { s with active := s.active - 1 }.release f
  | .cb body => do
    let (s, g) ← s.prepareCb body
    let s ← s.swapIn g
    if (s.fibers g).state = .ready then (s.enqueue g 1).clearCb.release g
    -- `cb_fiber` is kept and reset with a null function
    else if (s.fibers g).state = .term ∨ (s.fibers g).state = .error then s.resetFiber g none
    else (s.setHold g).clearCb.release g

/-- The search for a task passes over the fibers that are running. -/
def ready (s : TaskRun) : RunTask → Bool
  | .fiber f => (s.fibers f).state ≠ .exec
  | .cb _ => true

/-- One turn of the loop of `run`; without a task the worker is idle. -/
def loop (s : TaskRun) : Except Exception TaskRun :=
  match s.tasks.find? s.ready with
  | none => .ok s
  | some t => { s with tasks := s.tasks.eraseP s.ready, active := s.active + 1 }.runTask t

/-- `n` turns of the loop. -/
def loops : ℕ → TaskRun → Except Exception TaskRun
  | 0, s => .ok s
  | n + 1, s => s.loop.bind (loops n)

/-- A task given to the scheduler: a callback, or one of `n` fibers. -/
inductive Given (n : ℕ)
  | cb (body : Body)
  | fiber (f : Fin n)
  deriving DecidableEq, Repr

def Given.task {n : ℕ} : Given n → RunTask
  | .cb body => .cb body
  | .fiber f => .fiber f

/-- A worker before its first task.  There are fibers with the functions `bodies`, and `tasks`
    in the queue. -/
def start (bodies : List Body) (owned : ℕ → Bool) (tasks : List (Given bodies.length)) : TaskRun where
  fibers := fun f => .new bodies[f]?
  created := bodies.length
  alive := fun f => f < bodies.length
  owned := owned
  tasks := tasks.map Given.task
  cbFiber := none
  active := 0

end TaskRun

end LoNetfw.Scheduler
