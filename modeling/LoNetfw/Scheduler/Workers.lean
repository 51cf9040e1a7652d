import LoNetfw.Fiber.Fiber
import LoNetfw.Basis.StepSystem
import Mathlib.Data.Int.Notation
import Mathlib.Logic.Function.Basic

namespace LoNetfw.Scheduler

open Basis
open LoNetfw.Fiber (State)

/-!
# `Scheduler::run` — interleavings of workers

Any number of threads execute `Scheduler::run`.  What they share are the queue `m_tasks`,
the counters, and the state field of every fiber, which no lock protects: each read and each
write of it is a step of its own, and so is the pop under `m_mutex` and each context switch.
A context switch into a fiber loads its context; a switch out of it is over when the context
is saved.

* `Pc` — where a worker is in `run`, `swapIn`, `reset` or `swapOut`, with the fiber it is
  working on;
* `Pool.step` — the steps of a worker, of the fiber it runs, and of anybody who creates or
  schedules a fiber or a callback.
-/

/-- Why a worker switches to a fiber: it is the fiber of a task, the worker's `cb_fiber`, or
    its `idle_fiber`. -/
inductive Role
  | task
  | cb
  | idle
  deriving DecidableEq, Repr

/-- What a worker does next. -/
inductive Pc
  /-- Create the idle fiber. -/
  | start
  /-- Take a task. -/
  | loop
  /-- Test the fiber of a task for `TERM`, and for `ERROR`. -/
  | testTerm (f : ℕ)
  | testError (f : ℕ)
  /-- The fiber was in one of these states: decrement and continue. -/
  | skip
  /-- The three reads in `cb_fiber->reset()` and the rest of it; `reuse` when a callback
      follows, not when the function is null. -/
  | resetTerm (f : ℕ) (reuse : Bool)
  | resetInit (f : ℕ) (reuse : Bool)
  | resetError (f : ℕ) (reuse : Bool)
  | reset (f : ℕ) (reuse : Bool)
  /-- Test the idle fiber for `TERM`. -/
  | testIdle
  /-- `swapIn`: test for `EXEC`, write `EXEC`, load the context. -/
  | testExec (f : ℕ) (r : Role)
  | writeExec (f : ℕ) (r : Role)
  | load (f : ℕ) (r : Role)
  /-- The fiber runs. -/
  | running (f : ℕ) (r : Role)
  /-- The fiber has written its state and is in `swapOut`. -/
  | save (f : ℕ) (r : Role)
  /-- Back in `run`: decrement, and look at the state the fiber was left in. -/
  | back (f : ℕ) (r : Role)
  | testReady (f : ℕ) (r : Role)
  | requeue (f : ℕ) (r : Role)
  | testEnded (f : ℕ) (r : Role)
  | testFailed (f : ℕ) (r : Role)
  | writeHold (f : ℕ) (r : Role)
  /-- The worker has left `run`; or an exception has. -/
  | exited
  | threw
  deriving DecidableEq, Repr

/-- The fiber a worker is working on. -/
def Pc.fiber : Pc → Option ℕ
  | .testTerm f | .testError f | .resetTerm f _ | .resetInit f _ | .resetError f _ | .reset f _
  | .testExec f _ | .writeExec f _ | .load f _ | .running f _ | .save f _ | .back f _
  | .testReady f _ | .requeue f _ | .testEnded f _ | .testFailed f _ | .writeHold f _ => some f
  | .start | .loop | .skip | .testIdle | .exited | .threw => none

/-- The fiber a worker is executing: from the write of `EXEC` to the fiber's own write. -/
def Pc.executing : Pc → Option ℕ
  | .load f _ | .running f _ => some f
  | _ => none

/-- The fiber whose context a worker has loaded and not yet saved. -/
def Pc.loaded : Pc → Option ℕ
  | .running f _ | .save f _ => some f
  | _ => none

structure Worker where
  pc : Pc
  cbFiber : Option ℕ
  idleFiber : Option ℕ
  deriving DecidableEq, Repr

/-- What a task of `m_tasks` runs. -/
inductive Work
  | cb (c : ℕ)
  | fiber (f : ℕ)
  deriving DecidableEq, Repr

/-- The fiber of a task. -/
def Work.fiber? : Work → Option ℕ
  | .fiber f => some f
  | .cb _ => none

/-- A task of `m_tasks`; `thread` is `none` for `-1`. -/
structure PoolTask where
  work : Work
  thread : Option ℕ
  deriving DecidableEq, Repr

structure Pool where
  /-- The number of workers; the worker `w` is the thread `w`. -/
  size : ℕ
  worker : ℕ → Worker
  /-- `m_tasks`. -/
  tasks : List PoolTask
  /-- `m_state` of each fiber. -/
  state : ℕ → State
  /-- The context of a fiber is complete: made, or saved and not loaded since. -/
  saved : ℕ → Bool
  /-- The number of fibers created. -/
  created : ℕ
  active : ℤ
  idle : ℤ
  /-- Some worker has loaded a context that was not complete. -/
  torn : Bool

inductive PoolAction
  /-- The next step of a worker. -/
  | step (w : ℕ)
  /-- The fiber that runs on a worker writes its state, in `yieldToReady`, `yieldToHold` or at
      the end of `mainFunc`, and begins to switch out. -/
  | leave (w : ℕ) (st : State)
  /-- Somebody creates a fiber. -/
  | create
  /-- Somebody calls `schedule()`. -/
  | schedule (t : PoolTask)
  deriving DecidableEq, Repr

namespace Pool

/-- `n` workers that have not started. -/
def new (n : ℕ) : Pool where
  size := n
  worker := fun _ => ⟨.start, none, none⟩
  tasks := []
  state := fun _ => .init
  saved := fun _ => true
  created := 0
  active := 0
  idle := 0
  torn := false

def setWorker (s : Pool) (w : ℕ) (wk : Worker) : Pool :=
  { s with worker := Function.update s.worker w wk }

def setState (s : Pool) (f : ℕ) (st : State) : Pool :=
  { s with state := Function.update s.state f st }

def setSaved (s : Pool) (f : ℕ) (b : Bool) : Pool :=
  { s with saved := Function.update s.saved f b }

/-- The worker `w` goes on at `pc`. -/
def goto (s : Pool) (w : ℕ) (pc : Pc) : Pool := s.setWorker w { s.worker w with pc := pc }

/-- The constructor of `Fiber`: the new fiber has the number `s.created`. -/
def newFiber (s : Pool) : Pool :=
  { (s.setState s.created .init).setSaved s.created true with created := s.created + 1 }

/-- `schedule()`. -/
def enqueue (s : Pool) (t : PoolTask) : Pool := { s with tasks := s.tasks ++ [t] }

/-- Whether the worker `w` takes a task. -/
def eligible (s : Pool) (w : ℕ) (t : PoolTask) : Bool :=
  (t.thread == none || t.thread == some w) &&
    (match t.work with
    | .fiber f => s.state f != .exec
    | .cb _ => true)

/-- The task the worker `w` takes: the first one that it may. -/
def nextTask (s : Pool) (w : ℕ) : Option PoolTask := s.tasks.find? (s.eligible w)

/-- `run` drops its reference to the fiber, if it is the `cb_fiber`. -/
def dropCb (s : Pool) (w : ℕ) : Role → Pool
  | .cb => s.setWorker w { s.worker w with cbFiber := none }
  | .task | .idle => s

/-- Take a task: for a callback, `cb_fiber` is reset or created. -/
def pop (s : Pool) (w : ℕ) : Pool :=
  match s.nextTask w with
  | none => s.goto w .testIdle
  | some t =>
    -- still under `m_mutex`
    let s := { s with tasks := s.tasks.erase t, active := s.active + 1 }
    match t.work with
    | .fiber f => s.goto w (.testTerm f)
    | .cb _ =>
      match (s.worker w).cbFiber with
      | some g => s.goto w (.resetTerm g true)
      | none =>
        s.newFiber.setWorker w { s.worker w with cbFiber := some s.created, pc := .testExec s.created .cb }

/-- The next step of a worker that is at `pc`. -/
def workerStep (s : Pool) (w : ℕ) : Pc → Option Pool
  | .start =>
    some (s.newFiber.setWorker w { s.worker w with idleFiber := some s.created, pc := .loop })
  | .loop => some (s.pop w)
  | .testTerm f => some (s.goto w (if s.state f = .term then .skip else .testError f))
  | .testError f => some (s.goto w (if s.state f = .error then .skip else .testExec f .task))
  | .skip => some ({ s with active := s.active - 1 }.goto w .loop)
  | .resetTerm f reuse => some (s.goto w (if s.state f = .term then .reset f reuse else .resetInit f reuse))
  | .resetInit f reuse => some (s.goto w (if s.state f = .init then .reset f reuse else .resetError f reuse))
  | .resetError f reuse => some (s.goto w (if s.state f = .error then .threw else .reset f reuse))
  | .reset f reuse =>
    some (((s.setSaved f true).setState f .init).goto w (if reuse then .testExec f .cb else .loop))
  | .testIdle =>
    (s.worker w).idleFiber.map (fun i =>
      if s.state i = .term then s.goto w .exited
      else { s with idle := s.idle + 1 }.goto w (.testExec i .idle))
  -- `swapIn`
  | .testExec f r => some (s.goto w (if s.state f = .exec then .threw else .writeExec f r))
  | .writeExec f r => some ((s.setState f .exec).goto w (.load f r))
  -- the context must not be one that another worker is still saving
  | .load f r =>
    some ({ s.setSaved f false with torn := s.torn || !s.saved f }.goto w (.running f r))
  -- the fiber moves next, by `leave`
  | .running _ _ => none
  | .save f r => some ((s.setSaved f true).goto w (.back f r))
  -- back in `run`
  | .back f r =>
    some (match r with
      | .idle => { s with idle := s.idle - 1 }.goto w (.testEnded f r)
      | .task | .cb => { s with active := s.active - 1 }.goto w (.testReady f r))
  | .testReady f r => some (s.goto w (if s.state f = .ready then .requeue f r else .testEnded f r))
  | .requeue f r =>
    some (((s.enqueue ⟨.fiber f, none⟩).dropCb w r).goto w .loop)
  -- a `cb_fiber` that has ended is reset for the next callback
  | .testEnded f r =>
    some (s.goto w (if s.state f = .term then (if r = .cb then .resetTerm f false else .loop)
      else .testFailed f r))
  | .testFailed f r =>
    some (s.goto w (if s.state f = .error then (if r = .cb then .resetTerm f false else .loop)
      else .writeHold f r))
  | .writeHold f r => some (((s.setState f .hold).dropCb w r).goto w .loop)
  | .exited | .threw => none

/-- The states a fiber leaves in. -/
def leaves (st : State) : Bool := st == .ready || st == .hold || st == .term || st == .error

def step (s : Pool) : PoolAction → Option Pool
  | .step w => if w < s.size then s.workerStep w (s.worker w).pc else none
  | .leave w st =>
    match (s.worker w).pc with
    | .running f r => if leaves st then some ((s.setState f st).goto w (.save f r)) else none
    | _ => none
  | .create => some s.newFiber
  | .schedule t =>
    match t.work with
    | .fiber f => if f < s.created then some (s.enqueue t) else none
    | .cb _ => some (s.enqueue t)

/-! ### What a step of a worker leaves alone -/

variable {w : ℕ}

/-- What a pop takes: the first task the worker may take. -/
theorem nextTask_split {p : Pool} {t : PoolTask} (h : p.nextTask w = some t) :
    ∃ pre post, p.tasks = pre ++ t :: post ∧ p.eligible w t = true ∧
      (∀ x ∈ pre, p.eligible w x = false) ∧ p.tasks.erase t = pre ++ post := by
  obtain ⟨helig, pre, post, htasks, hpre⟩ := List.find?_eq_some_iff_append.mp h
  have hpre' : ∀ x ∈ pre, p.eligible w x = false := by simpa using hpre
  refine ⟨pre, post, htasks, helig, hpre', ?_⟩
  have hnot : t ∉ pre := fun ht => absurd helig (by simp [hpre' t ht])
  rw [htasks, List.erase_append_right _ hnot, List.erase_cons_head]

/-- The task that is taken leaves the queue. -/
theorem pop_tasks {p : Pool} {t : PoolTask} (h : p.nextTask w = some t) :
    (p.pop w).tasks = p.tasks.erase t := by
  unfold pop
  rw [h]
  cases hwork : t.work with
  | fiber f => simp only [hwork]; rfl
  | cb c => cases hcb : (p.worker w).cbFiber <;> simp only [hwork, hcb] <;> rfl

/-- The worker is where it has gone. -/
theorem goto_pc (p : Pool) (w : ℕ) (pc' : Pc) : ((p.goto w pc').worker w).pc = pc' := by
  simp [goto, setWorker]

/-- The other workers stay where they are. -/
theorem workerStep_frame {p p' : Pool} {pc : Pc} (h : p.workerStep w pc = some p') :
    p'.size = p.size ∧ ∀ v, v ≠ w → p'.worker v = p.worker v := by
  have hgoto : ∀ (q : Pool) (pc' : Pc) (v : ℕ), v ≠ w → (q.goto w pc').worker v = q.worker v :=
    fun q pc' v hv => Function.update_of_ne hv ..
  -- `dropCb` is about the worker's own `cb_fiber`
  have hdrop : ∀ (q : Pool) (r : Role), (q.dropCb w r).size = q.size ∧
      ∀ v, v ≠ w → (q.dropCb w r).worker v = q.worker v := by
    intro q r
    cases r
    · exact ⟨rfl, fun _ _ => rfl⟩
    · exact ⟨rfl, fun v hv => Function.update_of_ne hv ..⟩
    · exact ⟨rfl, fun _ _ => rfl⟩
  cases pc <;> simp only [workerStep, Option.some.injEq, reduceCtorEq] at h
  case start => subst h; exact ⟨rfl, fun v hv => Function.update_of_ne hv ..⟩
  case loop =>
    subst h
    unfold pop
    split
    · exact ⟨rfl, fun v hv => hgoto _ _ v hv⟩
    · dsimp only
      split
      · exact ⟨rfl, fun v hv => hgoto _ _ v hv⟩
      · split
        · exact ⟨rfl, fun v hv => hgoto _ _ v hv⟩
        · exact ⟨rfl, fun v hv => Function.update_of_ne hv ..⟩
  case testIdle =>
    obtain ⟨i, -, rfl⟩ := Option.map_eq_some_iff.mp h
    split <;> exact ⟨rfl, fun v hv => hgoto _ _ v hv⟩
  case back f r =>
    subst h
    cases r <;> exact ⟨rfl, fun v hv => hgoto _ _ v hv⟩
  case requeue f r =>
    subst h
    obtain ⟨hsize, hworker⟩ := hdrop (p.enqueue ⟨.fiber f, none⟩) r
    exact ⟨hsize, fun v hv => (hgoto _ _ v hv).trans (hworker v hv)⟩
  case writeHold f r =>
    subst h
    obtain ⟨hsize, hworker⟩ := hdrop (p.setState f .hold) r
    exact ⟨hsize, fun v hv => (hgoto _ _ v hv).trans (hworker v hv)⟩
  all_goals subst h; exact ⟨rfl, fun v hv => hgoto _ _ v hv⟩

end Pool

end LoNetfw.Scheduler
