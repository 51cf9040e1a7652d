import LoNetfw.Scheduler.FiberExclusion
import Mathlib.Tactic.SplitIfs

namespace LoNetfw.Scheduler

open Basis
open LoNetfw.Fiber (State)

/-!
# Thread affinity — fibers that are scheduled on one thread

The thread of a task is kept in its queue entry.  `run` schedules a fiber that has yielded to
`READY` again without it.

* `Pool.Assigned f t` — the entries of the fiber `f` are for the worker `t`, and no other worker is
  about to switch it in; a new fiber that is scheduled on `t` is assigned (`assigned_of_new_fiber`);
* `workerStep_moves` — what a step of a worker adds to its hands and to the queue;
* `affinity` — an assigned fiber is only switched in by its worker as long as `run` does not queue
  it again;
* `affinity_lost` — it does, and another worker takes the fiber.
-/

/-- The fiber a worker is switching to. -/
def Pc.switchingIn : Pc → Option ℕ
  | .testExec f _ | .writeExec f _ | .load f _ => some f
  | _ => none

/-- The fiber that a worker has switched to, up to the end of its turn with it. -/
def Pc.leaving : Pc → Option (ℕ × Role)
  | .running f r | .save f r | .back f r | .testReady f r | .requeue f r | .testEnded f r
  | .testFailed f r | .writeHold f r => some (f, r)
  | _ => none

/-- The fiber that `run` is to queue again. -/
def Pc.requeued : Pc → Option ℕ
  | .requeue f _ => some f
  | _ => none

/-- The fiber that a worker has switched to is the one it works on. -/
theorem Pc.fiber_of_leaving {pc : Pc} {f : ℕ} {r : Role} (h : pc.leaving = some (f, r)) :
    pc.fiber = some f := by
  cases pc <;> simp_all [Pc.leaving, Pc.fiber]

/-- The fiber that a worker is switching to is the one it works on, and not left yet. -/
theorem Pc.fiber_of_switchingIn {pc : Pc} {f : ℕ} (h : pc.switchingIn = some f) :
    pc.fiber = some f ∧ pc.leaving = none := by
  cases pc <;> simp_all [Pc.switchingIn, Pc.leaving, Pc.fiber]

/-- The worker does not switch to the fiber any more, unless it takes it from the queue. -/
structure Worker.Clear (wk : Worker) (f : ℕ) : Prop where
  pc : wk.pc.fiber = some f → ∃ r, wk.pc.leaving = some (f, r)
  cb : wk.cbFiber = some f → wk.pc.leaving = some (f, .cb)
  idle : wk.idleFiber ≠ some f

/-- A worker that has nothing to do with the fiber does not switch to it. -/
theorem Worker.clear_of_not_holds {wk : Worker} {f : ℕ} (h : ¬ wk.Holds f) : wk.Clear f where
  pc hf := absurd (.inl hf) h
  cb hf := absurd (.inr (.inl hf)) h
  idle hf := h (.inr (.inr hf))

namespace Pool

variable {p p' s s' : Pool} {w f t : ℕ}

/-! ### What a step of a worker adds -/

/-- The fiber of a task that the worker may take. -/
def Takes (p : Pool) (w g : ℕ) : Prop :=
  ∃ task ∈ p.tasks, task.work = .fiber g ∧ p.eligible w task = true

structure Moves (p p' : Pool) (w : ℕ) : Prop where
  created : p.created ≤ p'.created
  pc : ∀ g, (p'.worker w).pc.fiber = some g →
    (p.worker w).Holds g ∨ g = p.created ∧ g < p'.created ∨ p.Takes w g
  cb : ∀ g, (p'.worker w).cbFiber = some g →
    (p.worker w).cbFiber = some g ∨ g = p.created ∧ g < p'.created
  idle : ∀ g, (p'.worker w).idleFiber = some g →
    (p.worker w).idleFiber = some g ∨ g = p.created ∧ g < p'.created
  tasks : ∀ task ∈ p'.tasks, task ∈ p.tasks ∨
    ∃ g r, (p.worker w).pc = .requeue g r ∧ task = ⟨.fiber g, none⟩
  state : ∀ g, p'.state g = p.state g ∨ p'.state g = .init ∨ p'.state g = .exec ∨ p'.state g = .hold

/-- Only the place of the worker changes. -/
theorem goto_worker (q : Pool) (w : ℕ) (pc : Pc) :
    (q.goto w pc).worker w = { q.worker w with pc := pc } := Function.update_self ..

/-- What a step has to show: the worker goes on with a fiber that it had or takes. -/
theorem Moves.of_goto {q : Pool} {pc : Pc} (hcreated : q.created = p.created)
    (hcb : ∀ g, (q.worker w).cbFiber = some g → (p.worker w).cbFiber = some g)
    (hidle : (q.worker w).idleFiber = (p.worker w).idleFiber)
    (htasks : ∀ task ∈ q.tasks, task ∈ p.tasks ∨
      ∃ g r, (p.worker w).pc = .requeue g r ∧ task = ⟨.fiber g, none⟩)
    (hstate : ∀ g, q.state g = p.state g ∨ q.state g = .init ∨ q.state g = .exec ∨
      q.state g = .hold)
    (hpc : ∀ g, pc.fiber = some g → (p.worker w).Holds g ∨ p.Takes w g) :
    Moves p (q.goto w pc) w where
  created := Nat.le_of_eq hcreated.symm
  pc g hg := by
    rw [goto_worker] at hg
    exact (hpc g hg).imp_right .inr
  cb g hg := by
    rw [goto_worker] at hg
    exact .inl (hcb g hg)
  idle g hg := by
    rw [goto_worker] at hg
    exact .inl (hidle ▸ hg)
  tasks := htasks
  state := hstate

/-- A worker that goes on, with a fiber in its hand or none. -/
theorem Moves.of_goto_same {q : Pool} {pc : Pc} (hworker : q.worker = p.worker)
    (hcreated : q.created = p.created) (htasks : q.tasks = p.tasks) (hstate : q.state = p.state)
    (hpc : ∀ g, pc.fiber = some g → (p.worker w).Holds g) : Moves p (q.goto w pc) w := by
  refine Moves.of_goto hcreated (fun g hg => ?_) (by rw [hworker]) (fun task ht => ?_)
    (fun g => .inl (by rw [hstate])) fun g hg => .inl (hpc g hg)
  · rwa [hworker] at hg
  · exact .inl (htasks ▸ ht)

/-- A worker that goes on with the fiber it works on and writes its state. -/
theorem Moves.of_setState {q : Pool} {pc : Pc} {st : State} (hworker : q.worker = p.worker)
    (hcreated : q.created = p.created) (htasks : q.tasks = p.tasks)
    (hstate : q.state = Function.update p.state f st) (hst : st = .init ∨ st = .exec ∨ st = .hold)
    (hpc : ∀ g, pc.fiber = some g → (p.worker w).Holds g) : Moves p (q.goto w pc) w := by
  refine Moves.of_goto hcreated (fun g hg => ?_) (by rw [hworker]) (fun task ht => ?_)
    (fun g => ?_) fun g hg => .inl (hpc g hg)
  · rwa [hworker] at hg
  · exact .inl (htasks ▸ ht)
  · rw [hstate]
    by_cases hgf : g = f
    · rw [hgf, Function.update_self]
      exact .inr hst
    · rw [Function.update_of_ne hgf]
      exact .inl rfl

/-- A new fiber is in `INIT`. -/
theorem newFiber_state (p : Pool) (g : ℕ) :
    p.newFiber.state g = p.state g ∨ p.newFiber.state g = .init := by
  by_cases hg : g = p.created
  · right
    rw [hg]
    exact Function.update_self ..
  · left
    exact Function.update_of_ne hg ..

/-- A worker that creates a fiber. -/
theorem Moves.of_newFiber {q : Pool} (wk : Worker) (hcreated : q.created = p.created)
    (htasks : ∀ task ∈ q.tasks, task ∈ p.tasks) (hstate : q.state = p.state)
    (hpc : ∀ g, wk.pc.fiber = some g → g = p.created)
    (hcb : ∀ g, wk.cbFiber = some g → (p.worker w).cbFiber = some g ∨ g = p.created)
    (hidle : ∀ g, wk.idleFiber = some g → (p.worker w).idleFiber = some g ∨ g = p.created) :
    Moves p (q.newFiber.setWorker w wk) w := by
  -- only worker `w` is another
  have hworker : (q.newFiber.setWorker w wk).worker w = wk := Function.update_self ..
  have hlt : p.created < q.newFiber.created := hcreated ▸ Nat.lt_succ_self q.created
  refine ⟨Nat.le_of_lt hlt, fun g hg => ?_, fun g hg => ?_, fun g hg => ?_,
    fun task ht => .inl (htasks task ht), fun g => ?_⟩
  · rw [hworker] at hg
    obtain rfl := hpc g hg
    exact .inr (.inl ⟨rfl, hlt⟩)
  · rw [hworker] at hg
    refine (hcb g hg).imp_right fun heq => ?_
    exact ⟨heq, heq ▸ hlt⟩
  · rw [hworker] at hg
    refine (hidle g hg).imp_right fun heq => ?_
    exact ⟨heq, heq ▸ hlt⟩
  · rw [← hstate]
    exact (newFiber_state q g).imp_right .inl

/-- A pop takes the fiber of a task, the worker's `cb_fiber`, or a new fiber. -/
theorem pop_moves (p : Pool) (w : ℕ) : Moves p (p.pop w) w := by
  unfold pop
  cases hnext : p.nextTask w with
  | none => exact .of_goto_same rfl rfl rfl rfl fun g hg => nomatch hg
  | some task =>
    obtain ⟨pre, post, htasks, helig, -, -⟩ := nextTask_split hnext
    have hmem : task ∈ p.tasks := htasks ▸ List.mem_append_right _ List.mem_cons_self
    cases hwork : task.work with
    -- a fiber of the queue, which may be pinned to this worker,
    | fiber g =>
      simp only [hwork]
      refine Moves.of_goto rfl (fun _ h => h) rfl (fun x hx => .inl (List.mem_of_mem_erase hx))
        (fun _ => .inl rfl) fun x hx => .inr ⟨task, hmem, ?_, helig⟩
      rw [hwork, ← Option.some.inj hx]
    -- or a callback, for the `cb_fiber` that the worker has or makes
    | cb c =>
      cases hcb : (p.worker w).cbFiber with
      | some g =>
        simp only [hwork, hcb]
        refine Moves.of_goto rfl (fun _ h => h) rfl (fun x hx => .inl (List.mem_of_mem_erase hx))
          (fun _ => .inl rfl) fun x hx => .inl (.inr (.inl ?_))
        rw [hcb, ← Option.some.inj hx]
      | none =>
        simp only [hwork, hcb]
        refine Moves.of_newFiber _ rfl (fun x hx => List.mem_of_mem_erase hx) rfl (fun g hg => ?_)
          (fun g hg => ?_) fun g hg => .inl hg
        · exact (Option.some.inj hg).symm
        · exact .inr (Option.some.inj hg).symm

/-- A dropped `cb_fiber` is not replaced. -/
theorem dropCb_cbFiber (q : Pool) (w : ℕ) (r : Role) (g : ℕ)
    (h : ((q.dropCb w r).worker w).cbFiber = some g) : (q.worker w).cbFiber = some g := by
  cases r with
  | cb =>
    have hw : (q.dropCb w .cb).worker w = { q.worker w with cbFiber := none } :=
      Function.update_self ..
    rw [hw] at h
    exact nomatch h
  | task => exact h
  | idle => exact h

/-- Dropping `cb_fiber` changes nothing else of a worker. -/
theorem dropCb_rest (q : Pool) (w : ℕ) (r : Role) :
    ((q.dropCb w r).worker w).idleFiber = (q.worker w).idleFiber ∧
      (q.dropCb w r).created = q.created ∧ (q.dropCb w r).tasks = q.tasks ∧
      (q.dropCb w r).state = q.state := by
  cases r with
  | cb =>
    have hw : (q.dropCb w .cb).worker w = { q.worker w with cbFiber := none } :=
      Function.update_self ..
    exact ⟨by rw [hw], rfl, rfl, rfl⟩
  | task => exact ⟨rfl, rfl, rfl, rfl⟩
  | idle => exact ⟨rfl, rfl, rfl, rfl⟩

/-- **What a step of a worker adds** to its hands and to the queue. -/
theorem workerStep_moves (h : p.workerStep w (p.worker w).pc = some p') : Moves p p' w := by
  have hholds : ∀ {pc : Pc} {g : ℕ}, (p.worker w).pc = pc → pc.fiber = some g →
      (p.worker w).Holds g := fun hpc hg => .inl (hpc ▸ hg)
  cases hpc : (p.worker w).pc <;> rw [hpc] at h <;>
    simp only [workerStep, Option.some.injEq, reduceCtorEq] at h
  case start =>
    subst h
    exact .of_newFiber _ rfl (fun _ hx => hx) rfl
      (fun g hg => absurd hg.symm (Option.some_ne_none g)) (fun g hg => .inl hg)
      fun g hg => .inr (Option.some.inj hg).symm
  case loop =>
    subst h
    exact pop_moves p w
  case testIdle =>
    obtain ⟨i, hi, rfl⟩ := Option.map_eq_some_iff.mp h
    split
    · exact .of_goto_same rfl rfl rfl rfl fun g hg => absurd hg.symm (Option.some_ne_none g)
    · refine .of_goto_same rfl rfl rfl rfl fun g hg => .inr (.inr ?_)
      rw [hi, ← Option.some.inj hg]
  case reset f reuse =>
    subst h
    refine .of_setState rfl rfl rfl rfl (.inl rfl) fun g hg => hholds hpc ?_
    cases reuse
    · exact absurd hg.symm (Option.some_ne_none g)
    · exact hg
  case writeExec f r =>
    subst h
    exact .of_setState rfl rfl rfl rfl (.inr (.inl rfl)) fun g hg => hholds hpc hg
  case back f r =>
    subst h
    cases r
    all_goals exact .of_goto_same rfl rfl rfl rfl fun g hg => hholds hpc hg
  case requeue f r =>
    subst h
    obtain ⟨hidle, hcreated, htasks, hstate⟩ := dropCb_rest (p.enqueue ⟨.fiber f, none⟩) w r
    refine .of_goto hcreated (fun g hg => dropCb_cbFiber (p.enqueue _) w r g hg) hidle
      (fun x hx => ?_) (fun g => .inl (by rw [hstate]; rfl))
      fun g hg => absurd hg.symm (Option.some_ne_none g)
    rw [htasks] at hx
    rcases List.mem_append.mp hx with hx | hx
    · exact .inl hx
    · exact .inr ⟨f, r, hpc, List.mem_singleton.mp hx⟩
  case writeHold f r =>
    subst h
    obtain ⟨hidle, hcreated, htasks, hstate⟩ := dropCb_rest (p.setState f .hold) w r
    refine .of_goto hcreated (fun g hg => dropCb_cbFiber (p.setState f .hold) w r g hg) hidle
      (fun x hx => .inl ?_) (fun g => ?_) fun g hg => absurd hg.symm (Option.some_ne_none g)
    · rwa [htasks] at hx
    · rw [hstate]
      by_cases hgf : g = f
      · rw [hgf]
        exact .inr (.inr (.inr (Function.update_self ..)))
      · exact .inl (Function.update_of_ne hgf ..)
  case skip =>
    subst h
    exact .of_goto_same rfl rfl rfl rfl fun g hg => absurd hg.symm (Option.some_ne_none g)
  case load f r =>
    subst h
    exact .of_goto_same rfl rfl rfl rfl fun g hg => hholds hpc hg
  case save f r =>
    subst h
    exact .of_goto_same rfl rfl rfl rfl fun g hg => hholds hpc hg
  -- the tests go on with the fiber or with none
  all_goals
    subst h
    refine .of_goto_same rfl rfl rfl rfl fun g hg => hholds hpc ?_
    split_ifs at hg
    all_goals first | exact hg | exact absurd hg.symm (Option.some_ne_none g)

/-! ### Assigned fibers -/

/-- The fiber is only queued for the worker `t`, unless there is no other worker, and no worker but
    `t` is about to switch it in; it has not ended. -/
structure Assigned (s : Pool) (f t : ℕ) : Prop where
  created : f < s.created
  queued : (∃ v, v < s.size ∧ v ≠ t) → ∀ task ∈ s.tasks, task.work = .fiber f →
    task.thread = some t
  alive : s.state f ≠ .term ∧ s.state f ≠ .error
  clear : ∀ w, w ≠ t → (s.worker w).Clear f

/-- The tasks of the fiber are scheduled on `t`, and it does not end. -/
def Pinned (f t : ℕ) (s : Pool) : PoolAction → Prop
  | .schedule task => task.work = .fiber f → task.thread = some t
  | .leave w st => (s.worker w).pc.fiber = some f → st ≠ .term ∧ st ≠ .error
  | .step _ | .create => True

/-- `run` queues the fiber again only where there is no worker but `t`. -/
def NotRequeued (f t : ℕ) (s : Pool) : PoolAction → Prop
  | .step w => (s.worker w).pc.requeued = some f → ∀ v, v < s.size → v = t
  | .leave _ _ | .create | .schedule _ => True

instance (f t : ℕ) (s : Pool) : (a : PoolAction) → Decidable (Pinned f t s a)
  | .schedule task => inferInstanceAs (Decidable (task.work = .fiber f → task.thread = some t))
  | .leave w st =>
    inferInstanceAs (Decidable ((s.worker w).pc.fiber = some f → st ≠ .term ∧ st ≠ .error))
  | .step _ | .create => .isTrue trivial

instance (f t : ℕ) (s : Pool) : (a : PoolAction) → Decidable (NotRequeued f t s a)
  | .step w =>
    inferInstanceAs (Decidable ((s.worker w).pc.requeued = some f → ∀ v, v < s.size → v = t))
  | .leave _ _ | .create | .schedule _ => .isTrue trivial

/-- A worker that has switched to a fiber goes on with it until it is queued or put on hold. -/
theorem leaving_step {r : Role} (hleaving : (p.worker w).pc.leaving = some (f, r))
    (halive : p.state f ≠ .term ∧ p.state f ≠ .error)
    (h : p.workerStep w (p.worker w).pc = some p') :
    (∃ pc, p'.worker w = { p.worker w with pc := pc } ∧ pc.leaving = some (f, r)) ∨
      (p.worker w).pc = .requeue f r ∨
      (p'.worker w).pc = .loop ∧ ((p'.worker w).cbFiber = (p.worker w).cbFiber ∧ r ≠ .cb ∨
        (p'.worker w).cbFiber = none) ∧ (p'.worker w).idleFiber = (p.worker w).idleFiber := by
  cases hpc : (p.worker w).pc <;> rw [hpc] at h hleaving <;>
    simp only [workerStep, Option.some.injEq, reduceCtorEq] at h <;>
    simp only [Pc.leaving, reduceCtorEq, Option.some.injEq, Prod.mk.injEq] at hleaving
  case requeue g r' =>
    obtain ⟨rfl, rfl⟩ := hleaving
    exact .inr (.inl rfl)
  -- `cb_fiber` is dropped behind `HOLD`
  case writeHold g r' =>
    obtain ⟨rfl, rfl⟩ := hleaving
    subst h
    right
    right
    rw [goto_worker]
    refine ⟨rfl, ?_, (dropCb_rest (p.setState g .hold) w r').1⟩
    cases r' with
    | cb =>
      right
      show (Function.update (p.setState g .hold).worker w _ w).cbFiber = none
      rw [Function.update_self]
    | task => exact .inl ⟨rfl, fun h => absurd h (by decide)⟩
    | idle => exact .inl ⟨rfl, fun h => absurd h (by decide)⟩
  case save g r' =>
    obtain ⟨rfl, rfl⟩ := hleaving
    subst h
    exact .inl ⟨_, goto_worker .., rfl⟩
  case back g r' =>
    obtain ⟨rfl, rfl⟩ := hleaving
    subst h
    cases r' with
    | task => exact .inl ⟨_, goto_worker .., rfl⟩
    | cb => exact .inl ⟨_, goto_worker .., rfl⟩
    | idle => exact .inl ⟨_, goto_worker .., rfl⟩
  case testReady g r' =>
    obtain ⟨rfl, rfl⟩ := hleaving
    subst h
    refine .inl ⟨_, goto_worker .., ?_⟩
    split
    · rfl
    · rfl
  -- `f` has neither ended nor failed, so the tests fall through
  case testEnded g r' =>
    obtain ⟨rfl, rfl⟩ := hleaving
    subst h
    refine .inl ⟨_, goto_worker .., ?_⟩
    rw [if_neg halive.1]
    rfl
  case testFailed g r' =>
    obtain ⟨rfl, rfl⟩ := hleaving
    subst h
    refine .inl ⟨_, goto_worker .., ?_⟩
    rw [if_neg halive.2]
    rfl

/-- Another worker stays clear of the fiber in its own steps: it neither takes nor queues it. -/
theorem Assigned.worker_clear (h : s.Assigned f t) (hwt : w ≠ t) (hw : w < s.size)
    (hreq : (s.worker w).pc.requeued = some f → ∀ v, v < s.size → v = t)
    (hstep : s.workerStep w (s.worker w).pc = some s') : (s'.worker w).Clear f := by
  have hclear := h.clear w hwt
  have hmoves := workerStep_moves hstep
  by_cases hfiber : (s.worker w).pc.fiber = some f
  · obtain ⟨r, hr⟩ := hclear.pc hfiber
    -- its `cb_fiber` is the fiber only if that is why it runs it
    have hcb : (s.worker w).cbFiber = some f → r = .cb := by
      intro hcb
      exact (Prod.mk.inj (Option.some.inj (hr.symm.trans (hclear.cb hcb)))).2
    rcases leaving_step hr h.alive hstep with ⟨pc, hworker, hpc⟩ | hrequeue | ⟨hpc, hcb', hidle⟩
    · rw [hworker]
      exact ⟨fun _ => ⟨r, hpc⟩, fun hf => by rw [← hcb hf]; exact hpc, hclear.idle⟩
    · exact absurd (hreq (by rw [hrequeue]; rfl) w hw) hwt
    · refine ⟨fun hf => ?_, fun hf => ?_, fun hf => hclear.idle (hidle ▸ hf)⟩
      · rw [hpc] at hf
        exact nomatch hf
      · rcases hcb' with ⟨hsame, hr⟩ | hnone
        · exact absurd (hcb (hsame ▸ hf)) hr
        · rw [hnone] at hf
          exact nomatch hf
  · have hcb : (s.worker w).cbFiber ≠ some f :=
      fun hcb => hfiber (Pc.fiber_of_leaving (hclear.cb hcb))
    have hnew : ¬ (f = s.created ∧ f < s'.created) := fun hf => absurd h.created (by omega)
    have hpc' : (s'.worker w).pc.fiber ≠ some f := by
      intro hf
      rcases hmoves.pc f hf with (hpc | hcb' | hidle) | hcreated | ⟨task, htask, hwork, helig⟩
      · exact hfiber hpc
      · exact hcb hcb'
      · exact hclear.idle hidle
      · exact hnew hcreated
      · -- its tasks are not for this worker
        have hthread := h.queued ⟨w, hw, hwt⟩ task htask hwork
        rw [eligible, hthread, Bool.and_eq_true, Bool.or_eq_true, beq_iff_eq, beq_iff_eq] at helig
        rcases helig.1 with hnone | hsome
        · exact nomatch hnone
        · exact hwt (Option.some.inj hsome).symm
    refine ⟨fun hf => absurd hf hpc', fun hf => ?_, fun hf => ?_⟩
    · exact absurd (hmoves.cb f hf) (not_or.mpr ⟨hcb, hnew⟩)
    · exact absurd (hmoves.idle f hf) (not_or.mpr ⟨hclear.idle, hnew⟩)

/-- A step of a worker keeps a fiber assigned. -/
theorem Assigned.workerStep (h : s.Assigned f t) (hw : w < s.size)
    (hreq : (s.worker w).pc.requeued = some f → ∀ v, v < s.size → v = t)
    (hstep : s.workerStep w (s.worker w).pc = some s') : s'.Assigned f t := by
  have hmoves := workerStep_moves hstep
  obtain ⟨hsize, hothers⟩ := workerStep_frame hstep
  refine ⟨Nat.lt_of_lt_of_le h.created hmoves.created, fun hother task htask hwork => ?_, ?_,
    fun v hvt => ?_⟩
  · obtain ⟨v, hv, hvt⟩ := hother
    -- the one task that a worker adds has no thread: it is not `f`'s by `NotRequeued`
    rcases hmoves.tasks task htask with htask | ⟨g, r, hpc, rfl⟩
    · exact h.queued ⟨v, hsize ▸ hv, hvt⟩ task htask hwork
    · obtain rfl : g = f := Work.fiber.inj hwork
      exact absurd (hreq (by rw [hpc]; rfl) v (hsize ▸ hv)) hvt
  -- no worker writes `TERM` or an error
  · rcases hmoves.state f with hst | hst | hst | hst
    · rw [hst]
      exact h.alive
    all_goals
      rw [hst]
      decide
  · by_cases hvw : v = w
    · subst hvw
      exact h.worker_clear hvt hw hreq hstep
    · rw [hothers v hvw]
      exact h.clear v hvt

/-- A fiber that leaves stays where it belongs, unless it has ended. -/
theorem Assigned.leave {st : State} {g : ℕ} {r : Role} (h : s.Assigned f t)
    (hpc : (s.worker w).pc = .running g r) (hst : g = f → st ≠ .term ∧ st ≠ .error) :
    ((s.setState g st).goto w (.save g r)).Assigned f t := by
  refine ⟨h.created, h.queued, ?_, fun v hvt => ?_⟩
  · show Function.update s.state g st f ≠ _ ∧ Function.update s.state g st f ≠ _
    by_cases hgf : f = g
    · rw [hgf, Function.update_self]
      exact hst hgf.symm
    · rw [Function.update_of_ne hgf]
      exact h.alive
  · by_cases hvw : v = w
    · subst hvw
      have hclear := h.clear v hvt
      rw [goto_worker]
      -- a worker that is not `t` has `f` only to leave it
      refine ⟨fun hf => ⟨r, ?_⟩, fun hf => ?_, hclear.idle⟩
      · rw [← Option.some.inj hf]
        rfl
      · have hleaving := hclear.cb hf
        rw [hpc] at hleaving
        exact hleaving
    · have hother : ((s.setState g st).goto w (.save g r)).worker v = s.worker v :=
        Function.update_of_ne hvw ..
      rw [hother]
      exact h.clear v hvt

/-- **One step.**  A fiber stays assigned unless `run` queues it again. -/
theorem Assigned.step {a : PoolAction} (h : s.Assigned f t) (hpinned : Pinned f t s a)
    (hreq : NotRequeued f t s a) (hstep : step s a = some s') : s'.Assigned f t := by
  cases a with
  | step w =>
    rw [Pool.step, Option.ite_none_right_eq_some] at hstep
    exact h.workerStep hstep.1 hreq hstep.2
  -- `Pinned` keeps `f` from ending
  | leave w st =>
    rw [Pool.step] at hstep
    cases hpc : (s.worker w).pc <;> rw [hpc] at hstep <;>
      simp only [Option.ite_none_right_eq_some, Option.some.injEq, reduceCtorEq] at hstep
    obtain ⟨-, rfl⟩ := hstep
    refine h.leave hpc fun hgf => hpinned ?_
    rw [hpc, ← hgf]
    rfl
  | create =>
    obtain rfl := Option.some.inj hstep
    refine ⟨Nat.lt_succ_of_lt h.created, h.queued, ?_, h.clear⟩
    rcases newFiber_state s f with hst | hst
    · rw [hst]
      exact h.alive
    · rw [hst]
      decide
  | schedule task =>
    -- whoever schedules `f` names `t`
    have henqueue : s' = s.enqueue task := by
      rw [Pool.step] at hstep
      split at hstep
      · rw [Option.ite_none_right_eq_some] at hstep
        exact (Option.some.inj hstep.2).symm
      · exact (Option.some.inj hstep).symm
    subst henqueue
    refine ⟨h.created, fun hother x hx hwork => ?_, h.alive, h.clear⟩
    rcases List.mem_append.mp hx with hx | hx
    · exact h.queued hother x hx hwork
    · obtain rfl := List.mem_singleton.mp hx
      exact hpinned hwork

/-- **Thread affinity.**  From any state in which the fiber is assigned to the worker `t`, and in any
    interleaving in which its tasks are scheduled on `t`, up to its end: if `run` does not queue the
    fiber again, in every state reached no other worker is switching it in. -/
theorem affinity (as : List PoolAction) (h : s.Assigned f t)
    (hpinned : Along step (Pinned f t) s as) (hreq : Along step (NotRequeued f t) s as)
    (hrun : runFrom step s as = some s') :
    ∀ w, (s'.worker w).pc.switchingIn = some f → w = t := by
  have hstep : ∀ p a p', Assigned p f t → Pinned f t p a ∧ NotRequeued f t p a →
      step p a = some p' → Assigned p' f t := fun _ _ _ hp hC hstep => hp.step hC.1 hC.2 hstep
  have h' : s'.Assigned f t := run_invariant hstep h (hpinned.and hreq) hrun
  intro w hw
  by_contra hwt
  obtain ⟨hfiber, hnone⟩ := Pc.fiber_of_switchingIn hw
  obtain ⟨r, hr⟩ := (h'.clear w hwt).pc hfiber
  rw [hnone] at hr
  exact nomatch hr

/-! ### New fibers -/

/-- Workers and tasks only have fibers that were created. -/
structure Bounded (s : Pool) : Prop where
  held : ∀ w g, (s.worker w).Holds g → g < s.created
  queued : ∀ task ∈ s.tasks, ∀ g, task.work = .fiber g → g < s.created

/-- There are no fibers at first. -/
theorem bounded_new (n : ℕ) : (new n).Bounded where
  held w g h := absurd h (by simp [new, Worker.Holds, Pc.fiber])
  queued task h := absurd h (by simp [new])

/-- Each step takes fibers from the queue, or creates them. -/
theorem Bounded.step {a : PoolAction} (h : s.Bounded) (hstep : step s a = some s') : s'.Bounded := by
  cases a with
  | step w =>
    rw [Pool.step, Option.ite_none_right_eq_some] at hstep
    have hmoves := workerStep_moves hstep.2
    have hold : ∀ g, g < s.created → g < s'.created :=
      fun g hg => Nat.lt_of_lt_of_le hg hmoves.created
    refine ⟨fun v g hg => ?_, fun task htask g hwork => ?_⟩
    · by_cases hvw : v = w
      · subst hvw
        rcases hg with hg | hg | hg
        · rcases hmoves.pc g hg with hg | hg | ⟨task, htask, hwork, -⟩
          · exact hold g (h.held v g hg)
          · exact hg.2
          · exact hold g (h.queued task htask g hwork)
        · rcases hmoves.cb g hg with hg | hg
          · exact hold g (h.held v g (.inr (.inl hg)))
          · exact hg.2
        · rcases hmoves.idle g hg with hg | hg
          · exact hold g (h.held v g (.inr (.inr hg)))
          · exact hg.2
      · rw [(workerStep_frame hstep.2).2 v hvw] at hg
        exact hold g (h.held v g hg)
    · rcases hmoves.tasks task htask with htask | ⟨g', r, hpc, rfl⟩
      · exact hold g (h.queued task htask g hwork)
      · obtain rfl : g' = g := Work.fiber.inj hwork
        exact hold g' (h.held w g' (.inl (by rw [hpc]; rfl)))
  -- a fiber that leaves stays in the same hand
  | leave w st =>
    rw [Pool.step] at hstep
    cases hpc : (s.worker w).pc <;> rw [hpc] at hstep <;>
      simp only [Option.ite_none_right_eq_some, Option.some.injEq, reduceCtorEq] at hstep
    rename_i g r
    obtain ⟨-, rfl⟩ := hstep
    refine ⟨fun v g' hg => h.held v g' ?_, h.queued⟩
    by_cases hvw : v = w
    · subst hvw
      rw [goto_worker] at hg
      refine hg.imp_left fun hg => ?_
      rw [hpc]
      exact hg
    · have hother : ((s.setState g st).goto w (.save g r)).worker v = s.worker v :=
        Function.update_of_ne hvw ..
      rwa [hother] at hg
  | create =>
    obtain rfl := Option.some.inj hstep
    exact ⟨fun v g hg => Nat.lt_succ_of_lt (h.held v g hg),
      fun task htask g hwork => Nat.lt_succ_of_lt (h.queued task htask g hwork)⟩
  -- `schedule` takes fibers that exist
  | schedule task =>
    rw [Pool.step] at hstep
    cases hwork : task.work with
    | fiber g =>
      simp only [hwork, Option.ite_none_right_eq_some, Option.some.injEq] at hstep
      obtain ⟨hg, rfl⟩ := hstep
      refine ⟨h.held, fun x hx g' hg' => ?_⟩
      rcases List.mem_append.mp hx with hx | hx
      · exact h.queued x hx g' hg'
      · obtain rfl := List.mem_singleton.mp hx
        obtain rfl : g = g' := Work.fiber.inj (hwork.symm.trans hg')
        exact hg
    | cb c =>
      simp only [hwork, Option.some.injEq] at hstep
      subst hstep
      refine ⟨h.held, fun x hx g' hg' => ?_⟩
      rcases List.mem_append.mp hx with hx | hx
      · exact h.queued x hx g' hg'
      · obtain rfl := List.mem_singleton.mp hx
        exact absurd (hwork.symm.trans hg') (by simp)

/-- A new fiber that is scheduled on `t` is assigned to it. -/
theorem assigned_of_new_fiber {n : ℕ} {as : List PoolAction} (hrun : runFrom step (new n) as = some s)
    (t : ℕ) : (s.newFiber.enqueue ⟨.fiber s.created, some t⟩).Assigned s.created t := by
  have hbounded : s.Bounded :=
    run_invariant_of_step (fun _ _ _ hs hstep => hs.step hstep) (bounded_new n) hrun
  -- a fiber that is new is in no queue and no hand
  refine ⟨Nat.lt_succ_self _, fun _ task htask hwork => ?_, ?_, fun w _ => ?_⟩
  · rcases List.mem_append.mp htask with htask | htask
    · exact absurd (hbounded.queued task htask _ hwork) (Nat.lt_irrefl _)
    · rw [List.mem_singleton.mp htask]
  · show Function.update s.state s.created .init s.created ≠ _ ∧
      Function.update s.state s.created .init s.created ≠ _
    rw [Function.update_self]
    decide
  · exact Worker.clear_of_not_holds fun hholds =>
      absurd (hbounded.held w _ hholds) (Nat.lt_irrefl _)

/-- Two workers, and a fiber for the worker 0 that runs and is put on hold, both by it. -/
theorem affinity_instance :
    ∃ s, runFrom step ((new 2).newFiber.enqueue ⟨.fiber 0, some 0⟩)
        (List.replicate 7 (.step 0) ++ [.leave 0 .hold, .step 1, .step 1]) = some s ∧
      ∀ w, (s.worker w).pc.switchingIn = some 0 → w = 0 := by
  have hassigned : ((new 2).newFiber.enqueue ⟨.fiber 0, some 0⟩).Assigned 0 0 :=
    assigned_of_new_fiber (runFrom_nil (new 2)) 0
  exact ⟨_, rfl, affinity (List.replicate 7 (.step 0) ++ [.leave 0 .hold, .step 1, .step 1])
    hassigned (by decide) (by decide) rfl⟩

/-- The fiber of the worker 0 yields to `READY` instead.  `run` queues it again for anybody, and the
    worker 1 takes it. -/
theorem affinity_lost :
    ∃ s, runFrom step (new 2) ([.create, .schedule ⟨.fiber 0, some 0⟩] ++
        List.replicate 7 (.step 0) ++ [.leave 0 .ready] ++ List.replicate 4 (.step 0) ++
        List.replicate 5 (.step 1)) = some s ∧
      (s.worker 1).pc.switchingIn = some 0 ∧ s.state 0 ≠ .term :=
  ⟨_, rfl, by decide, by decide⟩

end Pool

end LoNetfw.Scheduler
