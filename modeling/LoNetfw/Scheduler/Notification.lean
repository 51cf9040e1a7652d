import LoNetfw.Scheduler.IoCounters

namespace LoNetfw.Scheduler

open Basis
open LoNetfw.Fiber (State)

/-!
# `IOScheduler` — is a worker blocked while there is a task for it?

`schedule()` writes a byte into the notify pipe only when the queue was empty and some thread
counts as idle, and a worker that is woken drains the pipe.  Between its scan of the queue and its
`epoll_wait` a worker looks at the queue no more, unless it is to stop.

* `NoTaskMissed` — no worker is blocked in `epoll_wait` with no unread byte in the pipe while the
  queue holds a task that it may run;
* `Heard` — the condition on a step: what it adds to the queue, or makes runnable there, no
  blocked worker could run, or a byte is unread; a worker that begins to wait, or that drains the
  pipe, leaves no task behind for a blocked worker;
* `no_task_missed_iff` — no task is missed in any state of a run exactly if all its steps are heard.
-/

/-- The fiber whose state a worker writes, other than `EXEC`. -/
def Pc.releases : Pc → Option ℕ
  | .reset f _ | .writeHold f _ => some f
  | _ => none

namespace Pool

variable {p p' : Pool} {w : ℕ}

/-- Every fiber in a hand or in the queue has been created. -/
structure Known (p : Pool) : Prop where
  hands : ∀ w f, (p.worker w).Holds f → f < p.created
  queued : ∀ t ∈ p.tasks, ∀ f, t.work = .fiber f → f < p.created

/-- There are no fibers at first. -/
theorem known_new (n : ℕ) : (new n).Known where
  hands := fun w f h => absurd h (by simp [new, Worker.Holds, Pc.fiber])
  queued := fun t ht => absurd ht (by simp [new])

/-- A worker that gets fibers that exist keeps the fibers known. -/
theorem Known.setWorker (h : p.Known) {wk : Worker} (hwk : ∀ f, wk.Holds f → f < p.created) :
    (p.setWorker w wk).Known where
  hands := by
    intro v f hf
    by_cases hv : v = w
    · rw [hv, show (p.setWorker w wk).worker w = wk from Function.update_self ..] at hf
      exact hwk f hf
    · rw [show (p.setWorker w wk).worker v = p.worker v from Function.update_of_ne hv ..] at hf
      exact h.hands v f hf
  queued := h.queued

/-- A worker that goes on with a fiber that exists keeps the fibers known. -/
theorem Known.goto (h : p.Known) {pc : Pc} (hpc : ∀ f, pc.fiber = some f → f < p.created) :
    (p.goto w pc).Known := by
  refine h.setWorker (fun f hf => ?_)
  obtain hf | hf := hf
  · exact hpc f hf
  · exact h.hands w f (Or.inr hf)

/-- A new fiber keeps the fibers known. -/
theorem Known.newFiber (h : p.Known) : p.newFiber.Known where
  hands := fun v f hf => Nat.lt_succ_of_lt (h.hands v f hf)
  queued := fun t ht f hf => Nat.lt_succ_of_lt (h.queued t ht f hf)

/-- A batch of fibers that exist keeps the fibers known. -/
theorem Known.append (h : p.Known) {ts : List PoolTask}
    (hts : ∀ t ∈ ts, ∀ f, t.work = .fiber f → f < p.created) :
    { p with tasks := p.tasks ++ ts }.Known where
  hands := h.hands
  queued := by
    intro t ht f hf
    obtain ht | ht := List.mem_append.mp ht
    · exact h.queued t ht f hf
    · exact hts t ht f hf

/-- What `run` drops keeps the fibers known. -/
theorem Known.dropCb (h : p.Known) (r : Role) : (p.dropCb w r).Known := by
  cases r
  case cb =>
    refine h.setWorker (fun f hf => h.hands w f ?_)
    obtain hf | hf | hf := hf
    · exact Or.inl hf
    · simp at hf
    · exact Or.inr (Or.inr hf)
  all_goals exact h

/-- A pop hands a fiber to the worker. -/
theorem Known.pop (h : p.Known) (w : ℕ) : (p.pop w).Known := by
  unfold Pool.pop
  split
  · exact h.goto (by simp [Pc.fiber])
  · next t hnext =>
    obtain ⟨pre, post, htasks, -⟩ := nextTask_split hnext
    -- the fiber of the task, the `cb_fiber`, or a new one
    have hmem : t ∈ p.tasks := by simp [htasks]
    have herase : { p with tasks := p.tasks.erase t, active := p.active + 1 }.Known :=
      ⟨h.hands, fun x hx => h.queued x (List.mem_of_mem_erase hx)⟩
    dsimp only
    split
    · next f hwork =>
      refine herase.goto (fun g hg => ?_)
      obtain rfl : f = g := Option.some.inj hg
      exact h.queued t hmem f hwork
    · split
      · next g hcb =>
        refine herase.goto (fun g' hg' => ?_)
        obtain rfl : g = g' := Option.some.inj hg'
        exact h.hands w g (Or.inr (Or.inl hcb))
      · refine herase.newFiber.setWorker (fun f hf => ?_)
        obtain hf | hf | hf := hf
        · obtain rfl : p.created = f := Option.some.inj hf
          exact Nat.lt_succ_self _
        · obtain rfl : p.created = f := Option.some.inj hf
          exact Nat.lt_succ_self _
        · exact Nat.lt_succ_of_lt (h.hands w f (Or.inr (Or.inr hf)))

/-- Each step of a worker works on fibers that exist. -/
theorem known_workerStep (h : p.Known) (hstep : p.workerStep w (p.worker w).pc = some p') :
    p'.Known := by
  have hmine : ∀ f, (p.worker w).pc.fiber = some f → f < p.created :=
    fun f hf => h.hands w f (Or.inl hf)
  -- a step that goes on with the same fiber, or with none
  have hon : ∀ {q : Pool} {pc : Pc}, q.Known → q.created = p.created →
      (pc.fiber = (p.worker w).pc.fiber ∨ pc.fiber = none) → (q.goto w pc).Known := by
    intro q pc hq hcreated hpc
    refine hq.goto (fun f hf => ?_)
    obtain hpc | hpc := hpc
    · exact hcreated ▸ hmine f (hpc ▸ hf)
    · simp [hpc] at hf
  cases hpc : (p.worker w).pc <;>
    simp only [hpc, workerStep, Option.some.injEq, reduceCtorEq] at hstep hmine hon
  case start =>
    subst hstep
    refine h.newFiber.setWorker (fun f hf => ?_)
    obtain hf | hf | hf := hf
    · simp [Pc.fiber] at hf
    · exact Nat.lt_succ_of_lt (h.hands w f (Or.inr (Or.inl hf)))
    · obtain rfl : p.created = f := Option.some.inj hf
      exact Nat.lt_succ_self _
  case loop => subst hstep; exact h.pop w
  case testIdle =>
    obtain ⟨i, hi, rfl⟩ := Option.map_eq_some_iff.mp hstep
    split
    · exact h.goto (by simp [Pc.fiber])
    · have hcount : { p with idle := p.idle + 1 }.Known := ⟨h.hands, h.queued⟩
      refine hcount.goto (fun f hf => ?_)
      obtain rfl : i = f := Option.some.inj hf
      exact h.hands w i (Or.inr (Or.inr hi))
  case back f r =>
    subst hstep
    cases r <;> exact hon ⟨h.hands, h.queued⟩ rfl (Or.inl rfl)
  case requeue f r =>
    subst hstep
    refine Known.goto (Known.dropCb (Known.append h (fun t ht g hg => ?_)) r) (by simp [Pc.fiber])
    rw [List.mem_singleton.mp ht] at hg
    cases hg
    exact hmine f rfl
  case writeHold f r =>
    subst hstep
    have hhold : (p.setState f .hold).Known := ⟨h.hands, h.queued⟩
    exact (hhold.dropCb r).goto (by simp [Pc.fiber])
  all_goals
    subst hstep
    refine hon ⟨h.hands, h.queued⟩ rfl ?_
    (try split) <;> (try split) <;> simp [Pc.fiber]

/-! ### What a step does to the queue and to the fibers in it -/

/-- Only a fiber that is scheduled again gets into the queue by a step of a worker. -/
theorem workerStep_tasks {pc : Pc} (h : p.workerStep w pc = some p') (hpc : ∀ f r, pc ≠ .requeue f r)
    {t : PoolTask} (ht : t ∈ p'.tasks) : t ∈ p.tasks := by
  cases pc <;> simp only [workerStep, Option.some.injEq, reduceCtorEq] at h
  case loop =>
    subst h
    cases hnext : p.nextTask w with
    | none => simpa [pop, hnext, Pool.goto, Pool.setWorker] using ht
    | some t' =>
      rw [pop_tasks hnext] at ht
      exact List.mem_of_mem_erase ht
  case testIdle =>
    obtain ⟨i, -, rfl⟩ := Option.map_eq_some_iff.mp h
    split at ht <;> exact ht
  case back f r => subst h; cases r <;> exact ht
  -- only this step adds a task
  case requeue f r => exact absurd rfl (hpc f r)
  case writeHold f r => subst h; cases r <;> exact ht
  all_goals subst h; exact ht

/-- The state of another fiber. -/
theorem setState_of_ne {f g : ℕ} {st : State} (h : f ≠ g) : (p.setState g st).state f = p.state f :=
  Function.update_of_ne h ..

/-- Only these steps end `EXEC` for a fiber that has been created. -/
theorem workerStep_exec {pc : Pc} (h : p.workerStep w pc = some p') {f : ℕ} (hf : f < p.created)
    (hpc : pc.releases = none) (hexec : p.state f = .exec) : p'.state f = .exec := by
  -- a new fiber is not `f`
  have hnew : ∀ {q : Pool}, q.created = p.created → q.state = p.state → q.newFiber.state f = .exec := by
    intro q hcreated hstate
    have hne : f ≠ q.created := by omega
    exact (Function.update_of_ne hne ..).trans (by rw [hstate, hexec])
  cases pc <;> simp only [workerStep, Option.some.injEq, reduceCtorEq] at h
  case start => subst h; exact hnew rfl rfl
  case loop =>
    subst h
    unfold pop
    split
    · exact hexec
    · dsimp only
      split
      · exact hexec
      · split
        · exact hexec
        · exact hnew rfl rfl
  case testIdle =>
    obtain ⟨i, -, rfl⟩ := Option.map_eq_some_iff.mp h
    split <;> exact hexec
  case back g r => subst h; cases r <;> exact hexec
  case requeue g r => subst h; cases r <;> exact hexec
  case writeExec g r =>
    subst h
    by_cases hg : f = g
    · rw [hg]
      exact Function.update_self ..
    · exact (setState_of_ne hg).trans hexec
  -- the two writes that take a fiber out of `EXEC`
  case reset | writeHold => simp [Pc.releases] at hpc
  all_goals subst h; exact hexec

/-- What these steps do. -/
theorem workerStep_releases {pc : Pc} {f : ℕ} (h : p.workerStep w pc = some p')
    (hpc : pc.releases = some f) :
    p'.tasks = p.tasks ∧ ∃ st, st ≠ .exec ∧ p'.state = Function.update p.state f st := by
  cases pc <;> simp only [Pc.releases, Option.some.injEq, reduceCtorEq] at hpc
  case reset g reuse =>
    obtain rfl := hpc
    obtain rfl := Option.some.inj h
    exact ⟨rfl, .init, by simp, rfl⟩
  case writeHold g r =>
    obtain rfl := hpc
    obtain rfl := Option.some.inj h
    cases r <;> exact ⟨rfl, .hold, by simp, rfl⟩

/-- No task becomes one that a worker may run, if its fiber stays in `EXEC`. -/
theorem eligible_mono {t : PoolTask}
    (hexec : ∀ f, t.work = .fiber f → p.state f = .exec → p'.state f = .exec)
    (h : p'.eligible w t = true) : p.eligible w t = true := by
  unfold eligible at h ⊢
  rw [Bool.and_eq_true] at h ⊢
  refine ⟨h.1, ?_⟩
  cases hwork : t.work with
  | cb c => rfl
  | fiber f =>
    have hstate := h.2
    simp only [hwork, bne_iff_ne] at hstate ⊢
    exact fun hf => hstate (hexec f hwork hf)

/-- Whether a worker may run a task after its fiber was released. -/
theorem eligible_released {f : ℕ} {st : State} (hst : st ≠ .exec)
    (hstate : p'.state = Function.update p.state f st) (t : PoolTask) :
    p'.eligible w t = true ↔ p.eligible w t = true ∨
      p.state f = .exec ∧ t.work = .fiber f ∧ (t.thread = none ∨ t.thread = some w) := by
  unfold eligible
  rw [hstate]
  cases hwork : t.work with
  | cb c => simp
  | fiber g =>
    by_cases hg : g = f
    · subst hg
      by_cases hexec : p.state g = .exec <;> simp [hst, hexec]
    · simp [hg]

end Pool

namespace IoPool

variable {s s' : IoPool} {w f : ℕ} {ts : List PoolTask}

/-- The worker is blocked in `epoll_wait`. -/
def waits (s : IoPool) (w : ℕ) : Bool := s.idlePc w == .poll

/-- The queue holds no task that the worker may run. -/
def NothingFor (s : IoPool) (w : ℕ) : Prop := ∀ t ∈ s.pool.tasks, s.pool.eligible w t = false

def NoTaskMissed (s : IoPool) : Prop :=
  ∀ w < s.pool.size, s.waits w = true → s.bytes = 0 → s.NothingFor w

/-- Tasks are added to a queue that is not empty only when a byte is unread, or no blocked worker
    may run them. -/
def EnqueueHeard (s : IoPool) (ts : List PoolTask) : Prop :=
  s.pool.tasks ≠ [] → s.bytes = 0 → ∀ v < s.pool.size, s.waits v = true →
    ∀ t ∈ ts, s.pool.eligible v t = false

/-- `EXEC` ends for a fiber only when a byte is unread, or no blocked worker may run a task of it
    that is in the queue. -/
def ReleaseHeard (s : IoPool) (f : ℕ) : Prop :=
  s.pool.state f = .exec → s.bytes = 0 → ∀ v < s.pool.size, s.waits v = true →
    ∀ t ∈ s.pool.tasks, t.work = .fiber f → t.thread ≠ none ∧ t.thread ≠ some v

/-- The condition on a step of `run` that starts at `pc`. -/
def RunHeard (s : IoPool) : Pc → Prop
  | .requeue f _ => s.EnqueueHeard [⟨.fiber f, none⟩]
  | .reset f _ | .writeHold f _ => s.ReleaseHeard f
  | _ => True

/-- The condition on a step of `idle()` on the worker `w`. -/
def IdleHeard (s : IoPool) (w : ℕ) : IdlePc → Prop
  | .checkTimers => s.timers ≠ 0 → s.bytes = 0 → s.NothingFor w
  | .checkEvents => s.waitting ≠ 0 → s.bytes = 0 → s.NothingFor w
  | .checkTasks => s.schedulerStopping = false → s.bytes = 0 → s.NothingFor w
  | .expired cbs _ => s.EnqueueHeard (cbs.map fun c => ⟨.cb c, none⟩)
  | .dispatch reported => reported = true → ∀ v < s.pool.size, s.waits v = true → s.NothingFor v
  | .stopped => ∀ f ∈ (s.pool.worker w).pc.fiber, s.ReleaseHeard f
  | .poll | .expire _ | .swapOut => True

def Heard (s : IoPool) : IoAction → Prop
  | .worker w => s.RunHeard (s.pool.worker w).pc
  | .idle w _ _ _ => s.IdleHeard w (s.idlePc w)
  | .leave w _ => ∀ f ∈ (s.pool.worker w).pc.fiber, s.ReleaseHeard f
  | .schedule ts => s.EnqueueHeard ts
  | .trigger t => s.EnqueueHeard [t]
  | _ => True

instance : Decidable (s.NothingFor w) := inferInstanceAs (Decidable (∀ t ∈ _, _ = false))

instance : Decidable s.NoTaskMissed := inferInstanceAs (Decidable (∀ w < _, _ → _))

instance : Decidable (s.EnqueueHeard ts) := inferInstanceAs (Decidable (_ → _))

instance : Decidable (s.ReleaseHeard f) := inferInstanceAs (Decidable (_ → _))

instance : (pc : Pc) → Decidable (s.RunHeard pc)
  | .requeue _ _ => inferInstanceAs (Decidable (s.EnqueueHeard _))
  | .reset f _ | .writeHold f _ => inferInstanceAs (Decidable (s.ReleaseHeard f))
  | .start | .loop | .testTerm _ | .testError _ | .skip | .resetTerm _ _ | .resetInit _ _
  | .resetError _ _ | .testIdle | .testExec _ _ | .writeExec _ _ | .load _ _ | .running _ _
  | .save _ _ | .back _ _ | .testReady _ _ | .testEnded _ _ | .testFailed _ _ | .exited
  | .threw => .isTrue trivial

instance : (pc : IdlePc) → Decidable (s.IdleHeard w pc)
  | .checkTimers | .checkEvents | .checkTasks | .dispatch _ => inferInstanceAs (Decidable (_ → _))
  | .expired _ _ => inferInstanceAs (Decidable (s.EnqueueHeard _))
  | .stopped => inferInstanceAs (Decidable (∀ f ∈ (s.pool.worker w).pc.fiber, s.ReleaseHeard f))
  | .poll | .expire _ | .swapOut => .isTrue trivial

instance : (a : IoAction) → Decidable (s.Heard a)
  | .worker _ => inferInstanceAs (Decidable (s.RunHeard _))
  | .idle w _ _ _ => inferInstanceAs (Decidable (s.IdleHeard w _))
  | .leave w _ => inferInstanceAs (Decidable (∀ f ∈ (s.pool.worker w).pc.fiber, s.ReleaseHeard f))
  | .schedule _ | .trigger _ => inferInstanceAs (Decidable (s.EnqueueHeard _))
  | .create | .armTimer | .cancelTimer | .addEvent | .delEvent | .countOff | .setAutoStop
  | .setStopping | .notify => .isTrue trivial

/-! ### What a step does to a task that nobody has heard of -/

/-- `notify()` takes no byte out of the pipe. -/
theorem bytes_notifyIf (s : IoPool) (b : Bool) : s.bytes ≤ (s.notifyIf b).bytes := by
  unfold notifyIf notify
  split
  · split <;> simp
  · exact le_rfl

/-- Only the queue, the states of the fibers, the blocked workers and the pipe matter. -/
theorem noTaskMissed_congr (hsize : s'.pool.size = s.pool.size)
    (htasks : s'.pool.tasks = s.pool.tasks) (hstate : s'.pool.state = s.pool.state)
    (hwaits : ∀ v, s'.waits v = s.waits v) (hbytes : s'.bytes = s.bytes) :
    s'.NoTaskMissed ↔ s.NoTaskMissed := by
  unfold NoTaskMissed NothingFor Pool.eligible
  simp only [hsize, htasks, hstate, hwaits, hbytes]

/-- A step that adds no task, no blocked worker, and takes no byte out. -/
theorem NoTaskMissed.quiet (h : s.NoTaskMissed) (hsize : s'.pool.size = s.pool.size)
    (htasks : ∀ t ∈ s'.pool.tasks, t ∈ s.pool.tasks)
    (hexec : ∀ t ∈ s'.pool.tasks, ∀ f, t.work = .fiber f →
      s.pool.state f = .exec → s'.pool.state f = .exec)
    (hwaits : ∀ v, s'.waits v = true → s.waits v = true) (hbytes : s'.bytes = 0 → s.bytes = 0) :
    s'.NoTaskMissed := by
  intro v hv hwait hzero t ht
  by_contra helig
  rw [Bool.not_eq_false] at helig
  have hbefore := h v (hsize ▸ hv) (hwaits v hwait) (hbytes hzero) t (htasks t ht)
  rw [Pool.eligible_mono (hexec t ht) helig] at hbefore
  simp at hbefore

/-- A blocked worker counts as idle. -/
theorem Counted.idle_pos (hc : s.Counted) (hwait : s.waits w = true) : 0 < s.pool.idle := by
  have hpoll : s.idlePc w = .poll := by simpa [waits] using hwait
  obtain ht | hs | ⟨f, hf⟩ := hc.inside w
  · simp [hpoll] at ht
  · simp [hpoll] at hs
  · exact hc.balanced.idle_pos hf

/-- After a batch has been queued, none of its tasks may be missed. -/
theorem noTaskMissed_scheduleAll (hc : s.Counted) (h : s.NoTaskMissed) :
    (s.scheduleAll ts).NoTaskMissed ↔ s.EnqueueHeard ts := by
  by_cases hempty : s.pool.tasks = []
  · -- the first task is notified, since a blocked worker counts as idle
    refine iff_of_true ?_ (fun hne => absurd hempty hne)
    intro v hv hwait hzero t ht
    obtain ⟨k, hk⟩ := scheduleAll_eq s ts
    have hidle : 0 < s.pool.idle := hc.idle_pos (w := v) (by rw [hk] at hwait; exact hwait)
    have hts : ts ≠ [] := by
      rintro rfl
      simp [hk, hempty] at ht
    simp [scheduleAll, notifyIf, notify, hempty, hts, hidle] at hzero
  -- onto a queue that is not empty `schedule` notifies nobody
  · have hquiet : s.scheduleAll ts = { s with pool := { s.pool with tasks := s.pool.tasks ++ ts } } := by
      simp [scheduleAll, notifyIf, hempty]
    rw [hquiet]
    constructor
    · intro h' _ hzero v hv hwait t ht
      exact h' v hv hwait hzero t (List.mem_append_right _ ht)
    · intro hheard v hv hwait hzero t ht
      obtain ht | ht := List.mem_append.mp ht
      · exact h v hv hwait hzero t ht
      · exact hheard hempty hzero v hv hwait t ht

/-- A fiber that leaves `EXEC` makes its tasks eligible, and somebody has to hear of it. -/
theorem noTaskMissed_release {p : Pool} (h : s.NoTaskMissed) (hsize : p.size = s.pool.size)
    (htasks : p.tasks = s.pool.tasks) {st : State} (hst : st ≠ .exec)
    (hstate : p.state = Function.update s.pool.state f st) :
    { s with pool := p }.NoTaskMissed ↔ s.ReleaseHeard f := by
  unfold NoTaskMissed NothingFor ReleaseHeard
  simp only [hsize, htasks]
  constructor
  · intro h' hexec hzero v hv hwait t ht hwork
    -- a task is eligible now that was not only if it is of `f`
    have hnot := h' v hv hwait hzero t ht
    rw [← Bool.not_eq_true, Pool.eligible_released hst hstate] at hnot
    exact not_or.mp (fun hthread => hnot (Or.inr ⟨hexec, hwork, hthread⟩))
  · intro hheard v hv hwait hzero t ht
    rw [← Bool.not_eq_true, Pool.eligible_released hst hstate]
    rintro (helig | ⟨hexec, hwork, hthread⟩)
    · simp [h v hv hwait hzero t ht] at helig
    · obtain ⟨hnone, hother⟩ := hheard hexec hzero v hv hwait t ht hwork
      exact hthread.elim hnone hother

/-- A worker begins to wait. -/
theorem noTaskMissed_poll (h : s.NoTaskMissed) (hw : w < s.pool.size) :
    (s.setIdlePc w .poll).NoTaskMissed ↔ (s.bytes = 0 → s.NothingFor w) := by
  constructor
  · intro h' hzero
    exact h' w hw (by simp [waits, setIdlePc]) hzero
  · intro hnothing v hv hwait hzero
    by_cases hvw : v = w
    · exact hvw ▸ hnothing hzero
    · refine h v hv ?_ hzero
      simpa [waits, setIdlePc, hvw] using hwait

/-- The idle fiber moves on without waiting. -/
theorem waits_setIdlePc {pc : IdlePc} (hpc : pc ≠ .poll) {v : ℕ}
    (h : (s.setIdlePc w pc).waits v = true) : s.waits v = true := by
  by_cases hv : v = w
  · simp [hv, waits, setIdlePc, hpc] at h
  · simpa [waits, setIdlePc, hv] using h

/-- A worker that moves inside `idle()` without blocking changes nobody's wait. -/
theorem waits_setIdlePc_eq {pc : IdlePc} (hpc : pc ≠ .poll) (hbefore : s.idlePc w ≠ .poll) (v : ℕ) :
    (s.setIdlePc w pc).waits v = s.waits v := by
  by_cases hv : v = w
  · simp [hv, waits, setIdlePc, hpc, hbefore]
  · simp [waits, setIdlePc, hv]

/-- The pipe is drained. -/
theorem noTaskMissed_drain (h : s.NoTaskMissed) {pc : IdlePc} (hpc : pc ≠ .poll)
    (hbefore : s.idlePc w ≠ .poll) (reported : Bool) :
    ({ s with bytes := if reported then 0 else s.bytes }.setIdlePc w pc).NoTaskMissed ↔
      (reported = true → ∀ v < s.pool.size, s.waits v = true → s.NothingFor v) := by
  have hwaits := waits_setIdlePc_eq hpc hbefore
  -- a byte that is read is one that other workers are not woken by
  cases reported
  · simp only [Bool.false_eq_true, if_false, false_implies, iff_true]
    exact h.quiet rfl (fun _ ht => ht) (fun _ _ _ _ hf => hf) (fun v hv => hwaits v ▸ hv) (fun hz => hz)
  · simp only [if_true, forall_const]
    constructor
    · intro h' v hv hwait
      exact h' v hv ((hwaits v).trans hwait) rfl
    · intro hnothing v hv hwait _
      exact hnothing v hv ((hwaits v).symm.trans hwait)

/-- A batch queues fibers that exist. -/
theorem known_scheduleAll (h : s.pool.Known)
    (hts : ∀ t ∈ ts, ∀ f, t.work = .fiber f → f < s.pool.created) :
    (s.scheduleAll ts).pool.Known := by
  obtain ⟨k, hk⟩ := scheduleAll_eq s ts
  rw [hk]
  exact h.append hts

/-- A step inside `idle()` creates no fiber. -/
theorem idleStep_known (h : s.pool.Known) {removed : ℕ} {reported : Bool} {cbs : List ℕ}
    (hpc : (s.pool.worker w).pc = .running f .idle)
    (hstep : s.idleStep w f reported cbs removed = some s') : s'.pool.Known := by
  -- `idle()` goes on with the idle fiber
  have hf : ∀ g, (Pc.save f .idle).fiber = some g → g < s.pool.created :=
    fun g hg => h.hands w g (Or.inl (by rw [hpc]; exact hg))
  unfold idleStep at hstep
  split at hstep
  case h_4 | h_5 =>
    split at hstep
    · obtain rfl := Option.some.inj hstep
      exact h
    · simp at hstep
  -- expired callbacks are no fibers
  case h_6 _ cbs' reported' _ =>
    obtain rfl := Option.some.inj hstep
    refine known_scheduleAll h (fun t ht g hg => ?_)
    obtain ⟨c, -, rfl⟩ := List.mem_map.mp ht
    simp at hg
  case h_8 =>
    obtain rfl := Option.some.inj hstep
    exact h.goto hf
  case h_9 =>
    obtain rfl := Option.some.inj hstep
    have hterm : (s.pool.setState f .term).Known := ⟨h.hands, h.queued⟩
    exact hterm.goto hf
  all_goals
    obtain rfl := Option.some.inj hstep
    exact h

/-- Each step keeps it. -/
theorem step_known {a : IoAction} (h : s.pool.Known) (hstep : step s a = some s') :
    s'.pool.Known := by
  cases a with
  | worker w =>
    obtain ⟨p, hw, hp, rfl⟩ := step_worker hstep
    obtain ⟨k, hk⟩ := notifyIf_eq { s with pool := p } (shouldNotify s.pool w (s.pool.worker w).pc)
    rw [hk]
    exact Pool.known_workerStep h hp
  | idle w reported cbs removed =>
    obtain ⟨f, hpc, hidle⟩ := step_idle hstep
    exact idleStep_known h hpc hidle
  | leave w st =>
    obtain ⟨f, r, hr, hpc, -, rfl⟩ := step_leave hstep
    have hleft : (s.pool.setState f st).Known := ⟨h.hands, h.queued⟩
    exact hleft.goto (fun g hg => h.hands w g (Or.inl (by rw [hpc]; exact hg)))
  | create =>
    obtain rfl := Option.some.inj hstep
    exact h.newFiber
  | schedule ts =>
    simp only [step] at hstep
    split at hstep
    · next hts =>
      obtain rfl := Option.some.inj hstep
      exact known_scheduleAll h (fun t ht f hf => hts t ht f (by simp [hf, Work.fiber?]))
    · simp at hstep
  -- the task of a registration is one that was waiting
  | trigger t =>
    simp only [step] at hstep
    split at hstep
    · next hts =>
      obtain rfl := Option.some.inj hstep
      refine known_scheduleAll h (fun t' ht f hf => ?_)
      rw [List.mem_singleton.mp ht] at hf
      exact hts.2 f (by simp [hf, Work.fiber?])
    · simp at hstep
  | armTimer | addEvent | setAutoStop | setStopping =>
    obtain rfl := Option.some.inj hstep
    exact h
  | cancelTimer | delEvent | countOff =>
    simp only [step] at hstep
    split at hstep
    · obtain rfl := Option.some.inj hstep
      exact h
    · simp at hstep
  | notify =>
    obtain rfl := Option.some.inj hstep
    obtain ⟨k, hk⟩ := notifyIf_eq s true
    have hs' : s.notify = { s with bytes := k } := hk
    rw [hs']
    exact h

/-- A step inside `idle()`: it misses a task exactly when its batch is not heard. -/
theorem idleStep_noTaskMissed_iff (hc : s.Counted) (h : s.NoTaskMissed) {removed : ℕ}
    {reported : Bool} {cbs : List ℕ} (hpc : (s.pool.worker w).pc = .running f .idle)
    (hstep : s.idleStep w f reported cbs removed = some s') :
    s'.NoTaskMissed ↔ s.Heard (.idle w reported cbs removed) := by
  have hw : w < s.pool.size := hc.balanced.lt_size (by simp [hpc])
  -- moving on changes nothing, if the worker does not wait then
  have hmove : ∀ {t : IoPool} {pc : IdlePc}, t.pool.size = s.pool.size →
      t.pool.tasks = s.pool.tasks → t.pool.state = s.pool.state → t.idlePc = s.idlePc →
      t.bytes = s.bytes → pc ≠ .poll → (t.setIdlePc w pc).NoTaskMissed := by
    intro t pc hsize htasks hstate hidle hbytes hne
    refine h.quiet hsize (fun x hx => htasks ▸ hx) (fun x _ g _ hg => hstate ▸ hg) (fun v hv => ?_)
      (fun hz => hbytes ▸ hz)
    have hwaits := waits_setIdlePc hne hv
    rwa [waits, hidle] at hwaits
  unfold idleStep at hstep
  simp only [Heard]
  split at hstep
  case h_1 hat | h_2 hat =>
    obtain rfl := Option.some.inj hstep
    simp only [hat, IdleHeard]
    split
    · next hz => exact iff_of_true (hmove rfl rfl rfl rfl rfl (by simp)) (fun hne => absurd hz hne)
    · next hz => rw [noTaskMissed_poll h hw, imp_iff_right hz]
  case h_3 hat =>
    obtain rfl := Option.some.inj hstep
    simp only [hat, IdleHeard]
    split
    · next hstop => exact iff_of_true (hmove rfl rfl rfl rfl rfl (by simp)) (by simp [hstop])
    · next hstop =>
      rw [Bool.not_eq_true] at hstop
      rw [noTaskMissed_poll h hw, imp_iff_right hstop]
  case h_4 hat | h_5 hat =>
    split at hstep
    · obtain rfl := Option.some.inj hstep
      simp only [hat, IdleHeard]
      exact iff_of_true (hmove rfl rfl rfl rfl rfl (by simp)) trivial
    · simp at hstep
  case h_6 _ cbs' reported' hat =>
    obtain rfl := Option.some.inj hstep
    simp only [hat, IdleHeard]
    rw [← noTaskMissed_scheduleAll hc h]
    refine noTaskMissed_congr rfl rfl rfl (waits_setIdlePc_eq (by simp) ?_) rfl
    obtain ⟨k, hk⟩ := scheduleAll_eq s (cbs'.map fun c => ⟨.cb c, none⟩)
    rw [hk]
    simp [hat]
  case h_7 _ reported' hat =>
    obtain rfl := Option.some.inj hstep
    simp only [hat, IdleHeard]
    exact noTaskMissed_drain h (by simp) (by simp [hat]) reported'
  case h_8 hat =>
    obtain rfl := Option.some.inj hstep
    simp only [hat, IdleHeard]
    exact iff_of_true (hmove rfl rfl rfl rfl rfl (by simp)) trivial
  case h_9 hat =>
    obtain rfl := Option.some.inj hstep
    simp only [hat, IdleHeard]
    have hterm : State.term ≠ .exec := by simp
    refine (noTaskMissed_release (p := (s.pool.setState f .term).goto w (.save f .idle)) h rfl rfl
      hterm rfl).trans ?_
    simp [hpc, Pc.fiber]

/-- The condition for a step of `run`: a fiber that it queues or releases is heard. -/
theorem heard_worker : s.Heard (.worker w) ↔
    (∀ f r, (s.pool.worker w).pc = .requeue f r → s.EnqueueHeard [⟨.fiber f, none⟩]) ∧
      ∀ f, (s.pool.worker w).pc.releases = some f → s.ReleaseHeard f := by
  simp only [Heard]
  cases (s.pool.worker w).pc <;> simp [RunHeard, Pc.releases]

/-- Whether a task is missed after a notification depends on the same parts of the pool. -/
theorem noTaskMissed_notifyIf_congr {p q : Pool} (hsize : p.size = q.size) (htasks : p.tasks = q.tasks)
    (hstate : p.state = q.state) (hidle : p.idle = q.idle) (b : Bool) :
    ({ s with pool := p }.notifyIf b).NoTaskMissed ↔ ({ s with pool := q }.notifyIf b).NoTaskMissed := by
  have hcongr : ∀ k, { s with pool := p, bytes := k }.NoTaskMissed ↔
      { s with pool := q, bytes := k }.NoTaskMissed :=
    fun k => noTaskMissed_congr hsize htasks hstate (fun _ => rfl) rfl
  unfold notifyIf notify
  simp only [hidle]
  split
  · split <;> exact hcongr _
  · exact hcongr _

/-- A worker that schedules its fiber again. -/
theorem requeue_noTaskMissed_iff (hc : s.Counted) (h : s.NoTaskMissed) {r : Role} :
    ({ s with pool := ((s.pool.enqueue ⟨.fiber f, none⟩).dropCb w r).goto w .loop }.notifyIf
        s.pool.tasks.isEmpty).NoTaskMissed ↔ s.EnqueueHeard [⟨.fiber f, none⟩] := by
  rw [← noTaskMissed_scheduleAll hc h, scheduleAll]
  simp only [List.isEmpty_cons, Bool.not_false, Bool.and_true]
  apply noTaskMissed_notifyIf_congr
  all_goals cases r <;> rfl

/-- A step of `run`. -/
theorem workerStep_noTaskMissed_iff (hc : s.Counted) (hk : s.pool.Known) (h : s.NoTaskMissed)
    (hstep : step s (.worker w) = some s') : s'.NoTaskMissed ↔ s.Heard (.worker w) := by
  obtain ⟨p, hw, hp, rfl⟩ := step_worker hstep
  obtain ⟨hsize, -⟩ := Pool.workerStep_frame hp
  rw [heard_worker]
  -- a worker adds a task, takes a fiber out of `EXEC`, or does neither
  by_cases hrequeue : ∃ f r, (s.pool.worker w).pc = .requeue f r
  · obtain ⟨f, r, hpc⟩ := hrequeue
    simp only [hpc, Pool.workerStep, Option.some.injEq] at hp
    subst hp
    simp [hpc, Pc.releases, shouldNotify, requeue_noTaskMissed_iff hc h]
  · have hnot : ∀ f r, (s.pool.worker w).pc ≠ .requeue f r := fun f r hf => hrequeue ⟨f, r, hf⟩
    simp only [hnot, false_implies, implies_true, true_and]
    cases hrel : (s.pool.worker w).pc.releases with
    | some f =>
      obtain ⟨htasks, st, hst, hstate⟩ := Pool.workerStep_releases hp hrel
      -- who takes a fiber out of `EXEC` tells nobody
      have hquiet : shouldNotify s.pool w (s.pool.worker w).pc = false := by
        cases hpc : (s.pool.worker w).pc <;> simp_all [Pc.releases, shouldNotify]
      rw [hquiet]
      refine (noTaskMissed_release h hsize htasks hst hstate).trans ?_
      simp
    | none =>
      simp only [reduceCtorEq, false_implies, implies_true, iff_true]
      obtain ⟨k, hk'⟩ := notifyIf_eq { s with pool := p } (shouldNotify s.pool w (s.pool.worker w).pc)
      have hbytes := bytes_notifyIf { s with pool := p } (shouldNotify s.pool w (s.pool.worker w).pc)
      rw [hk'] at hbytes ⊢
      refine h.quiet hsize (fun t => Pool.workerStep_tasks hp hnot) ?_ (fun v hv => hv)
        (fun hz => Nat.le_zero.mp (hz ▸ hbytes))
      intro t ht g hg hexec
      exact Pool.workerStep_exec hp (hk.queued t (Pool.workerStep_tasks hp hnot ht) g hg) hrel hexec

/-- Any step. -/
theorem step_noTaskMissed_iff {a : IoAction} (hc : s.Counted) (hk : s.pool.Known)
    (h : s.NoTaskMissed) (hstep : step s a = some s') : s'.NoTaskMissed ↔ s.Heard a := by
  cases a with
  | worker w => exact workerStep_noTaskMissed_iff hc hk h hstep
  | idle w reported cbs removed =>
    obtain ⟨f, hpc, hidle⟩ := step_idle hstep
    exact idleStep_noTaskMissed_iff hc h hpc hidle
  | leave w st =>
    obtain ⟨f, r, hr, hpc, hst, rfl⟩ := step_leave hstep
    refine (noTaskMissed_release (p := (s.pool.setState f st).goto w (.save f r)) h rfl rfl
      hst rfl).trans ?_
    simp [Heard, hpc, Pc.fiber]
  -- a new fiber has no task
  | create =>
    obtain rfl := Option.some.inj hstep
    refine iff_of_true (h.quiet rfl (fun _ ht => ht) (fun t ht f hf hexec => ?_) (fun _ hv => hv)
      (fun hz => hz)) trivial
    have hne : f ≠ s.pool.created := Nat.ne_of_lt (hk.queued t ht f hf)
    exact (Function.update_of_ne hne ..).trans hexec
  | schedule ts =>
    simp only [step] at hstep
    split at hstep
    · obtain rfl := Option.some.inj hstep
      exact noTaskMissed_scheduleAll hc h
    · simp at hstep
  -- `triggerEvent` takes the registration and schedules its task
  | trigger t =>
    simp only [step] at hstep
    split at hstep
    · next hreg =>
      obtain rfl := Option.some.inj hstep
      have hevents := hc.events
      have hc' : { s with registered := s.registered - 1, triggered := s.triggered + 1 }.Counted :=
        ⟨hc.balanced, by simp only; omega, hc.inside⟩
      exact noTaskMissed_scheduleAll hc' h
    · simp at hstep
  | armTimer | addEvent | setAutoStop | setStopping =>
    obtain rfl := Option.some.inj hstep
    exact iff_of_true h trivial
  | cancelTimer | delEvent | countOff =>
    simp only [step] at hstep
    split at hstep
    · obtain rfl := Option.some.inj hstep
      exact iff_of_true h trivial
    · simp at hstep
  -- one more byte wakes nobody less
  | notify =>
    obtain rfl := Option.some.inj hstep
    refine iff_of_true ?_ trivial
    obtain ⟨k, hk'⟩ := notifyIf_eq s true
    have hbytes : s.bytes ≤ s.notify.bytes := bytes_notifyIf s true
    have hs' : s.notify = { s with bytes := k } := hk'
    rw [hs'] at hbytes ⊢
    exact h.quiet rfl (fun _ ht => ht) (fun _ _ _ _ hf => hf) (fun _ hv => hv)
      (fun hz => Nat.le_zero.mp (hz ▸ hbytes))

/-- **No missed task notification.** For any number of workers and any run, no state of the run has
    a worker blocked in `epoll_wait` with no unread byte in the pipe while the queue holds a task
    that it may run, exactly if all steps of the run are heard. -/
theorem no_task_missed_iff (n : ℕ) (as : List IoAction) (s : IoPool)
    (hrun : runFrom step (new n) as = some s) :
    Always step NoTaskMissed (new n) as ↔ Along step Heard (new n) as := by
  refine always_iff_along (I := fun s => s.Counted ∧ s.pool.Known) ?_ ?_
    ⟨counted_new n, Pool.known_new n⟩ ?_ hrun
  · rintro t a t' ⟨hc, hk⟩ hstep
    exact ⟨step_counted hc hstep, step_known hk hstep⟩
  · rintro t a t' ⟨hc, hk⟩ h hstep
    exact step_noTaskMissed_iff hc hk h hstep
  · intro w _ hwait
    simp [new, waits] at hwait

/-- Two workers block in `epoll_wait`; then come `schedules`, and the first worker is woken, drains
    the pipe and takes a task. -/
def wakeFirst (schedules : List IoAction) : List IoAction :=
  .flatten [.replicate 6 (.worker 0), .replicate 6 (.worker 1), .replicate 3 (.idle 0 false [] 0),
    .replicate 3 (.idle 1 false [] 0), schedules, .replicate 5 (.idle 0 true [] 0),
    .replicate 6 (.worker 0)]

/-- One task, which only the first worker may run. -/
theorem no_task_missed_iff_pinned_task :
    ∃ s, runFrom step (new 2) (wakeFirst [.schedule [⟨.cb 0, some 0⟩]]) = some s ∧
      s.waits 1 = true ∧ s.bytes = 0 ∧
      Always step NoTaskMissed (new 2) (wakeFirst [.schedule [⟨.cb 0, some 0⟩]]) := by
  obtain ⟨s, hrun, hs⟩ := (Option.any_eq_true (fun s => s.waits 1 && s.bytes == 0)
    (runFrom step (new 2) (wakeFirst [.schedule [⟨.cb 0, some 0⟩]]))).mp (by decide +kernel)
  simp only [Bool.and_eq_true, beq_iff_eq] at hs
  exact ⟨s, hrun, hs.1, hs.2, (no_task_missed_iff 2 _ s hrun).mpr (by decide +kernel)⟩

/-- Two tasks, and one byte for both: the first worker reads it and takes the first task, and the
    second worker stays blocked with the second task in the queue. -/
theorem second_task_not_notified :
    ¬ ∀ (n : ℕ) (as : List IoAction) (s : IoPool), 2 ≤ n → runFrom step (new n) as = some s →
      s.NoTaskMissed := by
  intro h
  obtain ⟨s, hrun, hs⟩ := (Option.any_eq_true (fun s : IoPool => decide (¬ s.NoTaskMissed))
    (runFrom step (new 2) (wakeFirst [.schedule [⟨.cb 0, none⟩], .schedule [⟨.cb 1, none⟩]]))).mp
    (by decide +kernel)
  exact of_decide_eq_true hs (h 2 _ s le_rfl hrun)

end IoPool

end LoNetfw.Scheduler
