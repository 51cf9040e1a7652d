import LoNetfw.Scheduler.IoCounters

namespace LoNetfw.Scheduler

open Basis
open LoNetfw.Fiber (State)

/-!
# `IOScheduler::stopping()` — is all work gone when it returns `true`?

`stopping()` reads the timers, the counter of waiting events and, under `m_mutex`, the queue and
`m_active_threads_count`, one after the other.  Work moves between these meanwhile: a worker
counts a task off before it schedules the fiber again, and `idle()` takes the expired timers out
before it schedules their callbacks.

* `AllWorkGone` — what a `stopping()` that returns `true` should mean;
* `Orderly` — once `stop()` has set its flags, no such hand-over is under way while a worker is
  between the reads of `stopping()`, and nothing is armed or registered there behind its back;
* `Settled` — what then holds of a worker between these reads;
* `stopping_all_work_gone` — in every run of orderly steps `stopping()` returns `true` only when
  all work is gone.
-/

/-- The worker may schedule a fiber again that it has counted off. -/
def Pc.handsOver : Pc → Bool
  | .testReady _ _ | .requeue _ _ => true
  | _ => false

namespace Pool

variable {p p' : Pool} {w : ℕ}

/-- The worker has counted a fiber off that it is going to schedule again. -/
def readyInHand (p : Pool) (w : ℕ) : Bool :=
  match (p.worker w).pc with
  | .testReady f _ => p.state f == .ready
  | .requeue _ _ => true
  | _ => false

/-- The worker is about to count a fiber off that has yielded to `READY`. -/
def readyInBack (p : Pool) (w : ℕ) : Bool :=
  match (p.worker w).pc with
  | .back f r => r != .idle && p.state f == .ready
  | _ => false

/-- A worker with a `READY` fiber is about to schedule it again. -/
theorem handsOver_of_readyInHand (h : p.readyInHand w = true) :
    (p.worker w).pc.handsOver = true := by
  unfold readyInHand at h
  split at h
  · next hpc => rw [hpc]; rfl
  · next hpc => rw [hpc]; rfl
  · simp at h

/-- A write of another state makes no fiber `READY`. -/
theorem ready_of_setState {q : Pool} {f g : ℕ} {st : State} (hq : q.state = p.state)
    (hst : st ≠ .ready) (h : (q.setState g st).state f = .ready) : p.state f = .ready := by
  by_cases hg : f = g
  · rw [hg, show (q.setState g st).state g = st from Function.update_self ..] at h
    exact absurd h hst
  · rwa [show (q.setState g st).state f = q.state f from Function.update_of_ne hg .., hq] at h

/-- No worker writes `READY` into a fiber. -/
theorem workerStep_ready {pc : Pc} (h : p.workerStep w pc = some p') {f : ℕ}
    (hf : p'.state f = .ready) : p.state f = .ready := by
  cases pc <;> simp only [workerStep, Option.some.injEq, reduceCtorEq] at h
  case start => subst h; exact ready_of_setState rfl (by simp) hf
  -- `reset` on a new `cb_fiber` writes `INIT`
  case loop =>
    subst h
    unfold pop at hf
    split at hf
    · exact hf
    · dsimp only at hf
      split at hf
      · exact hf
      · split at hf
        · exact hf
        · exact ready_of_setState rfl (by simp) hf
  case testIdle =>
    obtain ⟨i, -, rfl⟩ := Option.map_eq_some_iff.mp h
    split at hf <;> exact hf
  case back g r => subst h; cases r <;> exact hf
  case requeue g r => subst h; cases r <;> exact hf
  case writeHold g r => subst h; cases r <;> exact ready_of_setState rfl (by simp) hf
  case reset g reuse => subst h; exact ready_of_setState rfl (by simp) hf
  case writeExec g r => subst h; exact ready_of_setState rfl (by simp) hf
  -- the other steps write no state
  all_goals subst h; exact hf

/-- A worker that has just taken a task has counted nothing off. -/
theorem pop_readyInHand (p : Pool) (w : ℕ) : (p.pop w).readyInHand w = false := by
  unfold pop
  split
  · simp [readyInHand, goto_pc]
  · dsimp only
    split
    · simp [readyInHand, goto_pc]
    · split
      · simp [readyInHand, goto_pc]
      · simp [readyInHand, setWorker]

/-- A worker that does not move gets no fiber in hand, if none becomes `READY`. -/
theorem readyInHand_mono {q : Pool} (hworker : q.worker w = p.worker w)
    (hstate : ∀ f, q.state f = .ready → p.state f = .ready) (h : q.readyInHand w = true) :
    p.readyInHand w = true := by
  unfold readyInHand at h ⊢
  rw [hworker] at h
  split at h
  · rw [beq_iff_eq] at h ⊢
    exact hstate _ h
  · rfl
  · simp at h

/-- A fiber that begins to switch out leaves nothing in the hands of its worker. -/
theorem readyInHand_goto_save {q : Pool} {f v : ℕ} {r : Role} (hworker : q.worker = p.worker)
    (hstate : ∀ g, q.state g = .ready → p.state g = .ready)
    (h : (q.goto w (.save f r)).readyInHand v = true) : p.readyInHand v = true := by
  by_cases hv : v = w
  · simp [hv, readyInHand, goto_pc] at h
  · have hpc : (q.goto w (.save f r)).worker v = p.worker v :=
      (Function.update_of_ne hv ..).trans (congrFun hworker v)
    exact readyInHand_mono hpc hstate h

/-- Where a worker gets a `READY` fiber in hand. -/
theorem workerStep_readyInHand (h : p.workerStep w (p.worker w).pc = some p')
    (hready : p'.readyInHand w = true) : p.readyInHand w = true ∨ p.readyInBack w = true := by
  cases hpc : (p.worker w).pc <;>
    simp only [hpc, workerStep, Option.some.injEq, reduceCtorEq] at h
  case start => subst h; simp [readyInHand, setWorker] at hready
  case loop => subst h; simp [pop_readyInHand] at hready
  case testIdle =>
    obtain ⟨i, -, rfl⟩ := Option.map_eq_some_iff.mp h
    split at hready <;> simp [readyInHand, goto_pc] at hready
  -- behind `swapIn` the fiber in hand is the one that has just left
  case back f r =>
    subst h
    cases r
    case idle => simp [readyInHand, goto_pc] at hready
    case task | cb =>
      right
      simpa [readyInHand, readyInBack, goto_pc, hpc, goto, setWorker] using hready
  -- only the branch of `READY` hands the fiber over
  case testReady f r =>
    subst h
    left
    by_cases hf : p.state f = .ready
    · simp [readyInHand, hpc, hf]
    · simp [readyInHand, goto_pc, hf] at hready
  -- no other step is in front of a `schedule`
  all_goals
    subst h
    have hnext := handsOver_of_readyInHand hready
    rw [goto_pc] at hnext
    (try split at hnext) <;> (try split at hnext) <;> simp [Pc.handsOver] at hnext

end Pool

namespace IoPool

variable {s s' : IoPool} {w : ℕ}

/-- The worker holds expired callbacks that it has not scheduled. -/
def expiredInHand (s : IoPool) (w : ℕ) : Bool :=
  match s.idlePc w with
  | .expired cbs _ => !cbs.isEmpty
  | _ => false

/-- The worker is inside `stopping()` and has found no timer. -/
def pastTimers (s : IoPool) (w : ℕ) : Bool :=
  s.idlePc w == .checkEvents || s.idlePc w == .checkTasks

/-- The worker is inside `stopping()` and has found no timer and no waiting event. -/
def pastEvents (s : IoPool) (w : ℕ) : Bool := s.idlePc w == .checkTasks

/-- `stop()` has set both flags. -/
def stopCalled (s : IoPool) : Bool := s.stopping && s.autoStop

/-- The last read of `stopping()` on the worker `w` is next, and `stopping()` returns `true`. -/
def stoppingReturnsTrue (s : IoPool) (w : ℕ) : Bool :=
  match (s.pool.worker w).pc, s.idlePc w with
  | .running _ .idle, .checkTasks => s.schedulerStopping
  | _, _ => false

structure AllWorkGone (s : IoPool) : Prop where
  tasks : s.pool.tasks = []
  popped : ∀ v < s.pool.size, (s.pool.worker v).pc.holdsTask = false
  ready : ∀ v < s.pool.size, s.pool.readyInHand v = false
  expired : ∀ v < s.pool.size, s.expiredInHand v = false
  timers : s.timers = 0
  registered : s.registered = 0

/-- What a worker between the reads of `stopping()` has found is still so. -/
structure Settled (s : IoPool) : Prop where
  timers : ∀ w < s.pool.size, s.pastTimers w = true →
    s.timers = 0 ∧ ∀ v < s.pool.size, s.expiredInHand v = false
  events : ∀ w < s.pool.size, s.pastEvents w = true →
    s.registered = 0 ∧ ∀ v < s.pool.size, s.pool.readyInHand v = false

/-- The worker `v` is about to test the fiber for `READY` that the worker `w` runs. -/
def testsReady (s : IoPool) (w v : ℕ) : Bool :=
  match (s.pool.worker w).pc, (s.pool.worker v).pc with
  | .running f _, .testReady g _ => f == g
  | _, _ => false

/-- Once `stop()` has set its flags: a worker that has found no timer in `stopping()` finds no
    expired callbacks in somebody's hands, and no timer is armed before it has read the queue;
    a worker that has found no waiting event finds no `READY` fiber in somebody's hands, and no
    fiber is taken there and no event registered before it has read the queue.  When `stop()`
    sets the second flag, what such workers have found is still so. -/
def Orderly (s : IoPool) : IoAction → Prop
  | .worker v => s.stopCalled = true → s.pool.readyInBack v = true →
      ∀ u < s.pool.size, s.pastEvents u = false
  | .idle w _ _ _ => s.stopCalled = true →
      (s.idlePc w = .checkTimers → s.timers = 0 → ∀ v < s.pool.size, s.expiredInHand v = false) ∧
      (s.idlePc w = .checkEvents → s.waitting = 0 →
        ∀ v < s.pool.size, s.pool.readyInHand v = false)
  | .leave w st => s.stopCalled = true → st = .ready →
      (∃ v < s.pool.size, s.testsReady w v = true) → ∀ u < s.pool.size, s.pastEvents u = false
  | .armTimer => s.stopCalled = true → ∀ u < s.pool.size, s.pastTimers u = false
  | .addEvent => s.stopCalled = true → ∀ u < s.pool.size, s.pastEvents u = false
  | .setAutoStop => s.stopping = true → s.Settled
  | .setStopping => s.autoStop = true → s.Settled
  | _ => True

instance : Decidable s.Settled :=
  decidable_of_iff
    ((∀ w < s.pool.size, s.pastTimers w = true →
        s.timers = 0 ∧ ∀ v < s.pool.size, s.expiredInHand v = false) ∧
      ∀ w < s.pool.size, s.pastEvents w = true →
        s.registered = 0 ∧ ∀ v < s.pool.size, s.pool.readyInHand v = false)
    ⟨fun h => ⟨h.1, h.2⟩, fun h => ⟨h.timers, h.events⟩⟩

instance : (a : IoAction) → Decidable (s.Orderly a)
  | .worker _ | .idle _ _ _ _ | .leave _ _ | .armTimer | .addEvent | .setAutoStop | .setStopping =>
    inferInstanceAs (Decidable (_ → _))
  | .create | .schedule _ | .cancelTimer | .delEvent | .trigger _ | .countOff | .notify =>
    .isTrue trivial

/-! ### What a step keeps settled -/

/-- A step that leaves every idle fiber where it is. -/
theorem Settled.move (h : s.Settled) (hsize : s'.pool.size = s.pool.size)
    (hidle : s'.idlePc = s.idlePc)
    (htimers : s'.timers ≤ s.timers ∨ ∀ u < s.pool.size, s.pastTimers u = false)
    (hregistered : s'.registered ≤ s.registered ∨ ∀ u < s.pool.size, s.pastEvents u = false)
    (hready : ∀ v < s.pool.size, s'.pool.readyInHand v = true →
      s.pool.readyInHand v = true ∨ ∀ u < s.pool.size, s.pastEvents u = false) : s'.Settled where
  timers := by
    intro w hw hpast
    simp only [hsize, pastTimers, expiredInHand, hidle] at hw hpast ⊢
    obtain ⟨hnone, hexpired⟩ := h.timers w hw hpast
    refine ⟨?_, hexpired⟩
    obtain hle | hno := htimers
    · omega
    · exact absurd hpast (by simpa [pastTimers] using hno w hw)
  events := by
    intro w hw hpast
    simp only [hsize, pastEvents, hidle] at hw hpast ⊢
    obtain ⟨hnone, hheld⟩ := h.events w hw hpast
    -- somebody is past the test, so no registration was added
    have hsome : ¬ ∀ u < s.pool.size, s.pastEvents u = false := by
      intro hno
      exact absurd hpast (by simpa [pastEvents] using hno w hw)
    refine ⟨?_, fun v hv => ?_⟩
    · have hle := hregistered.resolve_right hsome
      omega
    · by_contra hnot
      rw [Bool.not_eq_false] at hnot
      have hbefore := (hready v hv hnot).resolve_right hsome
      simp [hheld v hv] at hbefore

/-- A step of the idle fiber of `w`. -/
theorem Settled.moveIdle (h : s.Settled) (hsize : s'.pool.size = s.pool.size)
    (hidle : ∀ v, v ≠ w → s'.idlePc v = s.idlePc v)
    (htimers : s'.timers ≤ s.timers) (hregistered : s'.registered = s.registered)
    (hready : ∀ v, s'.pool.readyInHand v = true → s.pool.readyInHand v = true)
    (hexpired : s'.expiredInHand w = true → s.timers ≠ 0)
    (hpastTimers : s'.pastTimers w = true → s.timers = 0 ∧
      ∀ v < s.pool.size, s.expiredInHand v = false)
    (hpastEvents : s'.pastEvents w = true → s.registered = 0 ∧
      ∀ v < s.pool.size, s.pool.readyInHand v = false) : s'.Settled where
  timers := by
    intro u hu hpast
    rw [hsize] at hu
    -- the worker past the test is the one that has moved, or was there before
    have hfound : s.timers = 0 ∧ ∀ v < s.pool.size, s.expiredInHand v = false := by
      by_cases hw : u = w
      · exact hpastTimers (hw ▸ hpast)
      · exact h.timers u hu (by simpa [pastTimers, hidle u hw] using hpast)
    refine ⟨by omega, fun v hv => ?_⟩
    by_cases hw : v = w
    · by_contra hnot
      rw [Bool.not_eq_false, hw] at hnot
      exact hexpired hnot hfound.1
    · have hv' := hfound.2 v (hsize ▸ hv)
      simpa [expiredInHand, hidle v hw] using hv'
  events := by
    intro u hu hpast
    rw [hsize] at hu
    have hfound : s.registered = 0 ∧ ∀ v < s.pool.size, s.pool.readyInHand v = false := by
      by_cases hw : u = w
      · exact hpastEvents (hw ▸ hpast)
      · exact h.events u hu (by simpa [pastEvents, hidle u hw] using hpast)
    refine ⟨by omega, fun v hv => ?_⟩
    by_contra hnot
    rw [Bool.not_eq_false] at hnot
    have hbefore := hready v hnot
    rw [hfound.2 v (hsize ▸ hv)] at hbefore
    simp at hbefore

/-- A step inside `idle()` keeps what the others have found. -/
theorem idleStep_settled (hc : s.Counted) (h : s.Settled) {f removed : ℕ} {reported : Bool}
    {cbs : List ℕ} (hpc : (s.pool.worker w).pc = .running f .idle)
    (hexpired : s.idlePc w = .checkTimers → s.timers = 0 →
      ∀ v < s.pool.size, s.expiredInHand v = false)
    (hready : s.idlePc w = .checkEvents → s.waitting = 0 →
      ∀ v < s.pool.size, s.pool.readyInHand v = false)
    (hstep : s.idleStep w f reported cbs removed = some s') : s'.Settled := by
  have hw : w < s.pool.size := hc.balanced.lt_size (by simp [hpc])
  have hat : ∀ (t : IoPool) (pc : IdlePc), (t.setIdlePc w pc).idlePc w = pc :=
    fun t pc => Function.update_self ..
  have hothers : ∀ (t : IoPool) (pc : IdlePc) v, v ≠ w → (t.setIdlePc w pc).idlePc v = t.idlePc v :=
    fun t pc v hv => Function.update_of_ne hv ..
  -- a place where nothing has been read and nothing is held
  have hplain : ∀ {t : IoPool} {pc : IdlePc}, t.pool.size = s.pool.size → t.idlePc = s.idlePc →
      t.timers ≤ s.timers → t.registered = s.registered →
      (∀ v, t.pool.readyInHand v = true → s.pool.readyInHand v = true) →
      pc ≠ .checkEvents → pc ≠ .checkTasks → (∀ cbs r, pc = .expired cbs r → s.timers = 0 → cbs = []) →
      (t.setIdlePc w pc).Settled := by
    intro t pc hsize hidle htimers hregistered hready hevents htasks hcbs
    refine h.moveIdle (w := w) hsize (fun v hv => ?_) htimers hregistered hready ?_ ?_ ?_
    · rw [hothers t pc v hv, hidle]
    · simp only [expiredInHand, hat]
      split
      · next cbs r => exact fun hsome hzero => by simp [hcbs cbs r rfl hzero] at hsome
      · simp
    · simp [pastTimers, hat, hevents, htasks]
    · simp [pastEvents, hat, htasks]
  have hself : ∀ {pc : IdlePc}, pc ≠ .checkEvents → pc ≠ .checkTasks →
      (∀ cbs r, pc ≠ .expired cbs r) → (s.setIdlePc w pc).Settled :=
    fun hevents htasks hcbs => hplain rfl rfl le_rfl rfl (fun _ hv => hv) hevents htasks
      (fun cbs r hpc => absurd hpc (hcbs cbs r))
  unfold idleStep at hstep
  split at hstep
  case h_1 hpcw =>
    obtain rfl := Option.some.inj hstep
    split
    · next ht =>
      refine h.moveIdle (w := w) rfl (hothers s _) le_rfl rfl (fun _ hv => hv) ?_ ?_ ?_
      · simp [expiredInHand, hat]
      · exact fun _ => ⟨ht, hexpired hpcw ht⟩
      · simp [pastEvents, hat]
    · exact hself (by simp) (by simp) (by simp)
  case h_2 hpcw =>
    obtain rfl := Option.some.inj hstep
    split
    · next hwait =>
      have hevents := hc.events
      refine h.moveIdle (w := w) rfl (hothers s _) le_rfl rfl (fun _ hv => hv) ?_ ?_ ?_
      · simp [expiredInHand, hat]
      · exact fun _ => h.timers w hw (by simp [pastTimers, hpcw])
      · exact fun _ => ⟨by omega, hready hpcw hwait⟩
    · exact hself (by simp) (by simp) (by simp)
  case h_3 =>
    obtain rfl := Option.some.inj hstep
    split <;> exact hself (by simp) (by simp) (by simp)
  case h_4 =>
    split at hstep
    · obtain rfl := Option.some.inj hstep
      exact hself (by simp) (by simp) (by simp)
    · simp at hstep
  case h_5 =>
    split at hstep
    · next hcbs =>
      obtain rfl := Option.some.inj hstep
      refine hplain rfl rfl (Nat.sub_le ..) rfl (fun _ hv => hv) (by simp) (by simp) ?_
      rintro cbs' r' hpc' hzero
      cases hpc'
      exact hcbs.2.2 hzero
    · simp at hstep
  case h_6 _ cbs' reported' _ =>
    obtain rfl := Option.some.inj hstep
    obtain ⟨k, hk⟩ := scheduleAll_eq s (cbs'.map fun c => ⟨.cb c, none⟩)
    rw [hk]
    exact hplain rfl rfl le_rfl rfl (fun _ hv => hv) (by simp) (by simp) (by simp)
  case h_7 =>
    obtain rfl := Option.some.inj hstep
    exact hplain rfl rfl le_rfl rfl (fun _ hv => hv) (by simp) (by simp) (by simp)
  case h_8 =>
    obtain rfl := Option.some.inj hstep
    exact hplain rfl rfl le_rfl rfl
      (fun v => Pool.readyInHand_goto_save rfl (fun _ hg => hg)) (by simp) (by simp)
      (by simp)
  case h_9 =>
    obtain rfl := Option.some.inj hstep
    refine h.move rfl rfl (Or.inl le_rfl) (Or.inl le_rfl) (fun v _ hv => Or.inl ?_)
    exact Pool.readyInHand_goto_save (q := s.pool.setState f .term) rfl
      (fun g hg => Pool.ready_of_setState rfl (by simp) hg) hv

/-- `idle()` does not set the flags of `stop()`. -/
theorem idleStep_stopCalled {f removed : ℕ} {reported : Bool} {cbs : List ℕ}
    (h : s.idleStep w f reported cbs removed = some s') : s'.stopCalled = s.stopCalled := by
  unfold idleStep at h
  split at h
  case h_4 | h_5 =>
    split at h
    · obtain rfl := Option.some.inj h
      rfl
    · simp at h
  -- the callbacks of the timers are put into the queue, and nothing else
  case h_6 _ cbs' reported' _ =>
    obtain rfl := Option.some.inj h
    obtain ⟨k, hk⟩ := scheduleAll_eq s (cbs'.map fun c => ⟨.cb c, none⟩)
    rw [hk]
    rfl
  all_goals
    obtain rfl := Option.some.inj h
    rfl

/-- A fiber that yields to `READY` gets into the hands of a worker that tests it just then. -/
theorem readyInHand_leave {f v : ℕ} {r : Role} {st : State}
    (hpc : (s.pool.worker w).pc = .running f r)
    (h : ((s.pool.setState f st).goto w (.save f r)).readyInHand v = true) :
    s.pool.readyInHand v = true ∨ st = .ready ∧ s.testsReady w v = true := by
  by_cases hv : v = w
  · simp [hv, Pool.readyInHand, Pool.goto_pc] at h
  · have hworker : ((s.pool.setState f st).goto w (.save f r)).worker v = s.pool.worker v :=
      Function.update_of_ne hv ..
    unfold Pool.readyInHand at h ⊢
    rw [hworker] at h
    split at h
    · next g r' hg =>
      rw [beq_iff_eq] at h
      -- another worker has the fiber in hand only if it is between two of its tests
      by_cases hfg : g = f
      · right
        refine ⟨?_, by simp [testsReady, hpc, hg, hfg]⟩
        rw [hfg] at h
        exact (Function.update_self (β := fun _ => State) ..).symm.trans h
      · left
        rw [beq_iff_eq]
        exact (Function.update_of_ne (β := fun _ => State) hfg ..).symm.trans h
    · exact Or.inl rfl
    · simp at h

/-- An orderly step keeps what the workers inside `stopping()` have found. -/
theorem step_settled {a : IoAction} (hc : s.Counted) (h : s.stopCalled = true → s.Settled)
    (hC : s.Orderly a) (hstep : step s a = some s') (hcalled : s'.stopCalled = true) :
    s'.Settled := by
  -- most steps change no fiber's state
  have hsame : ∀ v < s.pool.size, s.pool.readyInHand v = true →
      s.pool.readyInHand v = true ∨ ∀ u < s.pool.size, s.pastEvents u = false :=
    fun _ _ hv => Or.inl hv
  cases a with
  | worker w =>
    obtain ⟨p, hw, hp, rfl⟩ := step_worker hstep
    obtain ⟨k, hk⟩ := notifyIf_eq { s with pool := p } (shouldNotify s.pool w (s.pool.worker w).pc)
    rw [hk] at hcalled ⊢
    refine (h hcalled).move (Pool.workerStep_frame hp).1 rfl (Or.inl le_rfl) (Or.inl le_rfl)
      (fun v hv hready => ?_)
    by_cases hvw : v = w
    · subst hvw
      obtain hbefore | hback := Pool.workerStep_readyInHand hp hready
      · exact Or.inl hbefore
      · exact Or.inr (hC hcalled hback)
    · exact Or.inl (Pool.readyInHand_mono ((Pool.workerStep_frame hp).2 v hvw)
        (fun _ => Pool.workerStep_ready hp) hready)
  | idle w reported cbs removed =>
    obtain ⟨f, hpc, hidle⟩ := step_idle hstep
    have hbefore : s.stopCalled = true := idleStep_stopCalled hidle ▸ hcalled
    obtain ⟨hexpired, hready⟩ := hC hbefore
    exact idleStep_settled hc (h hbefore) hpc hexpired hready hidle
  -- a fiber that leaves as `READY` must not be in the hand of another worker
  | leave w st =>
    obtain ⟨f, r, hr, hpc, -, rfl⟩ := step_leave hstep
    refine (h hcalled).move rfl rfl (Or.inl le_rfl) (Or.inl le_rfl) (fun v hv hready => ?_)
    obtain hbefore | ⟨hst, htests⟩ := readyInHand_leave hpc hready
    · exact Or.inl hbefore
    · exact Or.inr (hC hcalled hst ⟨v, hv, htests⟩)
  | create =>
    obtain rfl := Option.some.inj hstep
    refine (h hcalled).move rfl rfl (Or.inl le_rfl) (Or.inl le_rfl) (fun v hv hready => Or.inl ?_)
    exact Pool.readyInHand_mono (q := s.pool.newFiber) rfl
      (fun _ => Pool.ready_of_setState rfl (by simp)) hready
  | schedule ts =>
    simp only [step] at hstep
    split at hstep
    · obtain rfl := Option.some.inj hstep
      obtain ⟨k, hk⟩ := scheduleAll_eq s ts
      rw [hk] at hcalled ⊢
      exact (h hcalled).move rfl rfl (Or.inl le_rfl) (Or.inl le_rfl) hsame
    · simp at hstep
  | trigger t =>
    simp only [step] at hstep
    split at hstep
    · obtain rfl := Option.some.inj hstep
      obtain ⟨k, hk⟩ := scheduleAll_eq
        { s with registered := s.registered - 1, triggered := s.triggered + 1 } [t]
      rw [hk] at hcalled ⊢
      exact (h hcalled).move rfl rfl (Or.inl le_rfl) (Or.inl (Nat.sub_le ..)) hsame
    · simp at hstep
  -- `Orderly` keeps new timers and registrations in front of the tests
  | armTimer =>
    obtain rfl := Option.some.inj hstep
    exact (h hcalled).move rfl rfl (Or.inr (hC hcalled)) (Or.inl le_rfl) hsame
  | addEvent =>
    obtain rfl := Option.some.inj hstep
    exact (h hcalled).move rfl rfl (Or.inl le_rfl) (Or.inr (hC hcalled)) hsame
  -- `stop()` is called: nobody is past a test yet
  | setAutoStop | setStopping =>
    obtain rfl := Option.some.inj hstep
    have hsettled := hC (by simpa [stopCalled] using hcalled)
    exact ⟨hsettled.timers, hsettled.events⟩
  | cancelTimer | delEvent | countOff =>
    simp only [step] at hstep
    split at hstep
    · obtain rfl := Option.some.inj hstep
      exact (h hcalled).move rfl rfl (Or.inl (by simp)) (Or.inl (by simp)) hsame
    · simp at hstep
  | notify =>
    obtain rfl := Option.some.inj hstep
    obtain ⟨k, hk⟩ := notifyIf_eq s true
    have hs' : s.notify = { s with bytes := k } := hk
    rw [hs'] at hcalled ⊢
    exact (h hcalled).move rfl rfl (Or.inl le_rfl) (Or.inl le_rfl) hsame

/-- Where a worker is when `stopping()` returns `true`. -/
theorem stoppingReturnsTrue_cases (h : s.stoppingReturnsTrue w = true) :
    ∃ f, (s.pool.worker w).pc = .running f .idle ∧ s.idlePc w = .checkTasks ∧
      s.schedulerStopping = true := by
  unfold stoppingReturnsTrue at h
  split at h
  · next f hpc hat => exact ⟨f, hpc, hat, h⟩
  · simp at h

/-- **Shutdown only when all work is gone.** For any number of workers and in every interleaving
    of orderly steps, when `stopping()` returns `true` to a worker in `idle()`, no task is queued,
    no worker holds a popped task, a `READY` fiber it is going to schedule again or expired
    callbacks it has not scheduled, no timer is armed and no event is registered. -/
theorem stopping_all_work_gone (n : ℕ) (as : List IoAction) (s : IoPool)
    (hrun : runFrom step (new n) as = some s) (hC : Along step Orderly (new n) as) (w : ℕ)
    (hstop : s.stoppingReturnsTrue w = true) : s.AllWorkGone := by
  obtain ⟨hc, hsettled⟩ : s.Counted ∧ (s.stopCalled = true → s.Settled) := by
    refine run_invariant (I := fun s => s.Counted ∧ (s.stopCalled = true → s.Settled)) ?_
      ⟨counted_new n, by simp [stopCalled, new]⟩ hC hrun
    rintro t a t' ⟨hc, h⟩ hCa hstep
    exact ⟨step_counted hc hstep, step_settled hc h hCa hstep⟩
  -- the worker has tested the timers and the registrations, and now the scheduler's own part
  obtain ⟨f, hpc, hat, hstopping⟩ := stoppingReturnsTrue_cases hstop
  have hw : w < s.pool.size := hc.balanced.lt_size (by simp [hpc])
  simp only [schedulerStopping, Bool.and_eq_true, List.isEmpty_iff, beq_iff_eq] at hstopping
  obtain ⟨⟨⟨hstops, hauto⟩, htasks⟩, hactive⟩ := hstopping
  have h := hsettled (by simp [stopCalled, hstops, hauto])
  obtain ⟨htimers, hexpired⟩ := h.timers w hw (by simp [pastTimers, hat])
  obtain ⟨hregistered, hready⟩ := h.events w hw (by simp [pastEvents, hat])
  exact ⟨htasks, fun v hv => hc.balanced.none_holds hactive hv, hready, hexpired, htimers, hregistered⟩

/-- A fiber yields to `READY` and is scheduled again, and ends; `stop()` is called, and the second
    worker leaves. -/
theorem stopping_all_work_gone_two_workers :
    ∃ s, runFrom step (new 2) (.flatten [[.create, .schedule [⟨.fiber 0, none⟩]],
        .replicate 7 (.worker 0), [.leave 0 .ready], .replicate 10 (.worker 0), [.leave 0 .term],
        .replicate 5 (.worker 0), .replicate 6 (.worker 1),
        [.setAutoStop, .setStopping, .idle 1 false [] 0, .idle 1 false [] 0]]) = some s ∧
      s.stoppingReturnsTrue 1 = true ∧ s.AllWorkGone := by
  obtain ⟨s, hrun, hstop⟩ := (Option.any_eq_true (fun s => s.stoppingReturnsTrue 1)
    (runFrom step (new 2) (.flatten [[.create, .schedule [⟨.fiber 0, none⟩]],
        .replicate 7 (.worker 0), [.leave 0 .ready], .replicate 10 (.worker 0), [.leave 0 .term],
        .replicate 5 (.worker 0), .replicate 6 (.worker 1),
        [.setAutoStop, .setStopping, .idle 1 false [] 0, .idle 1 false [] 0]]))).mp (by decide +kernel)
  exact ⟨s, hrun, hstop, stopping_all_work_gone 2 _ s hrun (by decide +kernel) 1 hstop⟩

/-- Worker 1 is between the second and the third read of `stopping()` when worker 0 counts a fiber
    off that has yielded to `READY`: `stopping()` returns `true`, and the fiber is not in the queue
    yet. -/
theorem stopping_with_ready_fiber :
    ¬ ∀ (n : ℕ) (as : List IoAction) (s : IoPool), runFrom step (new n) as = some s →
      ∀ w, s.stoppingReturnsTrue w = true → s.AllWorkGone := by
  intro h
  obtain ⟨s, hrun, hs⟩ := (Option.any_eq_true
    (fun s => s.stoppingReturnsTrue 1 && s.pool.size == 2 && s.pool.readyInHand 0)
    (runFrom step (new 2) (.flatten [[.create, .schedule [⟨.fiber 0, none⟩]],
      .replicate 7 (.worker 0), [.setAutoStop, .setStopping], .replicate 6 (.worker 1),
      [.idle 1 false [] 0, .idle 1 false [] 0, .leave 0 .ready, .worker 0, .worker 0]]))).mp
    (by decide +kernel)
  simp only [Bool.and_eq_true, beq_iff_eq] at hs
  have hgone := (h 2 _ s hrun 1 hs.1.1).ready 0 (by omega)
  simp [hs.2] at hgone

end IoPool

end LoNetfw.Scheduler
