import LoNetfw.Scheduler.IoWorkers
import LoNetfw.Basis.Sums
import Mathlib.Algebra.BigOperators.Ring.Finset
import Mathlib.Algebra.Order.BigOperators.Group.Finset
import Mathlib.Algebra.Ring.Int.Defs

namespace LoNetfw.Scheduler

open Basis
open LoNetfw.Fiber (State)

/-!
# `IOScheduler` — what the counters count

* `Pool.Balanced` — every worker that holds a popped task is in `m_active_threads_count`, and
  every worker that runs its idle fiber in `m_idle_threads_count` (a worker that an exception
  ended may be in them, too);
* `IoPool.Counted` — this, and that every event registered, or triggered and not counted off, is
  in `m_waitting_events_count`; a worker inside `idle()` runs its idle fiber;
* `IoPool.step_counted` — every step keeps it.
-/

/-- The worker is between the increment of `m_idle_threads_count` and its decrement. -/
def Pc.inIdle : Pc → Bool
  | .testExec _ r | .writeExec _ r | .load _ r | .running _ r | .save _ r | .back _ r => r == .idle
  | _ => false

/-- How much a worker adds to a counter. -/
def counted (b : Bool) : ℤ := if b then 1 else 0

/-- A worker that counts for more adds no less. -/
theorem counted_mono {b c : Bool} (h : b = true → c = true) : counted b ≤ counted c := by
  cases b <;> cases c <;> simp_all [counted]

namespace Pool

variable {p p' : Pool} {w : ℕ}

structure Balanced (p : Pool) : Prop where
  active : ∑ w ∈ Finset.range p.size, counted (p.worker w).pc.holdsTask ≤ p.active
  idle : ∑ w ∈ Finset.range p.size, counted (p.worker w).pc.inIdle ≤ p.idle
  outside : ∀ w, p.size ≤ w → (p.worker w).pc = .start

/-- Both counters begin at zero. -/
theorem balanced_new (n : ℕ) : (new n).Balanced where
  active := by simp [new, counted, Pc.holdsTask]
  idle := by simp [new, counted, Pc.inIdle]
  outside := fun _ _ => rfl

/-- Only workers of the pool have begun. -/
theorem Balanced.lt_size (h : p.Balanced) (hpc : (p.worker w).pc ≠ .start) : w < p.size := by
  by_contra hw
  exact hpc (h.outside w (not_lt.mp hw))

/-- A step of the worker `w`, from what it does to the counters and to `w` itself. -/
theorem Balanced.move (h : p.Balanced) (hw : w < p.size) (hsize : p'.size = p.size)
    (hothers : ∀ v, v ≠ w → p'.worker v = p.worker v)
    (hactive : counted (p'.worker w).pc.holdsTask + p.active ≤
      counted (p.worker w).pc.holdsTask + p'.active)
    (hidle : counted (p'.worker w).pc.inIdle + p.idle ≤ counted (p.worker w).pc.inIdle + p'.idle) :
    p'.Balanced where
  active := by
    -- the sums change by the share of `w` alone
    have hsum := sum_range_congr_except (f := fun v => counted (p.worker v).pc.holdsTask)
      (g := fun v => counted (p'.worker v).pc.holdsTask) hw (fun v hv => by rw [hothers v hv])
    have hold := h.active
    rw [hsize]
    omega
  idle := by
    have hsum := sum_range_congr_except (f := fun v => counted (p.worker v).pc.inIdle)
      (g := fun v => counted (p'.worker v).pc.inIdle) hw (fun v hv => by rw [hothers v hv])
    have hold := h.idle
    rw [hsize]
    omega
  outside := by
    intro v hv
    rw [hsize] at hv
    rw [hothers v (by omega)]
    exact h.outside v hv

/-- A worker that a counter counts makes it positive. -/
theorem counted_le_sum {g : ℕ → Bool} {n : ℕ} (hw : w < n) (hg : g w = true) :
    1 ≤ ∑ v ∈ Finset.range n, counted (g v) := by
  have hle := Finset.single_le_sum (f := fun v => counted (g v)) (s := Finset.range n)
    (fun v _ => by unfold counted; split <;> simp) (Finset.mem_range.mpr hw)
  simpa [counted, hg] using hle

/-- A worker in its idle fiber is counted. -/
theorem Balanced.idle_pos (h : p.Balanced) {f : ℕ} (hpc : (p.worker w).pc = .running f .idle) :
    0 < p.idle := by
  have hw := h.lt_size (w := w) (by simp [hpc])
  have hsum := counted_le_sum (g := fun v => (p.worker v).pc.inIdle) hw (by simp [hpc, Pc.inIdle])
  have hidle := h.idle
  omega

/-- When the counter is zero no worker holds a task. -/
theorem Balanced.none_holds (h : p.Balanced) (hactive : p.active = 0) (hw : w < p.size) :
    (p.worker w).pc.holdsTask = false := by
  by_contra hholds
  rw [Bool.not_eq_false] at hholds
  have hsum := counted_le_sum (g := fun v => (p.worker v).pc.holdsTask) hw hholds
  have hle := h.active
  omega

/-- A pop is counted when it takes a task. -/
theorem pop_counted (p : Pool) (w : ℕ) :
    counted ((p.pop w).worker w).pc.holdsTask + p.active = (p.pop w).active ∧
      counted ((p.pop w).worker w).pc.inIdle = 0 ∧ (p.pop w).idle = p.idle := by
  unfold pop
  split
  · simp [goto, setWorker, counted, Pc.holdsTask, Pc.inIdle]
  · dsimp only
    split
    · refine ⟨?_, ?_, rfl⟩ <;> simp [goto, setWorker, counted, Pc.holdsTask, Pc.inIdle, add_comm]
    · split
      · refine ⟨?_, ?_, rfl⟩ <;> simp [goto, setWorker, counted, Pc.holdsTask, Pc.inIdle, add_comm]
      · refine ⟨?_, ?_, rfl⟩ <;>
          simp [newFiber, setState, setSaved, setWorker, counted, Pc.holdsTask, Pc.inIdle, add_comm]

/-- A step that changes no counter may only leave what is counted. -/
theorem goto_counted {q : Pool} {pc pc' : Pc} (hactive : q.active = p.active) (hidle : q.idle = p.idle)
    (htask : pc'.holdsTask = true → pc.holdsTask = true)
    (hinIdle : pc'.inIdle = true → pc.inIdle = true) :
    counted ((q.goto w pc').worker w).pc.holdsTask + p.active ≤
        counted pc.holdsTask + (q.goto w pc').active ∧
      counted ((q.goto w pc').worker w).pc.inIdle + p.idle ≤
        counted pc.inIdle + (q.goto w pc').idle := by
  have hactive' : (q.goto w pc').active = p.active := hactive
  have hidle' : (q.goto w pc').idle = p.idle := hidle
  rw [goto_pc, hactive', hidle']
  exact ⟨by have := counted_mono htask; omega, by have := counted_mono hinIdle; omega⟩

/-- What a step does to the counters, and to the worker that takes it. -/
theorem workerStep_counted {pc : Pc} (h : p.workerStep w pc = some p') :
    counted (p'.worker w).pc.holdsTask + p.active ≤ counted pc.holdsTask + p'.active ∧
      counted (p'.worker w).pc.inIdle + p.idle ≤ counted pc.inIdle + p'.idle := by
  cases pc <;> simp only [workerStep, Option.some.injEq, reduceCtorEq] at h
  case start =>
    subst h
    simp [newFiber, setState, setSaved, setWorker, counted, Pc.holdsTask, Pc.inIdle]
  case loop =>
    subst h
    obtain ⟨hactive, hinIdle, hidle⟩ := pop_counted p w
    rw [hinIdle, hidle, ← hactive]
    simp [counted, Pc.holdsTask, Pc.inIdle]
  -- here `m_activeThreadCnt` goes down with the task
  case skip =>
    subst h
    simp [goto, setWorker, counted, Pc.holdsTask, Pc.inIdle]
  -- and here `m_idleThreadCnt` goes up
  case testIdle =>
    obtain ⟨i, -, rfl⟩ := Option.map_eq_some_iff.mp h
    split
    · exact goto_counted rfl rfl (by simp [Pc.holdsTask]) (by simp [Pc.inIdle])
    · simp [goto, setWorker, counted, Pc.holdsTask, Pc.inIdle, add_comm]
  case back f r =>
    subst h
    cases r <;> simp [goto, setWorker, counted, Pc.holdsTask, Pc.inIdle]
  case requeue f r =>
    subst h
    cases r <;> exact goto_counted rfl rfl (by simp [Pc.holdsTask]) (by simp [Pc.inIdle])
  case writeHold f r =>
    subst h
    cases r <;> exact goto_counted rfl rfl (by simp [Pc.holdsTask]) (by simp [Pc.inIdle])
  case resetTerm f reuse | resetInit f reuse | resetError f reuse | reset f reuse =>
    subst h
    apply goto_counted rfl rfl
    all_goals cases reuse <;> split <;> simp_all [Pc.holdsTask, Pc.inIdle]
  case testEnded f r | testFailed f r =>
    subst h
    apply goto_counted rfl rfl
    all_goals cases r <;> split <;> simp_all [Pc.holdsTask, Pc.inIdle]
  all_goals
    subst h
    apply goto_counted rfl rfl
    all_goals (try split) <;> simp [Pc.holdsTask, Pc.inIdle]

/-- Each step of a worker keeps the counters balanced. -/
theorem balanced_workerStep (h : p.Balanced) (hw : w < p.size)
    (hstep : p.workerStep w (p.worker w).pc = some p') : p'.Balanced := by
  obtain ⟨hsize, hothers⟩ := workerStep_frame hstep
  obtain ⟨hactive, hidle⟩ := workerStep_counted hstep
  exact h.move hw hsize hothers hactive hidle

/-- The fiber that a worker runs begins to switch out. -/
theorem balanced_goto_save (h : p.Balanced) {f : ℕ} {r : Role}
    (hpc : (p.worker w).pc = .running f r) (hsize : p'.size = p.size)
    (hothers : ∀ v, v ≠ w → p'.worker v = p.worker v) (hpc' : (p'.worker w).pc = .save f r)
    (hactive : p'.active = p.active) (hidle : p'.idle = p.idle) : p'.Balanced := by
  apply h.move (h.lt_size (by simp [hpc])) hsize hothers
  · simp [hpc, hpc', hactive, Pc.holdsTask]
  · simp [hpc, hpc', hidle, Pc.inIdle]

end Pool

namespace IoPool

variable {s s' : IoPool} {w : ℕ}

/-! ### What the parts of a step leave alone -/

/-- A notification writes into the pipe, and nothing else. -/
theorem notifyIf_eq (s : IoPool) (b : Bool) : ∃ k, s.notifyIf b = { s with bytes := k } := by
  unfold notifyIf notify
  split
  · split
    · exact ⟨_, rfl⟩
    · exact ⟨s.bytes, rfl⟩
  · exact ⟨s.bytes, rfl⟩

/-- A batch goes to the end of the queue, and may notify. -/
theorem scheduleAll_eq (s : IoPool) (ts : List PoolTask) :
    ∃ k, s.scheduleAll ts =
      { s with pool := { s.pool with tasks := s.pool.tasks ++ ts }, bytes := k } := by
  obtain ⟨k, hk⟩ := notifyIf_eq { s with pool := { s.pool with tasks := s.pool.tasks ++ ts } }
    (s.pool.tasks.isEmpty && !ts.isEmpty)
  exact ⟨k, hk⟩

/-- What a step of a worker in `run` does. -/
theorem step_worker (h : step s (.worker w) = some s') :
    ∃ p, w < s.pool.size ∧ s.pool.workerStep w (s.pool.worker w).pc = some p ∧
      s' = { s with pool := p }.notifyIf (shouldNotify s.pool w (s.pool.worker w).pc) := by
  obtain ⟨p, hp, rfl⟩ := Option.map_eq_some_iff.mp h
  simp only [Pool.step] at hp
  split at hp
  case isTrue hw => exact ⟨p, hw, hp, rfl⟩
  case isFalse => simp at hp

/-- What a fiber that leaves does. -/
theorem step_leave {st : State} (h : step s (.leave w st) = some s') :
    ∃ f r, r ≠ .idle ∧ (s.pool.worker w).pc = .running f r ∧ st ≠ .exec ∧
      s' = { s with pool := (s.pool.setState f st).goto w (.save f r) } := by
  simp only [step] at h
  split at h
  · simp at h
  · next hne =>
    obtain ⟨p, hp, rfl⟩ := Option.map_eq_some_iff.mp h
    simp only [Pool.step] at hp
    split at hp
    · next f r hpc =>
      split at hp
      · next hst =>
        obtain rfl := Option.some.inj hp
        -- the idle fiber leaves by a step of its own
        refine ⟨f, r, fun hr => hne f (hr ▸ hpc), hpc, ?_, rfl⟩
        rintro rfl
        simp [Pool.leaves] at hst
      · simp at hp
    · simp at hp

/-- A step of `idle()` is taken by a worker that runs its idle fiber. -/
theorem step_idle {reported : Bool} {cbs : List ℕ} {removed : ℕ}
    (h : step s (.idle w reported cbs removed) = some s') :
    ∃ f, (s.pool.worker w).pc = .running f .idle ∧ s.idleStep w f reported cbs removed = some s' := by
  simp only [step] at h
  split at h
  · next f hpc => exact ⟨f, hpc, h⟩
  · simp at h

/-- A worker inside `idle()` runs its idle fiber. -/
def InsideIdle (s : IoPool) (w : ℕ) : Prop :=
  s.idlePc w = .checkTimers ∨ s.idlePc w = .stopped ∨ ∃ f, (s.pool.worker w).pc = .running f .idle

structure Counted (s : IoPool) : Prop where
  balanced : s.pool.Balanced
  events : s.waitting = s.registered + s.triggered
  inside : ∀ w, s.InsideIdle w

/-- No worker is inside `idle()` at first. -/
theorem counted_new (n : ℕ) : (new n).Counted where
  balanced := Pool.balanced_new n
  events := by simp [new]
  inside := fun _ => Or.inl rfl

/-- A worker that does not run its idle fiber is not inside `idle()`. -/
theorem Counted.outside (h : s.Counted) (hpc : ∀ f, (s.pool.worker w).pc ≠ .running f .idle) :
    s.idlePc w = .checkTimers ∨ s.idlePc w = .stopped := by
  obtain ht | hs | ⟨f, hf⟩ := h.inside w
  · exact Or.inl ht
  · exact Or.inr hs
  · exact absurd hf (hpc f)

/-- A step of the worker `w`, from what it does to the pool and to `w` itself. -/
theorem Counted.move (h : s.Counted) (hb : s'.pool.Balanced)
    (hevents : s'.waitting = s'.registered + s'.triggered)
    (hothers : ∀ v, v ≠ w → s'.pool.worker v = s.pool.worker v ∧ s'.idlePc v = s.idlePc v)
    (hw : s'.InsideIdle w) : s'.Counted where
  balanced := hb
  events := hevents
  inside := by
    intro v
    by_cases hv : v = w
    · exact hv ▸ hw
    · unfold InsideIdle
      rw [(hothers v hv).1, (hothers v hv).2]
      exact h.inside v

/-- Scheduling moves no worker. -/
theorem Counted.scheduleAll (h : s.Counted) (ts : List PoolTask) : (s.scheduleAll ts).Counted := by
  obtain ⟨k, hk⟩ := scheduleAll_eq s ts
  rw [hk]
  exact ⟨⟨h.balanced.active, h.balanced.idle, h.balanced.outside⟩, h.events, h.inside⟩

/-- The idle fiber of `w` moves on in `idle()`. -/
theorem Counted.setIdlePc (h : s.Counted) {f : ℕ} (hpc : (s.pool.worker w).pc = .running f .idle)
    (pc : IdlePc) : (s.setIdlePc w pc).Counted :=
  h.move (w := w) h.balanced h.events (fun _ hv => ⟨rfl, Function.update_of_ne hv ..⟩)
    (Or.inr (Or.inr ⟨f, hpc⟩))

/-- A step inside `idle()`. -/
theorem idleStep_counted (h : s.Counted) {f removed : ℕ} {reported : Bool} {cbs : List ℕ}
    (hpc : (s.pool.worker w).pc = .running f .idle)
    (hstep : s.idleStep w f reported cbs removed = some s') : s'.Counted := by
  have hothers : ∀ (q : Pool) v, q.worker = s.pool.worker → v ≠ w →
      (q.goto w (.save f .idle)).worker v = s.pool.worker v :=
    fun q v hworker hv => (Function.update_of_ne hv ..).trans (congrFun hworker v)
  -- leaving the idle fiber
  have hsave : ∀ q : Pool, q.size = s.pool.size → q.worker = s.pool.worker →
      q.active = s.pool.active → q.idle = s.pool.idle → (q.goto w (.save f .idle)).Balanced :=
    fun q hsize hworker hactive hidle => Pool.balanced_goto_save h.balanced hpc hsize
      (fun v hv => hothers q v hworker hv) (Pool.goto_pc ..) hactive hidle
  unfold idleStep at hstep
  split at hstep
  case h_1 | h_2 | h_3 =>
    obtain rfl := Option.some.inj hstep
    exact h.setIdlePc hpc _
  case h_4 =>
    split at hstep
    · obtain rfl := Option.some.inj hstep
      exact h.setIdlePc hpc _
    · simp at hstep
  case h_5 =>
    split at hstep
    · obtain rfl := Option.some.inj hstep
      have ht : { s with timers := s.timers - removed }.Counted := ⟨h.balanced, h.events, h.inside⟩
      exact ht.setIdlePc hpc _
    · simp at hstep
  case h_6 _ cbs' reported' hat =>
    obtain rfl := Option.some.inj hstep
    apply (h.scheduleAll _).setIdlePc (f := f)
    obtain ⟨k, hk⟩ := scheduleAll_eq s (cbs'.map fun c => ⟨.cb c, none⟩)
    rw [hk]
    exact hpc
  case h_7 _ reported' _ =>
    obtain rfl := Option.some.inj hstep
    have ht : { s with bytes := if reported' then 0 else s.bytes }.Counted :=
      ⟨h.balanced, h.events, h.inside⟩
    exact ht.setIdlePc hpc _
  case h_8 =>
    obtain rfl := Option.some.inj hstep
    exact h.move (w := w) (hsave s.pool rfl rfl rfl rfl) h.events
      (fun v hv => ⟨hothers s.pool v rfl hv, Function.update_of_ne hv ..⟩)
      (Or.inl (Function.update_self ..))
  case h_9 _ hat =>
    obtain rfl := Option.some.inj hstep
    exact h.move (w := w) (hsave (s.pool.setState f .term) rfl rfl rfl rfl) h.events
      (fun v hv => ⟨hothers _ v rfl hv, rfl⟩) (Or.inr (Or.inl hat))

/-- The counters count in every step. -/
theorem step_counted {a : IoAction} (h : s.Counted) (hstep : step s a = some s') : s'.Counted := by
  -- most steps of others leave the workers where they are
  have hquiet : ∀ {t : IoPool}, t.pool = s.pool → t.idlePc = s.idlePc →
      t.waitting = t.registered + t.triggered → t.Counted :=
    fun hpool hidle hevents => ⟨hpool ▸ h.balanced, hevents, fun w => by
      unfold InsideIdle
      rw [hpool, hidle]
      exact h.inside w⟩
  have hevents := h.events
  cases a with
  | worker w =>
    obtain ⟨p, hw, hp, rfl⟩ := step_worker hstep
    obtain ⟨k, hk⟩ := notifyIf_eq { s with pool := p } (shouldNotify s.pool w (s.pool.worker w).pc)
    rw [hk]
    have hpc : ∀ f, (s.pool.worker w).pc ≠ .running f .idle := by
      intro f hf
      simp [hf, Pool.workerStep] at hp
    refine h.move (w := w) (Pool.balanced_workerStep h.balanced hw hp) h.events
      (fun v hv => ⟨(Pool.workerStep_frame hp).2 v hv, rfl⟩) ?_
    obtain ht | hs := h.outside hpc
    · exact Or.inl ht
    · exact Or.inr (Or.inl hs)
  | idle w reported cbs removed =>
    obtain ⟨f, hpc, hidle⟩ := step_idle hstep
    exact idleStep_counted h hpc hidle
  | leave w st =>
    obtain ⟨f, r, hr, hpc, -, rfl⟩ := step_leave hstep
    have hothers : ∀ v, v ≠ w →
        ((s.pool.setState f st).goto w (.save f r)).worker v = s.pool.worker v :=
      fun v hv => Function.update_of_ne hv ..
    refine h.move (w := w)
      (Pool.balanced_goto_save h.balanced hpc rfl hothers (Pool.goto_pc ..) rfl rfl) h.events
      (fun v hv => ⟨hothers v hv, rfl⟩) ?_
    obtain ht | hs := h.outside (w := w) (by rw [hpc]; simp [hr])
    · exact Or.inl ht
    · exact Or.inr (Or.inl hs)
  | create =>
    obtain rfl := Option.some.inj hstep
    exact ⟨⟨h.balanced.active, h.balanced.idle, h.balanced.outside⟩, h.events, h.inside⟩
  | schedule ts =>
    simp only [step] at hstep
    split at hstep
    · obtain rfl := Option.some.inj hstep
      exact h.scheduleAll ts
    · simp at hstep
  | trigger t =>
    simp only [step] at hstep
    split at hstep
    · next hreg =>
      obtain rfl := Option.some.inj hstep
      have ht : { s with registered := s.registered - 1, triggered := s.triggered + 1 }.Counted :=
        hquiet rfl rfl (by simp only; omega)
      exact ht.scheduleAll [t]
    · simp at hstep
  | armTimer | setAutoStop | setStopping =>
    obtain rfl := Option.some.inj hstep
    exact hquiet rfl rfl h.events
  | addEvent =>
    obtain rfl := Option.some.inj hstep
    exact hquiet rfl rfl (by simp only; omega)
  | cancelTimer | delEvent | countOff =>
    simp only [step] at hstep
    split at hstep
    · obtain rfl := Option.some.inj hstep
      exact hquiet rfl rfl (by simp only; omega)
    · simp at hstep
  | notify =>
    obtain rfl := Option.some.inj hstep
    obtain ⟨k, hk⟩ := notifyIf_eq s true
    have ht : (s.notifyIf true).Counted := hk ▸ hquiet rfl rfl h.events
    exact ht

end IoPool

end LoNetfw.Scheduler
