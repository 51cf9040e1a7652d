import LoNetfw.Scheduler.CallbackRun

namespace LoNetfw.Scheduler

open Basis
open LoNetfw.Fiber (State)

/-!
# `Scheduler` — the `cb_fiber` of a worker is its own

A `cb_fiber` belongs to one worker from the pop that made it until the worker drops it.  It may be
in the queue, when its callback has scheduled it; but as long as nobody pops it, it is in no other
hand, and its state and its context are what the worker left them to be.

* `CbPhase` — what holds of a worker's `cb_fiber` at each point of `run`;
* `CallbackRun.Owned` — every worker's `cb_fiber` is its own;
* `CallbackRun.Acts`, `Owned.step_test`, `Owned.step_write`, `Owned.step_turn`,
  `Owned.step_drop` — the kinds of steps of a worker;
* `step_owned` — every step that meets the conditions keeps it.
-/

/-- The state `st` of the `cb_fiber` `g` of a worker, the callback `en` its context begins with
    and the worker's `task.cb`, by what the worker does. -/
def CbPhase (st : State) (en tcb : Option ℕ) (g : ℕ) : Pc → Prop
  | .resetTerm f reuse => f = g ∧ (st = .init ∨ st = .term) ∧ en = none ∧ (reuse = false → tcb = none)
  | .resetInit f reuse => f = g ∧ st = .init ∧ en = none ∧ (reuse = false → tcb = none)
  | .resetError _ _ => False
  | .reset f reuse => f = g ∧ en = none ∧ (reuse = false → tcb = none)
  | .testExec f .cb | .writeExec f .cb => f = g ∧ st = .init ∧ tcb = none
  | .load f .cb | .running f .cb => f = g ∧ tcb = none
  | .save f .cb => f = g ∧ st ≠ .error ∧ tcb = none
  | .back f .cb | .testReady f .cb | .requeue f .cb | .testEnded f .cb | .testFailed f .cb
  | .writeHold f .cb => f = g ∧ st ≠ .error ∧ en = none ∧ tcb = none
  | pc => pc.fiber ≠ some g ∧ st = .init ∧ en = none ∧ tcb = none

/-- What holds of the `cb_fiber` of a worker, if it has one. -/
def CbOk (state : ℕ → State) (entry : ℕ → Option ℕ) (tcb : Option ℕ) (wk : Worker) : Prop :=
  match wk.cbFiber with
  | none => wk.pc.onCb = false ∧ tcb = none
  | some g => CbPhase (state g) (entry g) tcb g wk.pc

/-- Only the `cb_fiber` counts. -/
theorem CbOk.congr {state state' : ℕ → State} {entry entry' : ℕ → Option ℕ} {tcb : Option ℕ}
    {wk : Worker} (h : CbOk state entry tcb wk)
    (hsame : ∀ g, wk.cbFiber = some g → state' g = state g ∧ entry' g = entry g) :
    CbOk state' entry' tcb wk := by
  unfold CbOk at h ⊢
  cases hcb : wk.cbFiber with
  | none =>
    rw [hcb] at h
    exact h
  | some g =>
    rw [hcb] at h
    obtain ⟨hst, hen⟩ := hsame g hcb
    dsimp only
    rw [hst, hen]
    exact h

namespace CbPhase

variable {st : State} {en tcb : Option ℕ} {g f : ℕ} {reuse : Bool}

/-! ### The tests of a worker on its `cb_fiber` -/

/-- The tests of `reset` find the state that the fiber is in. -/
theorem resetTerm (h : CbPhase st en tcb g (.resetTerm f reuse)) :
    CbPhase st en tcb g (if st = .term then .reset f reuse else .resetInit f reuse) := by
  unfold CbPhase at h ⊢
  grind

/-- The test for `INIT` comes after that for `TERM`. -/
theorem resetInit (h : CbPhase st en tcb g (.resetInit f reuse)) :
    CbPhase st en tcb g (if st = .init then .reset f reuse else .resetError f reuse) := by
  unfold CbPhase at h ⊢
  grind

/-- The loop of `run` does not find its own `cb_fiber` in `EXEC`. -/
theorem testExec (h : CbPhase st en tcb g (.testExec f .cb)) :
    CbPhase st en tcb g (if st = .exec then .threw else .writeExec f .cb) := by
  unfold CbPhase at h ⊢
  grind

/-- After the fiber has left, `run` schedules it again if it is `READY`. -/
theorem testReady (h : CbPhase st en tcb g (.testReady f .cb)) :
    CbPhase st en tcb g (if st = .ready then .requeue f .cb else .testEnded f .cb) := by
  unfold CbPhase at h ⊢
  grind

/-- After the fiber has left, `run` drops what it held if the fiber has ended. -/
theorem testEnded (h : CbPhase st en tcb g (.testEnded f .cb)) :
    CbPhase st en tcb g (if st = .term then (if Role.cb = .cb then .resetTerm f false else .loop)
      else .testFailed f .cb) := by
  unfold CbPhase at h ⊢
  grind

/-- After the fiber has left, `run` drops what it held if the fiber has failed, and else goes on
    to write `HOLD`. -/
theorem testFailed (h : CbPhase st en tcb g (.testFailed f .cb)) :
    CbPhase st en tcb g (if st = .error then (if Role.cb = .cb then .resetTerm f false else .loop)
      else .writeHold f .cb) := by
  unfold CbPhase at h ⊢
  grind

end CbPhase

namespace CallbackRun

variable {s s' : CallbackRun} {w f : ℕ}

structure Owned (s : CallbackRun) : Prop where
  bound : ∀ w f, (s.pool.worker w).Holds f → w < s.pool.size ∧ f < s.pool.created
  queued : ∀ t ∈ s.pool.tasks, ∀ f, t.work = .fiber f → f < s.pool.created
  /-- A `cb_fiber` is in no other hand. -/
  hands : ∀ w g, (s.pool.worker w).cbFiber = some g → ∀ w', w' ≠ w → ¬ (s.pool.worker w').Holds g
  idle : ∀ w g, (s.pool.worker w).cbFiber = some g → (s.pool.worker w).idleFiber ≠ some g
  ok : ∀ w, CbOk s.pool.state s.entry (s.taskCb w) (s.pool.worker w)
  entry : ∀ g, s.entry g ≠ none → ∃ w, (s.pool.worker w).cbFiber = some g

/-- No worker has a `cb_fiber` at first. -/
theorem owned_new (n : ℕ) : (new n).Owned where
  bound := by simp [new, Pool.new, Worker.Holds, Pc.fiber]
  queued := by simp [new, Pool.new]
  hands := by simp [new, Pool.new]
  idle := by simp [new, Pool.new]
  ok := by simp [new, Pool.new, CbOk, Pc.onCb]
  entry := by simp [new]

/-- A worker `w` becomes `wk`; what it changes are fibers it has in hand and new ones. -/
theorem Owned.move (h : s.Owned) {wk : Worker} (hw : w < s.pool.size)
    (hworker : s'.pool.worker = Function.update s.pool.worker w wk)
    (hsize : s'.pool.size = s.pool.size) (hcreated : s.pool.created ≤ s'.pool.created)
    (hframe : ∀ g, ¬ (s.pool.worker w).Holds g → g < s.pool.created →
      s'.pool.state g = s.pool.state g ∧ s'.entry g = s.entry g)
    (htcb : ∀ w', w' ≠ w → s'.taskCb w' = s.taskCb w')
    (hqueued : ∀ t ∈ s'.pool.tasks, ∀ f, t.work = .fiber f → f < s'.pool.created)
    (hhands : ∀ g, wk.Holds g → g < s'.pool.created ∧
      ∀ w', w' ≠ w → (s.pool.worker w').cbFiber ≠ some g)
    (hmine : ∀ g, wk.cbFiber = some g →
      (∀ w', w' ≠ w → ¬ (s.pool.worker w').Holds g) ∧ wk.idleFiber ≠ some g)
    (hok : CbOk s'.pool.state s'.entry (s'.taskCb w) wk)
    (hentry : ∀ g, s'.entry g ≠ none → wk.cbFiber = some g ∨ s.entry g ≠ none ∧
      (s.pool.worker w).cbFiber ≠ some g) : s'.Owned := by
  have hself : s'.pool.worker w = wk := by rw [hworker, Function.update_self]
  have hother : ∀ w', w' ≠ w → s'.pool.worker w' = s.pool.worker w' := fun w' hw' => by
    rw [hworker, Function.update_of_ne hw']
  -- every clause is asked of a worker that is `w` or another
  refine ⟨fun v g hv => ?_, hqueued, fun v g hv v' hv' hold => ?_, fun v g hv => ?_, fun v => ?_,
    fun g hg => ?_⟩
  · by_cases hvw : v = w
    · subst hvw
      rw [hself] at hv
      exact ⟨hsize ▸ hw, (hhands g hv).1⟩
    · rw [hother v hvw] at hv
      obtain ⟨hv, hg⟩ := h.bound v g hv
      exact ⟨hsize ▸ hv, Nat.lt_of_lt_of_le hg hcreated⟩
  · by_cases hvw : v = w
    · subst hvw
      rw [hself] at hv
      rw [hother v' hv'] at hold
      exact (hmine g hv).1 v' hv' hold
    · rw [hother v hvw] at hv
      by_cases hvw' : v' = w
      · subst hvw'
        rw [hself] at hold
        exact (hhands g hold).2 v hvw hv
      · rw [hother v' hvw'] at hold
        exact h.hands v g hv v' hv' hold
  · by_cases hvw : v = w
    · subst hvw
      rw [hself] at hv ⊢
      exact (hmine g hv).2
    · rw [hother v hvw] at hv ⊢
      exact h.idle v g hv
  · by_cases hvw : v = w
    · subst hvw
      rw [hself]
      exact hok
    · rw [hother v hvw, htcb v hvw]
      apply (h.ok v).congr
      intro g hcb
      have hnot := h.hands v g hcb w (Ne.symm hvw)
      exact hframe g hnot (h.bound v g (Or.inr (Or.inl hcb))).2
  · rcases hentry g hg with hwk | ⟨hold, hnot⟩
    · exact ⟨w, by rw [hself]; exact hwk⟩
    · obtain ⟨v, hv⟩ := h.entry g hold
      -- the owner of the callback is not `w`, which has given its `cb_fiber` up
      have hvw : v ≠ w := by
        rintro rfl
        exact hnot hv
      exact ⟨v, by rw [hother v hvw]; exact hv⟩

/-- Somebody who is not a worker adds tasks or creates a fiber. -/
theorem Owned.frame (h : s.Owned) (hworker : s'.pool.worker = s.pool.worker)
    (hsize : s'.pool.size = s.pool.size) (hcreated : s.pool.created ≤ s'.pool.created)
    (hstate : ∀ g < s.pool.created, s'.pool.state g = s.pool.state g)
    (hentry : s'.entry = s.entry) (htcb : s'.taskCb = s.taskCb)
    (hqueued : ∀ t ∈ s'.pool.tasks, t ∈ s.pool.tasks ∨
      ∀ f, t.work = .fiber f → f < s'.pool.created) : s'.Owned where
  bound := by
    rw [hworker, hsize]
    intro v g hv
    exact ⟨(h.bound v g hv).1, Nat.lt_of_lt_of_le (h.bound v g hv).2 hcreated⟩
  queued := by
    intro t ht g hg
    rcases hqueued t ht with hold | hnew
    · exact Nat.lt_of_lt_of_le (h.queued t hold g hg) hcreated
    · exact hnew g hg
  hands := by
    rw [hworker]
    exact h.hands
  idle := by
    rw [hworker]
    exact h.idle
  -- the fibers of the workers were there before, with the same states
  ok := by
    intro v
    rw [hworker, hentry, htcb]
    apply (h.ok v).congr
    intro g hcb
    exact ⟨hstate g (h.bound v g (Or.inr (Or.inl hcb))).2, rfl⟩
  entry := by
    rw [hworker, hentry]
    exact h.entry

/-! ### The steps of a worker -/

/-- A worker at another fiber leaves its `cb_fiber` in `INIT`, without a callback. -/
theorem cbPhase_of_not_onCb {st : State} {en tcb : Option ℕ} {g : ℕ} {pc : Pc}
    (h : pc.onCb = false) :
    CbPhase st en tcb g pc ↔ pc.fiber ≠ some g ∧ st = .init ∧ en = none ∧ tcb = none := by
  unfold Pc.onCb at h
  unfold CbPhase
  split at h <;> grind

/-- A worker at its `cb_fiber` works on that fiber. -/
theorem fiber_of_cbPhase {st : State} {en tcb : Option ℕ} {g : ℕ} {pc : Pc}
    (h : pc.onCb = true) (hphase : CbPhase st en tcb g pc) : pc.fiber = some g := by
  unfold Pc.onCb at h
  unfold CbPhase at hphase
  unfold Pc.fiber
  split at h <;> grind

/-- The worker `w` goes on with the fiber it works on, whose state and context it may change,
    or is done with it. -/
structure Acts (s s' : CallbackRun) (w : ℕ) : Prop where
  worker : ∀ w', w' ≠ w → s'.pool.worker w' = s.pool.worker w'
  size : s'.pool.size = s.pool.size
  created : s'.pool.created = s.pool.created
  tasks : s'.pool.tasks = s.pool.tasks
  fibers : ∀ g, (s.pool.worker w).pc.fiber ≠ some g →
    s'.pool.state g = s.pool.state g ∧ s'.entry g = s.entry g
  taskCb : ∀ w', w' ≠ w → s'.taskCb w' = s.taskCb w'
  pc : (s'.pool.worker w).pc.fiber = (s.pool.worker w).pc.fiber ∨ (s'.pool.worker w).pc.fiber = none
  idle : (s'.pool.worker w).idleFiber = (s.pool.worker w).idleFiber

/-- Only the data of the one worker change. -/
theorem Acts.update (h : s.Acts s' w) :
    s'.pool.worker = Function.update s.pool.worker w (s'.pool.worker w) := by
  funext v
  by_cases hv : v = w
  · rw [hv, Function.update_self]
  · rw [Function.update_of_ne hv, h.worker v hv]

/-- The `cb_fiber` of a worker that works on it. -/
theorem Owned.onCb (h : s.Owned) (hcb : (s.pool.worker w).pc.onCb = true) :
    ∃ f, (s.pool.worker w).pc.fiber = some f ∧ (s.pool.worker w).cbFiber = some f ∧
      CbPhase (s.pool.state f) (s.entry f) (s.taskCb w) f (s.pool.worker w).pc := by
  have hok := h.ok w
  unfold CbOk at hok
  cases hw : (s.pool.worker w).cbFiber with
  | none =>
    rw [hw] at hok
    exact absurd hcb (by simp [hok.1])
  | some g =>
    rw [hw] at hok
    exact ⟨g, fiber_of_cbPhase hcb hok, rfl, hok⟩

/-- A fiber that a worker works on, and not as its `cb_fiber`, is not a `cb_fiber`. -/
theorem Owned.not_cbFiber (h : s.Owned) (hcb : (s.pool.worker w).pc.onCb = false)
    (hf : (s.pool.worker w).pc.fiber = some f) (v : ℕ) : (s.pool.worker v).cbFiber ≠ some f := by
  intro hv
  by_cases hvw : v = w
  · subst hvw
    have hok := h.ok v
    unfold CbOk at hok
    rw [hv] at hok
    exact ((cbPhase_of_not_onCb hcb).mp hok).1 hf
  · exact h.hands v f hv w (Ne.symm hvw) (Or.inl hf)

/-- Only a `cb_fiber` has a callback that has not been started. -/
theorem Owned.entry_eq_none (h : s.Owned) (hf : ∀ v, (s.pool.worker v).cbFiber ≠ some f) :
    s.entry f = none := by
  by_contra hne
  obtain ⟨v, hv⟩ := h.entry f hne
  exact hf v hv

/-- What a step of a worker on its fiber has to show. -/
theorem Owned.acts (h : s.Owned) (hw : w < s.pool.size) (ha : s.Acts s' w)
    (hcb : (s'.pool.worker w).cbFiber = (s.pool.worker w).cbFiber ∨ (s'.pool.worker w).cbFiber = none)
    (hok : CbOk s'.pool.state s'.entry (s'.taskCb w) (s'.pool.worker w))
    (hdrop : ∀ g, (s.pool.worker w).cbFiber = some g → (s'.pool.worker w).cbFiber = none →
      s'.entry g = none)
    (hentry : ∀ g, s'.entry g ≠ none → (s.pool.worker w).cbFiber = some g ∨ s.entry g ≠ none) :
    s'.Owned := by
  -- what `w` holds after the step it has held before
  have hsub : ∀ g, (s'.pool.worker w).Holds g → (s.pool.worker w).Holds g := by
    intro g hg
    rcases hg with hg | hg | hg
    · rcases ha.pc with hp | hp
      · exact Or.inl (hp ▸ hg)
      · exact absurd (hp.symm.trans hg) (by simp)
    · rcases hcb with hc | hc
      · exact Or.inr (Or.inl (hc ▸ hg))
      · exact absurd (hc.symm.trans hg) (by simp)
    · exact Or.inr (Or.inr (ha.idle ▸ hg))
  have hkeep : ∀ g, (s'.pool.worker w).cbFiber = some g → (s.pool.worker w).cbFiber = some g := by
    intro g hg
    rcases hcb with hc | hc
    · exact hc ▸ hg
    · exact absurd (hc.symm.trans hg) (by simp)
  refine h.move hw ha.update ha.size (Nat.le_of_eq ha.created.symm) ?_ ha.taskCb ?_ ?_ ?_ hok ?_
  · exact fun g hg _ => ha.fibers g (fun hf => hg (Or.inl hf))
  · intro t ht g hg
    rw [ha.tasks] at ht
    exact ha.created ▸ h.queued t ht g hg
  · intro g hg
    have hold := hsub g hg
    exact ⟨ha.created ▸ (h.bound w g hold).2,
      fun w' hw' hcb' => h.hands w' g hcb' w (Ne.symm hw') hold⟩
  · intro g hg
    have hold := hkeep g hg
    exact ⟨h.hands w g hold, ha.idle ▸ h.idle w g hold⟩
  · intro g hg
    -- a `cb_fiber` that is dropped has no callback left
    by_cases hmine : (s.pool.worker w).cbFiber = some g
    · rcases hcb with hc | hc
      · exact Or.inl (hc.trans hmine)
      · exact absurd (hdrop g hmine hc) hg
    · exact Or.inr ⟨(hentry g hg).resolve_left hmine, hmine⟩

/-- A step on a fiber that is not the `cb_fiber`, or on none. -/
theorem Owned.actsTask (h : s.Owned) (hw : w < s.pool.size) (ha : s.Acts s' w)
    (hcb : (s'.pool.worker w).cbFiber = (s.pool.worker w).cbFiber)
    (hon : (s.pool.worker w).pc.onCb = false) (hon' : (s'.pool.worker w).pc.onCb = false)
    (htcb : s'.taskCb w = s.taskCb w) (hentry : ∀ g, s'.entry g ≠ none → s.entry g ≠ none) :
    s'.Owned := by
  refine h.acts hw ha (Or.inl hcb) ?_ ?_ (fun g hg => Or.inr (hentry g hg))
  · have hok := h.ok w
    unfold CbOk at hok ⊢
    rw [hcb, htcb]
    cases hw' : (s.pool.worker w).cbFiber with
    | none =>
      rw [hw'] at hok
      exact ⟨hon', hok.2⟩
    | some g =>
      rw [hw'] at hok
      obtain ⟨hfiber, hst, hen, htc⟩ := (cbPhase_of_not_onCb hon).mp hok
      obtain ⟨hst', hen'⟩ := ha.fibers g hfiber
      -- `cb_fiber` waits for its next use: `w` works on another fiber
      refine (cbPhase_of_not_onCb hon').mpr ⟨?_, hst'.trans hst, hen'.trans hen, htc⟩
      rcases ha.pc with hp | hp
      · rwa [hp]
      · rw [hp]
        simp
  · intro g hg hnone
    exact absurd (hnone.symm.trans (hcb.trans hg)) (by simp)

/-- A step on the `cb_fiber`, which the worker keeps. -/
theorem Owned.actsCb (h : s.Owned) (hw : w < s.pool.size) (ha : s.Acts s' w)
    (hf : (s.pool.worker w).cbFiber = some f)
    (hcb : (s'.pool.worker w).cbFiber = (s.pool.worker w).cbFiber)
    (hon : (s.pool.worker w).pc.onCb = true)
    (hphase : CbPhase (s'.pool.state f) (s'.entry f) (s'.taskCb w) f (s'.pool.worker w).pc) :
    s'.Owned := by
  refine h.acts hw ha (Or.inl hcb) ?_ ?_ ?_
  · unfold CbOk
    rw [hcb, hf]
    exact hphase
  · intro g hg hnone
    exact absurd (hnone.symm.trans (hcb.trans hg)) (by simp)
  · intro g hg
    by_cases hgf : g = f
    · exact Or.inl (hgf ▸ hf)
    -- `w` works on its `cb_fiber` alone
    · obtain ⟨f', hf', hcb', -⟩ := h.onCb hon
      have hne : (s.pool.worker w).pc.fiber ≠ some g := by
        rw [hf']
        intro heq
        exact hgf ((Option.some.inj heq).symm.trans (Option.some.inj (hcb'.symm.trans hf)))
      exact Or.inr ((ha.fibers g hne).2 ▸ hg)

/-- A step of a worker, and what it means for the callbacks. -/
theorem step_worker (h : step s (.step w) = some s') :
    w < s.pool.size ∧ ∃ p, s.pool.workerStep w (s.pool.worker w).pc = some p ∧ s.record w p = s' := by
  obtain ⟨p, hp, hs'⟩ := Option.map_eq_some_iff.mp h
  simp only [Pool.step, Option.ite_none_right_eq_some] at hp
  exact ⟨hp.1, p, hp.2, hs'⟩

/-- The worker `w` goes on at `k`. -/
theorem acts_of_goto {k : Pc}
    (hworker : s'.pool.worker = Function.update s.pool.worker w { s.pool.worker w with pc := k })
    (hpc : k.fiber = (s.pool.worker w).pc.fiber ∨ k.fiber = none)
    (hsize : s'.pool.size = s.pool.size) (hcreated : s'.pool.created = s.pool.created)
    (htasks : s'.pool.tasks = s.pool.tasks)
    (hfibers : ∀ g, (s.pool.worker w).pc.fiber ≠ some g →
      s'.pool.state g = s.pool.state g ∧ s'.entry g = s.entry g)
    (htcb : ∀ w', w' ≠ w → s'.taskCb w' = s.taskCb w') : s.Acts s' w where
  worker := fun w' hw' => by rw [hworker, Function.update_of_ne hw']
  size := hsize
  created := hcreated
  tasks := htasks
  fibers := hfibers
  taskCb := htcb
  pc := by rw [hworker, Function.update_self]; exact hpc
  idle := by rw [hworker, Function.update_self]

/-- What a step of a worker on a fiber can be: it goes on at `k`, and keeps its `cb_fiber`. -/
structure Goes (s s' : CallbackRun) (w : ℕ) (k : Pc) : Prop where
  acts : s.Acts s' w
  worker : s'.pool.worker w = { s.pool.worker w with pc := k }

/-- A step that only tests. -/
theorem goes_goto {k : Pc} (hpc : k.fiber = (s.pool.worker w).pc.fiber ∨ k.fiber = none) :
    s.Goes { s with pool := s.pool.goto w k } w k where
  acts := acts_of_goto rfl hpc rfl rfl rfl (fun _ _ => ⟨rfl, rfl⟩) (fun _ _ => rfl)
  worker := Function.update_self ..

/-- A step at a fiber of a task. -/
theorem Owned.step_task (h : s.Owned) (hw : w < s.pool.size) {k : Pc} (hg : s.Goes s' w k)
    (hon : (s.pool.worker w).pc.onCb = false) (hon' : k.onCb = false)
    (htcb : s'.taskCb w = s.taskCb w) (hentry : ∀ g, s'.entry g ≠ none → s.entry g ≠ none) :
    s'.Owned :=
  h.actsTask hw hg.acts (by rw [hg.worker]) hon (by rw [hg.worker]; exact hon') htcb hentry

/-- A step at the `cb_fiber` takes it from one phase to the next. -/
theorem Owned.step_cb (h : s.Owned) (hw : w < s.pool.size) {k : Pc} (hg : s.Goes s' w k)
    (hon : (s.pool.worker w).pc.onCb = true)
    (hphase : ∀ f, (s.pool.worker w).pc.fiber = some f →
      CbPhase (s.pool.state f) (s.entry f) (s.taskCb w) f (s.pool.worker w).pc →
      CbPhase (s'.pool.state f) (s'.entry f) (s'.taskCb w) f k) : s'.Owned := by
  obtain ⟨f, hf, hcb, hold⟩ := h.onCb hon
  refine h.actsCb hw hg.acts hcb (by rw [hg.worker]) hon ?_
  rw [hg.worker]
  exact hphase f hf hold

/-- A step that works on the state and the context of the fiber `f`. -/
theorem Owned.step_write (h : s.Owned) (hw : w < s.pool.size) {pc k : Pc}
    (hpc : (s.pool.worker w).pc = pc) (hf : pc.fiber = some f)
    (hfiber : k.fiber = some f ∨ k.fiber = none)
    (hworker : s'.pool.worker = Function.update s.pool.worker w { s.pool.worker w with pc := k })
    (hsize : s'.pool.size = s.pool.size) (hcreated : s'.pool.created = s.pool.created)
    (htasks : s'.pool.tasks = s.pool.tasks)
    (hstate : ∀ g, g ≠ f → s'.pool.state g = s.pool.state g)
    (hentry : ∀ g, g ≠ f → s'.entry g = s.entry g)
    (htcb : ∀ w', w' ≠ w → s'.taskCb w' = s.taskCb w')
    (hon : pc.onCb = false → k.onCb = false ∧ s'.taskCb w = s.taskCb w ∧
      (s'.entry f ≠ none → s.entry f ≠ none))
    (hphase : pc.onCb = true → CbPhase (s.pool.state f) (s.entry f) (s.taskCb w) f pc →
      CbPhase (s'.pool.state f) (s'.entry f) (s'.taskCb w) f k) : s'.Owned := by
  subst hpc
  have hgoes : s.Goes s' w k := by
    refine ⟨acts_of_goto hworker (hf ▸ hfiber) hsize hcreated htasks ?_ htcb, ?_⟩
    · intro g hg
      have hne : g ≠ f := by
        rintro rfl
        exact hg hf
      exact ⟨hstate g hne, hentry g hne⟩
    · rw [hworker, Function.update_self]
  -- the fiber that is written is `cb_fiber`, or a task's
  by_cases hcb : (s.pool.worker w).pc.onCb = true
  · refine h.step_cb hw hgoes hcb (fun g hg hold => ?_)
    obtain rfl := Option.some.inj (hf.symm.trans hg)
    exact hphase hcb hold
  · obtain ⟨hon', htcb', hentry'⟩ := hon (Bool.eq_false_iff.mpr hcb)
    refine h.step_task hw hgoes (Bool.eq_false_iff.mpr hcb) hon' htcb' (fun g hg => ?_)
    by_cases hgf : g = f
    · subst hgf
      exact hentry' hg
    · exact hentry g hgf ▸ hg

/-- A step that only tests the state of the fiber. -/
theorem Owned.step_test (h : s.Owned) (hw : w < s.pool.size) {pc k : Pc}
    (hpc : (s.pool.worker w).pc = pc) (hfiber : k.fiber = pc.fiber ∨ k.fiber = none)
    (hon : pc.onCb = false → k.onCb = false)
    (hphase : pc.onCb = true → ∀ f, pc.fiber = some f →
      CbPhase (s.pool.state f) (s.entry f) (s.taskCb w) f pc →
      CbPhase (s.pool.state f) (s.entry f) (s.taskCb w) f k) :
    { s with pool := s.pool.goto w k }.Owned := by
  subst hpc
  by_cases hcb : (s.pool.worker w).pc.onCb = true
  · exact h.step_cb hw (goes_goto hfiber) hcb (hphase hcb)
  · have hcb' := Bool.eq_false_iff.mpr hcb
    exact h.step_task hw (goes_goto hfiber) hcb' (hon hcb') rfl (fun _ hg => hg)

/-- The tests whether the fiber has ended: a `cb_fiber` that has is reset next. -/
theorem Owned.step_end (h : s.Owned) (hw : w < s.pool.size) {pc k : Pc} {r : Role} {st : State}
    (hpc : (s.pool.worker w).pc = pc) (hfiber : pc.fiber = some f) (hfiber' : k.fiber = some f)
    (hon : pc.onCb = (r == .cb)) (hon' : k.onCb = (r == .cb))
    (hphase : r = .cb → CbPhase (s.pool.state f) (s.entry f) (s.taskCb w) f pc →
      CbPhase (s.pool.state f) (s.entry f) (s.taskCb w) f
        (if s.pool.state f = st then (if r = .cb then .resetTerm f false else .loop) else k)) :
    { s with
      pool := s.pool.goto w
        (if s.pool.state f = st then (if r = Role.cb then .resetTerm f false else .loop)
          else k) }.Owned := by
  refine h.step_test hw hpc ?_ ?_ ?_
  · split
    · split
      · exact Or.inl hfiber.symm
      · exact Or.inr rfl
    · exact Or.inl (hfiber'.trans hfiber.symm)
  · intro hoff
    rw [hon] at hoff
    -- a task's fiber that has ended is left without a `reset`
    have hr : r ≠ .cb := by simpa using hoff
    rw [if_neg hr]
    split
    · rfl
    · exact hon'.trans hoff
  · intro hcb g hg hold
    obtain rfl := Option.some.inj (hfiber.symm.trans hg)
    rw [hon] at hcb
    exact hphase (beq_iff_eq.mp hcb) hold

/-- The worker `w` turns from no fiber to one that is no `cb_fiber`, or to none. -/
theorem Owned.step_turn (h : s.Owned) (hw : w < s.pool.size) {k : Pc}
    (hon : (s.pool.worker w).pc.onCb = false) (hon' : k.onCb = false)
    (hfiber : ∀ g, k.fiber = some g → g < s.pool.created ∧ ∀ v, (s.pool.worker v).cbFiber ≠ some g)
    (hworker : s'.pool.worker = Function.update s.pool.worker w { s.pool.worker w with pc := k })
    (hsize : s'.pool.size = s.pool.size) (hcreated : s'.pool.created = s.pool.created)
    (htasks : ∀ t ∈ s'.pool.tasks, t ∈ s.pool.tasks) (hstate : s'.pool.state = s.pool.state)
    (hentry : s'.entry = s.entry) (htcb : s'.taskCb = s.taskCb) : s'.Owned := by
  refine h.move hw hworker hsize (Nat.le_of_eq hcreated.symm) ?_ ?_ ?_ ?_ ?_ ?_ ?_
  · exact fun g _ _ => ⟨congrFun hstate g, congrFun hentry g⟩
  · exact fun v _ => congrFun htcb v
  · exact fun t ht g hg => hcreated ▸ h.queued t (htasks t ht) g hg
  · intro g hg
    rcases hg with hg | hg
    · exact ⟨hcreated ▸ (hfiber g hg).1, fun v _ => (hfiber g hg).2 v⟩
    -- besides the fiber of its place `w` keeps what it had
    · have hold : (s.pool.worker w).Holds g := Or.inr hg
      exact ⟨hcreated ▸ (h.bound w g hold).2, fun v hv hcb => h.hands v g hcb w (Ne.symm hv) hold⟩
  · exact fun g hg => ⟨h.hands w g hg, h.idle w g hg⟩
  · have hok := h.ok w
    unfold CbOk at hok ⊢
    rw [htcb]
    cases hcb : (s.pool.worker w).cbFiber with
    | none =>
      rw [hcb] at hok
      exact ⟨hon', hok.2⟩
    | some g =>
      rw [hcb] at hok
      dsimp only
      rw [hstate, hentry]
      refine (cbPhase_of_not_onCb hon').mpr ⟨fun hg => (hfiber g hg).2 w hcb, ?_⟩
      exact ((cbPhase_of_not_onCb hon).mp hok).2
  · intro g hg
    rw [hentry] at hg
    by_cases hcb : (s.pool.worker w).cbFiber = some g
    · exact Or.inl hcb
    · exact Or.inr ⟨hg, hcb⟩

/-- The worker `w` is done with the fiber `f`, which it may have re-queued; if it was its
    `cb_fiber`, it is so no more. -/
theorem Owned.step_drop (h : s.Owned) (hw : w < s.pool.size) {r : Role} {wk : Worker}
    (hf : (s.pool.worker w).pc.fiber = some f)
    (hon : (s.pool.worker w).pc.onCb = decide (r = .cb))
    (hwk : wk = { s.pool.worker w with
      pc := .loop, cbFiber := if r = .cb then none else (s.pool.worker w).cbFiber })
    (hworker : s'.pool.worker = Function.update s.pool.worker w wk)
    (hsize : s'.pool.size = s.pool.size) (hcreated : s'.pool.created = s.pool.created)
    (htasks : ∀ t ∈ s'.pool.tasks, t ∈ s.pool.tasks ∨ t.work = .fiber f)
    (hstate : ∀ g, g ≠ f → s'.pool.state g = s.pool.state g)
    (hentry : s'.entry = s.entry) (htcb : s'.taskCb = s.taskCb)
    (hnone : r = .cb → s.entry f = none ∧ s.taskCb w = none) : s'.Owned := by
  subst hwk
  -- a task's fiber is no worker's `cb_fiber`
  have hfree : r ≠ .cb → (s.pool.worker w).cbFiber ≠ some f :=
    fun hr => h.not_cbFiber (by rw [hon, decide_eq_false hr]) hf w
  have hkept : ∀ g, (if r = .cb then none else (s.pool.worker w).cbFiber) = some g →
      (s.pool.worker w).cbFiber = some g := by
    intro g hg
    split at hg
    · cases hg
    · exact hg
  refine h.move hw hworker hsize (Nat.le_of_eq hcreated.symm) ?_ ?_ ?_ ?_ ?_ ?_ ?_
  · intro g hg _
    refine ⟨hstate g ?_, congrFun hentry g⟩
    rintro rfl
    exact hg (Or.inl hf)
  · exact fun v _ => congrFun htcb v
  · intro t ht g hg
    rcases htasks t ht with hold | hnew
    · exact hcreated ▸ h.queued t hold g hg
    · obtain rfl : f = g := by simpa [hnew] using hg
      exact hcreated ▸ (h.bound w f (Or.inl hf)).2
  · intro g hg
    have hold : (s.pool.worker w).Holds g := by
      rcases hg with hg | hg | hg
      · cases hg
      · exact Or.inr (Or.inl (hkept g hg))
      · exact Or.inr (Or.inr hg)
    exact ⟨hcreated ▸ (h.bound w g hold).2, fun v hv hcb => h.hands v g hcb w (Ne.symm hv) hold⟩
  · intro g hg
    have hold := hkept g hg
    exact ⟨h.hands w g hold, h.idle w g hold⟩
  · unfold CbOk
    dsimp only
    by_cases hr : r = .cb
    · rw [if_pos hr]
      exact ⟨rfl, htcb ▸ (hnone hr).2⟩
    · rw [if_neg hr]
      have hok := h.ok w
      unfold CbOk at hok
      rw [htcb]
      cases hcbw : (s.pool.worker w).cbFiber with
      | none =>
        rw [hcbw] at hok
        exact ⟨rfl, hok.2⟩
      | some g =>
        rw [hcbw] at hok
        -- `cb_fiber` is not the fiber that is dropped
        have hgf : g ≠ f := by
          rintro rfl
          exact hfree hr hcbw
        obtain ⟨-, hst, hen, htc⟩ := (cbPhase_of_not_onCb (by rw [hon, decide_eq_false hr])).mp hok
        exact ⟨by simp [Pc.fiber], (hstate g hgf).trans hst, hentry ▸ hen, htc⟩
  · intro g hg
    rw [hentry] at hg
    by_cases hcbw : (s.pool.worker w).cbFiber = some g
    · by_cases hr : r = .cb
      · -- the dropped `cb_fiber` has no callback left
        obtain ⟨f', hf', hcb', -⟩ := h.onCb (w := w) (by rw [hon, decide_eq_true hr])
        obtain rfl : f' = f := Option.some.inj (hf'.symm.trans hf)
        obtain rfl : f' = g := Option.some.inj (hcb'.symm.trans hcbw)
        exact absurd (hnone hr).1 hg
      · exact Or.inl (by rw [if_neg hr]; exact hcbw)
    · exact Or.inr ⟨hg, hcbw⟩

/-- The worker `w` after it has dropped the fiber. -/
theorem worker_dropCb (s : Pool) (w : ℕ) (r : Role) :
    ((s.dropCb w r).goto w .loop).worker = Function.update s.worker w { s.worker w with
      pc := .loop, cbFiber := if r = .cb then none else (s.worker w).cbFiber } := by
  cases r <;> simp [Pool.dropCb, Pool.goto, Pool.setWorker]

/-- The books of a `cb_fiber` that a worker drops are empty. -/
theorem Owned.drop_none (h : s.Owned) {r : Role}
    (hpc : (s.pool.worker w).pc = .requeue f r ∨ (s.pool.worker w).pc = .writeHold f r) :
    r = .cb → s.entry f = none ∧ s.taskCb w = none := by
  rintro rfl
  obtain ⟨g, hg, -, hold⟩ := h.onCb (w := w) (by rcases hpc with hpc | hpc <;> rw [hpc] <;> rfl)
  rcases hpc with hpc | hpc
  all_goals
    rw [hpc] at hg hold
    obtain rfl := Option.some.inj hg
    exact hold.2.2

/-- A step of the worker `w` that is neither a pop nor the creation of its idle fiber. -/
theorem Owned.workerStep (h : s.Owned) (hw : w < s.pool.size) {p : Pool}
    (hp : s.pool.workerStep w (s.pool.worker w).pc = some p)
    (hne : (s.pool.worker w).pc ≠ .start ∧ (s.pool.worker w).pc ≠ .loop) :
    (s.record w p).Owned := by
  cases hpc : (s.pool.worker w).pc <;>
    simp only [hpc, Pool.workerStep, Option.some.injEq, reduceCtorEq] at hp <;>
    simp only [record, hpc]
  case start => exact absurd hpc hne.1
  case loop => exact absurd hpc hne.2
  case requeue f r =>
    subst hp
    refine h.step_drop hw (r := r) (by rw [hpc]; rfl) (by rw [hpc]; cases r <;> rfl) rfl
      (worker_dropCb _ w r) ?_ ?_ ?_ ?_ rfl rfl (h.drop_none (Or.inl hpc))
    · cases r <;> rfl
    · cases r <;> rfl
    · intro t ht
      have hmem : t ∈ s.pool.tasks ++ [⟨.fiber f, none⟩] := by
        cases r <;> exact ht
      rcases List.mem_append.mp hmem with hold | hnew
      · exact Or.inl hold
      · exact Or.inr (by rw [List.mem_singleton.mp hnew])
    · cases r <;> exact fun _ _ => rfl
  case writeHold f r =>
    subst hp
    refine h.step_drop hw (r := r) (by rw [hpc]; rfl) (by rw [hpc]; cases r <;> rfl) rfl
      (worker_dropCb _ w r) ?_ ?_ ?_ ?_ rfl rfl (h.drop_none (Or.inr hpc))
    · cases r <;> rfl
    · cases r <;> rfl
    · cases r <;> exact fun t ht => Or.inl ht
    · cases r <;> exact fun g hg => Function.update_of_ne hg ..
  case testTerm f | testError f =>
    subst hp
    refine h.step_test hw hpc ?_ ?_ (fun hon => absurd hon (by simp [Pc.onCb]))
    · split <;> simp [Pc.fiber]
    · intro _
      split <;> rfl
  case skip =>
    subst hp
    exact h.step_task hw (k := .loop) ⟨acts_of_goto rfl (Or.inr rfl) rfl rfl rfl
      (fun _ _ => ⟨rfl, rfl⟩) (fun _ _ => rfl), Function.update_self ..⟩ (by rw [hpc]; rfl) rfl rfl
      (fun _ hg => hg)
  case resetTerm f reuse =>
    subst hp
    refine h.step_test hw hpc ?_ (by simp [Pc.onCb]) ?_
    · split <;> simp [Pc.fiber]
    · rintro - g hg hold
      obtain rfl := Option.some.inj hg
      exact hold.resetTerm
  case resetInit f reuse =>
    subst hp
    refine h.step_test hw hpc ?_ (by simp [Pc.onCb]) ?_
    · split <;> simp [Pc.fiber]
    · rintro - g hg hold
      obtain rfl := Option.some.inj hg
      exact hold.resetInit
  case resetError f reuse =>
    -- the state of a `cb_fiber` was `TERM` or `INIT`
    obtain ⟨g, -, -, hold⟩ := h.onCb (w := w) (by rw [hpc]; rfl)
    rw [hpc] at hold
    exact hold.elim
  case reset f reuse =>
    subst hp
    refine h.step_write hw hpc rfl (k := if reuse then .testExec f .cb else .loop) ?_ rfl rfl rfl
      rfl (fun g hg => Function.update_of_ne hg ..) (fun g hg => Function.update_of_ne hg ..)
      (fun v hv => Function.update_of_ne hv ..) (fun hon => absurd hon (by simp [Pc.onCb])) ?_
    · cases reuse <;> simp [Pc.fiber]
    · intro _ hold
      cases reuse
      · simp [CbPhase, Pool.goto, Pool.setWorker, Pool.setState, Pc.fiber]
      · simp [CbPhase, Pool.goto, Pool.setWorker, Pool.setState]
  case testIdle =>
    obtain ⟨i, hi, rfl⟩ := Option.map_eq_some_iff.mp hp
    have hidle : i < s.pool.created ∧ ∀ v, (s.pool.worker v).cbFiber ≠ some i := by
      refine ⟨(h.bound w i (Or.inr (Or.inr hi))).2, fun v hcb => ?_⟩
      by_cases hvw : v = w
      · exact h.idle v i hcb (hvw ▸ hi)
      · exact h.hands v i hcb w (Ne.symm hvw) (Or.inr (Or.inr hi))
    split
    · exact h.step_turn hw (by rw [hpc]; rfl) (k := .exited) rfl (by simp [Pc.fiber]) rfl rfl rfl
        (fun _ ht => ht) rfl rfl rfl
    · refine h.step_turn hw (by rw [hpc]; rfl) (k := .testExec i .idle) rfl ?_ rfl rfl rfl
        (fun _ ht => ht) rfl rfl rfl
      intro g hg
      obtain rfl := Option.some.inj hg
      exact hidle
  case testExec f r =>
    subst hp
    refine h.step_test hw hpc ?_ ?_ ?_
    · split <;> simp [Pc.fiber]
    · intro hon
      split
      · rfl
      · exact hon
    · intro hon g hg hold
      obtain rfl := Option.some.inj hg
      obtain rfl : r = .cb := by simpa [Pc.onCb] using hon
      exact hold.testExec
  case writeExec f r =>
    subst hp
    refine h.step_write hw hpc rfl (k := .load f r) (Or.inl rfl) rfl rfl rfl rfl
      (fun g hg => Function.update_of_ne hg ..) (fun _ _ => rfl) (fun _ _ => rfl)
      (fun hon => ⟨hon, rfl, id⟩) (fun hon hold => ?_)
    obtain rfl : r = .cb := by simpa [Pc.onCb] using hon
    exact ⟨rfl, hold.2.2⟩
  case load f r =>
    subst hp
    refine h.step_write hw hpc rfl (k := .running f r) (Or.inl rfl) rfl rfl rfl rfl
      (fun _ _ => rfl) (fun _ _ => rfl) (fun _ _ => rfl)
      (fun hon => ⟨hon, rfl, id⟩) (fun hon hold => ?_)
    obtain rfl : r = .cb := by simpa [Pc.onCb] using hon
    exact hold
  case save f r =>
    subst hp
    refine h.step_write hw hpc rfl (k := .back f r) (Or.inl rfl) rfl rfl rfl rfl
      (fun _ _ => rfl) (fun g hg => Function.update_of_ne hg ..) (fun _ _ => rfl)
      (fun hon => ⟨hon, rfl, fun hne => absurd (Function.update_self ..) hne⟩) (fun hon hold => ?_)
    obtain rfl : r = .cb := by simpa [Pc.onCb] using hon
    exact ⟨rfl, hold.2.1, Function.update_self .., hold.2.2⟩
  case back f r =>
    cases r <;> subst hp
    · exact h.step_write hw hpc rfl (k := .testReady f .task) (Or.inl rfl) rfl rfl rfl rfl
        (fun _ _ => rfl) (fun _ _ => rfl) (fun _ _ => rfl) (fun _ => ⟨rfl, rfl, id⟩)
        (fun hon => absurd hon (by simp [Pc.onCb]))
    · exact h.step_write hw hpc rfl (k := .testReady f .cb) (Or.inl rfl) rfl rfl rfl rfl
        (fun _ _ => rfl) (fun _ _ => rfl) (fun _ _ => rfl)
        (fun hon => absurd hon (by simp [Pc.onCb])) (fun _ hold => hold)
    · exact h.step_write hw hpc rfl (k := .testEnded f .idle) (Or.inl rfl) rfl rfl rfl rfl
        (fun _ _ => rfl) (fun _ _ => rfl) (fun _ _ => rfl) (fun _ => ⟨rfl, rfl, id⟩)
        (fun hon => absurd hon (by simp [Pc.onCb]))
  case testReady f r =>
    subst hp
    refine h.step_test hw hpc ?_ ?_ ?_
    · split <;> simp [Pc.fiber]
    · intro hon
      split <;> exact hon
    · intro hon g hg hold
      obtain rfl := Option.some.inj hg
      obtain rfl : r = .cb := by simpa [Pc.onCb] using hon
      exact hold.testReady
  case testEnded f r =>
    subst hp
    refine h.step_end hw hpc rfl rfl rfl rfl ?_
    rintro rfl hold
    exact hold.testEnded
  case testFailed f r =>
    subst hp
    refine h.step_end hw hpc rfl rfl rfl rfl ?_
    rintro rfl hold
    exact hold.testFailed

/-- A fiber that is created now is in nobody's hand. -/
theorem Owned.not_holds_created (h : s.Owned) (v : ℕ) : ¬ (s.pool.worker v).Holds s.pool.created :=
  fun hv => Nat.lt_irrefl _ (h.bound v _ hv).2

/-- The states of the fibers that exist already. -/
theorem state_newFiber (s : Pool) {g : ℕ} (hg : g < s.created) : s.newFiber.state g = s.state g :=
  Function.update_of_ne (Nat.ne_of_lt hg) ..

/-- The worker `w` creates its idle fiber. -/
theorem Owned.start (h : s.Owned) (hw : w < s.pool.size) (hpc : (s.pool.worker w).pc = .start)
    {wk : Worker} (hwk : wk = { s.pool.worker w with idleFiber := some s.pool.created, pc := .loop }) :
    { s with pool := s.pool.newFiber.setWorker w wk }.Owned := by
  subst hwk
  -- the idle fiber is new, so it is nobody's `cb_fiber`
  have hnew : ∀ v, (s.pool.worker v).cbFiber ≠ some s.pool.created :=
    fun v hv => h.not_holds_created v (Or.inr (Or.inl hv))
  refine h.move hw rfl rfl (Nat.le_succ _) (fun g _ hg => ⟨state_newFiber s.pool hg, rfl⟩)
    (fun _ _ => rfl) ?_ ?_ ?_ ?_ ?_
  · exact fun t ht g hg => Nat.lt_succ_of_lt (h.queued t ht g hg)
  · intro g hg
    rcases hg with hg | hg | hg
    · cases hg
    · have hold : (s.pool.worker w).Holds g := Or.inr (Or.inl hg)
      exact ⟨Nat.lt_succ_of_lt (h.bound w g hold).2,
        fun v hv hcb => h.hands v g hcb w (Ne.symm hv) hold⟩
    · obtain rfl := Option.some.inj hg
      exact ⟨Nat.lt_succ_self _, fun v _ => hnew v⟩
  · intro g hg
    refine ⟨h.hands w g hg, fun hidle => ?_⟩
    exact hnew w (hg.trans hidle.symm)
  · have hok := h.ok w
    unfold CbOk at hok ⊢
    dsimp only
    cases hcb : (s.pool.worker w).cbFiber with
    | none =>
      rw [hcb] at hok
      exact ⟨rfl, hok.2⟩
    | some g =>
      rw [hcb, hpc] at hok
      obtain ⟨-, hst, hen, htc⟩ := hok
      have hg := (h.bound w g (Or.inr (Or.inl hcb))).2
      exact ⟨by simp [Pc.fiber], (state_newFiber s.pool hg).trans hst, hen, htc⟩
  · intro g hg
    by_cases hcb : (s.pool.worker w).cbFiber = some g
    · exact Or.inl hcb
    · exact Or.inr ⟨hg, hcb⟩

/-! ### The pop -/

/-- A callback is popped into `task.cb`, for the `cb_fiber` that is there. -/
theorem Owned.pop_cb (h : s.Owned) (hw : w < s.pool.size) (hpc : (s.pool.worker w).pc = .loop)
    {g : ℕ} (hg : (s.pool.worker w).cbFiber = some g)
    (hworker : s'.pool.worker =
      Function.update s.pool.worker w { s.pool.worker w with pc := .resetTerm g true })
    (hsize : s'.pool.size = s.pool.size) (hcreated : s'.pool.created = s.pool.created)
    (htasks : ∀ t ∈ s'.pool.tasks, t ∈ s.pool.tasks) (hstate : s'.pool.state = s.pool.state)
    (hentry : s'.entry = s.entry) (htcb : ∀ v, v ≠ w → s'.taskCb v = s.taskCb v) : s'.Owned := by
  refine h.move hw hworker hsize (Nat.le_of_eq hcreated.symm) ?_ htcb ?_ ?_ ?_ ?_ ?_
  · exact fun g _ _ => ⟨congrFun hstate g, congrFun hentry g⟩
  · exact fun t ht f hf => hcreated ▸ h.queued t (htasks t ht) f hf
  · intro f hf
    -- the fiber at hand is the one the worker has had all along
    have hold : (s.pool.worker w).Holds f := by
      rcases hf with hf | hf
      · obtain rfl := Option.some.inj hf
        exact Or.inr (Or.inl hg)
      · exact Or.inr hf
    exact ⟨hcreated ▸ (h.bound w f hold).2, fun v hv hcb => h.hands v f hcb w (Ne.symm hv) hold⟩
  · exact fun f hf => ⟨h.hands w f hf, h.idle w f hf⟩
  · have hok := h.ok w
    unfold CbOk at hok ⊢
    rw [hg, hpc] at hok
    -- between two tasks the callback fiber has ended, so the reset will not throw
    obtain ⟨-, hst, hen, -⟩ := hok
    dsimp only
    rw [hg, hstate, hentry]
    exact ⟨rfl, Or.inl hst, hen, fun hfalse => absurd hfalse (by simp)⟩
  · intro f hf
    rw [hentry] at hf
    by_cases hcb : (s.pool.worker w).cbFiber = some f
    · exact Or.inl hcb
    · exact Or.inr ⟨hf, hcb⟩

/-- A callback is popped into a new `cb_fiber`. -/
theorem Owned.pop_new (h : s.Owned) (hw : w < s.pool.size)
    (hnone : (s.pool.worker w).cbFiber = none) {c : ℕ}
    (hworker : s'.pool.worker = Function.update s.pool.worker w
      { s.pool.worker w with cbFiber := some s.pool.created, pc := .testExec s.pool.created .cb })
    (hsize : s'.pool.size = s.pool.size) (hcreated : s'.pool.created = s.pool.created + 1)
    (htasks : ∀ t ∈ s'.pool.tasks, t ∈ s.pool.tasks)
    (hstate : s'.pool.state = Function.update s.pool.state s.pool.created .init)
    (hentry : s'.entry = Function.update s.entry s.pool.created (some c))
    (htcb : s'.taskCb = s.taskCb) : s'.Owned := by
  -- a new fiber is nobody's
  have hnew : ∀ v, (s.pool.worker v).cbFiber ≠ some s.pool.created :=
    fun v hv => h.not_holds_created v (Or.inr (Or.inl hv))
  refine h.move hw hworker hsize (by omega) ?_ (fun v _ => congrFun htcb v) ?_ ?_ ?_ ?_ ?_
  · intro g _ hg
    rw [hstate, hentry, Function.update_of_ne (Nat.ne_of_lt hg), Function.update_of_ne (Nat.ne_of_lt hg)]
    exact ⟨rfl, rfl⟩
  · intro t ht f hf
    have hlt := h.queued t (htasks t ht) f hf
    omega
  · intro f hf
    -- the worker holds what it held, and the new fiber
    have hcase : f = s.pool.created ∨ (s.pool.worker w).Holds f := by
      rcases hf with hf | hf | hf
      · exact Or.inl (Option.some.inj hf).symm
      · exact Or.inl (Option.some.inj hf).symm
      · exact Or.inr (Or.inr (Or.inr hf))
    rcases hcase with rfl | hold
    · exact ⟨by omega, fun v _ => hnew v⟩
    · have hlt := (h.bound w f hold).2
      exact ⟨by omega, fun v hv hcb => h.hands v f hcb w (Ne.symm hv) hold⟩
  · intro f hf
    obtain rfl := Option.some.inj hf
    exact ⟨fun v _ => h.not_holds_created v,
      fun hidle => h.not_holds_created w (Or.inr (Or.inr hidle))⟩
  · have hok := h.ok w
    unfold CbOk at hok ⊢
    rw [hnone] at hok
    dsimp only
    rw [hstate, htcb, Function.update_self]
    exact ⟨rfl, rfl, hok.2⟩
  · intro f hf
    by_cases hfc : f = s.pool.created
    · exact Or.inl (by rw [hfc])
    · rw [hentry, Function.update_of_ne hfc] at hf
      exact Or.inr ⟨hf, by rw [hnone]; simp⟩

/-- A pop of the worker `w`. -/
theorem Owned.pop (h : s.Owned) (hw : w < s.pool.size) (hpc : (s.pool.worker w).pc = .loop)
    (hfree : s.PopsNoCbFiber (.step w)) : (s.record w (s.pool.pop w)).Owned := by
  have hon : (s.pool.worker w).pc.onCb = false := by rw [hpc]; rfl
  simp only [record, hpc, Pool.pop]
  cases hnext : s.pool.nextTask w with
  -- nothing to take: the worker goes for its idle fiber
  | none =>
    exact h.step_turn hw hon (k := .testIdle) rfl (by simp [Pc.fiber]) rfl rfl rfl
      (fun _ ht => ht) rfl rfl rfl
  | some t =>
    have hmem : t ∈ s.pool.tasks := List.mem_of_find?_eq_some hnext
    cases hwork : t.work with
    | fiber f =>
      simp only [hwork, take]
      refine h.step_turn hw hon (k := .testTerm f) rfl ?_ rfl rfl rfl
        (fun _ ht => List.mem_of_mem_erase ht) rfl rfl rfl
      intro g hg
      obtain rfl := Option.some.inj hg
      refine ⟨h.queued t hmem f hwork, fun v hcb => ?_⟩
      have hv := (h.bound v f (Or.inr (Or.inl hcb))).1
      -- the fiber is popped by this step, so by assumption it is no callback fiber
      have hpopped : f ∈ s.poppedFiber w := by simp [poppedFiber, hpc, hnext, hwork, Work.fiber?]
      exact hfree f hpopped v hv hcb
    | cb c =>
      cases hcb : (s.pool.worker w).cbFiber with
      -- the callback fiber of the last task is used again
      | some g =>
        simp only [hwork, hcb, take]
        exact h.pop_cb hw hpc hcb rfl rfl rfl (fun _ ht => List.mem_of_mem_erase ht) rfl rfl
          (fun v hv => Function.update_of_ne hv ..)
      | none =>
        simp only [hwork, hcb, take]
        exact h.pop_new hw hcb rfl rfl rfl (fun _ ht => List.mem_of_mem_erase ht) rfl rfl rfl

/-- The tasks of a batch are callbacks. -/
theorem mem_batch_work {first : ℕ} {thread : Option ℕ} {cbs : List Bool} {t : PoolTask}
    (h : t ∈ batch first thread cbs) : ∃ c, t.work = .cb c := by
  induction cbs generalizing first with
  | nil => cases h
  | cons b cbs ih =>
    cases b with
    | false => exact ih h
    | true =>
      rcases List.mem_cons.mp h with rfl | h
      · exact ⟨first, rfl⟩
      · exact ih h

/-- **Ownership step.** Every worker's `cb_fiber` stays its own when nobody pops it and its
    callback does not throw. -/
theorem step_owned {a : CallbackAction} (h : s.Owned) (hreturns : s.CallbackReturns a)
    (hfree : s.PopsNoCbFiber a) (hstep : step s a = some s') : s'.Owned := by
  cases a with
  | schedule cbs thread =>
    cases hstep
    refine h.frame rfl rfl (Nat.le_refl _) (fun _ _ => rfl) rfl rfl (fun t ht => ?_)
    rcases List.mem_append.mp ht with hold | hnew
    · exact Or.inl hold
    · obtain ⟨c, hc⟩ := mem_batch_work hnew
      exact Or.inr (fun f hf => absurd (hc.symm.trans hf) (by simp))
  -- a task for a fiber gives no worker a new one
  | scheduleFiber f thread =>
    obtain ⟨p, hp, rfl⟩ := Option.map_eq_some_iff.mp hstep
    simp only [Pool.step, Option.ite_none_right_eq_some, Option.some.injEq] at hp
    obtain ⟨hf, rfl⟩ := hp
    refine h.frame rfl rfl (Nat.le_refl _) (fun _ _ => rfl) rfl rfl (fun t ht => ?_)
    rcases List.mem_append.mp ht with hold | hnew
    · exact Or.inl hold
    · refine Or.inr (fun g hg => ?_)
      obtain rfl : f = g := by simpa [List.mem_singleton.mp hnew] using hg
      exact hf
  | create =>
    cases hstep
    exact h.frame rfl rfl (Nat.le_succ _) (fun _ hg => state_newFiber s.pool hg) rfl rfl
      (fun t ht => Or.inl ht)
  | leave w st =>
    obtain ⟨p, hp, rfl⟩ := Option.map_eq_some_iff.mp hstep
    simp only [Pool.step] at hp
    split at hp
    · next f r hpc =>
      simp only [Option.ite_none_right_eq_some, Option.some.injEq] at hp
      obtain ⟨-, rfl⟩ := hp
      have hw := (h.bound w f (Or.inl (by rw [hpc]; rfl))).1
      refine h.step_write hw hpc rfl (k := .save f r) (Or.inl rfl) rfl rfl rfl rfl
        (fun g hg => Function.update_of_ne hg ..) (fun _ _ => rfl) (fun _ _ => rfl)
        (fun hon => ⟨hon, rfl, id⟩) (fun hon hold => ?_)
      obtain rfl : r = .cb := by simpa [Pc.onCb] using hon
      -- a callback does not leave with an exception
      have hst : st ≠ .error := hreturns (by rw [hpc]; rfl)
      refine ⟨rfl, ?_, hold.2⟩
      simpa [Pool.goto, Pool.setWorker, Pool.setState] using hst
    · cases hp
  | step w =>
    obtain ⟨hw, p, hp, rfl⟩ := step_worker hstep
    -- starting and popping move fibers; every other step keeps them where they are
    by_cases hstart : (s.pool.worker w).pc = .start
    · simp only [hstart, Pool.workerStep, Option.some.injEq] at hp
      subst hp
      simp only [record, hstart]
      exact h.start hw hstart rfl
    · by_cases hloop : (s.pool.worker w).pc = .loop
      · simp only [hloop, Pool.workerStep, Option.some.injEq] at hp
        subst hp
        exact h.pop hw hloop hfree
      · exact h.workerStep hw hp ⟨hstart, hloop⟩

end CallbackRun

end LoNetfw.Scheduler
