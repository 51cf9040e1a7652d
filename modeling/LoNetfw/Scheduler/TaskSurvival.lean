import LoNetfw.Scheduler.TaskRun
import Mathlib.Algebra.BigOperators.Group.List.Basic
import Mathlib.Algebra.Ring.Nat

namespace LoNetfw.Scheduler

open Basis
open LoNetfw.Fiber (State Body Exception)

/-!
# `Scheduler::run` — when a worker survives its tasks

Every turn of the loop touches one fiber, the one it switches in.  If that fiber comes back
in any state but `ERROR`, the worker goes on, and the queue gets shorter unless the fiber has
used up a yield or a call of `schedule()` to be queued again.  If it comes back in state
`ERROR`, then `reset` or the destructor throws, now or when the last reference is dropped.

* `TaskRun.Turn` — everything a turn of the loop can do;
* `TaskRun.throws` — the task the worker takes next throws before it yields;
* `TaskRun.Survives` — what a worker owes its tasks: it runs all of them, no exception leaves
  `run`, the counter of active threads is restored after each, and every fiber that is left
  can be destroyed;
* `TaskRun.survives_iff` — it does so exactly when no task that it switches in throws.
-/

/-! ### Stretches of a callback -/

/-- How often a callback can still put its fiber into the queue. -/
def Body.ops : Body → ℕ
  | .ret | .throw => 0
  | .yieldToReady rest | .schedule rest => ops rest + 1
  | .yieldToHold rest => ops rest

/-- The steps that are left of a fiber. -/
def fiberOps (v : Fiber) : ℕ := v.body.elim 0 Body.ops

/-- A stretch uses up what it puts into the queue. -/
theorem Body.segment_ops (b : Body) :
    b.segment.1 + (if b.segment.2.1 = .ready then 1 else 0) + b.segment.2.2.elim 0 Body.ops = Body.ops b := by
  induction b with
  | ret => rfl
  | throw => rfl
  | yieldToReady rest => simp [Fiber.Body.segment, Body.ops, Nat.add_comm]
  | yieldToHold rest => simp [Fiber.Body.segment, Body.ops]
  | schedule rest ih =>
    show rest.segment.1 + 1 + (if rest.segment.2.1 = .ready then 1 else 0)
      + rest.segment.2.2.elim 0 Body.ops = Body.ops rest + 1
    omega

/-- After a stretch a callback has ended, failed or yielded. -/
theorem Body.segment_state (b : Body) :
    b.segment.2.1 = .term ∨ b.segment.2.1 = .error ∨ b.segment.2.1 = .ready ∨ b.segment.2.1 = .hold := by
  induction b with
  | ret => exact Or.inl rfl
  | throw => exact Or.inr (Or.inl rfl)
  | yieldToReady rest => exact Or.inr (Or.inr (Or.inl rfl))
  | yieldToHold rest => exact Or.inr (Or.inr (Or.inr rfl))
  | schedule rest ih => exact ih

/-- A fiber after a stretch. -/
def fiberAfter (v : Fiber) : Fiber := { v with state := v.segment.2.1, body := v.segment.2.2 }

/-- How often a fiber is put into the queue by a stretch and by what `run` does after it. -/
def requeues (v : Fiber) : ℕ := v.segment.1 + if v.segment.2.1 = .ready then 1 else 0

/-- What a fiber may still be queued for, before and after a stretch. -/
theorem requeues_ops (v : Fiber) : requeues v + fiberOps (fiberAfter v) = fiberOps v := by
  unfold requeues fiberAfter fiberOps Fiber.segment
  cases v.body with
  | none => rfl
  | some b => exact Body.segment_ops b

/-- The states that a fiber may be in after its turn. -/
theorem fiberAfter_state (v : Fiber) :
    (fiberAfter v).state = .term ∨ (fiberAfter v).state = .error ∨ (fiberAfter v).state = .ready ∨
      (fiberAfter v).state = .hold := by
  unfold fiberAfter Fiber.segment
  cases v.body with
  | none => exact Or.inr (Or.inl rfl)
  | some b => exact Body.segment_state b

namespace TaskRun

variable {s s' : TaskRun}

/-! ### One turn -/

/-- The state after a fiber was switched in and is back, and was queued again. -/
def ran (s : TaskRun) (f : ℕ) (v : Fiber) (k : ℕ) : TaskRun :=
  { s with
    fibers := Function.update s.fibers f v
    tasks := s.tasks ++ List.replicate k (.fiber f)
    active := s.active - 1 }

/-- A fiber that is not in `EXEC` runs for a stretch. -/
theorem swapIn_eq {f : ℕ} (h : (s.fibers f).state ≠ .exec) :
    s.swapIn f = .ok (s.ran f (fiberAfter (s.fibers f)) (s.fibers f).segment.1) := by
  unfold swapIn Fiber.swapIn
  rw [if_neg h]
  rfl

@[simp] theorem ran_fibers_self (s : TaskRun) (f : ℕ) (v : Fiber) (k : ℕ) : (s.ran f v k).fibers f = v := by
  simp [ran]

/-- A fiber that has run is queued once more. -/
theorem ran_enqueue (s : TaskRun) (f : ℕ) (v : Fiber) (k : ℕ) :
    (s.ran f v k).enqueue f 1 = s.ran f v (k + 1) := by
  unfold ran enqueue
  rw [List.append_assoc, ← List.replicate_add]

/-- A `HOLD` that is written over a `HOLD` changes nothing. -/
theorem ran_setHold (s : TaskRun) (f : ℕ) {v : Fiber} (k : ℕ) (hv : v.state = .hold) :
    (s.ran f v k).setHold f = s.ran f v k := by
  unfold setHold setFiber
  rw [ran_fibers_self, ← hv]
  simp [ran]

/-- The contents of a fiber that has run are replaced. -/
theorem ran_setFiber (s : TaskRun) (f : ℕ) (v w : Fiber) (k : ℕ) :
    (s.ran f v k).setFiber f w = s.ran f w k := by
  unfold setFiber ran
  rw [Function.update_idem]

/-- The task of a callback, once there is a fiber for it. -/
theorem runTask_cb {body : Body} {s₁ : TaskRun} {g : ℕ} (hprep : s.prepareCb body = .ok (s₁, g))
    (hg : s₁.fibers g = .new (some body)) :
    s.runTask (.cb body) =
      if body.segment.2.1 = .term ∨ body.segment.2.1 = .error then
        (s₁.ran g (fiberAfter (.new (some body))) (requeues (.new (some body)))).resetFiber g none
      else (s₁.ran g (fiberAfter (.new (some body))) (requeues (.new (some body)))).clearCb.release g := by
  -- the fiber of a callback is fresh from `reset` or the constructor
  have hexec : (s₁.fibers g).state ≠ .exec := by rw [hg]; simp [Fiber.new]
  have hstate : (fiberAfter (.new (some body))).state = body.segment.2.1 := rfl
  have hseg : (Fiber.new (some body)).segment = body.segment := rfl
  show (s.prepareCb body).bind _ = _
  rw [hprep]
  show (s₁.swapIn g).bind _ = _
  rw [swapIn_eq hexec, hg]
  show (if _ then _ else if _ then _ else _) = _
  rw [ran_fibers_self, ran_enqueue]
  unfold requeues
  rw [hstate, hseg]
  -- an ended callback's fiber is reset to be used again, and any other is given up
  rcases Body.segment_state body with hst | hst | hst | hst
  all_goals
    simp [hst, hstate, ran_setHold]

/-! ### What one turn does -/

/-- How often a task can still put a fiber into the queue, apart from what its fiber has left. -/
def taskOps : RunTask → ℕ
  | .cb body => Body.ops body
  | .fiber _ => 0

/-- A task throws, or calls an empty function, before it yields. -/
def throwsNow (s : TaskRun) : RunTask → Bool
  | .cb body => body.segment.2.1 = .error
  | .fiber f => (s.fibers f).state ≠ .term ∧ (s.fibers f).state ≠ .error ∧
      (s.fibers f).segment.2.1 = .error

/-- There is a fiber that has ended in state `ERROR`. -/
def Failed (s : TaskRun) (f : ℕ) : Prop := s.alive f = true ∧ (s.fibers f).state = .error

/-- Everything the worker can do with a task `t`: it leaves a fiber `g`, old or new, with the
    contents `v`, puts it into the queue `k` times, and destroys it if `a` is `false`. -/
structure Turn (s : TaskRun) (t : RunTask) (s' : TaskRun) (g : ℕ) (v : Fiber) (k : ℕ) (a : Bool) :
    Prop where
  fibers : s'.fibers = Function.update s.fibers g v
  alive : s'.alive = Function.update s.alive g a
  tasks : s'.tasks = s.tasks ++ List.replicate k (.fiber g)
  active : s'.active = s.active - 1
  place : (s.alive g = true ∧ s'.created = s.created) ∨ (g = s.created ∧ s'.created = s.created + 1)
  stack : v.hasStack = true
  idle : v.state ≠ .exec
  cb : ∀ x, s'.cbFiber = some x → x = g ∨ s.cbFiber = some x
  dropped : a = false → v.state ≠ .error ∧ .fiber g ∉ s'.tasks ∧ s'.cbFiber ≠ some g
  cost : k + fiberOps v ≤ taskOps t + if g < s.created then fiberOps (s.fibers g) else 0
  error : v.state = .error ↔ s.throwsNow t = true ∨ s.Failed g

/-- What holds between two turns. -/
structure Inv (s : TaskRun) : Prop where
  stack : ∀ f, (s.fibers f).hasStack = true
  idle : ∀ f, (s.fibers f).state ≠ .exec
  queued : ∀ f, .fiber f ∈ s.tasks → s.alive f = true
  cb : ∀ g, s.cbFiber = some g → s.alive g = true
  fresh : ∀ f, s.alive f = true → f < s.created

/-- A fiber that has not failed is destroyed without an exception. -/
theorem destroy_of_state {v : Fiber} (hstack : v.hasStack = true) (h : v.state ≠ .error) :
    v.destroy = .ok () := by
  unfold Fiber.destroy
  rw [if_pos hstack, if_neg (mt (State.isIllegal_iff _).mp h)]

/-- A fiber that has failed is destroyed with an exception. -/
theorem destroy_of_error {v : Fiber} (hstack : v.hasStack = true) (h : v.state = .error) :
    v.destroy = .error .destroyState := by
  unfold Fiber.destroy
  rw [if_pos hstack, if_pos ((State.isIllegal_iff _).mpr h)]

/-- A fiber that is reset is as good as a new one. -/
theorem reset_of_state {v : Fiber} (hstack : v.hasStack = true) (h : v.state ≠ .error) (body : Option Body) :
    v.reset body = .ok (.new body) := by
  unfold Fiber.reset
  rw [if_neg (by simp [hstack]), if_neg (mt (State.isIllegal_iff _).mp h), Fiber.new, hstack]

/-- Nor can it be reset. -/
theorem reset_of_error {v : Fiber} (hstack : v.hasStack = true) (h : v.state = .error) (body : Option Body) :
    v.reset body = .error .resetState := by
  unfold Fiber.reset
  rw [if_neg (by simp [hstack]), if_pos ((State.isIllegal_iff _).mpr h)]

/-- How a task may come out: as a turn, or as an exception if the task throws or a fiber has
    failed before. -/
def Outcome (s : TaskRun) (t : RunTask) : Except Exception TaskRun → Prop
  | .error _ => s.throwsNow t = true ∨ ∃ f, s.Failed f
  | .ok s' => ∃ g v k a, Turn s t s' g v k a

/-- The worker drops its reference: only the destructor of a fiber in state `ERROR` throws. -/
theorem Turn.release {t : RunTask} {g k : ℕ} {v : Fiber} (h : Turn s t s' g v k true) :
    s.Outcome t (s'.release g) := by
  have hv : s'.fibers g = v := by rw [h.fibers, Function.update_self]
  unfold TaskRun.release
  by_cases href : s'.referenced g = true
  · rw [if_pos href]
    exact ⟨g, v, k, true, h⟩
  rw [if_neg href, hv]
  -- the last reference is gone: the destructor throws for a fiber that has failed
  by_cases herr : v.state = .error
  · rw [destroy_of_error h.stack herr]
    exact (h.error.mp herr).imp_right fun hf => ⟨g, hf⟩
  · rw [destroy_of_state h.stack herr]
    have hdrop : .fiber g ∉ s'.tasks ∧ s'.cbFiber ≠ some g := by
      unfold referenced at href
      simp only [Bool.or_eq_true, not_or, List.contains_iff_mem, beq_iff_eq] at href
      exact ⟨href.1.1.1.2, href.1.1.2⟩
    refine ⟨g, v, k, false, { h with alive := ?_, dropped := fun _ => ⟨herr, hdrop⟩ }⟩
    show Function.update s'.alive g false = _
    rw [h.alive, Function.update_idem]

/-- The state in which `cb_fiber` holds a callback that is about to run. -/
structure Prepared (s : TaskRun) (body : Body) (s₁ : TaskRun) (g : ℕ) : Prop where
  fibers : s₁.fibers = Function.update s.fibers g (.new (some body))
  alive : s₁.alive = Function.update s.alive g true
  tasks : s₁.tasks = s.tasks
  active : s₁.active = s.active
  place : (s.alive g = true ∧ s₁.created = s.created) ∨ (g = s.created ∧ s₁.created = s.created + 1)
  cb : s₁.cbFiber = some g
  sound : ¬ s.Failed g

/-- A callback has run. -/
theorem Prepared.turn {body : Body} {s₁ : TaskRun} {g : ℕ} (hp : s.Prepared body s₁ g) (v : Fiber)
    (c : Option ℕ) (hstack : v.hasStack = true) (hidle : v.state ≠ .exec)
    (hcost : fiberOps v ≤ fiberOps (fiberAfter (.new (some body))))
    (herr : v.state = .error ↔ body.segment.2.1 = .error) (hcb : ∀ x, c = some x → x = g) :
    Turn s (.cb body) { s₁.ran g v (requeues (.new (some body))) with cbFiber := c } g v
      (requeues (.new (some body))) true where
  fibers := by
    show Function.update s₁.fibers g v = _
    rw [hp.fibers, Function.update_idem]
  alive := hp.alive
  tasks := by
    show s₁.tasks ++ _ = _
    rw [hp.tasks]
  active := by
    show s₁.active - 1 = _
    rw [hp.active]
  place := hp.place
  stack := hstack
  idle := hidle
  cb := fun x hx => Or.inl (hcb x hx)
  dropped := fun hfalse => by simp at hfalse
  -- the callback's own steps pay for its fiber
  cost := by
    have hops : requeues (.new (some body)) + fiberOps (fiberAfter (.new (some body))) = Body.ops body :=
      requeues_ops _
    show _ ≤ Body.ops body + _
    omega
  error := by
    unfold throwsNow
    simp [herr, hp.sound]

/-- After a callback `run` looks at the state of `cb_fiber`. -/
theorem Prepared.outcome {body : Body} {s₁ : TaskRun} {g : ℕ} (hp : s.Prepared body s₁ g)
    (hprep : s.prepareCb body = .ok (s₁, g)) : s.Outcome (.cb body) (s.runTask (.cb body)) := by
  have hg : s₁.fibers g = .new (some body) := by rw [hp.fibers, Function.update_self]
  have hstate : (fiberAfter (.new (some body))).state = body.segment.2.1 := rfl
  rw [runTask_cb hprep hg]
  have hstack : (fiberAfter (.new (some body))).hasStack = true := rfl
  by_cases hended : body.segment.2.1 = .term ∨ body.segment.2.1 = .error
  · rw [if_pos hended]
    unfold resetFiber
    rw [ran_fibers_self]
    -- `reset` takes a fiber that has returned, and throws for one that has failed
    rcases hended with hterm | herror
    · rw [reset_of_state hstack (by simp [hstate, hterm])]
      show s.Outcome _ (.ok ((s₁.ran g _ _).setFiber g _))
      rw [ran_setFiber]
      exact ⟨g, .new none, _, true, hp.turn _ s₁.cbFiber rfl (by simp [Fiber.new]) (Nat.zero_le _)
        (by simp [Fiber.new, hterm]) (fun x hx => by simpa [hp.cb] using hx.symm)⟩
    · rw [reset_of_error hstack (hstate.trans herror)]
      exact Or.inl (by simp [throwsNow, herror])
  · rw [if_neg hended]
    have hidle : (fiberAfter (.new (some body))).state ≠ .exec := by
      rcases fiberAfter_state (.new (some body)) with h | h | h | h <;> simp [h]
    exact (hp.turn _ none hstack hidle le_rfl (by rw [hstate]) (fun x hx => by simp at hx)).release

variable {t : RunTask} {g k : ℕ} {v : Fiber} {a : Bool}

/-- The fiber of the turn is as the turn leaves it. -/
theorem Turn.fiber_self (h : Turn s t s' g v k a) : s'.fibers g = v ∧ s'.alive g = a := by
  rw [h.fibers, h.alive, Function.update_self, Function.update_self]
  exact ⟨rfl, rfl⟩

/-- A turn leaves the other fibers alone. -/
theorem Turn.fiber_of_ne (h : Turn s t s' g v k a) {f : ℕ} (hne : f ≠ g) :
    s'.fibers f = s.fibers f ∧ s'.alive f = s.alive f := by
  rw [h.fibers, h.alive, Function.update_of_ne hne, Function.update_of_ne hne]
  exact ⟨rfl, rfl⟩

/-- A fiber that is referred to is not destroyed. -/
theorem Turn.alive_of_referred (h : Turn s t s' g v k a)
    (href : .fiber g ∈ s'.tasks ∨ s'.cbFiber = some g) : s'.alive g = true := by
  rw [h.fiber_self.2, ← Bool.not_eq_false]
  intro ha
  obtain ⟨-, htask, hcb⟩ := h.dropped ha
  exact href.elim htask hcb

/-- A fiber in state `ERROR` is not destroyed: its destructor would throw. -/
theorem Turn.alive_of_error (h : Turn s t s' g v k a) (herr : v.state = .error) : s'.Failed g := by
  refine ⟨?_, by rw [h.fiber_self.1, herr]⟩
  rw [h.fiber_self.2, ← Bool.not_eq_false]
  intro ha
  exact (h.dropped ha).1 herr

/-- A turn keeps the invariant. -/
theorem Turn.inv (h : Turn s t s' g v k a) (hinv : s.Inv) : s'.Inv where
  stack f := by
    by_cases hf : f = g
    · rw [hf, h.fiber_self.1]
      exact h.stack
    · rw [(h.fiber_of_ne hf).1]
      exact hinv.stack f
  idle f := by
    by_cases hf : f = g
    · rw [hf, h.fiber_self.1]
      exact h.idle
    · rw [(h.fiber_of_ne hf).1]
      exact hinv.idle f
  -- the fiber of the turn stays alive as long as somebody refers to it; the others are as they
  -- were
  queued f hmem := by
    by_cases hf : f = g
    · subst hf
      exact h.alive_of_referred (Or.inl hmem)
    · rw [(h.fiber_of_ne hf).2]
      apply hinv.queued
      simpa [h.tasks, hf] using hmem
  cb f hcb := by
    by_cases hf : f = g
    · subst hf
      exact h.alive_of_referred (Or.inr hcb)
    · rw [(h.fiber_of_ne hf).2]
      exact hinv.cb f ((h.cb f hcb).resolve_left hf)
  fresh f halive := by
    by_cases hf : f = g
    · subst hf
      rcases h.place with ⟨hg, hcreated⟩ | ⟨hg, hcreated⟩
      · exact hcreated ▸ hinv.fresh f hg
      · omega
    · have hlt := hinv.fresh f ((h.fiber_of_ne hf).2 ▸ halive)
      rcases h.place with ⟨-, hcreated⟩ | ⟨-, hcreated⟩ <;> omega

/-- A fiber that has failed stays. -/
theorem Turn.failed (h : Turn s t s' g v k a) {f : ℕ} (hf : s.Failed f) : s'.Failed f := by
  by_cases hfg : f = g
  · subst hfg
    exact h.alive_of_error (h.error.mpr (Or.inr hf))
  · unfold Failed
    rwa [(h.fiber_of_ne hfg).1, (h.fiber_of_ne hfg).2]

/-- What is left to do: the tasks, and what may still be put into the queue. -/
def work (s : TaskRun) : ℕ :=
  s.tasks.length + (s.tasks.map taskOps).sum + ∑ f ∈ Finset.range s.created, fiberOps (s.fibers f)

/-- A task is taken from the queue. -/
def pop (s : TaskRun) (ts : List RunTask) : TaskRun := { s with tasks := ts, active := s.active + 1 }

/-- The task that the worker takes next throws, or calls an empty function, before it yields. -/
def throws (s : TaskRun) : Bool := (s.tasks.find? s.ready).any s.throwsNow

/-- Between two turns no fiber is in `EXEC`, so all tasks may be taken. -/
theorem Inv.ready (hinv : s.Inv) (t : RunTask) : s.ready t = true := by
  cases t with
  | cb body => rfl
  | fiber f => simp [TaskRun.ready, hinv.idle f]

/-- Taking the first task keeps the invariant. -/
theorem Inv.pop {ts : List RunTask} (hinv : s.Inv) (htasks : s.tasks = t :: ts) : (s.pop ts).Inv :=
  { hinv with queued := fun f hf => hinv.queued f (htasks ▸ List.mem_cons_of_mem t hf) }

/-- The fibers of the start have stacks and have not run. -/
theorem start_inv (bodies : List Body) (owned : ℕ → Bool) (tasks : List (Given bodies.length)) :
    (start bodies owned tasks).Inv where
  stack _ := rfl
  idle _ := by simp [start, Fiber.new]
  queued f hf := by
    obtain ⟨t, -, ht⟩ := List.mem_map.mp hf
    cases t with
    | cb body => simp [Given.task] at ht
    | fiber i =>
      cases ht
      simp [start]
  cb _ h := by simp [start] at h
  fresh f h := by simpa [start] using h

end TaskRun

end LoNetfw.Scheduler
