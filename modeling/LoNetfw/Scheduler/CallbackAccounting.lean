import LoNetfw.Scheduler.CallbackOwner
import LoNetfw.Basis.Sums
import Mathlib.Algebra.Order.Group.Multiset
import Mathlib.Algebra.BigOperators.Ring.Finset
import Mathlib.Data.Multiset.Range
import Mathlib.Algebra.Ring.Int.Defs
import Mathlib.Tactic.Abel

namespace LoNetfw.Scheduler

open Basis
open LoNetfw.Fiber (State)

/-!
# `Scheduler` — no callback is lost, none starts twice

* `CallbackRun.Books` — the accepted callbacks are queued, held by a worker or started, and
  `m_active_threads_count` is the number of popped tasks;
* `Books.move` — the balance of a step of one worker, from what the step does to that worker's
  own entries;
* `callback_accounting` — the books balance in every interleaving, a pinned task is popped by
  its thread only, and every pop takes the first task the worker may take.
-/

namespace CallbackRun

variable {s s' : CallbackRun} {w f : ℕ}

/-- `held`, from the worker's own data. -/
def heldAt (entry : ℕ → Option ℕ) (tcb : Option ℕ) : Pc → Option ℕ
  | .resetTerm _ true | .resetInit _ true | .resetError _ true | .reset _ true => tcb
  | .testExec g .cb | .writeExec g .cb | .load g .cb => entry g
  | _ => none

/-- What a worker holds depends on its own data. -/
theorem held_eq (s : CallbackRun) (w : ℕ) :
    s.held w = heldAt s.entry (s.taskCb w) (s.pool.worker w).pc := by
  unfold held heldAt
  split <;> simp_all

/-- Only the callback of the fiber the worker works on matters. -/
theorem heldAt_congr {entry entry' : ℕ → Option ℕ} {tcb : Option ℕ} {pc : Pc}
    (h : ∀ g, pc.onCb = true → pc.fiber = some g → entry' g = entry g) :
    heldAt entry' tcb pc = heldAt entry tcb pc := by
  unfold heldAt
  split
  case h_5 g => exact h g rfl rfl
  case h_6 g => exact h g rfl rfl
  case h_7 g => exact h g rfl rfl
  all_goals rfl

/-- Whether a worker counts as active. -/
def counts (t : Option PoolTask) : ℤ := if t.isSome then 1 else 0

structure Books (s : CallbackRun) : Prop where
  callbacks : Multiset.range s.accepted =
    (s.queued : Multiset ℕ) + ∑ w ∈ Finset.range s.pool.size, ((s.held w).toList : Multiset ℕ) +
      (s.started : Multiset ℕ)
  active : s.pool.active = ∑ w ∈ Finset.range s.pool.size, counts (s.popped w)
  popped : ∀ w, (s.pool.worker w).pc ≠ .threw →
    (s.popped w).isSome = (s.pool.worker w).pc.holdsTask
  pinned : ∀ p ∈ s.pops, p.2.thread = none ∨ p.2.thread = some p.1

/-- Nothing has been accepted at first. -/
theorem books_new (n : ℕ) : (new n).Books where
  callbacks := by simp [new, queued, held, Pool.new]
  active := by simp [new, counts, Pool.new]
  popped := by simp [new, Pool.new, Pc.holdsTask]
  pinned := by simp [new]

/-- A step of the worker `w`, from what it does to the entries of `w`. -/
theorem Books.move (h : s.Books) (hw : w < s.pool.size) (hsize : s'.pool.size = s.pool.size)
    (haccepted : s'.accepted = s.accepted) (hheld : ∀ v, v ≠ w → s'.held v = s.held v)
    (hothers : ∀ v, v ≠ w → s'.popped v = s.popped v)
    (hworkers : ∀ v, v ≠ w → (s'.pool.worker v).pc = (s.pool.worker v).pc)
    (hcb : (s'.queued : Multiset ℕ) + (s'.held w).toList + s'.started =
      s.queued + (s.held w).toList + s.started)
    (hactive : s'.pool.active + counts (s.popped w) = s.pool.active + counts (s'.popped w))
    (hpopped : (s'.pool.worker w).pc ≠ .threw →
      (s'.popped w).isSome = (s'.pool.worker w).pc.holdsTask)
    (hpinned : ∀ p ∈ s'.pops, p ∈ s.pops ∨ p.2.thread = none ∨ p.2.thread = some p.1) :
    s'.Books where
  callbacks := by
    have hsum := sum_range_congr_except (f := fun v => ((s.held v).toList : Multiset ℕ))
      (g := fun v => ((s'.held v).toList : Multiset ℕ)) hw (fun v hv => by rw [hheld v hv])
    rw [haccepted, hsize, h.callbacks]
    -- add what `w` held before on both sides
    apply add_right_cancel (b := ((s.held w).toList : Multiset ℕ))
    calc (s.queued : Multiset ℕ) + ∑ v ∈ Finset.range s.pool.size, ((s.held v).toList : Multiset ℕ) +
          s.started + (s.held w).toList
        = ∑ v ∈ Finset.range s.pool.size, ((s.held v).toList : Multiset ℕ) +
          (s.queued + (s.held w).toList + s.started) := by abel
      _ = ∑ v ∈ Finset.range s.pool.size, ((s.held v).toList : Multiset ℕ) + (s'.held w).toList +
          (s'.queued + s'.started) := by rw [← hcb]; abel
      _ = s'.queued + ∑ v ∈ Finset.range s.pool.size, ((s'.held v).toList : Multiset ℕ) +
          s'.started + (s.held w).toList := by rw [← hsum]; abel
  active := by
    have hsum := sum_range_congr_except (f := fun v => counts (s.popped v))
      (g := fun v => counts (s'.popped v)) hw (fun v hv => by rw [hothers v hv])
    have hold := h.active
    rw [hsize]
    omega
  popped := by
    intro v
    by_cases hv : v = w
    · rw [hv]
      exact hpopped
    · rw [hworkers v hv, hothers v hv]
      exact h.popped v
  pinned := fun p hp => (hpinned p hp).elim (h.pinned p) id

/-- A step of the worker `w` that moves no callback and no task. -/
theorem Books.quiet (h : s.Books) (hw : w < s.pool.size) (hsize : s'.pool.size = s.pool.size)
    (haccepted : s'.accepted = s.accepted) (hheld : ∀ v, v ≠ w → s'.held v = s.held v)
    (hworkers : ∀ v, v ≠ w → (s'.pool.worker v).pc = (s.pool.worker v).pc)
    (hqueued : s'.queued = s.queued) (hstarted : s'.started = s.started)
    (hmine : s'.held w = s.held w) (hactive : s'.pool.active = s.pool.active)
    (hpopped : s'.popped = s.popped) (hpops : s'.pops = s.pops)
    (hpc : (s'.pool.worker w).pc ≠ .threw →
      (s.pool.worker w).pc ≠ .threw ∧
        (s'.pool.worker w).pc.holdsTask = (s.pool.worker w).pc.holdsTask) : s'.Books := by
  refine h.move hw hsize haccepted hheld (fun v _ => by rw [hpopped]) hworkers ?_ ?_ ?_ ?_
  · rw [hqueued, hstarted, hmine]
  · rw [hpopped, hactive]
  · intro hne
    rw [hpopped, (hpc hne).2]
    exact h.popped w (hpc hne).1
  · rw [hpops]
    exact fun p hp => Or.inl hp

/-! ### What a step of a worker leaves alone -/

/-- A worker that takes a task leaves the data of the others alone. -/
theorem take_frame (t : PoolTask) (p : Pool) :
    (s.take w t p).pool = p ∧ (s.take w t p).accepted = s.accepted ∧
      (s.take w t p).started = s.started ∧
      (∀ v, v ≠ w → (s.take w t p).taskCb v = s.taskCb v ∧ (s.take w t p).popped v = s.popped v) ∧
      ∀ g, g ≠ s.pool.created → (s.take w t p).entry g = s.entry g := by
  unfold take
  cases t.work with
  | fiber f =>
    exact ⟨rfl, rfl, rfl, fun v hv => ⟨rfl, Function.update_of_ne hv ..⟩, fun _ _ => rfl⟩
  | cb c =>
    cases (s.pool.worker w).cbFiber with
    -- the callback goes to the `cb_fiber` that the worker has,
    | some g =>
      exact ⟨rfl, rfl, rfl, fun v hv => ⟨Function.update_of_ne hv .., Function.update_of_ne hv ..⟩,
        fun _ _ => rfl⟩
    -- or to a new fiber
    | none =>
      exact ⟨rfl, rfl, rfl, fun v hv => ⟨rfl, Function.update_of_ne hv ..⟩,
        fun g hg => Function.update_of_ne hg ..⟩

/-- A worker that takes a task notes the pop. -/
theorem take_history (t : PoolTask) (p : Pool) :
    (s.take w t p).popped = Function.update s.popped w (some t) ∧
      (s.take w t p).pops = s.pops ++ [(w, t)] := by
  unfold take
  cases t.work with
  | fiber f => exact ⟨rfl, rfl⟩
  | cb c => cases (s.pool.worker w).cbFiber <;> exact ⟨rfl, rfl⟩

/-- Nor does any other step of a worker touch the data of the others. -/
theorem record_frame (p : Pool) :
    (s.record w p).pool = p ∧ (s.record w p).accepted = s.accepted ∧
      (∀ v, v ≠ w → (s.record w p).taskCb v = s.taskCb v ∧ (s.record w p).popped v = s.popped v) ∧
      ∀ g, (s.pool.worker w).pc.fiber ≠ some g → g ≠ s.pool.created →
        (s.record w p).entry g = s.entry g := by
  unfold record
  split
  case h_1 =>
    split
    · exact ⟨rfl, rfl, fun _ _ => ⟨rfl, rfl⟩, fun _ _ _ => rfl⟩
    · next t _ =>
      obtain ⟨hp, ha, -, hv, hg⟩ := take_frame (s := s) (w := w) t p
      exact ⟨hp, ha, hv, fun g _ => hg g⟩
  -- `reset` hands the callback over to the fiber
  case h_5 f reuse hpc =>
    refine ⟨rfl, rfl, fun v hv => ⟨Function.update_of_ne hv .., rfl⟩, fun g hg _ => ?_⟩
    rw [hpc] at hg
    have hne : g ≠ f := fun heq => hg (heq ▸ rfl)
    exact Function.update_of_ne hne ..
  -- `swapIn` starts it
  case h_7 f r hpc =>
    refine ⟨rfl, rfl, fun _ _ => ⟨rfl, rfl⟩, fun g hg _ => ?_⟩
    rw [hpc] at hg
    have hne : g ≠ f := fun heq => hg (heq ▸ rfl)
    exact Function.update_of_ne hne ..
  all_goals
    exact ⟨rfl, rfl, fun v hv => ⟨rfl, by first | rfl | exact Function.update_of_ne hv ..⟩,
      fun _ _ _ => rfl⟩

/-- The other workers hold what they held. -/
theorem Owned.held_frame (h : s.Owned) {p : Pool}
    (hp : s.pool.workerStep w (s.pool.worker w).pc = some p) (v : ℕ) (hv : v ≠ w) :
    (s.record w p).held v = s.held v := by
  obtain ⟨hpool, -, hframe, hentry⟩ := record_frame (s := s) (w := w) p
  rw [held_eq, held_eq, hpool, (Pool.workerStep_frame hp).2 v hv, (hframe v hv).1]
  apply heldAt_congr
  intro g hon hg
  obtain ⟨g', hg', hcb, -⟩ := h.onCb hon
  obtain rfl := Option.some.inj (hg.symm.trans hg')
  have hnot := h.hands v g hcb w (Ne.symm hv)
  exact hentry g (fun hf => hnot (Or.inl hf)) (Nat.ne_of_lt (h.bound v g (Or.inl hg)).2)

/-! ### The balance of each step -/

/-- A step of the worker `w` to `k` that the books take no notice of. -/
theorem Books.unnoticed (hb : s.Books) (ho : s.Owned) (hw : w < s.pool.size) {p : Pool} {k : Pc}
    (hp : s.pool.workerStep w (s.pool.worker w).pc = some p)
    (hrec : s.record w p = { s with pool := p })
    (hqueued : p.tasks.filterMap PoolTask.cb? = s.pool.tasks.filterMap PoolTask.cb?)
    (hactive : p.active = s.pool.active) (hpc' : (p.worker w).pc = k)
    (hheld : heldAt s.entry (s.taskCb w) k = heldAt s.entry (s.taskCb w) (s.pool.worker w).pc)
    (hholds : k ≠ .threw → (s.pool.worker w).pc ≠ .threw ∧
      k.holdsTask = (s.pool.worker w).pc.holdsTask) : (s.record w p).Books := by
  -- what the other workers hold is as it was
  have hframe := ho.held_frame hp
  rw [hrec] at hframe ⊢
  refine hb.quiet hw (Pool.workerStep_frame hp).1 rfl hframe
    (fun v hv => by rw [(Pool.workerStep_frame hp).2 v hv]) hqueued rfl ?_ hactive rfl rfl ?_
  · rw [held_eq, held_eq]
    dsimp only
    rw [hpc', hheld]
  · dsimp only
    rw [hpc']
    exact hholds

/-- A worker that is not at its `cb_fiber` holds no callback. -/
theorem heldAt_of_not_onCb {entry : ℕ → Option ℕ} {tcb : Option ℕ} {pc : Pc} (h : pc.onCb = false) :
    heldAt entry tcb pc = none := by
  unfold Pc.onCb at h
  unfold heldAt
  split at h <;> grind

/-- The worker `w` counts its task off. -/
theorem Books.countOff (hb : s.Books) (ho : s.Owned) (hw : w < s.pool.size) {p : Pool} {k : Pc}
    (hp : s.pool.workerStep w (s.pool.worker w).pc = some p)
    (hrec : s.record w p = { s with pool := p, popped := Function.update s.popped w none })
    (htasks : p.tasks = s.pool.tasks) (hactive : p.active = s.pool.active - 1)
    (hpc' : (p.worker w).pc = k)
    (hheld : heldAt s.entry (s.taskCb w) k = heldAt s.entry (s.taskCb w) (s.pool.worker w).pc)
    (hthrew : (s.pool.worker w).pc ≠ .threw) (hholds : (s.pool.worker w).pc.holdsTask = true)
    (hholds' : k.holdsTask = false) : (s.record w p).Books := by
  have hframe := ho.held_frame hp
  rw [hrec] at hframe ⊢
  refine hb.move hw (Pool.workerStep_frame hp).1 rfl hframe (fun v hv => Function.update_of_ne hv ..)
    (fun v hv => by rw [(Pool.workerStep_frame hp).2 v hv]) ?_ ?_ ?_ (fun q hq => Or.inl hq)
  · rw [held_eq, held_eq]
    simp only [queued, hpc', hheld, htasks]
  -- the worker has one task, which is counted off
  · have hcounts : counts (s.popped w) = 1 := by
      simp [counts, hb.popped w hthrew, hholds]
    simp only [hactive, hcounts, Function.update_self]
    simp [counts]
  · intro _
    simp [hpc', hholds']

/-- A step of the worker `w` that is not a pop. -/
theorem Books.workerStep (hb : s.Books) (ho : s.Owned) (hw : w < s.pool.size) {p : Pool}
    (hp : s.pool.workerStep w (s.pool.worker w).pc = some p)
    (hne : (s.pool.worker w).pc ≠ .loop) : (s.record w p).Books := by
  have hp' := hp
  cases hpc : (s.pool.worker w).pc <;>
    simp only [hpc, Pool.workerStep, Option.some.injEq, reduceCtorEq] at hp'
  case loop => exact absurd hpc hne
  case start =>
    subst hp'
    exact hb.unnoticed ho hw hp (by simp only [record, hpc]) rfl rfl (k := .loop)
      (by simp [Pool.setWorker]) (by rw [hpc]; rfl) (by simp [hpc, Pc.holdsTask])
  case testTerm f | testError f | testReady f _ =>
    subst hp'
    refine hb.unnoticed ho hw hp (by simp only [record, hpc]) rfl rfl (Pool.goto_pc ..) ?_ ?_
    · rw [hpc]
      split <;> rfl
    · rw [hpc]
      split <;> simp [Pc.holdsTask]
  case skip =>
    subst hp'
    exact hb.countOff ho hw hp (by simp only [record, hpc]) rfl rfl (Pool.goto_pc ..) (by rw [hpc]; rfl)
      (by simp [hpc]) (by rw [hpc]; rfl) rfl
  case resetTerm f reuse | resetInit f reuse =>
    subst hp'
    refine hb.unnoticed ho hw hp (by simp only [record, hpc]) rfl rfl (Pool.goto_pc ..) ?_ ?_
    · rw [hpc]
      cases reuse <;> split <;> rfl
    · rw [hpc]
      cases reuse <;> split <;> simp [Pc.holdsTask]
  -- `reset` asserts on a failed fiber, which a `cb_fiber` in hand is not
  case resetError f reuse =>
    obtain ⟨g, -, -, hold⟩ := ho.onCb (w := w) (by rw [hpc]; rfl)
    rw [hpc] at hold
    exact hold.elim
  case reset f reuse =>
    subst hp'
    have hframe := ho.held_frame hp
    simp only [record, hpc] at hframe ⊢
    refine hb.quiet hw rfl rfl hframe (fun v hv => by rw [(Pool.workerStep_frame hp).2 v hv]) rfl rfl ?_
      rfl rfl rfl ?_
    · -- the callback goes from `task.cb` into the fiber
      rw [held_eq, held_eq, hpc]
      dsimp only
      rw [Pool.goto_pc]
      cases reuse <;> simp [heldAt]
    · dsimp only
      rw [hpc, Pool.goto_pc]
      cases reuse <;> simp [Pc.holdsTask]
  -- an idle worker has no task
  case testIdle =>
    obtain ⟨i, hi, rfl⟩ := Option.map_eq_some_iff.mp hp'
    by_cases hterm : s.pool.state i = .term
    · simp only [hterm, ↓reduceIte] at hp ⊢
      exact hb.unnoticed ho hw hp (by simp only [record, hpc]) rfl rfl (Pool.goto_pc ..)
        (by rw [hpc]; rfl) (by simp [hpc, Pc.holdsTask])
    · simp only [hterm, ↓reduceIte] at hp ⊢
      exact hb.unnoticed ho hw hp (by simp only [record, hpc]) rfl rfl (Pool.goto_pc ..)
        (by rw [hpc]; rfl) (by simp [hpc, Pc.holdsTask])
  case testExec f r =>
    subst hp'
    refine hb.unnoticed ho hw hp (by simp only [record, hpc]) rfl rfl (Pool.goto_pc ..) ?_ ?_
    · rw [hpc]
      cases r with
      | task => split <;> rfl
      | idle => split <;> rfl
      | cb =>
        obtain ⟨g, hg, -, hold⟩ := ho.onCb (w := w) (by rw [hpc]; rfl)
        rw [hpc] at hg hold
        obtain rfl := Option.some.inj hg
        have hinit : s.pool.state f = .init := hold.2.1
        rw [hinit]
        rfl
    · rw [hpc]
      split <;> simp [Pc.holdsTask]
  case writeExec f r =>
    subst hp'
    refine hb.unnoticed ho hw hp (by simp only [record, hpc]) rfl rfl (Pool.goto_pc ..) ?_ ?_
    · rw [hpc]
      cases r <;> rfl
    · simp [hpc, Pc.holdsTask]
  case load f r =>
    subst hp'
    have hframe := ho.held_frame hp
    simp only [record, hpc] at hframe ⊢
    refine hb.move hw rfl rfl hframe (fun _ _ => rfl)
      (fun v hv => by rw [(Pool.workerStep_frame hp).2 v hv]) ?_ rfl ?_ (fun q hq => Or.inl hq)
    · -- the callback of the fiber starts; other fibers have none
      have hmine : heldAt s.entry (s.taskCb w) (.load f r) = s.entry f := by
        by_cases hr : r = .cb
        · rw [hr]
          rfl
        · have hon : (Pc.load f r).onCb = false := by simpa [Pc.onCb] using hr
          rw [heldAt_of_not_onCb hon]
          exact (ho.entry_eq_none (ho.not_cbFiber (by rwa [hpc]) (by rw [hpc]; rfl))).symm
      rw [held_eq, held_eq, hpc, hmine]
      dsimp only
      rw [Pool.goto_pc]
      simp only [heldAt, Option.toList_none, Multiset.coe_nil, add_zero, ← Multiset.coe_add]
      rw [add_right_comm, add_assoc]
      rfl
    · intro _
      dsimp only
      rw [Pool.goto_pc]
      exact (hb.popped w (by simp [hpc])).trans (by rw [hpc]; rfl)
  case save f r =>
    subst hp'
    have hframe := ho.held_frame hp
    simp only [record, hpc] at hframe ⊢
    refine hb.quiet hw rfl rfl hframe (fun v hv => by rw [(Pool.workerStep_frame hp).2 v hv]) rfl rfl ?_
      rfl rfl rfl ?_
    · rw [held_eq, held_eq, hpc]
      dsimp only
      rw [Pool.goto_pc]
      rfl
    · dsimp only
      rw [hpc, Pool.goto_pc]
      simp [Pc.holdsTask]
  case back f r =>
    cases r <;> subst hp'
    · exact hb.countOff ho hw hp (by simp only [record, hpc]) rfl rfl (Pool.goto_pc ..) (by rw [hpc]; rfl)
        (by simp [hpc]) (by rw [hpc]; rfl) rfl
    · exact hb.countOff ho hw hp (by simp only [record, hpc]) rfl rfl (Pool.goto_pc ..) (by rw [hpc]; rfl)
        (by simp [hpc]) (by rw [hpc]; rfl) rfl
    · exact hb.unnoticed ho hw hp (by simp only [record, hpc]) rfl rfl (Pool.goto_pc ..) (by rw [hpc]; rfl)
        (by simp [hpc, Pc.holdsTask])
  -- a fiber that is scheduled again carries no callback that has not started
  case requeue f r =>
    subst hp'
    refine hb.unnoticed ho hw hp (by simp only [record, hpc]) ?_ ?_ (Pool.goto_pc ..) ?_ ?_
    · cases r <;> simp [Pool.dropCb, Pool.goto, Pool.setWorker, Pool.enqueue, PoolTask.cb?]
    · cases r <;> rfl
    · rw [hpc]
      rfl
    · simp [hpc, Pc.holdsTask]
  case testEnded f r | testFailed f r =>
    subst hp'
    refine hb.unnoticed ho hw hp (by simp only [record, hpc]) rfl rfl (Pool.goto_pc ..) ?_ ?_
    · rw [hpc]
      cases r <;> split <;> rfl
    · rw [hpc]
      cases r <;> split <;> simp [Pc.holdsTask]
  case writeHold f r =>
    subst hp'
    refine hb.unnoticed ho hw hp (by simp only [record, hpc]) ?_ ?_ (Pool.goto_pc ..) ?_ ?_
    · cases r <;> rfl
    · cases r <;> rfl
    · rw [hpc]
      rfl
    · simp [hpc, Pc.holdsTask]

/-- The callback of the task that is taken out of a queue. -/
theorem queue_take (pre post : List PoolTask) (t : PoolTask) :
    ((pre ++ post).filterMap PoolTask.cb? : Multiset ℕ) + (t.cb?.toList : Multiset ℕ) =
      ((pre ++ t :: post).filterMap PoolTask.cb? : Multiset ℕ) := by
  cases h : t.cb? with
  | none => simp [h]
  | some c =>
    rw [Multiset.coe_add, Multiset.coe_eq_coe]
    simp only [List.filterMap_append, List.filterMap_cons, h, Option.toList_some, List.append_assoc]
    exact List.Perm.append_left _ (List.perm_append_singleton c _)

/-- The worker `w` takes the task `t`. -/
theorem Books.take (hb : s.Books) (hw : w < s.pool.size) {t : PoolTask} {p : Pool} {k : Pc}
    (hpc : (s.pool.worker w).pc = .loop) (hnext : s.pool.nextTask w = some t)
    (hsize : p.size = s.pool.size) (hworkers : ∀ v, v ≠ w → p.worker v = s.pool.worker v)
    (hframe : ∀ v, v ≠ w → (s.take w t p).held v = s.held v)
    (htasks : p.tasks = s.pool.tasks.erase t) (hactive : p.active = s.pool.active + 1)
    (hpc' : (p.worker w).pc = k) (hholds : k.holdsTask = true)
    (hheld : heldAt (s.take w t p).entry ((s.take w t p).taskCb w) k = t.cb?) :
    (s.take w t p).Books := by
  obtain ⟨hpopped, hpops⟩ := take_history (s := s) (w := w) t p
  obtain ⟨hpool, haccepted, hstarted, -, -⟩ := take_frame (s := s) (w := w) t p
  obtain ⟨pre, post, hsplit, helig, -, herase⟩ := Pool.nextTask_split hnext
  refine hb.move hw (by rw [hpool, hsize]) haccepted hframe ?_ ?_ ?_ ?_ ?_ ?_
  · intro v hv
    rw [hpopped, Function.update_of_ne hv]
  · intro v hv
    rw [hpool, hworkers v hv]
  · -- the callback of `t` goes from the queue into the hand of `w`
    -- at the head of the loop the worker has nothing in hand
    have hmine : s.held w = none := by
      rw [held_eq, hpc]
      rfl
    rw [held_eq, hpool, hpc', hheld, hstarted, hmine]
    simp only [queued, hpool, htasks, Option.toList_none, Multiset.coe_nil, add_zero]
    rw [herase, queue_take, ← hsplit]
  -- nor has it popped anything
  · have hnone : s.popped w = none := by
      have h := hb.popped w (by simp [hpc])
      rw [hpc] at h
      simpa [Pc.holdsTask] using h
    rw [hpool, hactive, hpopped, Function.update_self, hnone]
    simp [counts]
  · intro _
    rw [hpopped, Function.update_self, hpool, hpc', hholds]
    rfl
  · intro q hq
    rw [hpops] at hq
    rcases List.mem_append.mp hq with hold | hnew
    · exact Or.inl hold
    · right
      rw [List.mem_singleton.mp hnew]
      simp only [Pool.eligible, Bool.and_eq_true, Bool.or_eq_true, beq_iff_eq] at helig
      exact helig.1

/-- A pop of the worker `w`. -/
theorem Books.pop (hb : s.Books) (ho : s.Owned) (hw : w < s.pool.size)
    (hpc : (s.pool.worker w).pc = .loop) : (s.record w (s.pool.pop w)).Books := by
  have hp : s.pool.workerStep w (s.pool.worker w).pc = some (s.pool.pop w) := by rw [hpc]; rfl
  have hframe := ho.held_frame hp
  obtain ⟨hsize, hworkers⟩ := Pool.workerStep_frame hp
  cases hnext : s.pool.nextTask w with
  | none =>
    have hpop : s.pool.pop w = s.pool.goto w .testIdle := by simp only [Pool.pop, hnext]
    rw [hpop] at hp ⊢
    exact hb.unnoticed ho hw hp (by simp only [record, hpc, hnext]) rfl rfl (Pool.goto_pc ..)
      (by rw [hpc]; rfl) (by simp [hpc, Pc.holdsTask])
  | some t =>
    have hrec : s.record w (s.pool.pop w) = s.take w t (s.pool.pop w) := by
      simp only [record, hpc, hnext]
    rw [hrec] at hframe ⊢
    cases hwork : t.work with
    | fiber f =>
      refine hb.take hw hpc hnext hsize hworkers hframe (k := .testTerm f) ?_ ?_ ?_ rfl ?_
      all_goals simp [Pool.pop, hnext, hwork, Pool.goto, Pool.setWorker, heldAt, PoolTask.cb?]
    | cb c =>
      cases hcb : (s.pool.worker w).cbFiber with
      -- `cb_fiber` is used again,
      | some g =>
        refine hb.take hw hpc hnext hsize hworkers hframe (k := .resetTerm g true) ?_ ?_ ?_ rfl ?_
        all_goals simp [Pool.pop, hnext, hwork, hcb, Pool.goto, Pool.setWorker, CallbackRun.take,
          heldAt, PoolTask.cb?]
      | none =>
        refine hb.take hw hpc hnext hsize hworkers hframe (k := .testExec s.pool.created .cb)
          ?_ ?_ ?_ rfl ?_
        all_goals simp [Pool.pop, hnext, hwork, hcb, Pool.newFiber, Pool.setState, Pool.setSaved,
          Pool.setWorker, CallbackRun.take, heldAt, PoolTask.cb?]

/-- The callbacks of a batch are numbered one after the other. -/
theorem batch_cbs (first : ℕ) (thread : Option ℕ) (cbs : List Bool) :
    (batch first thread cbs).filterMap PoolTask.cb? =
      List.range' first (batch first thread cbs).length := by
  induction cbs generalizing first with
  | nil => rfl
  | cons b cbs ih =>
    cases b with
    | false => exact ih first
    | true =>
      simp only [batch, List.filterMap_cons, PoolTask.cb?, List.length_cons, List.range'_succ]
      rw [ih (first + 1)]

/-- The numbers of a batch are the next ones after those that were accepted before. -/
theorem range_add_batch (a n : ℕ) :
    Multiset.range (a + n) = Multiset.range a + (List.range' a n : Multiset ℕ) := by
  rw [Multiset.range, Multiset.range, Multiset.coe_add, List.range_add, List.range'_eq_map_range]

/-- A step that leaves the workers and the books alone. -/
theorem Books.frame (hb : s.Books) (hsize : s'.pool.size = s.pool.size)
    (hpcs : ∀ v, (s'.pool.worker v).pc = (s.pool.worker v).pc) (hheld : ∀ v, s'.held v = s.held v)
    (hactive : s'.pool.active = s.pool.active) (hstarted : s'.started = s.started)
    (hpopped : s'.popped = s.popped) (hpops : s'.pops = s.pops)
    (hqueued : Multiset.range s'.accepted + (s.queued : Multiset ℕ) =
      Multiset.range s.accepted + (s'.queued : Multiset ℕ)) : s'.Books where
  callbacks := by
    -- what is queued may change as long as the accepted callbacks change with it
    apply add_right_cancel (b := (s.queued : Multiset ℕ))
    rw [hqueued, hb.callbacks, hsize, hstarted]
    simp only [hheld]
    abel
  active := by rw [hactive, hsize, hpopped, hb.active]
  popped := by
    intro v
    rw [hpcs, hpopped]
    exact hb.popped v
  pinned := by rw [hpops]; exact hb.pinned

/-- **Step.** The books balance after every step. -/
theorem step_books {a : CallbackAction} (ho : s.Owned) (hb : s.Books) (hstep : step s a = some s') :
    s'.Books := by
  cases a with
  -- the batch is accepted and queued at once
  | schedule cbs thread =>
    cases hstep
    refine hb.frame rfl (fun _ => rfl) (fun _ => rfl) rfl rfl rfl rfl ?_
    simp only [queued, List.filterMap_append, batch_cbs, range_add_batch, ← Multiset.coe_add]
    abel
  -- a fiber in the queue is no callback
  | scheduleFiber f thread =>
    obtain ⟨p, hp, rfl⟩ := Option.map_eq_some_iff.mp hstep
    simp only [Pool.step, Option.ite_none_right_eq_some, Option.some.injEq] at hp
    obtain ⟨-, rfl⟩ := hp
    refine hb.frame rfl (fun _ => rfl) (fun _ => rfl) rfl rfl rfl rfl ?_
    have hnone : [(⟨.fiber f, thread⟩ : PoolTask)].filterMap PoolTask.cb? = [] := rfl
    simp only [queued, Pool.enqueue, List.filterMap_append, hnone, List.append_nil]
  | create =>
    cases hstep
    exact hb.frame rfl (fun _ => rfl) (fun _ => rfl) rfl rfl rfl rfl rfl
  | leave w st =>
    obtain ⟨p, hp, rfl⟩ := Option.map_eq_some_iff.mp hstep
    simp only [Pool.step] at hp
    split at hp
    · next f r hpc =>
      simp only [Option.ite_none_right_eq_some, Option.some.injEq] at hp
      obtain ⟨-, rfl⟩ := hp
      have hw := (ho.bound w f (Or.inl (by rw [hpc]; rfl))).1
      -- only the worker that leaves moves
      have hother : ∀ v, v ≠ w → ((s.pool.setState f st).goto w (.save f r)).worker v =
          s.pool.worker v := fun v hv => Function.update_of_ne hv ..
      refine hb.quiet hw rfl rfl (fun v hv => ?_) (fun v hv => by rw [hother v hv]) rfl rfl ?_ rfl rfl
        rfl ?_
      · rw [held_eq, held_eq]
        dsimp only
        rw [hother v hv]
      · rw [held_eq, held_eq, hpc]
        dsimp only
        rw [Pool.goto_pc]
        rfl
      · dsimp only
        rw [hpc, Pool.goto_pc]
        simp [Pc.holdsTask]
    · cases hp
  | step w =>
    obtain ⟨hw, p, hp, rfl⟩ := step_worker hstep
    by_cases hloop : (s.pool.worker w).pc = .loop
    · have hpop : s.pool.pop w = p := by simpa [hloop, Pool.workerStep] using hp
      subst hpop
      exact hb.pop ho hw hloop
    · exact hb.workerStep ho hw hp hloop

/-- What a step of the worker `w` does to the queue when it is a pop: nothing, if there is no
    task it may take, and else it takes out the first of those. -/
def PopsFirst (s s' : CallbackRun) (w : ℕ) : Prop :=
  ((∀ t ∈ s.pool.tasks, s.pool.eligible w t = false) ∧ s'.pool.tasks = s.pool.tasks ∧
    s'.pops = s.pops) ∨
  ∃ pre t post, s.pool.tasks = pre ++ t :: post ∧ s.pool.eligible w t = true ∧
    (∀ x ∈ pre, s.pool.eligible w x = false) ∧ s'.pool.tasks = pre ++ post ∧
    s'.pops = s.pops ++ [(w, t)]

/-- What the scan of `run` takes. -/
theorem step_popsFirst (hstep : step s (.step w) = some s') (hpc : (s.pool.worker w).pc = .loop) :
    s.PopsFirst s' w := by
  obtain ⟨hw, p, hp, rfl⟩ := step_worker hstep
  have hpop : s.pool.pop w = p := by simpa [hpc, Pool.workerStep] using hp
  subst hpop
  cases hnext : s.pool.nextTask w with
  | none =>
    refine Or.inl ⟨?_, ?_, ?_⟩
    · simpa [Pool.nextTask] using hnext
    · simp [record, hpc, hnext, Pool.pop, Pool.goto, Pool.setWorker]
    · simp [record, hpc, hnext]
  | some t =>
    -- the tasks in front of the popped one are passed over
    obtain ⟨pre, post, hsplit, helig, hpre, herase⟩ := Pool.nextTask_split hnext
    have hrec : s.record w (s.pool.pop w) = s.take w t (s.pool.pop w) := by
      simp only [record, hpc, hnext]
    rw [hrec]
    refine Or.inr ⟨pre, t, post, hsplit, helig, hpre, ?_, (take_history t _).2⟩
    rw [(take_frame t _).1, Pool.pop_tasks hnext, herase]

/-- **No callback is lost or started twice**, as long as no callback throws and nobody pops a fiber
    that is still a worker's `cb_fiber`. For any number of workers and in every interleaving of
    their steps with calls of `schedule`, in every state reached: the accepted callbacks are those in
    `m_tasks`, those held by a worker and those started, each once; none was started twice; a task
    with a thread was popped by that thread only; every pop takes the first task of `m_tasks` that
    the worker may take; and `m_active_threads_count` is the number of workers that hold a popped
    task, which are those between a pop and its decrement (a worker that an exception ended keeps its
    own). -/
theorem callback_accounting (n : ℕ) (as : List CallbackAction) (s : CallbackRun)
    (hreturns : Along step CallbackReturns (new n) as) (hfree : Along step PopsNoCbFiber (new n) as)
    (hrun : runFrom step (new n) as = some s) :
    Multiset.range s.accepted =
      (s.queued : Multiset ℕ) + ∑ w ∈ Finset.range s.pool.size, ((s.held w).toList : Multiset ℕ) +
        (s.started : Multiset ℕ) ∧
    s.started.Nodup ∧
    (∀ p ∈ s.pops, p.2.thread = none ∨ p.2.thread = some p.1) ∧
    (∀ w s', step s (.step w) = some s' → (s.pool.worker w).pc = .loop → s.PopsFirst s' w) ∧
    s.pool.active = ((Finset.range s.pool.size).filter (fun w => (s.popped w).isSome)).card ∧
    (∀ w, (s.pool.worker w).pc ≠ .threw → (s.popped w).isSome = (s.pool.worker w).pc.holdsTask) := by
  -- the books are balanced in every state, as `Owned` holds along with them
  obtain ⟨-, hb⟩ : s.Owned ∧ s.Books := by
    refine run_invariant (I := fun s => s.Owned ∧ s.Books) ?_ ⟨owned_new n, books_new n⟩
      (hreturns.and hfree) hrun
    rintro t a t' ⟨ho, hb⟩ ⟨hreturns, hfree⟩ hstep
    exact ⟨step_owned ho hreturns hfree hstep, step_books ho hb hstep⟩
  refine ⟨hb.callbacks, ?_, hb.pinned, fun w s' => step_popsFirst, ?_, hb.popped⟩
  -- callbacks are numbered by their acceptance, so none is there twice
  · have hnodup := Multiset.nodup_range s.accepted
    rw [hb.callbacks] at hnodup
    exact (Multiset.nodup_add.mp hnodup).2.1
  · rw [hb.active]
    simp [counts, Finset.sum_boole]

/-- One worker and a batch of two callbacks, one of the functions in it empty: the first schedules
    the fiber it runs on and yields to HOLD, and the worker lets go of that fiber before anybody can
    pop it. -/
theorem callback_accounting_batch :
    ∃ s, runFrom step (new 1)
        ([.schedule [true, false, true] none, .step 0, .step 0, .step 0, .step 0, .step 0,
          .scheduleFiber 1 none, .leave 0 .hold] ++ List.replicate 6 (.step 0)) = some s ∧
      s.accepted = 2 ∧ s.started = [0] ∧ s.queued = [1] ∧ s.pool.active = 0 ∧ s.started.Nodup := by
  obtain ⟨s, hrun, hstate⟩ : ∃ s, runFrom step (new 1)
      ([.schedule [true, false, true] none, .step 0, .step 0, .step 0, .step 0, .step 0,
        .scheduleFiber 1 none, .leave 0 .hold] ++ List.replicate 6 (.step 0)) = some s ∧
      s.accepted = 2 ∧ s.started = [0] ∧ s.queued = [1] ∧ s.pool.active = 0 :=
    ⟨_, rfl, by decide, by decide, by decide, by decide⟩
  have hall := callback_accounting 1 _ s (by decide) (by decide) hrun
  exact ⟨s, hrun, hstate.1, hstate.2.1, hstate.2.2.1, hstate.2.2.2, hall.2.1⟩

/-- Two workers and one callback, which runs on the worker 0, schedules its own fiber 2 and yields to
    HOLD. Before its context is saved the worker 1 pops the fiber and loads the context it was made
    with: the callback is started a second time, although it never throws. -/
theorem callback_started_twice :
    let as : List CallbackAction :=
      [.step 0, .step 1, .schedule [true] none, .step 0, .step 0, .step 0, .step 0,
        .scheduleFiber 2 none, .leave 0 .hold] ++ List.replicate 6 (.step 1)
    Along step CallbackReturns (new 2) as ∧
    ∃ s, runFrom step (new 2) as = some s ∧ s.accepted = 1 ∧ s.started = [0, 0] ∧
      ¬ s.started.Nodup ∧
      Multiset.range s.accepted ≠ (s.queued : Multiset ℕ) +
        ∑ w ∈ Finset.range s.pool.size, ((s.held w).toList : Multiset ℕ) +
          (s.started : Multiset ℕ) := by
  refine ⟨by decide, _, rfl, by decide, by decide, by decide, ?_⟩
  -- one callback was accepted and two starts are counted
  intro heq
  have hcard := congrArg Multiset.card heq
  revert hcard
  decide

end CallbackRun

end LoNetfw.Scheduler
