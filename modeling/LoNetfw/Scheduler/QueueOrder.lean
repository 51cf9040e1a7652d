import LoNetfw.Scheduler.Workers
import Mathlib.Data.List.Basic

namespace LoNetfw.Scheduler

open Basis
open LoNetfw.Fiber (State)

/-!
# `Scheduler::run` — how often a task is overtaken

A scan passes over the tasks of other threads and over fibers that are in `EXEC`, so that the queue
is not one of first come, first served.  A callback, however, is passed over only by workers that
may not run it.

* `Pool.scans` — how many scans of workers that may run a task a run has;
* `step_queue` — a step takes the task, or takes one before it, or is no such scan;
* `bounded_overtaking` — a callback with `k` tasks before it is taken by the scan number `k + 1` at
  the latest.
-/

namespace Pool

variable {p p' : Pool} {t : PoolTask} {w : ℕ}

/-- The action is a scan by a worker that may run the task. -/
def isScan (p : Pool) (t : PoolTask) : PoolAction → Bool
  | .step w => (p.worker w).pc == .loop && (t.thread == none || t.thread == some w)
  | _ => false

/-- The number of these in a run. -/
def scans (t : PoolTask) : Pool → List PoolAction → ℕ
  | _, [] => 0
  | p, a :: as => (p.isScan t a).toNat + (step p a).elim 0 fun q => scans t q as

/-- The worker `w` takes the task `t`, which comes after the tasks `pre`. -/
structure TakesNext (p : Pool) (w : ℕ) (pre : List PoolTask) (t : PoolTask) : Prop where
  scan : (p.worker w).pc = .loop
  next : p.nextTask w = some t
  passed : ∀ x ∈ pre, p.eligible w x = false

/-- A step of a worker other than a scan may only add to the queue. -/
theorem workerStep_appends {pc : Pc} (h : p.workerStep w pc = some p') (hpc : pc ≠ .loop) :
    ∃ more, p'.tasks = p.tasks ++ more := by
  cases pc <;> simp only [workerStep, Option.some.injEq, reduceCtorEq] at h
  case loop => exact absurd rfl hpc
  case testIdle =>
    obtain ⟨i, -, rfl⟩ := Option.map_eq_some_iff.mp h
    refine ⟨[], ?_⟩
    rw [List.append_nil]
    split <;> rfl
  -- only a fiber that is `READY` again is added
  case requeue f r =>
    subst h
    refine ⟨[⟨.fiber f, none⟩], ?_⟩
    cases r <;> rfl
  case back f r | writeHold f r =>
    subst h
    refine ⟨[], ?_⟩
    rw [List.append_nil]
    cases r <;> rfl
  all_goals
    subst h
    exact ⟨[], (List.append_nil _).symm⟩

/-- A callback is eligible for every worker that may run it. -/
theorem eligible_cb {c : ℕ} (hwork : t.work = .cb c) (w : ℕ) :
    p.eligible w t = (t.thread == none || t.thread == some w) := by
  rw [eligible, hwork, Bool.and_true]

/-- A scan takes the task at its place, or one before it, or else it may not run the task. -/
theorem pop_queue {c : ℕ} (hwork : t.work = .cb c) {pre post : List PoolTask}
    (htasks : p.tasks = pre ++ t :: post) :
    (p.nextTask w = some t ∧ ∀ x ∈ pre, p.eligible w x = false) ∨
      ∃ pre' post', (p.pop w).tasks = pre' ++ t :: post' ∧
        pre'.length + (t.thread == none || t.thread == some w).toNat ≤ pre.length := by
  rw [← eligible_cb (p := p) hwork w]
  cases hnext : p.nextTask w with
  | none =>
    -- then no task is eligible, `t` included
    have hnot : p.eligible w t = false := by
      have hall := List.find?_eq_none.mp hnext t (by simp [htasks])
      simpa using hall
    refine .inr ⟨pre, post, ?_, by simp [hnot]⟩
    rw [← htasks, pop, hnext]
    rfl
  | some x =>
    obtain ⟨front, back, hsplit, -, hfront, herase⟩ := nextTask_split hnext
    rw [pop_tasks hnext, herase]
    rcases List.append_eq_append_iff.mp (htasks.symm.trans hsplit) with
      ⟨mid, rfl, hmid⟩ | ⟨mid, rfl, hmid⟩
    · cases mid with
      | nil =>
        rw [List.nil_append, List.cons.injEq] at hmid
        rw [List.append_nil] at hfront
        exact .inl ⟨by rw [hmid.1], hfront⟩
      | cons y mid =>
        rw [List.cons_append, List.cons.injEq] at hmid
        obtain ⟨rfl, rfl⟩ := hmid
        have hnot : p.eligible w t = false := hfront t (by simp)
        exact .inr ⟨pre, mid ++ back, by simp, by simp [hnot]⟩
    · cases mid with
      | nil =>
        rw [List.nil_append, List.cons.injEq] at hmid
        refine .inl ⟨by rw [hmid.1], fun y hy => hfront y (by simpa using hy)⟩
      | cons y mid =>
        rw [List.cons_append, List.cons.injEq] at hmid
        obtain ⟨rfl, rfl⟩ := hmid
        refine .inr ⟨front ++ mid, post, by simp, ?_⟩
        have hle := Bool.toNat_le (p.eligible w t)
        simp only [List.length_append, List.length_cons]
        omega

/-- **Step lemma.** A step takes the callback, or brings it forward if it is a scan by a worker that
    may run it, and never puts another task before it. -/
theorem step_queue {c : ℕ} (hwork : t.work = .cb c) {pre post : List PoolTask}
    (htasks : p.tasks = pre ++ t :: post) {a : PoolAction} (hstep : step p a = some p') :
    (∃ w, a = .step w ∧ p.TakesNext w pre t) ∨
      ∃ pre' post', p'.tasks = pre' ++ t :: post' ∧
        pre'.length + (p.isScan t a).toNat ≤ pre.length := by
  -- a step that adds at the back and does not scan leaves what is in front of `t`
  have hkeeps : ∀ more, p'.tasks = p.tasks ++ more → p.isScan t a = false →
      ∃ pre' post', p'.tasks = pre' ++ t :: post' ∧
        pre'.length + (p.isScan t a).toNat ≤ pre.length := by
    intro more hmore hscan
    refine ⟨pre, post ++ more, ?_, by simp [hscan]⟩
    rw [hmore, htasks, List.append_assoc, List.cons_append]
  cases a with
  | step w =>
    simp only [step, Option.ite_none_right_eq_some] at hstep
    obtain ⟨-, hstep⟩ := hstep
    by_cases hpc : (p.worker w).pc = .loop
    · rw [hpc, workerStep, Option.some.injEq] at hstep
      subst hstep
      rcases pop_queue (w := w) hwork htasks with ⟨hnext, hpassed⟩ | hforward
      · exact .inl ⟨w, rfl, hpc, hnext, hpassed⟩
      · refine .inr ?_
        simpa [isScan, hpc] using hforward
    · obtain ⟨more, hmore⟩ := workerStep_appends hstep hpc
      exact .inr (hkeeps more hmore (by simp [isScan, hpc]))
  | leave w st =>
    simp only [step] at hstep
    split at hstep
    · simp only [Option.ite_none_right_eq_some, Option.some.injEq] at hstep
      obtain ⟨-, rfl⟩ := hstep
      exact .inr (hkeeps [] (List.append_nil _).symm rfl)
    · simp at hstep
  | create =>
    obtain rfl := Option.some.inj hstep
    exact .inr (hkeeps [] (List.append_nil _).symm rfl)
  | schedule x =>
    simp only [step] at hstep
    split at hstep
    · simp only [Option.ite_none_right_eq_some, Option.some.injEq] at hstep
      obtain ⟨-, rfl⟩ := hstep
      exact .inr (hkeeps [x] rfl rfl)
    · obtain rfl := Option.some.inj hstep
      exact .inr (hkeeps [x] rfl rfl)

/-- **Bounded overtaking.** For any number of workers, from any state and in any interleaving: a
    callback that is queued with `pre` before it, pinned or not, is taken before the workers that
    may run it have scanned the queue `pre.length + 1` times, and when it is taken, no scan of theirs
    has passed it over. -/
theorem bounded_overtaking (p p' : Pool) (as : List PoolAction) (t : PoolTask) (c : ℕ)
    (pre post : List PoolTask) (hwork : t.work = .cb c) (htasks : p.tasks = pre ++ t :: post)
    (hrun : runFrom step p as = some p') (hscans : pre.length < scans t p as) :
    ∃ as₁ w as₂ q pre', as = as₁ ++ .step w :: as₂ ∧ runFrom step p as₁ = some q ∧
      (∃ post', q.tasks = pre' ++ t :: post') ∧ q.TakesNext w pre' t ∧
      pre'.length + scans t p as₁ ≤ pre.length := by
  -- each scan either takes `t` or shortens what is in front of it
  induction as generalizing p pre post with
  | nil => exact absurd hscans (Nat.not_lt_zero _)
  | cons a as ih =>
    obtain ⟨q, hq, hrest⟩ := runFrom_cons.mp hrun
    rcases step_queue hwork htasks hq with ⟨w, rfl, htakes⟩ | ⟨pre', post', htasks', hle⟩
    · exact ⟨[], w, as, p, pre, rfl, rfl, ⟨post, htasks⟩, htakes, Nat.le_refl _⟩
    · simp only [scans, hq, Option.elim_some] at hscans
      obtain ⟨as₁, w, as₂, q', pre₂, rfl, hrun₁, hpost, htakes, hle₂⟩ :=
        ih q pre' post' htasks' hrest (by omega)
      refine ⟨a :: as₁, w, as₂, q', pre₂, rfl, runFrom_cons.mpr ⟨q, hq, hrun₁⟩, hpost, htakes, ?_⟩
      simp only [scans, hq, Option.elim_some]
      omega

/-- One worker runs a callback and scans again. -/
def runOneCallback : List PoolAction :=
  .flatten [.replicate 4 (.step 0), [.leave 0 .term], .replicate 7 (.step 0)]

/-- Three callbacks, of which the first one is for another worker. -/
theorem bounded_overtaking_pinned_first :
    ∃ p as₁ q, runFrom step (new 2) [.schedule ⟨.cb 0, some 1⟩, .schedule ⟨.cb 1, none⟩,
        .schedule ⟨.cb 2, some 0⟩, .step 0] = some p ∧
      runFrom step p as₁ = some q ∧ ∃ w pre, q.TakesNext w pre ⟨.cb 1, none⟩ := by
  obtain ⟨p, hrun, hp⟩ := (Option.any_eq_true (fun p : Pool =>
    decide (p.tasks = [⟨.cb 0, some 1⟩, ⟨.cb 1, none⟩, ⟨.cb 2, some 0⟩] ∧
      1 < scans ⟨.cb 1, none⟩ p runOneCallback) && (runFrom step p runOneCallback).isSome)
    (runFrom step (new 2) [.schedule ⟨.cb 0, some 1⟩, .schedule ⟨.cb 1, none⟩,
      .schedule ⟨.cb 2, some 0⟩, .step 0])).mp (by decide)
  obtain ⟨hp, hsome⟩ := Bool.and_eq_true_iff.mp hp
  obtain ⟨htasks, hscans⟩ := of_decide_eq_true hp
  obtain ⟨p', hp'⟩ := Option.isSome_iff_exists.mp hsome
  obtain ⟨as₁, w, -, q, pre, -, hq, -, htakes, -⟩ := bounded_overtaking p p' _ ⟨.cb 1, none⟩ 1
    [⟨.cb 0, some 1⟩] [⟨.cb 2, some 0⟩] rfl htasks hp' hscans
  exact ⟨p, as₁, q, hrun, hq, w, pre, htakes⟩

end Pool

end LoNetfw.Scheduler
