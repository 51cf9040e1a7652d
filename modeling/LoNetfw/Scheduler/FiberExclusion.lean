import LoNetfw.Scheduler.Workers
import Mathlib.Data.List.Basic

namespace LoNetfw.Scheduler

open Basis
open LoNetfw.Fiber (State)

/-!
# `Scheduler::run` — when a fiber runs on one worker at a time

A worker has a fiber in hand from the moment it takes it from the queue to its last access
to it; its `cb_fiber` and its `idle_fiber` it has in hand all the time.  Nothing in the code
keeps a second worker from taking a fiber that a first one still has in hand: the pop only
tests for `EXEC`, which the fiber itself overwrites before its context is saved.

* `Worker.Holds` — a worker has a fiber in hand;
* `Pool.Unshared` — the condition on a step: a worker takes a fiber that no other has in hand;
* `Pool.Inv` — fibers are in one hand at most, and the state and the context of each fiber
  agree with what its holder is doing;
* `fiber_mutual_exclusion` — what holds in every interleaving of such steps;
* `resumed_before_saved` — an interleaving without the condition.
-/

/-- The fiber a worker is inside: from the write of `EXEC` until its context is saved. -/
def Pc.inside : Pc → Option ℕ
  | .load f _ | .running f _ | .save f _ => some f
  | _ => none

/-- A worker works on the fiber that it executes. -/
theorem Pc.fiber_of_executing {pc : Pc} {f : ℕ} (h : pc.executing = some f) : pc.fiber = some f := by
  cases pc <;> simp_all [Pc.executing, Pc.fiber]

/-- A worker works on the fiber whose context it has loaded. -/
theorem Pc.fiber_of_loaded {pc : Pc} {f : ℕ} (h : pc.loaded = some f) : pc.fiber = some f := by
  cases pc <;> simp_all [Pc.loaded, Pc.fiber]

/-- A worker works on the fiber that it is inside. -/
theorem Pc.fiber_of_inside {pc : Pc} {f : ℕ} (h : pc.inside = some f) : pc.fiber = some f := by
  cases pc <;> simp_all [Pc.inside, Pc.fiber]

/-- The worker has a fiber in hand: it works on it, or it is its `cb_fiber` or `idle_fiber`. -/
def Worker.Holds (wk : Worker) (f : ℕ) : Prop :=
  wk.pc.fiber = some f ∨ wk.cbFiber = some f ∨ wk.idleFiber = some f

instance (wk : Worker) (f : ℕ) : Decidable (wk.Holds f) :=
  inferInstanceAs (Decidable (wk.pc.fiber = some f ∨ wk.cbFiber = some f ∨ wk.idleFiber = some f))

namespace Pool

variable {s s' : Pool} {w f : ℕ}

structure Inv (s : Pool) : Prop where
  /-- A fiber is in one hand at most. -/
  held : ∀ w w' f, (s.worker w).Holds f → (s.worker w').Holds f → w = w'
  bound : ∀ w f, (s.worker w).Holds f → w < s.size ∧ f < s.created
  queued : ∀ t ∈ s.tasks, ∀ f, t.work = .fiber f → f < s.created
  exec : ∀ f, s.state f = .exec ↔ ∃ w, (s.worker w).pc.executing = some f
  saved : ∀ f, s.saved f = false ↔ ∃ w, (s.worker w).pc.loaded = some f
  torn : s.torn = false

/-- No worker has a fiber at first. -/
theorem inv_new (n : ℕ) : (new n).Inv where
  held := fun w w' f h => absurd h (by simp [new, Worker.Holds, Pc.fiber])
  bound := fun w f h => absurd h (by simp [new, Worker.Holds, Pc.fiber])
  queued := fun t ht => absurd ht (by simp [new])
  exec := fun f => by simp [new, Pc.executing]
  saved := fun f => by simp [new, Pc.loaded]
  torn := rfl

/-- The state of a fiber in the hand of `w` says what `w` is doing. -/
theorem Inv.exec_iff (h : s.Inv) (hf : (s.worker w).Holds f) :
    s.state f = .exec ↔ (s.worker w).pc.executing = some f := by
  rw [h.exec f]
  constructor
  · rintro ⟨w', hw'⟩
    have hww' := h.held w w' f hf (Or.inl (Pc.fiber_of_executing hw'))
    rw [hww']
    exact hw'
  · intro hw
    exact ⟨w, hw⟩

/-- A fiber in hand is saved unless its worker has its context loaded. -/
theorem Inv.saved_iff (h : s.Inv) (hf : (s.worker w).Holds f) :
    s.saved f = false ↔ (s.worker w).pc.loaded = some f := by
  rw [h.saved f]
  constructor
  · rintro ⟨w', hw'⟩
    have hww' := h.held w w' f hf (Or.inl (Pc.fiber_of_loaded hw'))
    rw [hww']
    exact hw'
  · intro hw
    exact ⟨w, hw⟩

/-! ### What a step of one worker keeps -/

/-- Who executes a fiber, or has loaded it, after the worker `w` has become `wk`: nobody but
    `wk`, if `w` has to do with the fiber. -/
theorem exists_worker_of_hand {wk : Worker} {P : Worker → Prop} (hP : ∀ v, P v → v.Holds f)
    (hworker : s'.worker = Function.update s.worker w wk)
    (hexcl : ∀ w', w' ≠ w → ¬ (s.worker w').Holds f) : (∃ v, P (s'.worker v)) ↔ P wk := by
  rw [hworker]
  constructor
  · rintro ⟨v, hv⟩
    by_cases hvw : v = w
    · rwa [hvw, Function.update_self] at hv
    · rw [Function.update_of_ne hvw] at hv
      exact absurd (hP _ hv) (hexcl v hvw)
  · intro hwk
    exact ⟨w, by rwa [Function.update_self]⟩

/-- A fiber that the worker's new state does not hold is held by the same workers as before. -/
theorem exists_worker_of_no_hand {wk : Worker} {P : Worker → Prop} (hP : ∀ v, P v → v.Holds f)
    (hworker : s'.worker = Function.update s.worker w wk) (hwk : ¬ wk.Holds f)
    (hw : ¬ (s.worker w).Holds f) : (∃ v, P (s'.worker v)) ↔ ∃ v, P (s.worker v) := by
  rw [hworker]
  constructor
  · rintro ⟨v, hv⟩
    by_cases hvw : v = w
    · rw [hvw, Function.update_self] at hv
      exact absurd (hP _ hv) hwk
    · exact ⟨v, by rwa [Function.update_of_ne hvw] at hv⟩
  · rintro ⟨v, hv⟩
    by_cases hvw : v = w
    · rw [hvw] at hv
      exact absurd (hP _ hv) hw
    · exact ⟨v, by rwa [Function.update_of_ne hvw]⟩

/-- The worker `w` becomes `wk`.  The fibers it has in hand before or after are in no other
    hand, and agree with what `wk` does; everything about the other fibers is unchanged. -/
theorem Inv.move (h : s.Inv) {wk : Worker} (hw : w < s.size)
    (hworker : s'.worker = Function.update s.worker w wk) (hsize : s'.size = s.size)
    (hcreated : s.created ≤ s'.created)
    (hqueued : ∀ t ∈ s'.tasks, ∀ f, t.work = .fiber f → f < s'.created)
    (hbound : ∀ f, wk.Holds f → f < s'.created)
    (hexcl : ∀ f, wk.Holds f → ∀ w', w' ≠ w → ¬ (s.worker w').Holds f)
    (hmine : ∀ f, wk.Holds f ∨ (s.worker w).Holds f →
      (s'.state f = .exec ↔ wk.pc.executing = some f) ∧
      (s'.saved f = false ↔ wk.pc.loaded = some f))
    (hframe : ∀ f, ¬ (wk.Holds f ∨ (s.worker w).Holds f) →
      s'.state f = s.state f ∧ s'.saved f = s.saved f)
    (htorn : s'.torn = false) : s'.Inv := by
  have hself : s'.worker w = wk := by rw [hworker, Function.update_self]
  have hother : ∀ w', w' ≠ w → s'.worker w' = s.worker w' := fun w' hw' => by
    rw [hworker, Function.update_of_ne hw']
  -- what `w` has had or has now is in no other hand
  have hexcl' : ∀ f, wk.Holds f ∨ (s.worker w).Holds f → ∀ w', w' ≠ w → ¬ (s.worker w').Holds f := by
    intro f hf w' hw' hf'
    rcases hf with hf | hf
    · exact hexcl f hf w' hw' hf'
    · exact hw' (h.held w' w f hf' hf)
  refine ⟨fun v v' f hv hv' => ?_, fun v f hv => ?_, hqueued, fun f => ?_, fun f => ?_, htorn⟩
  · by_cases hvw : v = w <;> by_cases hvw' : v' = w
    · rw [hvw, hvw']
    · rw [hvw, hself] at hv
      rw [hother v' hvw'] at hv'
      exact absurd hv' (hexcl f hv v' hvw')
    · rw [hother v hvw] at hv
      rw [hvw', hself] at hv'
      exact absurd hv (hexcl f hv' v hvw)
    · rw [hother v hvw] at hv
      rw [hother v' hvw'] at hv'
      exact h.held v v' f hv hv'
  · by_cases hvw : v = w
    · rw [hvw, hself] at hv
      exact ⟨hvw ▸ hsize ▸ hw, hbound f hv⟩
    · rw [hother v hvw] at hv
      obtain ⟨hv, hf⟩ := h.bound v f hv
      exact ⟨hsize ▸ hv, Nat.lt_of_lt_of_le hf hcreated⟩
  -- a fiber is in `EXEC` while a worker executes it: that worker is `w`, or has not moved
  · have hP : ∀ v : Worker, v.pc.executing = some f → v.Holds f :=
      fun v hv => Or.inl (Pc.fiber_of_executing hv)
    by_cases hf : wk.Holds f ∨ (s.worker w).Holds f
    · rw [exists_worker_of_hand hP hworker (hexcl' f hf), (hmine f hf).1]
    · rw [(hframe f hf).1, h.exec f]
      rw [not_or] at hf
      exact (exists_worker_of_no_hand hP hworker hf.1 hf.2).symm
  · have hP : ∀ v : Worker, v.pc.loaded = some f → v.Holds f :=
      fun v hv => Or.inl (Pc.fiber_of_loaded hv)
    by_cases hf : wk.Holds f ∨ (s.worker w).Holds f
    · rw [exists_worker_of_hand hP hworker (hexcl' f hf), (hmine f hf).2]
    · rw [(hframe f hf).2, h.saved f]
      rw [not_or] at hf
      exact (exists_worker_of_no_hand hP hworker hf.1 hf.2).symm

/-- The worker `w` goes on with the fiber it works on, whose state and context it may
    change, or is done with it. -/
theorem Inv.act (h : s.Inv) (wk : Worker) (st : State) (b : Bool)
    (hfiber : (s.worker w).pc.fiber = some f)
    (hworker : s'.worker = Function.update s.worker w wk)
    (hnext : wk.pc.fiber = some f ∨ wk.pc.fiber = none)
    (hcb : wk.cbFiber = (s.worker w).cbFiber ∨ wk.cbFiber = none)
    (hidle : wk.idleFiber = (s.worker w).idleFiber)
    (hstate : s'.state = Function.update s.state f st) (hst : st = .exec ↔ wk.pc.executing = some f)
    (hsaved : s'.saved = Function.update s.saved f b) (hb : b = false ↔ wk.pc.loaded = some f)
    (hsize : s'.size = s.size) (hcreated : s'.created = s.created)
    (hqueued : ∀ t ∈ s'.tasks, ∀ f, t.work = .fiber f → f < s.created)
    (htorn : s'.torn = false) : s'.Inv := by
  have hw : w < s.size := (h.bound w f (Or.inl hfiber)).1
  -- `w` gives up what it drops and gets nothing new
  have hsub : ∀ g, wk.Holds g → (s.worker w).Holds g := by
    intro g hg
    rcases hg with hg | hg | hg
    · rcases hnext with hn | hn
      · rw [hn] at hg
        exact Or.inl (hfiber.trans hg)
      · rw [hn] at hg
        exact absurd hg (by simp)
    · rcases hcb with hc | hc
      · exact Or.inr (Or.inl (hc ▸ hg))
      · rw [hc] at hg
        exact absurd hg (by simp)
    · exact Or.inr (Or.inr (hidle ▸ hg))
  refine h.move hw hworker hsize (Nat.le_of_eq hcreated.symm) (hcreated ▸ hqueued)
    (fun g hg => hcreated ▸ (h.bound w g (hsub g hg)).2)
    (fun g hg w' hw' hg' => hw' (h.held w' w g hg' (hsub g hg))) (fun g hg => ?_) (fun g hg => ?_) htorn
  · have hmine : (s.worker w).Holds g := hg.elim (hsub g) id
    by_cases hgf : g = f
    · subst hgf
      rw [hstate, hsaved, Function.update_self, Function.update_self]
      exact ⟨hst, hb⟩
    · -- `w` executes no other fiber, before or after
      have hold : ∀ {o : Option ℕ}, (o = some g → (s.worker w).pc.fiber = some g) → ¬ o = some g :=
        fun ho hog => hgf (Option.some.inj ((ho hog).symm.trans hfiber))
      have hnew : ∀ {o : Option ℕ}, (o = some g → wk.pc.fiber = some g) → ¬ o = some g := by
        intro o ho hog
        rcases hnext with hn | hn
        · exact hgf (Option.some.inj ((ho hog).symm.trans hn))
        · exact absurd ((ho hog).symm.trans hn) (by simp)
      rw [hstate, hsaved, Function.update_of_ne hgf, Function.update_of_ne hgf, h.exec_iff hmine,
        h.saved_iff hmine]
      exact ⟨iff_of_false (hold Pc.fiber_of_executing) (hnew Pc.fiber_of_executing),
        iff_of_false (hold Pc.fiber_of_loaded) (hnew Pc.fiber_of_loaded)⟩
  -- a fiber in no hand of `w` keeps its state
  · have hgf : g ≠ f := fun hgf => hg (Or.inr (Or.inl (hgf ▸ hfiber)))
    rw [hstate, hsaved, Function.update_of_ne hgf, Function.update_of_ne hgf]
    exact ⟨rfl, rfl⟩

/-- The worker `w` has only read the state of the fiber it works on. -/
theorem Inv.read (h : s.Inv) {pc : Pc} (hfiber : (s.worker w).pc.fiber = some f)
    (hexec : (s.worker w).pc.executing = none) (hloaded : (s.worker w).pc.loaded = none)
    (hnext : pc.fiber = some f ∨ pc.fiber = none) (hexec' : pc.executing = none)
    (hloaded' : pc.loaded = none) : (s.goto w pc).Inv := by
  have hheld : (s.worker w).Holds f := Or.inl hfiber
  refine h.act { s.worker w with pc := pc } _ _ hfiber rfl hnext (Or.inl rfl) rfl
    (Function.update_eq_self f s.state).symm ?_ (Function.update_eq_self f s.saved).symm ?_ rfl
    rfl h.queued h.torn
  · show _ ↔ pc.executing = some f
    rw [h.exec_iff hheld, hexec, hexec']
  · show _ ↔ pc.loaded = some f
    rw [h.saved_iff hheld, hloaded, hloaded']

/-- The fiber `x` is free for the worker `w`: it has it in hand, or nobody else has. -/
def Free (s : Pool) (w x : ℕ) : Prop :=
  (s.worker w).Holds x ∨ (x < s.created ∧ ∀ w', w' ≠ w → ¬ (s.worker w').Holds x)

/-- A worker that works on no fiber takes up one that is free for it. -/
theorem Inv.take (h : s.Inv) (wk : Worker) (hw : w < s.size)
    (hfiber : (s.worker w).pc.fiber = none)
    (hworker : s'.worker = Function.update s.worker w wk) (hfree : ∀ x, wk.Holds x → s.Free w x)
    (hexec : wk.pc.executing = none) (hloaded : wk.pc.loaded = none)
    (hstate : s'.state = s.state) (hsaved : s'.saved = s.saved) (hsize : s'.size = s.size)
    (hcreated : s'.created = s.created)
    (hqueued : ∀ t ∈ s'.tasks, ∀ f, t.work = .fiber f → f < s.created)
    (htorn : s'.torn = s.torn) : s'.Inv := by
  -- nobody works on a fiber that is free for `w`
  have hnobody : ∀ x, s.Free w x → ∀ v, (s.worker v).pc.fiber ≠ some x := by
    intro x hx v hv
    have hvw : v = w := by
      rcases hx with hx | ⟨-, hx⟩
      · exact h.held v w x (Or.inl hv) hx
      · by_contra hvw
        exact hx v hvw (Or.inl hv)
    rw [hvw, hfiber] at hv
    exact absurd hv (by simp)
  refine h.move hw hworker hsize (Nat.le_of_eq hcreated.symm) (hcreated ▸ hqueued) (fun x hx => ?_)
    (fun x hx w' hw' hx' => ?_) (fun x hx => ?_) (fun x _ => by rw [hstate, hsaved]; exact ⟨rfl, rfl⟩)
    (htorn.trans h.torn)
  · rw [hcreated]
    rcases hfree x hx with hx | ⟨hx, -⟩
    · exact (h.bound w x hx).2
    · exact hx
  · rcases hfree x hx with hx | ⟨-, hx⟩
    · exact hw' (h.held w' w x hx' hx)
    · exact hx w' hw' hx'
  · have hno := hnobody x (hx.elim (hfree x) Or.inl)
    rw [hstate, hsaved, h.exec x, h.saved x, hexec, hloaded]
    exact ⟨iff_of_false (fun ⟨v, hv⟩ => hno v (Pc.fiber_of_executing hv)) (by simp),
      iff_of_false (fun ⟨v, hv⟩ => hno v (Pc.fiber_of_loaded hv)) (by simp)⟩

/-- A new fiber is in nobody's hand. -/
theorem Inv.newFiber (h : s.Inv) : s.newFiber.Inv ∧ ∀ v, ¬ (s.newFiber.worker v).Holds s.created := by
  -- nobody has the number of a fiber that is not made yet
  have hno : ∀ v, ¬ (s.worker v).Holds s.created :=
    fun v hv => Nat.lt_irrefl _ (h.bound v _ hv).2
  refine ⟨⟨h.held, fun v f hv => ⟨(h.bound v f hv).1, Nat.lt_succ_of_lt (h.bound v f hv).2⟩,
    fun t ht f hf => Nat.lt_succ_of_lt (h.queued t ht f hf), fun f => ?_, fun f => ?_, h.torn⟩, hno⟩
  · show Function.update s.state s.created .init f = .exec ↔ _
    by_cases hf : f = s.created
    · subst hf
      rw [Function.update_self]
      exact iff_of_false (by simp) (fun ⟨v, hv⟩ => hno v (Or.inl (Pc.fiber_of_executing hv)))
    · rw [Function.update_of_ne hf]
      exact h.exec f
  · show Function.update s.saved s.created true f = false ↔ _
    by_cases hf : f = s.created
    · subst hf
      rw [Function.update_self]
      exact iff_of_false (by simp) (fun ⟨v, hv⟩ => hno v (Or.inl (Pc.fiber_of_loaded hv)))
    · rw [Function.update_of_ne hf]
      exact h.saved f

/-- A task of a fiber that exists may be queued at any time. -/
theorem Inv.enqueue (h : s.Inv) {t : PoolTask} (ht : ∀ f, t.work = .fiber f → f < s.created) :
    (s.enqueue t).Inv := by
  refine ⟨h.held, h.bound, fun u hu => ?_, h.exec, h.saved, h.torn⟩
  rcases List.mem_append.mp hu with hu | hu
  · exact h.queued u hu
  · rw [List.mem_singleton.mp hu]
    exact ht

/-- Only the counters have changed. -/
theorem Inv.of_counters (h : s.Inv) (active idle : ℤ) : Inv { s with active := active, idle := idle } :=
  ⟨h.held, h.bound, h.queued, h.exec, h.saved, h.torn⟩

/-! ### Steps -/

/-- The fiber that a worker takes from the queue in its next step. -/
def taken (s : Pool) (w : ℕ) : Option ℕ :=
  if (s.worker w).pc = .loop then (s.nextTask w).bind (fun t => t.work.fiber?) else none

/-- The condition on a step: a worker takes a fiber from the queue only when no other worker
    has it in hand. -/
def Unshared (s : Pool) : PoolAction → Prop
  | .step w => ∀ f ∈ s.taken w, ∀ w' < s.size, w' ≠ w → ¬ (s.worker w').Holds f
  | .leave _ _ | .create | .schedule _ => True

instance (s : Pool) : (a : PoolAction) → Decidable (s.Unshared a)
  | .step w =>
    inferInstanceAs (Decidable (∀ f ∈ s.taken w, ∀ w' < s.size, w' ≠ w → ¬ (s.worker w').Holds f))
  | .leave _ _ | .create | .schedule _ => .isTrue trivial

/-- The fiber that a worker is about to take is free for it. -/
theorem Inv.free_of_unshared (h : s.Inv) (hC : s.Unshared (.step w)) {x : ℕ} (hx : x ∈ s.taken w)
    (hcreated : x < s.created) : s.Free w x :=
  Or.inr ⟨hcreated, fun w' hw' hheld => hC x hx w' (h.bound w' x hheld).1 hw' hheld⟩

/-- A worker takes a task, or finds none. -/
theorem pop_inv (h : s.Inv) (hw : w < s.size) (hpc : (s.worker w).pc = .loop)
    (hC : s.Unshared (.step w)) : (s.pop w).Inv := by
  have hfiber : (s.worker w).pc.fiber = none := by rw [hpc]; rfl
  -- what stays in hand whatever the worker takes
  have hkeep : ∀ {pc : Pc} {x : ℕ}, ({ s.worker w with pc := pc } : Worker).Holds x →
      pc.fiber = some x ∨ s.Free w x := by
    intro pc x hx
    rcases hx with hx | hx
    · exact Or.inl hx
    · exact Or.inr (Or.inl (Or.inr hx))
  unfold pop
  cases hnext : s.nextTask w with
  | none =>
    refine h.take { s.worker w with pc := .testIdle } hw hfiber rfl (fun x hx => ?_) rfl rfl
      rfl rfl rfl rfl h.queued rfl
    exact (hkeep hx).resolve_left (by simp [Pc.fiber])
  | some t =>
    obtain ⟨work, thread⟩ := t
    have hmem : ⟨work, thread⟩ ∈ s.tasks := List.mem_of_find?_eq_some hnext
    have hqueued : ∀ u ∈ s.tasks.erase ⟨work, thread⟩, ∀ f, u.work = .fiber f → f < s.created :=
      fun u hu => h.queued u (List.mem_of_mem_erase hu)
    cases work with
    | fiber f =>
      have htaken : f ∈ s.taken w := by
        unfold taken
        rw [if_pos hpc, hnext]
        rfl
      refine h.take { s.worker w with pc := .testTerm f } hw hfiber rfl (fun x hx => ?_) rfl rfl
        rfl rfl rfl rfl hqueued rfl
      rcases hkeep hx with hx | hx
      · obtain rfl : f = x := Option.some.inj hx
        exact h.free_of_unshared hC htaken (h.queued _ hmem f rfl)
      · exact hx
    | cb c =>
      dsimp only
      cases hcb : (s.worker w).cbFiber with
      | some g =>
        refine h.take { s.worker w with pc := .resetTerm g true } hw hfiber rfl (fun x hx => ?_)
          rfl rfl rfl rfl rfl rfl hqueued rfl
        rcases hkeep hx with hx | hx
        · obtain rfl : g = x := Option.some.inj hx
          exact Or.inl (Or.inr (Or.inl hcb))
        · exact hx
      | none =>
        -- a new fiber, which is free for everybody
        obtain ⟨hnew, hfresh⟩ := h.newFiber
        refine hnew.take { s.worker w with
            cbFiber := some s.created, pc := .testExec s.created .cb } hw hfiber rfl (fun x hx => ?_)
          rfl rfl rfl rfl rfl rfl (fun u hu f hf => Nat.lt_succ_of_lt (hqueued u hu f hf)) rfl
        rcases hx with hx | hx | hx
        · obtain rfl : s.created = x := Option.some.inj hx
          exact Or.inr ⟨Nat.lt_succ_self _, fun w' _ => hfresh w'⟩
        · obtain rfl : s.created = x := Option.some.inj hx
          exact Or.inr ⟨Nat.lt_succ_self _, fun w' _ => hfresh w'⟩
        · exact Or.inl (Or.inr (Or.inr hx))

/-- The worker after it has dropped its `cb_fiber`, if the fiber is that, and goes on. -/
theorem dropCb_goto (s : Pool) (w : ℕ) (r : Role) (pc : Pc) :
    ∃ cb, (cb = (s.worker w).cbFiber ∨ cb = none) ∧
      (s.dropCb w r).goto w pc = s.setWorker w { s.worker w with pc := pc, cbFiber := cb } := by
  cases r with
  | task => exact ⟨_, Or.inl rfl, rfl⟩
  | idle => exact ⟨_, Or.inl rfl, rfl⟩
  | cb =>
    refine ⟨none, Or.inr rfl, ?_⟩
    simp [dropCb, goto, setWorker]

/-- `idle_fiber` is created: a new fiber is free for everybody. -/
theorem start_inv (h : s.Inv) (hw : w < s.size) (hpc : (s.worker w).pc = .start)
    (hstep : s.workerStep w .start = some s') : s'.Inv := by
  rw [workerStep, Option.some.injEq] at hstep
  subst hstep
  obtain ⟨hnew, hfresh⟩ := h.newFiber
  refine hnew.take { s.worker w with idleFiber := some s.created, pc := .loop } hw
    (by show (s.worker w).pc.fiber = none; rw [hpc]; rfl) rfl (fun x hx => ?_)
    rfl rfl rfl rfl rfl rfl (fun u hu f hf => Nat.lt_succ_of_lt (h.queued u hu f hf)) rfl
  rcases hx with hx | hx | hx
  · exact absurd hx (by simp [Pc.fiber])
  · exact Or.inl (Or.inr (Or.inl hx))
  · obtain rfl : s.created = x := Option.some.inj hx
    exact Or.inr ⟨Nat.lt_succ_self _, fun w' _ => hfresh w'⟩

/-- Without a task the worker takes up its own `idle_fiber`, or ends. -/
theorem testIdle_inv (h : s.Inv) (hw : w < s.size) (hpc : (s.worker w).pc = .testIdle)
    (hstep : s.workerStep w .testIdle = some s') : s'.Inv := by
  rw [workerStep, Option.map_eq_some_iff] at hstep
  obtain ⟨i, hi, rfl⟩ := hstep
  have hfiber : (s.worker w).pc.fiber = none := by rw [hpc]; rfl
  split
  -- the idle fiber has ended: `run` returns; otherwise it is switched to
  · refine h.take { s.worker w with pc := .exited } hw hfiber rfl (fun x hx => ?_) rfl rfl rfl
      rfl rfl rfl h.queued rfl
    exact Or.inl (hx.imp_left (fun hx => absurd hx (by simp [Pc.fiber])))
  · refine h.take { s.worker w with pc := .testExec i .idle } hw hfiber rfl (fun x hx => ?_)
      rfl rfl rfl rfl rfl rfl h.queued rfl
    rcases hx with hx | hx
    · obtain rfl : i = x := Option.some.inj hx
      exact Or.inl (Or.inr (Or.inr hi))
    · exact Or.inl (Or.inr hx)

/-- A context is switched to only when it is complete. -/
theorem load_inv {r : Role} (h : s.Inv) (hpc : (s.worker w).pc = .load f r)
    (hstep : s.workerStep w (.load f r) = some s') : s'.Inv := by
  rw [workerStep, Option.some.injEq] at hstep
  subst hstep
  have hheld : (s.worker w).Holds f := Or.inl (by rw [hpc]; rfl)
  have hexec : s.state f = .exec := (h.exec_iff hheld).mpr (by rw [hpc]; rfl)
  -- nobody has loaded the context, so it is complete
  have hsaved : s.saved f = true := by
    have hnot := (h.saved_iff hheld).not.mpr (by rw [hpc]; simp [Pc.loaded])
    simpa using hnot
  refine h.act (f := f) { s.worker w with pc := .running f r } .exec false
    (by rw [hpc]; rfl) rfl (Or.inl rfl) (Or.inl rfl) rfl
    (by rw [← hexec]; exact (Function.update_eq_self f s.state).symm) (by simp [Pc.executing]) rfl
    (by simp [Pc.loaded]) rfl rfl h.queued ?_
  show (s.torn || !s.saved f) = false
  rw [h.torn, hsaved]
  rfl

/-- A fiber that yielded goes back into the queue before the worker lets go of it. -/
theorem requeue_inv {r : Role} (h : s.Inv) (hpc : (s.worker w).pc = .requeue f r)
    (hstep : s.workerStep w (.requeue f r) = some s') : s'.Inv := by
  rw [workerStep, Option.some.injEq] at hstep
  subst hstep
  -- the fiber that is scheduled again stays `w`'s until the next step
  have hheld : (s.worker w).Holds f := Or.inl (by rw [hpc]; rfl)
  have henq : (s.enqueue ⟨.fiber f, none⟩).Inv :=
    h.enqueue (fun g hg => by cases hg; exact (h.bound w f hheld).2)
  obtain ⟨cb, hcb, heq⟩ := dropCb_goto (s.enqueue ⟨.fiber f, none⟩) w r .loop
  rw [heq]
  exact henq.act (f := f) { s.worker w with pc := .loop, cbFiber := cb } (s.state f)
    (s.saved f) (by show (s.worker w).pc.fiber = some f; rw [hpc]; rfl) rfl (Or.inr rfl) hcb rfl
    (Function.update_eq_self f s.state).symm
    (by rw [h.exec_iff hheld, hpc]; simp [Pc.executing])
    (Function.update_eq_self f s.saved).symm
    (by rw [h.saved_iff hheld, hpc]; simp [Pc.loaded]) rfl rfl henq.queued h.torn

/-- `setState(HOLD)`. -/
theorem writeHold_inv {r : Role} (h : s.Inv) (hpc : (s.worker w).pc = .writeHold f r)
    (hstep : s.workerStep w (.writeHold f r) = some s') : s'.Inv := by
  rw [workerStep, Option.some.injEq] at hstep
  subst hstep
  obtain ⟨cb, hcb, heq⟩ := dropCb_goto (s.setState f .hold) w r .loop
  rw [heq]
  exact h.act (f := f) { s.worker w with pc := .loop, cbFiber := cb } .hold
    (s.saved f) (by rw [hpc]; rfl) rfl (Or.inr rfl) hcb rfl rfl (by simp [Pc.executing])
    (Function.update_eq_self f s.saved).symm
    (by rw [h.saved_iff (w := w) (Or.inl (by rw [hpc]; rfl)), hpc]; simp [Pc.loaded])
    rfl rfl h.queued h.torn

/-- **Step lemma.** A step of a worker that meets the condition keeps the invariant. -/
theorem workerStep_inv (h : s.Inv) (hw : w < s.size) (hC : s.Unshared (.step w))
    (hstep : s.workerStep w (s.worker w).pc = some s') : s'.Inv := by
  cases hpc : (s.worker w).pc with
  | start => exact start_inv h hw hpc (hpc ▸ hstep)
  | loop =>
    rw [hpc, workerStep, Option.some.injEq] at hstep
    subst hstep
    exact pop_inv h hw hpc hC
  | skip =>
    rw [hpc, workerStep, Option.some.injEq] at hstep
    subst hstep
    refine (h.of_counters (s.active - 1) s.idle).take { s.worker w with pc := .loop } hw
      (by show (s.worker w).pc.fiber = none; rw [hpc]; rfl) rfl (fun x hx => ?_) rfl rfl rfl rfl rfl rfl
      h.queued rfl
    exact Or.inl (hx.imp_left (fun hx => absurd hx (by simp [Pc.fiber])))
  | testIdle => exact testIdle_inv h hw hpc (hpc ▸ hstep)
  | reset f reuse =>
    rw [hpc, workerStep, Option.some.injEq] at hstep
    subst hstep
    refine h.act (f := f) { s.worker w with
        pc := if reuse then .testExec f .cb else .loop } .init true
      (by rw [hpc]; rfl) rfl ?_ (Or.inl rfl) rfl rfl ?_ rfl ?_ rfl rfl h.queued h.torn
    all_goals cases reuse <;> simp [Pc.fiber, Pc.executing, Pc.loaded]
  | writeExec f r =>
    rw [hpc, workerStep, Option.some.injEq] at hstep
    subst hstep
    exact h.act (f := f) { s.worker w with pc := .load f r } .exec (s.saved f)
      (by rw [hpc]; rfl) rfl (Or.inl rfl) (Or.inl rfl) rfl rfl (by simp [Pc.executing])
      (Function.update_eq_self f s.saved).symm
      (by rw [h.saved_iff (w := w) (Or.inl (by rw [hpc]; rfl)), hpc]; simp [Pc.loaded])
      rfl rfl h.queued h.torn
  | load f r => exact load_inv h hpc (hpc ▸ hstep)
  | running f r =>
    rw [hpc, workerStep] at hstep
    exact absurd hstep (by simp)
  | save f r =>
    rw [hpc, workerStep, Option.some.injEq] at hstep
    subst hstep
    exact h.act (f := f) { s.worker w with pc := .back f r } (s.state f) true
      (by rw [hpc]; rfl) rfl (Or.inl rfl) (Or.inl rfl) rfl (Function.update_eq_self f s.state).symm
      (by rw [h.exec_iff (w := w) (Or.inl (by rw [hpc]; rfl)), hpc]; simp [Pc.executing]) rfl
      (by simp [Pc.loaded]) rfl rfl h.queued h.torn
  | back f r =>
    rw [hpc] at hstep
    cases r with
    | idle =>
      rw [workerStep, Option.some.injEq] at hstep
      subst hstep
      exact (h.of_counters s.active (s.idle - 1)).read (f := f) (by rw [hpc]; rfl) (by rw [hpc]; rfl)
        (by rw [hpc]; rfl) (Or.inl rfl) rfl rfl
    | task =>
      rw [workerStep, Option.some.injEq] at hstep
      subst hstep
      exact (h.of_counters (s.active - 1) s.idle).read (f := f) (by rw [hpc]; rfl) (by rw [hpc]; rfl)
        (by rw [hpc]; rfl) (Or.inl rfl) rfl rfl
    | cb =>
      rw [workerStep, Option.some.injEq] at hstep
      subst hstep
      exact (h.of_counters (s.active - 1) s.idle).read (f := f) (by rw [hpc]; rfl) (by rw [hpc]; rfl)
        (by rw [hpc]; rfl) (Or.inl rfl) rfl rfl
  | requeue f r => exact requeue_inv h hpc (hpc ▸ hstep)
  | writeHold f r => exact writeHold_inv h hpc (hpc ▸ hstep)
  | exited =>
    rw [hpc, workerStep] at hstep
    exact absurd hstep (by simp)
  | threw =>
    rw [hpc, workerStep] at hstep
    exact absurd hstep (by simp)
  -- the steps that only read the state of the fiber
  | testTerm f | testError f | resetTerm f r | resetInit f r | resetError f r | testExec f r
  | testReady f r | testEnded f r | testFailed f r =>
    rw [hpc, workerStep, Option.some.injEq] at hstep
    subst hstep
    refine h.read (f := f) (by rw [hpc]; rfl) (by rw [hpc]; rfl) (by rw [hpc]; rfl) ?_ ?_ ?_ <;>
      (repeat' split) <;> simp [Pc.fiber, Pc.executing, Pc.loaded]

/-- A step that meets the condition keeps the invariant. -/
theorem step_inv {a : PoolAction} (h : s.Inv) (hC : s.Unshared a) (hstep : step s a = some s') :
    s'.Inv := by
  cases a with
  | step w =>
    simp only [step, Option.ite_none_right_eq_some] at hstep
    exact workerStep_inv h hstep.1 hC hstep.2
  -- a fiber leaves in a state other than `EXEC`
  | leave w st =>
    simp only [step] at hstep
    split at hstep
    · rename_i f r hpc
      rw [Option.ite_none_right_eq_some, Option.some.injEq] at hstep
      obtain ⟨hleaves, rfl⟩ := hstep
      exact h.act (f := f) { s.worker w with pc := .save f r } st (s.saved f)
        (by rw [hpc]; rfl) rfl (Or.inl rfl) (Or.inl rfl) rfl rfl
        (by cases st <;> simp_all [Pc.executing, leaves]) (Function.update_eq_self f s.saved).symm
        (by rw [h.saved_iff (w := w) (Or.inl (by rw [hpc]; rfl)), hpc]; simp [Pc.loaded])
        rfl rfl h.queued h.torn
    · exact absurd hstep (by simp)
  | create =>
    rw [step, Option.some.injEq] at hstep
    subst hstep
    exact h.newFiber.1
  -- a fiber that is scheduled exists
  | schedule t =>
    simp only [step] at hstep
    split at hstep
    · rename_i f hwork
      rw [Option.ite_none_right_eq_some, Option.some.injEq] at hstep
      obtain ⟨hf, rfl⟩ := hstep
      apply h.enqueue
      intro g hg
      obtain rfl : f = g := Work.fiber.inj (hwork.symm.trans hg)
      exact hf
    · rename_i c hwork
      rw [Option.some.injEq] at hstep
      subst hstep
      exact h.enqueue (fun g hg => absurd (hwork.symm.trans hg) (by simp))

/-- **Fiber mutual exclusion.** For any number of workers and in every interleaving in which
    a worker takes a fiber from the queue only when no other worker has it in hand, in every
    state reached: a fiber is inside at most one worker; no context was ever loaded before it
    was saved; and the state of a fiber is `EXEC` exactly while some worker executes it. -/
theorem fiber_mutual_exclusion (n : ℕ) (as : List PoolAction) (s : Pool)
    (hrun : runFrom step (new n) as = some s) (hC : Along step Unshared (new n) as) :
    (∀ f w w', (s.worker w).pc.inside = some f → (s.worker w').pc.inside = some f → w = w') ∧
    s.torn = false ∧
    (∀ f, s.state f = .exec ↔ ∃ w, (s.worker w).pc.executing = some f) := by
  have h : s.Inv := run_invariant (fun _ _ _ => step_inv) (inv_new n) hC hrun
  refine ⟨fun f w w' hw hw' => ?_, h.torn, h.exec⟩
  exact h.held w w' f (Or.inl (Pc.fiber_of_inside hw)) (Or.inl (Pc.fiber_of_inside hw'))

/-- One fiber, which yields and is taken up again by a second worker after the first is done
    with it. -/
theorem fiber_mutual_exclusion_two_workers :
    ∃ s, runFrom step (new 2) ([.create, .schedule ⟨.fiber 0, none⟩] ++
        List.replicate 7 (.step 0) ++ [.leave 0 .ready] ++ List.replicate 4 (.step 0) ++
        List.replicate 7 (.step 1)) = some s ∧
      (s.worker 1).pc = .running 0 .task ∧ s.torn = false ∧
      (s.state 0 = .exec ↔ ∃ w, (s.worker w).pc.executing = some 0) := by
  obtain ⟨s, hrun, hpc⟩ : ∃ s, runFrom step (new 2) ([.create, .schedule ⟨.fiber 0, none⟩] ++
        List.replicate 7 (.step 0) ++ [.leave 0 .ready] ++ List.replicate 4 (.step 0) ++
        List.replicate 7 (.step 1)) = some s ∧ (s.worker 1).pc = .running 0 .task :=
    ⟨_, rfl, by decide⟩
  obtain ⟨-, htorn, hexec⟩ := fiber_mutual_exclusion 2 _ s hrun (by decide)
  exact ⟨s, hrun, hpc, htorn, hexec 0⟩

/-- A fiber schedules itself and calls `yieldToHold`.  After it has written `HOLD` and before
    its context is saved, a second worker takes it from the queue and loads its context. -/
theorem resumed_before_saved :
    ¬ ∀ (n : ℕ) (as : List PoolAction) (s : Pool), runFrom step (new n) as = some s →
      (∀ f w w', (s.worker w).pc.inside = some f → (s.worker w').pc.inside = some f → w = w') ∧
      s.torn = false ∧
      (∀ f, s.state f = .exec ↔ ∃ w, (s.worker w).pc.executing = some f) := by
  intro h
  have hlast := (h 2 ([.create, .schedule ⟨.fiber 0, none⟩] ++ List.replicate 7 (.step 0) ++
    [.schedule ⟨.fiber 0, none⟩, .leave 0 .hold] ++ List.replicate 7 (.step 1)) _ rfl)
  exact absurd (hlast.1 0 0 1 (by decide) (by decide)) (by decide)

end Pool

end LoNetfw.Scheduler
