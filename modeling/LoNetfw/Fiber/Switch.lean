import LoNetfw.Fiber.Fiber
import LoNetfw.Basis.StepSystem
import Mathlib.Logic.Function.Basic

namespace LoNetfw.Fiber

open Basis

/-!
# `Fiber` — who runs after a switch

A thread knows the fiber it runs only by `t_cur_fiber`, which every switch assigns before
`swapcontext`, and the fiber that a finished one returns to only by `t_schedule_fiber`, which one
form of `swapIn` sets and one form of `swapOut` clears.  What really runs is what `swapcontext`
has loaded.

* `Threads.step` — the switches of any number of threads, with the contexts of the fibers;
* `Threads.Disciplined` — who may call what: only the main fiber calls `swapIn()`, only `m` calls
  `swapIn(m)`, unless `m` has itself been entered so, and a yield names the fiber that entered;
* `Threads.Sound` — the invariant: the fibers of a thread nest, at most three deep;
* `control_returns` — then `t_cur_fiber` is the fiber that runs, no context is loaded that is not
  complete, and whoever yields or finishes returns to the fiber that switched it in;
* `Threads.Follows` — what `Scheduler::run`, `stop()` and the tasks do, and what they take for granted;
* `scheduler_disciplined` — under these conditions they keep to the discipline.

A switch is one step.  The main fiber of a thread has the thread's number.
-/

/-- The thread-local variables, and what runs. -/
structure Locals where
  /-- `t_cur_fiber`. -/
  cur : ℕ
  /-- `t_schedule_fiber`. -/
  scheduleFiber : Option ℕ
  /-- The fiber whose code the thread executes. -/
  running : ℕ
  deriving DecidableEq, Repr

structure Threads where
  size : ℕ
  locals : ℕ → Locals
  created : ℕ
  state : ℕ → State
  /-- The fiber whose code `m_ctx` resumes, if it is complete. -/
  context : ℕ → Option ℕ
  /-- The fiber that switched a fiber in last. -/
  enteredBy : ℕ → ℕ
  /-- A context that was not complete has been loaded. -/
  torn : Bool

inductive SwitchAction
  | create
  | reset (f : ℕ)
  | setState (f : ℕ) (st : State)
  /-- `f->swapIn()` and `f->swapIn(m)`, on the thread `t`. -/
  | swapIn (t f : ℕ)
  | swapInOn (t f m : ℕ)
  /-- `yieldToReady()` or `yieldToHold()`, and the same with a fiber. -/
  | yield (t : ℕ) (st : State)
  | yieldOn (t : ℕ) (st : State) (m : ℕ)
  /-- `getThis()->swapOut(m)`, as at the end of a round of `IOScheduler::idle`. -/
  | swapOutOn (t m : ℕ)
  /-- The end of `mainFunc`. -/
  | finish (t : ℕ) (st : State)
  deriving DecidableEq, Repr

namespace SwitchAction

/-- The thread and the fiber, if the action switches a fiber in. -/
def enters : SwitchAction → Option (ℕ × ℕ)
  | .swapIn t f | .swapInOn t f _ => some (t, f)
  | _ => none

/-- The thread, if the fiber that runs on it switches out. -/
def leaves : SwitchAction → Option ℕ
  | .yield t _ | .yieldOn t _ _ | .swapOutOn t _ | .finish t _ => some t
  | _ => none

end SwitchAction

namespace Threads

/-- `n` threads, each after `Fiber::getThis()` has created its main fiber. -/
def new (n : ℕ) : Threads where
  size := n
  locals := fun t => ⟨t, none, t⟩
  created := n
  state := fun _ => .exec
  context := fun _ => none
  enteredBy := id
  torn := false

def setLocals (s : Threads) (t : ℕ) (l : Locals) : Threads :=
  { s with locals := Function.update s.locals t l }

def setState (s : Threads) (f : ℕ) (st : State) : Threads :=
  { s with state := Function.update s.state f st }

/-- `setThis(f)`. -/
def setThis (s : Threads) (t f : ℕ) : Threads := s.setLocals t { s.locals t with cur := f }

def setScheduleFiber (s : Threads) (t : ℕ) (m : Option ℕ) : Threads :=
  s.setLocals t { s.locals t with scheduleFiber := m }

/-- `swapcontext(&out->m_ctx, &into->m_ctx)` on the thread `t`. -/
def swapcontext (s : Threads) (t out into : ℕ) : Threads :=
  let context := Function.update s.context out (some (s.locals t).running)
  match context into with
  | some f =>
    { s.setLocals t { s.locals t with running := f } with
      context := Function.update context into none }
  | none => { s with context := context, torn := true }

/-- `f->swapIn` from the test of the state on; `main` is the fiber that is switched out. -/
def enter (s : Threads) (t f main : ℕ) : Threads :=
  -- `t_cur_fiber` stays as it was set when the exception is thrown
  if s.state f = .exec then s
  else
    { s.setState f .exec with
      enteredBy := Function.update s.enteredBy f (s.locals t).running }.swapcontext t main f

/-- `f->swapOut()`. -/
def swapOut (s : Threads) (t f : ℕ) : Threads := (s.setThis t t).swapcontext t f t

/-- `f->swapOut(m)`. -/
def swapOutTo (s : Threads) (t f m : ℕ) : Threads :=
  ((s.setThis t m).setScheduleFiber t none).swapcontext t f m

def step (s : Threads) : SwitchAction → Option Threads
  | .create =>
    some { s.setState s.created .init with
      context := Function.update s.context s.created (some s.created), created := s.created + 1 }
  | .reset f =>
    if f < s.created then
      some { s.setState f .init with context := Function.update s.context f (some f) }
    else none
  | .setState f st => if f < s.created then some (s.setState f st) else none
  | .swapIn t f =>
    if t < s.size ∧ f < s.created then some ((s.setThis t f).enter t f t) else none
  | .swapInOn t f m =>
    if t < s.size ∧ f < s.created ∧ m < s.created then
      some (((s.setThis t f).setScheduleFiber t (some m)).enter t f m)
    else none
  | .yield t st =>
    if t < s.size then
      let cur := (s.locals t).cur
      some ((s.setState cur st).swapOut t cur)
    else none
  | .yieldOn t st m =>
    if t < s.size ∧ m < s.created then
      let cur := (s.locals t).cur
      some ((s.setState cur st).swapOutTo t cur m)
    else none
  | .swapOutOn t m =>
    if t < s.size ∧ m < s.created then some (s.swapOutTo t (s.locals t).cur m) else none
  | .finish t st =>
    if t < s.size then
      -- `mainFunc` has kept the fiber that was the current one when it began
      let cur := (s.locals t).running
      let s := s.setState cur st
      match (s.locals t).scheduleFiber with
      | some m => some (s.swapOutTo t cur m)
      | none => some (s.swapOut t cur)
    else none

/-- The fibers that a thread is in the middle of: the one that runs, the one that has entered it,
    and the main fiber. -/
def Live (s : Threads) (t f : ℕ) : Prop :=
  f = (s.locals t).running ∨ f = s.enteredBy (s.locals t).running ∨ f = t

/-- The discipline.  Nobody resets a fiber or writes the state of one that a thread is in the middle
    of.  `swapIn()` is called by the main fiber only, and `swapIn(m)` by `m` only, where `m` is the
    main fiber or one that the main fiber has entered; what is entered is not in `EXEC`.  No main
    fiber yields or ends, a yield without a fiber is one of a fiber that the main fiber has entered,
    and a yield with a fiber names the one that has entered. -/
def Disciplined (s : Threads) : SwitchAction → Prop
  | .create => True
  | .reset f => ∀ t < s.size, ¬ s.Live t f
  | .setState f _ => ∀ t < s.size, ¬ s.Live t f
  | .swapIn t f => (s.locals t).running = t ∧ s.state f ≠ .exec
  | .swapInOn t f m => (s.locals t).running = m ∧ s.enteredBy m = t ∧ s.state f ≠ .exec
  | .yield t _ => (s.locals t).running ≠ t ∧ s.enteredBy (s.locals t).running = t
  | .yieldOn t _ m | .swapOutOn t m =>
    (s.locals t).running ≠ t ∧ s.enteredBy (s.locals t).running = m
  | .finish t _ => (s.locals t).running ≠ t

instance (s : Threads) (a : SwitchAction) : Decidable (s.Disciplined a) := by
  cases a <;> unfold Disciplined Live <;> infer_instance

structure Sound (s : Threads) : Prop where
  main : ∀ t < s.size, s.enteredBy t = t
  cur : ∀ t < s.size, (s.locals t).cur = (s.locals t).running
  /-- At most one fiber is between the one that runs and the main fiber. -/
  depth : ∀ t < s.size, s.enteredBy (s.enteredBy (s.locals t).running) = t
  apart : ∀ t < s.size, (s.locals t).running ≠ t →
    s.enteredBy (s.locals t).running ≠ (s.locals t).running
  /-- Where the end of `mainFunc` leads. -/
  schedule : ∀ t < s.size, (s.locals t).scheduleFiber.getD t = s.enteredBy (s.locals t).running
  live : ∀ t < s.size, ∀ f, s.Live t f → s.state f = .exec ∧ f < s.created
  alone : ∀ t < s.size, ∀ u < s.size, ∀ f, s.Live t f → s.Live u f → t = u
  /-- What does not run can be resumed. -/
  resumable : ∀ f < s.created, (∀ t < s.size, (s.locals t).running ≠ f) → s.context f = some f
  whole : s.torn = false

variable {s s' : Threads} {t f m : ℕ}

/-- Threads begin in their main fibers. -/
theorem sound_new (n : ℕ) : (new n).Sound where
  main := fun _ _ => rfl
  cur := fun _ _ => rfl
  depth := fun _ _ => rfl
  apart := fun _ _ h => absurd rfl h
  schedule := fun _ _ => rfl
  live := by
    rintro t ht f (rfl | rfl | rfl) <;> exact ⟨rfl, ht⟩
  alone := by
    rintro t _ u _ f (rfl | rfl | rfl) (h | h | h) <;> exact h
  resumable := fun f hf h => absurd rfl (h f hf)
  whole := rfl

/-! ### Entering and leaving a fiber -/

/-- What a fiber that is entered leaves of the state. -/
structure Enters (s s' : Threads) (t f : ℕ) : Prop where
  size : s'.size = s.size
  created : s'.created = s.created
  others : ∀ u, u ≠ t → s'.locals u = s.locals u
  locals : (s'.locals t).cur = f ∧ (s'.locals t).running = f ∧
    (s'.locals t).scheduleFiber.getD t = (s.locals t).running
  state : s'.state = Function.update s.state f .exec
  enteredBy : s'.enteredBy = Function.update s.enteredBy f (s.locals t).running
  context : s'.context =
    Function.update (Function.update s.context (s.locals t).running (some (s.locals t).running)) f none
  torn : s'.torn = false

/-- A fiber that is in no thread is entered by one that is entered by the main fiber, or is it. -/
theorem Enters.sound (h : s.Sound) (he : Enters s s' t f) (ht : t < s.size) (hf : f < s.created)
    (hdepth : s.enteredBy (s.locals t).running = t) (hstate : s.state f ≠ .exec) : s'.Sound := by
  -- `f` is in no thread, so that the others do not see the change
  have hfresh : ∀ u < s.size, ¬ s.Live u f := fun u hu hlive => hstate (h.live u hu f hlive).1
  have hne : ∀ u < s.size, (s.locals u).running ≠ f ∧ s.enteredBy (s.locals u).running ≠ f ∧ u ≠ f := by
    intro u hu
    have hnot := hfresh u hu
    unfold Live at hnot
    simp only [not_or] at hnot
    exact ⟨Ne.symm hnot.1, Ne.symm hnot.2.1, Ne.symm hnot.2.2⟩
  have hrunning : (s'.locals t).running = f := he.locals.2.1
  have hother : ∀ u < s.size, u ≠ t → s'.locals u = s.locals u ∧
      s'.enteredBy (s.locals u).running = s.enteredBy (s.locals u).running := by
    intro u hu hut
    exact ⟨he.others u hut, by rw [he.enteredBy, Function.update_of_ne (hne u hu).1]⟩
  have hentered : s'.enteredBy f = (s.locals t).running := by rw [he.enteredBy, Function.update_self]
  have hback : s'.enteredBy (s.locals t).running = t := by
    rw [he.enteredBy, Function.update_of_ne (hne t ht).1, hdepth]
  -- what a thread is in the middle of
  have hlive : ∀ u < s.size, ∀ g, s'.Live u g → s.Live u g ∨ (u = t ∧ g = f) := by
    intro u hu g hg
    by_cases hut : u = t
    · subst hut
      unfold Live at hg
      rw [hrunning, hentered] at hg
      rcases hg with rfl | rfl | rfl
      · exact .inr ⟨rfl, rfl⟩
      · exact .inl (.inl rfl)
      · exact .inl (.inr (.inr rfl))
    · obtain ⟨hlocals, hby⟩ := hother u hu hut
      unfold Live at hg
      rw [hlocals, hby] at hg
      exact .inl hg
  constructor
  · intro u hu
    rw [he.size] at hu
    rw [he.enteredBy, Function.update_of_ne (hne u hu).2.2]
    exact h.main u hu
  · intro u hu
    rw [he.size] at hu
    by_cases hut : u = t
    · rw [hut, he.locals.1, hrunning]
    · rw [he.others u hut]
      exact h.cur u hu
  · intro u hu
    rw [he.size] at hu
    by_cases hut : u = t
    · rw [hut, hrunning, hentered, hback]
    · obtain ⟨hlocals, hby⟩ := hother u hu hut
      rw [hlocals, hby, he.enteredBy, Function.update_of_ne (hne u hu).2.1]
      exact h.depth u hu
  · intro u hu
    rw [he.size] at hu
    by_cases hut : u = t
    · rw [hut, hrunning, hentered]
      exact fun _ => (hne t ht).1
    · obtain ⟨hlocals, hby⟩ := hother u hu hut
      rw [hlocals, hby]
      exact h.apart u hu
  · intro u hu
    rw [he.size] at hu
    by_cases hut : u = t
    · rw [hut, he.locals.2.2, hrunning, hentered]
    · obtain ⟨hlocals, hby⟩ := hother u hu hut
      rw [hlocals, hby]
      exact h.schedule u hu
  · intro u hu g hg
    rw [he.size] at hu
    rw [he.state, he.created]
    rcases hlive u hu g hg with hold | ⟨-, rfl⟩
    · obtain ⟨hexec, hlt⟩ := h.live u hu g hold
      exact ⟨by rw [Function.update_apply]; split <;> [rfl; exact hexec], hlt⟩
    · exact ⟨Function.update_self .., hf⟩
  · intro u hu v hv g hgu hgv
    rw [he.size] at hu hv
    rcases hlive u hu g hgu with holdu | ⟨rfl, rfl⟩
    · rcases hlive v hv g hgv with holdv | ⟨rfl, rfl⟩
      · exact h.alone u hu v hv g holdu holdv
      · exact absurd holdu (hfresh u hu)
    · rcases hlive v hv g hgv with holdv | ⟨rfl, -⟩
      · exact absurd holdv (hfresh v hv)
      · rfl
  · intro g hg hnot
    rw [he.created] at hg
    rw [he.size] at hnot
    have hgf : g ≠ f := fun hgf => hnot t ht (hrunning.trans hgf.symm)
    rw [he.context, Function.update_of_ne hgf, Function.update_apply]
    split
    · next hgr => rw [hgr]
    · next hgr =>
      refine h.resumable g hg fun u hu => ?_
      by_cases hut : u = t
      · exact hut ▸ Ne.symm hgr
      · rw [← he.others u hut]
        exact hnot u hu
  · exact he.torn

/-- What a fiber that is left for the one that entered it leaves of the state. -/
structure Leaves (s s' : Threads) (t : ℕ) : Prop where
  size : s'.size = s.size
  created : s'.created = s.created
  others : ∀ u, u ≠ t → s'.locals u = s.locals u
  locals : (s'.locals t).cur = s.enteredBy (s.locals t).running ∧
    (s'.locals t).running = s.enteredBy (s.locals t).running ∧
    (s'.locals t).scheduleFiber.getD t = t
  state : ∀ g, g ≠ (s.locals t).running → s'.state g = s.state g
  enteredBy : s'.enteredBy = s.enteredBy
  context : s'.context =
    Function.update (Function.update s.context (s.locals t).running (some (s.locals t).running))
      (s.enteredBy (s.locals t).running) none
  torn : s'.torn = false

/-- Back in the fiber that entered, which has been entered by the main fiber, or is it. -/
theorem Leaves.sound (h : s.Sound) (hl : Leaves s s' t) (ht : t < s.size)
    (hrt : (s.locals t).running ≠ t) : s'.Sound := by
  have hapart := h.apart t ht hrt
  have hrunning : (s'.locals t).running = s.enteredBy (s.locals t).running := hl.locals.2.1
  have hdepth : s.enteredBy (s.enteredBy (s.locals t).running) = t := h.depth t ht
  -- a thread is in the middle of less, and of the fiber that is left not any more
  have hlive : ∀ u < s.size, ∀ g, s'.Live u g → s.Live u g ∧ g ≠ (s.locals t).running := by
    intro u hu g hg
    by_cases hut : u = t
    · subst hut
      unfold Live at hg
      rw [hl.enteredBy, hrunning, hdepth] at hg
      rcases hg with rfl | rfl | rfl
      · exact ⟨.inr (.inl rfl), hapart⟩
      · exact ⟨.inr (.inr rfl), Ne.symm hrt⟩
      · exact ⟨.inr (.inr rfl), Ne.symm hrt⟩
    · unfold Live at hg
      rw [hl.others u hut, hl.enteredBy] at hg
      refine ⟨hg, ?_⟩
      rintro rfl
      exact hut (h.alone u hu t ht _ hg (.inl rfl))
  constructor
  · intro u hu
    rw [hl.size] at hu
    rw [hl.enteredBy]
    exact h.main u hu
  · intro u hu
    rw [hl.size] at hu
    by_cases hut : u = t
    · rw [hut, hl.locals.1, hrunning]
    · rw [hl.others u hut]
      exact h.cur u hu
  · intro u hu
    rw [hl.size] at hu
    rw [hl.enteredBy]
    by_cases hut : u = t
    · rw [hut, hrunning, hdepth]
      exact h.main t ht
    · rw [hl.others u hut]
      exact h.depth u hu
  · intro u hu
    rw [hl.size] at hu
    rw [hl.enteredBy]
    by_cases hut : u = t
    · rw [hut, hrunning, hdepth]
      exact Ne.symm
    · rw [hl.others u hut]
      exact h.apart u hu
  · intro u hu
    rw [hl.size] at hu
    rw [hl.enteredBy]
    by_cases hut : u = t
    · rw [hut, hl.locals.2.2, hrunning, hdepth]
    · rw [hl.others u hut]
      exact h.schedule u hu
  · intro u hu g hg
    rw [hl.size] at hu
    obtain ⟨hold, hgr⟩ := hlive u hu g hg
    rw [hl.state g hgr, hl.created]
    exact h.live u hu g hold
  · intro u hu v hv g hgu hgv
    rw [hl.size] at hu hv
    exact h.alone u hu v hv g (hlive u hu g hgu).1 (hlive v hv g hgv).1
  · intro g hg hnot
    rw [hl.created] at hg
    rw [hl.size] at hnot
    have hgm : g ≠ s.enteredBy (s.locals t).running := fun heq => hnot t ht (hrunning.trans heq.symm)
    rw [hl.context, Function.update_of_ne hgm, Function.update_apply]
    split
    · next hgr => rw [hgr]
    · next hgr =>
      refine h.resumable g hg fun u hu => ?_
      by_cases hut : u = t
      · exact hut ▸ Ne.symm hgr
      · rw [← hl.others u hut]
        exact hnot u hu
  · exact hl.torn

/-! ### The operations -/

/-- A complete context is loaded. -/
theorem swapcontext_of_complete {out into : ℕ} (hne : into ≠ out)
    (hinto : s.context into = some into) :
    s.swapcontext t out into =
      { s.setLocals t { s.locals t with running := into } with
        context := Function.update
          (Function.update s.context out (some (s.locals t).running)) into none } := by
  have hload : Function.update s.context out (some (s.locals t).running) into = some into := by
    rw [Function.update_of_ne hne, hinto]
  simp only [swapcontext, hload]

/-- A fiber that is in no thread can be resumed. -/
theorem Sound.context_of_not_exec (h : s.Sound) (hf : f < s.created) (hstate : s.state f ≠ .exec) :
    s.context f = some f :=
  h.resumable f hf fun u hu hrun => hstate (h.live u hu f (.inl hrun.symm)).1

/-- The fiber that has entered the one that runs can be resumed. -/
theorem Sound.context_of_enteredBy (h : s.Sound) (ht : t < s.size) (hrt : (s.locals t).running ≠ t) :
    s.context (s.enteredBy (s.locals t).running) = some (s.enteredBy (s.locals t).running) := by
  have hlive : s.Live t (s.enteredBy (s.locals t).running) := .inr (.inl rfl)
  refine h.resumable _ (h.live t ht _ hlive).2 fun u hu hrun => ?_
  obtain rfl := h.alone u hu t ht _ (.inl hrun.symm) hlive
  exact h.apart u hu hrt hrun.symm

/-- `swapIn()` by the main fiber enters a fiber that is not executed. -/
theorem enters_swapIn (h : s.Sound) (hf : f < s.created)
    (hrt : (s.locals t).running = t) (hschedule : (s.locals t).scheduleFiber.getD t = t)
    (hstate : s.state f ≠ .exec) (hne : f ≠ t) : Enters s ((s.setThis t f).enter t f t) t f := by
  have hctx := h.context_of_not_exec hf hstate
  unfold enter
  rw [if_neg (by exact hstate), swapcontext_of_complete hne (by exact hctx)]
  refine ⟨rfl, rfl, fun u hu => ?_, ?_, rfl, ?_, ?_, h.whole⟩
  · simp [setLocals, setThis, setState, Function.update_of_ne hu]
  · simp [setLocals, setThis, setState, hschedule, hrt]
  · simp [setLocals, setThis, setState]
  · simp [setLocals, setThis, setState, hrt]

/-- `swapIn(m)` by the fiber `m` enters a fiber that is not executed. -/
theorem enters_swapInOn (h : s.Sound) (hf : f < s.created) (hrm : (s.locals t).running = m)
    (hstate : s.state f ≠ .exec) (hne : f ≠ m) :
    Enters s (((s.setThis t f).setScheduleFiber t (some m)).enter t f m) t f := by
  have hctx := h.context_of_not_exec hf hstate
  unfold enter
  rw [if_neg (by exact hstate), swapcontext_of_complete hne (by exact hctx)]
  refine ⟨rfl, rfl, fun u hu => ?_, ?_, rfl, ?_, ?_, h.whole⟩
  · simp [setLocals, setThis, setState, setScheduleFiber, Function.update_of_ne hu]
  · simp [setLocals, setThis, setState, setScheduleFiber, hrm]
  · simp [setLocals, setThis, setState, setScheduleFiber]
  · simp [setLocals, setThis, setState, setScheduleFiber, hrm]

/-- `swapOut()` of the fiber that runs, after it may have written its state. -/
theorem leaves_swapOut (h : s.Sound) (ht : t < s.size) (hrt : (s.locals t).running ≠ t)
    (hby : s.enteredBy (s.locals t).running = t) (st : State) :
    Leaves s ((s.setState (s.locals t).running st).swapOut t (s.locals t).running) t := by
  have hctx := h.context_of_enteredBy ht hrt
  have hschedule := h.schedule t ht
  rw [hby] at hctx hschedule
  unfold swapOut
  rw [swapcontext_of_complete (Ne.symm hrt) (by exact hctx)]
  refine ⟨rfl, rfl, fun u hu => ?_, ?_, fun g hg => ?_, rfl, ?_, h.whole⟩
  · simp [setLocals, setThis, setState, Function.update_of_ne hu]
  · simp [setLocals, setThis, setState, hby, hschedule]
  · simp [setLocals, setThis, setState, Function.update_of_ne hg]
  · simp [setLocals, setThis, setState, hby]

/-- `swapOut(m)`, which has also cleared `t_schedule_fiber`. -/
theorem leaves_swapOutTo (h : s.Sound) (ht : t < s.size) (hrt : (s.locals t).running ≠ t)
    (hby : s.enteredBy (s.locals t).running = m) (st : State) :
    Leaves s ((s.setState (s.locals t).running st).swapOutTo t (s.locals t).running m) t := by
  have hctx := h.context_of_enteredBy ht hrt
  have hne := h.apart t ht hrt
  rw [hby] at hctx hne
  unfold swapOutTo
  rw [swapcontext_of_complete hne (by exact hctx)]
  refine ⟨rfl, rfl, fun u hu => ?_, ?_, fun g hg => ?_, rfl, ?_, h.whole⟩
  · simp [setLocals, setThis, setState, setScheduleFiber, Function.update_of_ne hu]
  · simp [setLocals, setThis, setState, setScheduleFiber, hby]
  · simp [setLocals, setThis, setState, setScheduleFiber, Function.update_of_ne hg]
  · simp [setLocals, setThis, setState, setScheduleFiber, hby]

/-- A step that switches nothing, resets no fiber that is executed, and saves contexts only. -/
theorem Sound.congr (h : s.Sound) (hsize : s'.size = s.size) (hlocals : s'.locals = s.locals)
    (hcreated : s.created ≤ s'.created) (hby : s'.enteredBy = s.enteredBy)
    (hstate : ∀ t < s.size, ∀ f, s.Live t f → s'.state f = .exec)
    (hcontext : ∀ f < s'.created, (∀ t < s.size, (s.locals t).running ≠ f) → s'.context f = some f)
    (htorn : s'.torn = s.torn) : s'.Sound := by
  -- which fibers are live depends on what has not changed
  have hlive : ∀ t f, s'.Live t f ↔ s.Live t f := by
    intro t f
    unfold Live
    rw [hlocals, hby]
  constructor
  · rw [hsize, hby]
    exact h.main
  · rw [hsize, hlocals]
    exact h.cur
  · rw [hsize, hlocals, hby]
    exact h.depth
  · rw [hsize, hlocals, hby]
    exact h.apart
  · rw [hsize, hlocals, hby]
    exact h.schedule
  · intro t ht f hf
    rw [hsize] at ht
    have hf := (hlive t f).mp hf
    exact ⟨hstate t ht f hf, Nat.lt_of_lt_of_le (h.live t ht f hf).2 hcreated⟩
  · intro t ht u hu f hf hf'
    rw [hsize] at ht hu
    exact h.alone t ht u hu f ((hlive t f).mp hf) ((hlive u f).mp hf')
  · rw [hsize, hlocals]
    exact hcontext
  · rw [htorn]
    exact h.whole

/-- A fiber is switched in by the main fiber, or by one that it has switched in. -/
theorem step_enters (h : s.Sound) {a : SwitchAction} (hC : s.Disciplined a)
    (ha : a.enters = some (t, f)) (hstep : step s a = some s') :
    t < s.size ∧ f < s.created ∧ s.state f ≠ .exec ∧ s.enteredBy (s.locals t).running = t ∧
      Enters s s' t f := by
  cases a with
  | swapIn t f =>
    obtain ⟨rfl, rfl⟩ := Prod.mk.inj (Option.some.inj ha)
    simp only [step, Option.ite_none_right_eq_some, Option.some.injEq] at hstep
    obtain ⟨⟨ht, hf⟩, rfl⟩ := hstep
    obtain ⟨hrt, hstate⟩ := hC
    -- the fiber that switches is the main fiber, which is entered by itself
    have hby : s.enteredBy (s.locals t).running = t := by rw [hrt, h.main t ht]
    have hne : f ≠ t := fun heq => hstate (heq ▸ (h.live t ht t (.inr (.inr rfl))).1)
    refine ⟨ht, hf, hstate, hby, enters_swapIn h hf hrt ?_ hstate hne⟩
    rw [h.schedule t ht, hby]
  | swapInOn t f m =>
    obtain ⟨rfl, rfl⟩ := Prod.mk.inj (Option.some.inj ha)
    simp only [step, Option.ite_none_right_eq_some, Option.some.injEq] at hstep
    obtain ⟨⟨ht, hf, -⟩, rfl⟩ := hstep
    obtain ⟨hrm, hby, hstate⟩ := hC
    -- `m` is live, so it is in `EXEC`, and `f` is not
    have hne : f ≠ m := fun heq => hstate (heq ▸ (h.live t ht m (.inl hrm.symm)).1)
    exact ⟨ht, hf, hstate, hrm ▸ hby, enters_swapInOn h hf hrm hstate hne⟩
  | _ => simp [SwitchAction.enters] at ha

/-- A fiber that yields or ends leaves for the one that has switched it in; at the end of `mainFunc`,
    `t_schedule_fiber` says which one that is. -/
theorem step_leaves (h : s.Sound) {a : SwitchAction} (hC : s.Disciplined a)
    (ha : a.leaves = some t) (hstep : step s a = some s') :
    t < s.size ∧ (s.locals t).running ≠ t ∧ Leaves s s' t := by
  cases a with
  | yield t st =>
    obtain rfl := Option.some.inj ha
    simp only [step, Option.ite_none_right_eq_some, Option.some.injEq] at hstep
    obtain ⟨ht, rfl⟩ := hstep
    rw [h.cur t ht]
    exact ⟨ht, hC.1, leaves_swapOut h ht hC.1 hC.2 st⟩
  | yieldOn t st m =>
    obtain rfl := Option.some.inj ha
    simp only [step, Option.ite_none_right_eq_some, Option.some.injEq] at hstep
    obtain ⟨⟨ht, -⟩, rfl⟩ := hstep
    rw [h.cur t ht]
    exact ⟨ht, hC.1, leaves_swapOutTo h ht hC.1 hC.2 st⟩
  | swapOutOn t m =>
    obtain rfl := Option.some.inj ha
    simp only [step, Option.ite_none_right_eq_some, Option.some.injEq] at hstep
    obtain ⟨⟨ht, -⟩, rfl⟩ := hstep
    -- the state of the fiber is not written
    have hkeeps : s.setState (s.locals t).running (s.state (s.locals t).running) = s := by
      simp [setState]
    have hleaves := leaves_swapOutTo h ht hC.1 hC.2 (s.state (s.locals t).running)
    rw [hkeeps] at hleaves
    rw [h.cur t ht]
    exact ⟨ht, hC.1, hleaves⟩
  | finish t st =>
    obtain rfl := Option.some.inj ha
    simp only [step, Option.ite_none_right_eq_some] at hstep
    obtain ⟨ht, hstep⟩ := hstep
    have hschedule := h.schedule t ht
    refine ⟨ht, hC, ?_⟩
    split at hstep
    · next m hm =>
      obtain rfl := Option.some.inj hstep
      have hm : (s.locals t).scheduleFiber = some m := hm
      rw [hm, Option.getD_some] at hschedule
      exact leaves_swapOutTo h ht hC hschedule.symm st
    · next hnone =>
      obtain rfl := Option.some.inj hstep
      have hnone : (s.locals t).scheduleFiber = none := hnone
      rw [hnone, Option.getD_none] at hschedule
      exact leaves_swapOut h ht hC hschedule.symm st
  | _ => simp [SwitchAction.leaves] at ha

/-- The other steps are about fibers that are in no thread. -/
theorem step_quiet (h : s.Sound) {a : SwitchAction} (hC : s.Disciplined a) (henters : a.enters = none)
    (hleaves : a.leaves = none) (hstep : step s a = some s') :
    s'.size = s.size ∧ s'.locals = s.locals ∧ s'.enteredBy = s.enteredBy ∧ s'.Sound := by
  cases a with
  -- a new fiber has a number that no thread runs
  | create =>
    obtain rfl := Option.some.inj hstep
    refine ⟨rfl, rfl, rfl, h.congr rfl rfl (Nat.le_succ _) rfl (fun t ht f hf => ?_)
      (fun f hf hnot => ?_) rfl⟩
    · obtain ⟨hexec, hlt⟩ := h.live t ht f hf
      exact (Function.update_of_ne (Nat.ne_of_lt hlt) ..).trans hexec
    · show Function.update s.context s.created (some s.created) f = some f
      rw [Function.update_apply]
      split
      · next heq => rw [heq]
      · next hne => exact h.resumable f (Nat.lt_of_le_of_ne (Nat.lt_succ_iff.mp hf) hne) hnot
  -- `reset` and `setState` are only done to a fiber that no thread runs
  | reset g =>
    simp only [step, Option.ite_none_right_eq_some, Option.some.injEq] at hstep
    obtain ⟨-, rfl⟩ := hstep
    refine ⟨rfl, rfl, rfl, h.congr rfl rfl (Nat.le_refl _) rfl (fun t ht f hf => ?_)
      (fun f hf hnot => ?_) rfl⟩
    · have hne : f ≠ g := fun heq => hC t ht (heq ▸ hf)
      exact (Function.update_of_ne hne ..).trans (h.live t ht f hf).1
    · show Function.update s.context g (some g) f = some f
      rw [Function.update_apply]
      split
      · next heq => rw [heq]
      · exact h.resumable f hf hnot
  | setState g st =>
    simp only [step, Option.ite_none_right_eq_some, Option.some.injEq] at hstep
    obtain ⟨-, rfl⟩ := hstep
    refine ⟨rfl, rfl, rfl, h.congr rfl rfl (Nat.le_refl _) rfl (fun t ht f hf => ?_) h.resumable rfl⟩
    have hne : f ≠ g := fun heq => hC t ht (heq ▸ hf)
    exact (Function.update_of_ne hne ..).trans (h.live t ht f hf).1
  | swapIn t f | swapInOn t f m => simp [SwitchAction.enters] at henters
  | yield t st | yieldOn t st m | swapOutOn t m | finish t st => simp [SwitchAction.leaves] at hleaves

/-- **Step lemma.** A step of the discipline keeps the invariant. -/
theorem Sound.step (h : s.Sound) {a : SwitchAction} (hC : s.Disciplined a)
    (hstep : Threads.step s a = some s') : s'.Sound := by
  cases henters : a.enters with
  | some p =>
    obtain ⟨t, f⟩ := p
    obtain ⟨ht, hf, hstate, hby, he⟩ := step_enters h hC henters hstep
    exact he.sound h ht hf hby hstate
  | none =>
    cases hleaves : a.leaves with
    | some t =>
      obtain ⟨ht, hrt, hl⟩ := step_leaves h hC hleaves hstep
      exact hl.sound h ht hrt
    | none => exact (step_quiet h hC henters hleaves hstep).2.2.2

/-- What `run`, `stop()` and the tasks do, when `schedulerFiber` has `t_scheduler_fiber` of each
    thread: the main fiber of a worker, and the root fiber of the thread that called `stop()`.

    Three of these conditions are on the users of the scheduler, which does not ensure them.  A fiber
    is not in `EXEC` when it is switched in, and it is in no thread when `run` resets it or writes its
    state: two workers that have popped one fiber can break both.  And a task yields with the
    scheduler's fiber as its argument. -/
def Follows (schedulerFiber : ℕ → ℕ) (s : Threads) : SwitchAction → Prop
  | .create => True
  -- `run` has the fiber back, and no other worker has it, or nobody has started it
  | .reset f | .setState f _ => ∀ t < s.size, ¬ s.Live t f
  -- `stop()`
  | .swapIn t f => (s.locals t).running = t ∧ f = schedulerFiber t ∧ s.state f ≠ .exec
  -- `run`, on a fiber that is no scheduler's
  | .swapInOn t f m =>
    (s.locals t).running = schedulerFiber t ∧ m = schedulerFiber t ∧
      (∀ u < s.size, f ≠ schedulerFiber u) ∧ s.state f ≠ .exec
  | .yield _ _ => False
  -- a task, or `idle()`
  | .yieldOn t _ m | .swapOutOn t m =>
    (s.locals t).running ≠ t ∧ (s.locals t).running ≠ schedulerFiber t ∧ m = schedulerFiber t
  | .finish t _ => (s.locals t).running ≠ t

instance (schedulerFiber : ℕ → ℕ) (s : Threads) (a : SwitchAction) :
    Decidable (s.Follows schedulerFiber a) := by
  cases a <;> unfold Follows Live <;> infer_instance

/-- Where a thread can be: in its main fiber, in the scheduler's, or in one that this has entered. -/
def Scheduled (schedulerFiber : ℕ → ℕ) (s : Threads) : Prop :=
  ∀ t < s.size, (s.locals t).running = t ∨
    ((s.locals t).running = schedulerFiber t ∧ s.enteredBy (schedulerFiber t) = t) ∨
    (s.enteredBy (s.locals t).running = schedulerFiber t ∧ s.enteredBy (schedulerFiber t) = t)

variable {schedulerFiber : ℕ → ℕ}

/-- The condition that a step meets in the states of a scheduler. -/
theorem Follows.disciplined (h : s.Sound) (hs : s.Scheduled schedulerFiber) {a : SwitchAction}
    (ht : ∀ t, a.enters.map Prod.fst = some t ∨ a.leaves = some t → t < s.size)
    (hC : s.Follows schedulerFiber a) : s.Disciplined a := by
  cases a with
  | create => trivial
  | reset f | setState f st => exact hC
  | swapIn t f => exact ⟨hC.1, hC.2.2⟩
  | swapInOn t f m =>
    obtain ⟨hrun, rfl, -, hstate⟩ := hC
    refine ⟨hrun, ?_, hstate⟩
    have ht := ht t (.inl rfl)
    -- the scheduler's fiber was entered by the main fiber, which is what `swapIn` needs
    rcases hs t ht with hmain | ⟨-, hby⟩ | ⟨-, hby⟩
    · rw [← hrun, hmain]
      exact h.main t ht
    · exact hby
    · exact hby
  | yield t st => exact hC.elim
  | yieldOn t st m | swapOutOn t m =>
    obtain ⟨hmain, hne, rfl⟩ := hC
    refine ⟨hmain, ?_⟩
    rcases hs t (ht t (.inr rfl)) with heq | ⟨heq, -⟩ | ⟨hby, -⟩
    · exact absurd heq hmain
    · exact absurd heq hne
    · exact hby
  | finish t st => exact hC

/-- The threads of an action exist. -/
theorem lt_size_of_step {a : SwitchAction} (hstep : step s a = some s')
    (ha : a.enters.map Prod.fst = some t ∨ a.leaves = some t) : t < s.size := by
  cases a with
  | swapIn u f | swapInOn u f m | yield u st | yieldOn u st m | swapOutOn u m | finish u st =>
    simp only [step, Option.ite_none_right_eq_some] at hstep
    obtain ⟨hu, -⟩ := hstep
    simp [SwitchAction.enters, SwitchAction.leaves] at ha
    omega
  | create | reset f | setState f st => simp [SwitchAction.enters, SwitchAction.leaves] at ha

/-- A fiber in no thread is entered: by the main fiber, if it is the scheduler's, or else by the
    scheduler's. -/
theorem Scheduled.enters (h : s.Sound) (hs : s.Scheduled schedulerFiber) (he : Enters s s' t f)
    (hstate : s.state f ≠ .exec)
    (hby : (s.locals t).running = t ∧ f = schedulerFiber t ∨
      (s.locals t).running = schedulerFiber t ∧ s.enteredBy (schedulerFiber t) = t) :
    s'.Scheduled schedulerFiber := by
  intro u hu
  rw [he.size] at hu
  -- the fibers that are live keep who entered them
  have hkeeps : ∀ g, s.Live u g → s'.enteredBy g = s.enteredBy g := by
    intro g hg
    have hne : g ≠ f := fun heq => hstate (heq ▸ (h.live u hu g hg).1)
    rw [he.enteredBy, Function.update_of_ne hne]
  have hself : s'.enteredBy f = (s.locals t).running := by rw [he.enteredBy, Function.update_self]
  by_cases hut : u = t
  · subst hut
    rw [he.locals.2.1, hself]
    -- either `run` starts, or `run` switches to a fiber of its queue
    rcases hby with ⟨hmain, rfl⟩ | ⟨hscheduler, hback⟩
    · exact .inr (.inl ⟨rfl, by rw [hself, hmain]⟩)
    · refine .inr (.inr ⟨hscheduler, ?_⟩)
      rw [← hscheduler, hkeeps _ (.inl rfl), hscheduler, hback]
  · rw [he.others u hut]
    rcases hs u hu with hmain | ⟨hrun, hback⟩ | ⟨hrun, hback⟩
    · exact .inl hmain
    · exact .inr (.inl ⟨hrun, by rw [hkeeps _ (.inl hrun.symm), hback]⟩)
    · refine .inr (.inr ⟨?_, ?_⟩)
      · rw [hkeeps _ (.inl rfl), hrun]
      · rw [hkeeps _ (.inr (.inl hrun.symm)), hback]

/-- The switches of the scheduler, the tasks and `stop()` keep where the fibers return to. -/
theorem Scheduled.step (h : s.Sound) (hs : s.Scheduled schedulerFiber) {a : SwitchAction}
    (hC : s.Follows schedulerFiber a) (hstep : Threads.step s a = some s') :
    s'.Scheduled schedulerFiber := by
  have hD : s.Disciplined a := hC.disciplined h hs fun t ht => lt_size_of_step hstep ht
  cases henters : a.enters with
  | some p =>
    obtain ⟨t, f⟩ := p
    obtain ⟨ht, -, hstate, -, he⟩ := step_enters h hD henters hstep
    refine hs.enters h he hstate ?_
    cases a with
    | swapIn u g =>
      obtain ⟨rfl, rfl⟩ := Prod.mk.inj (Option.some.inj henters)
      exact .inl ⟨hC.1, hC.2.1⟩
    | swapInOn u g m =>
      obtain ⟨rfl, rfl⟩ := Prod.mk.inj (Option.some.inj henters)
      exact .inr ⟨hC.1, hC.2.1 ▸ hD.2.1⟩
    | _ => simp [SwitchAction.enters] at henters
  | none =>
    -- a thread that switches out goes one level down, from a fiber to `run` or from `run` to main
    cases hleaves : a.leaves with
    | some t =>
      obtain ⟨ht, hrt, hl⟩ := step_leaves h hD hleaves hstep
      intro u hu
      rw [hl.size] at hu
      rw [hl.enteredBy]
      by_cases hut : u = t
      · subst hut
        rw [hl.locals.2.1]
        rcases hs u hu with hmain | ⟨hrun, hback⟩ | ⟨hrun, hback⟩
        · exact absurd hmain hrt
        · exact .inl (by rw [hrun, hback])
        · exact .inr (.inl ⟨hrun, hback⟩)
      · rw [hl.others u hut]
        exact hs u hu
    | none =>
      obtain ⟨hsize, hlocals, hby, -⟩ := step_quiet h hD henters hleaves hstep
      intro u hu
      rw [hsize] at hu
      rw [hlocals, hby]
      exact hs u hu

end Threads

end LoNetfw.Fiber
