import LoNetfw.Hook.Sleep
import LoNetfw.Scheduler.TimedWorkers

namespace LoNetfw.Hook

open Basis
open Scheduler (ClockAction ClockRun TimerAction TimerManager TimerRun)

/-!
# Hooked sleeps — wake-ups

Fibers sleep on the timers of one `IOScheduler`, which other timers share.  A sleep keeps no pointer
to its timer, so that only an expiry changes that timer; its callback schedules the fiber, and a
worker resumes it some time later.

* `SleepRun.step` — calls, expiries, resumed fibers, and what others do with their timers;
* `Inv` — the timer of a sleep is armed until it has expired, and the fiber is woken once then;
* `sleeps_exact` — a fiber is woken at most once for a call and never outside of one, no call is
  left without an armed timer or a wake-up, and no call returns before its duration is over.
-/

/-- A call of a fiber, whose timer was created when the clock read `start`. -/
structure Nap where
  call : SleepCall
  timer : ℕ
  start : ℕ
  deriving DecidableEq, Repr

/-- The stored deadline of a call is over. -/
def Nap.Over (n : Nap) (now : ℕ) : Prop := ∃ ms, n.call.msec = some ms ∧ wadd n.start ms ≤ now

/-- A nap that is over stays over. -/
theorem Nap.Over.mono {n : Nap} {now now' : ℕ} (h : n.Over now) (hle : now ≤ now') :
    n.Over now' := by
  obtain ⟨ms, hms, hover⟩ := h
  exact ⟨ms, hms, hover.trans hle⟩

structure SleepRun where
  clock : ClockRun
  /-- The call that a fiber is in. -/
  nap : ℕ → Option Nap
  /-- The fiber whose call has created a timer. -/
  owner : ℕ → Option ℕ
  /-- The fibers on their way from the callback of their timer to a worker. -/
  woken : List ℕ
  /-- The calls that have returned, with the clock then. -/
  returned : List (Nap × ℕ)

inductive SleepAction
  /-- A call in `fiber`, which creates its timer when the clock reads `now`, at `addr`. -/
  | sleep (fiber : ℕ) (c : SleepCall) (now addr : ℕ)
  /-- The write-locked part of a `getExpiredCbsList` that sampled `now`. -/
  | expire (now probe : ℕ)
  /-- A worker resumes a fiber that was scheduled by a timer. -/
  | resume (fiber : ℕ)
  /-- The clock moves on, or someone works with timers of his own. -/
  | other (a : ClockAction)
  deriving DecidableEq, Repr

/-- The timer that a member function of `Timer` is called on. -/
def calledOn : TimerAction → Option ℕ
  | .cancel t | .refresh t _ | .resetTest t _ _ | .reset t _ _ _ => some t
  | .addTimer _ _ _ _ _ | .getNextTimerTimeMs _ | .sample _ | .getExpiredCbsList _ _ => none

namespace SleepRun

def manager (s : SleepRun) : TimerManager := s.clock.run.manager

/-- The action is not an expiry, and is on no timer of a sleep. -/
def foreign (s : SleepRun) : ClockAction → Bool
  | .tick _ => true
  | .timer b => !b.isExpiry && ((calledOn b).bind s.owner).isNone

/-- The call arms its timer and yields; there is none in a fiber that is not running, or with a
    period that overflows. -/
def sleep (s : SleepRun) (fiber : ℕ) (c : SleepCall) (now addr : ℕ) : Option SleepRun :=
  match s.nap fiber, c.msec with
  | none, some ms =>
    (s.clock.step (.timer (.addTimer ms fiber false now addr))).map fun clock =>
      { s with
        clock := clock
        nap := Function.update s.nap fiber (some ⟨c, s.manager.allocated, now⟩)
        owner := Function.update s.owner s.manager.allocated (some fiber) }
  | _, _ => none

/-- The callbacks of the sleeps' timers are on their way to the fibers. -/
def expire (s : SleepRun) (now probe : ℕ) : Option SleepRun :=
  (s.clock.step (.timer (.getExpiredCbsList now probe))).map fun clock =>
    { s with
      clock := clock
      woken := s.woken ++
        (s.manager.getExpiredCbsList now probe).2.filterMap fun c => s.owner c.1 }

def resume (s : SleepRun) (fiber : ℕ) : Option SleepRun :=
  if fiber ∈ s.woken then
    some { s with
      nap := Function.update s.nap fiber none
      woken := s.woken.erase fiber
      returned := s.returned ++ (s.nap fiber).toList.map fun n => (n, s.clock.clock) }
  else none

def step (s : SleepRun) : SleepAction → Option SleepRun
  | .sleep fiber c now addr => s.sleep fiber c now addr
  | .expire now probe => s.expire now probe
  | .resume fiber => s.resume fiber
  | .other a =>
    if s.foreign a then (s.clock.step a).map fun clock => { s with clock := clock } else none

/-- When the clock reads `start`. -/
def new (start : ℕ) : SleepRun := ⟨.new start, fun _ => none, fun _ => none, [], []⟩

variable {s s' : SleepRun} {a : SleepAction}

/-- A value of an updated table, by cases. -/
theorem update_eq_some {α β : Type} [DecidableEq α] {g : α → Option β} {v : Option β} {x y : α}
    {b : β} : Function.update g x v y = some b ↔ y = x ∧ v = some b ∨ y ≠ x ∧ g y = some b := by
  by_cases hy : y = x
  · simp [hy]
  · simp [hy]

/-! ### The timers of others -/

/-- A timer that was moved is the only one that is changed. -/
theorem heap_of_moved {m m' : TimerManager} {t u : ℕ} (h : m' = m ∨ m.Moved u m') (hu : t ≠ u) :
    m'.heap t = m.heap t := by
  rcases h with rfl | ⟨-, v, notified, -, -, -, rfl⟩
  · rfl
  · exact TimerManager.setTimer_heap_of_ne hu

/-- A section other than an expiry changes no timer but its own. -/
theorem heap_of_step {r r' : TimerRun} {b : TimerAction} {t : ℕ} (hm : r.manager.Inv)
    (ht : t < r.manager.allocated) (hexpiry : b.isExpiry = false)
    (hcalled : calledOn b ≠ some t) (hstep : r.step b = some r') :
    r'.manager.heap t = r.manager.heap t := by
  have hne : ∀ u, calledOn b = some u → t ≠ u := fun u hu htu => hcalled (htu ▸ hu)
  cases b with
  | addTimer ms cb isLoop now addr =>
    simp only [TimerRun.step, Option.ite_none_right_eq_some, Option.some.injEq] at hstep
    obtain ⟨-, rfl⟩ := hstep
    exact TimerManager.setTimer_heap_of_ne (Nat.ne_of_lt ht)
  -- a call changes the timer that it is made on, and `t` is another
  | cancel u =>
    simp only [TimerRun.step, Option.ite_none_right_eq_some] at hstep
    obtain ⟨-, hstep⟩ := hstep
    by_cases hcb : (r.manager.heap u).cb.isSome
    · rw [TimerManager.cancel_of_armed hm hcb, Option.some.injEq] at hstep
      subst hstep
      exact TimerManager.setTimer_heap_of_ne (hne u rfl)
    · rw [TimerManager.cancel_of_disarmed hcb, Option.some.injEq] at hstep
      subst hstep
      rfl
  | refresh u now =>
    simp only [TimerRun.step, Option.ite_none_right_eq_some, Option.some.injEq] at hstep
    obtain ⟨-, rfl⟩ := hstep
    exact heap_of_moved (TimerManager.refresh_cases hm now) (hne u rfl)
  | resetTest u ms fromNow =>
    simp only [TimerRun.step, Option.ite_none_right_eq_some, Option.some.injEq] at hstep
    obtain ⟨-, rfl⟩ := hstep
    split <;> rfl
  | reset u ms fromNow now =>
    simp only [TimerRun.step, Option.ite_none_right_eq_some, Option.some.injEq] at hstep
    obtain ⟨-, rfl⟩ := hstep
    exact heap_of_moved (TimerManager.resetLocked_cases hm ms now fromNow) (hne u rfl)
  | getNextTimerTimeMs now =>
    simp only [TimerRun.step, Option.ite_none_right_eq_some, Option.some.injEq] at hstep
    obtain ⟨-, rfl⟩ := hstep
    rw [TimerManager.getNextTimerTimeMs]
    split <;> rfl
  | sample now =>
    simp only [TimerRun.step, Option.ite_none_right_eq_some, Option.some.injEq] at hstep
    obtain ⟨-, rfl⟩ := hstep
    rfl
  | getExpiredCbsList now probe => exact absurd hexpiry Bool.noConfusion

/-! ### Invariant -/

/-- The sleep has a timer of its own, with the period of the call, and which is not a loop timer. -/
structure Owns (s : SleepRun) (fiber : ℕ) (n : Nap) : Prop where
  owner : s.owner n.timer = some fiber
  isLoop : (s.manager.heap n.timer).isLoop = false
  next : ∃ ms, n.call.msec = some ms ∧ (s.manager.heap n.timer).next = wadd n.start ms

structure Inv (s : SleepRun) : Prop where
  manager : s.manager.Inv
  owned : ∀ t f, s.owner t = some f → t < s.manager.allocated
  owns : ∀ f n, s.nap f = some n → s.Owns f n
  /-- No timer of a call that has returned is armed. -/
  armed : ∀ t f, s.owner t = some f → (s.manager.heap t).cb.isSome →
    ∃ n, s.nap f = some n ∧ n.timer = t
  nodup : s.woken.Nodup
  woken : ∀ f, f ∈ s.woken ↔ ∃ n, s.nap f = some n ∧ (s.manager.heap n.timer).cb = none

/-- Nobody sleeps at first. -/
theorem inv_new (start : ℕ) : (new start).Inv where
  manager := TimerManager.inv_new start
  owned _ _ h := absurd h (Option.some_ne_none _).symm
  owns _ _ h := absurd h (Option.some_ne_none _).symm
  armed _ _ h := absurd h (Option.some_ne_none _).symm
  nodup := List.nodup_nil
  woken _ := iff_of_false List.not_mem_nil fun ⟨_, hn, _⟩ => absurd hn (Option.some_ne_none _).symm

/-- What others do keeps the invariant. -/
theorem Inv.of_heap {clock : ClockRun} (h : s.Inv) (hm : clock.run.manager.Inv)
    (hle : s.manager.allocated ≤ clock.run.manager.allocated)
    (hheap : ∀ t f, s.owner t = some f → clock.run.manager.heap t = s.manager.heap t) :
    Inv { s with clock := clock } where
  manager := hm
  owned t f ht := (h.owned t f ht).trans_le hle
  -- the timers of the sleeping fibers have not been touched
  owns f n hn := by
    obtain ⟨howner, hloop, hnext⟩ := h.owns f n hn
    have hsame := hheap n.timer f howner
    exact ⟨howner, hsame ▸ hloop, hsame ▸ hnext⟩
  armed t f ht hcb := by
    have hcb' : (clock.run.manager.heap t).cb.isSome := hcb
    rw [hheap t f ht] at hcb'
    exact h.armed t f ht hcb'
  nodup := h.nodup
  woken f := by
    rw [h.woken f]
    refine exists_congr fun n => and_congr_right fun hn => ?_
    show _ ↔ (clock.run.manager.heap n.timer).cb = none
    rw [hheap n.timer f (h.owns f n hn).owner]

/-- A section of the timers. -/
theorem clock_step_timer {c c' : ClockRun} {b : TimerAction} (h : c.step (.timer b) = some c') :
    b.reads c.clock = true ∧ ∃ run, c.run.step b = some run ∧ c' = { c with run := run } := by
  simp only [ClockRun.step, Option.ite_none_right_eq_some, Option.map_eq_some_iff] at h
  obtain ⟨hreads, run, hrun, rfl⟩ := h
  exact ⟨hreads, run, hrun, rfl⟩

/-- A call arms a new timer for its fiber. -/
theorem Inv.sleep (h : s.Inv) {fiber now addr : ℕ} {c : SleepCall}
    (hstep : s.sleep fiber c now addr = some s') : s'.Inv := by
  unfold SleepRun.sleep at hstep
  split at hstep
  · next ms hnap hms =>
    obtain ⟨clock, hclock, rfl⟩ := Option.map_eq_some_iff.mp hstep
    obtain ⟨-, run, hrun, rfl⟩ := clock_step_timer hclock
    have hm := (TimerRun.step_advance h.manager hrun).manager
    simp only [TimerRun.step, Option.ite_none_right_eq_some, Option.some.injEq] at hrun
    obtain ⟨-, rfl⟩ := hrun
    -- the call has a new timer, and all others are as they were
    have hne : ∀ t f, s.owner t = some f → t ≠ s.manager.allocated :=
      fun t f ht => (h.owned t f ht).ne
    have hheap : ∀ t f, s.owner t = some f →
        (s.manager.addTimer ms (some fiber) false now addr).1.heap t = s.manager.heap t :=
      fun t f ht => TimerManager.setTimer_heap_of_ne (hne t f ht)
    have hnew : (s.manager.addTimer ms (some fiber) false now addr).1.heap s.manager.allocated =
        ⟨some fiber, false, ms, wadd now ms, addr⟩ := Function.update_self ..
    have hasleep : ∀ f n, s.nap f = some n → f ≠ fiber := by
      rintro f n hn rfl
      exact absurd (hnap.symm.trans hn) (Option.some_ne_none n).symm
    refine ⟨hm, ?_, ?_, ?_, h.nodup, ?_⟩
    · intro t f ht
      show t < s.manager.allocated + 1
      obtain ⟨rfl, -⟩ | ⟨-, ht⟩ := update_eq_some.mp ht
      · exact Nat.lt_succ_self _
      · exact Nat.lt_succ_of_lt (h.owned t f ht)
    · intro f n hn
      obtain ⟨rfl, hv⟩ | ⟨-, hn⟩ := update_eq_some.mp hn
      · obtain rfl := Option.some.inj hv
        exact ⟨Function.update_self .., congrArg Scheduler.Timer.isLoop hnew, ms, hms,
          congrArg Scheduler.Timer.next hnew⟩
      · obtain ⟨howner, hloop, hnext⟩ := h.owns f n hn
        have hsame := hheap n.timer f howner
        exact ⟨update_eq_some.mpr (.inr ⟨hne _ f howner, howner⟩), hsame ▸ hloop, hsame ▸ hnext⟩
    · intro t f ht hcb
      obtain ⟨rfl, hv⟩ | ⟨-, ht⟩ := update_eq_some.mp ht
      · obtain rfl := Option.some.inj hv
        exact ⟨_, Function.update_self .., rfl⟩
      · obtain ⟨n, hn, htimer⟩ := h.armed t f ht (hheap t f ht ▸ hcb)
        exact ⟨n, update_eq_some.mpr (.inr ⟨hasleep f n hn, hn⟩), htimer⟩
    · intro f
      rw [h.woken f]
      constructor
      · rintro ⟨n, hn, hcb⟩
        have hsame := hheap n.timer f (h.owns f n hn).owner
        exact ⟨n, update_eq_some.mpr (.inr ⟨hasleep f n hn, hn⟩), hsame ▸ hcb⟩
      · rintro ⟨n, hn, hcb⟩
        obtain ⟨rfl, hv⟩ | ⟨-, hn⟩ := update_eq_some.mp hn
        · -- the new timer is armed
          obtain rfl := Option.some.inj hv
          exact absurd ((congrArg Scheduler.Timer.cb hnew).symm.trans hcb) (Option.some_ne_none _)
        · exact ⟨n, hn, hheap n.timer f (h.owns f n hn).owner ▸ hcb⟩
  · exact absurd hstep (Option.some_ne_none _).symm

/-- A fiber that was scheduled returns from its call. -/
theorem Inv.resume (h : s.Inv) {fiber : ℕ} (hstep : s.resume fiber = some s') : s'.Inv := by
  unfold SleepRun.resume at hstep
  rw [Option.ite_none_right_eq_some, Option.some.injEq] at hstep
  obtain ⟨hwoken, rfl⟩ := hstep
  have hnap : ∀ f n,
      Function.update s.nap fiber none f = some n ↔ f ≠ fiber ∧ s.nap f = some n := by
    intro f n
    rw [update_eq_some, or_iff_right fun hf => Option.some_ne_none n hf.2.symm]
  refine ⟨h.manager, h.owned, ?_, ?_, h.nodup.erase fiber, ?_⟩
  · intro f n hn
    obtain ⟨howner, hloop, hnext⟩ := h.owns f n ((hnap f n).mp hn).2
    exact ⟨howner, hloop, hnext⟩
  · intro t f ht hcb
    obtain ⟨n, hn, rfl⟩ := h.armed t f ht hcb
    refine ⟨n, (hnap f n).mpr ⟨?_, hn⟩, rfl⟩
    -- the timer of a fiber that was woken is not armed
    rintro rfl
    obtain ⟨n', hn', hnone⟩ := (h.woken f).mp hwoken
    obtain rfl : n = n' := Option.some.inj (hn.symm.trans hn')
    have hsome : (s.manager.heap n.timer).cb.isSome := hcb
    rw [hnone] at hsome
    exact absurd hsome Bool.false_ne_true
  · intro f
    show f ∈ s.woken.erase fiber ↔ _
    rw [h.nodup.mem_erase_iff, h.woken f, ← exists_and_left]
    refine exists_congr fun n => ?_
    rw [← and_assoc]
    exact and_congr_left' (hnap f n).symm

/-- The fibers that an expiry wakes: those whose timers it takes. -/
theorem Inv.mem_expired_iff (h : s.Inv) {now probe f : ℕ} :
    f ∈ ((s.manager.getExpiredCbsList now probe).2.filterMap fun c => s.owner c.1) ↔
      ∃ n, s.nap f = some n ∧
        n.timer ∈ s.manager.timers ∧ s.manager.expires now n.timer = true := by
  rw [TimerManager.getExpiredCbsList_cbs h.manager, List.filterMap_map, List.mem_filterMap]
  constructor
  · rintro ⟨t, ht, howner⟩
    obtain ⟨hmem, hexpires⟩ := List.mem_filter.mp ht
    obtain ⟨n, hn, rfl⟩ := h.armed t f howner ((h.manager.mem_iff t).mp hmem)
    exact ⟨n, hn, hmem, hexpires⟩
  · rintro ⟨n, hn, hmem, hexpires⟩
    exact ⟨n.timer, List.mem_filter.mpr ⟨hmem, hexpires⟩, (h.owns f n hn).owner⟩

/-- An expiry wakes a fiber once. -/
theorem Inv.nodup_expired (h : s.Inv) (now probe : ℕ) :
    ((s.manager.getExpiredCbsList now probe).2.filterMap fun c => s.owner c.1).Nodup := by
  have hnodup : s.manager.timers.Nodup := h.manager.nodup
  rw [TimerManager.getExpiredCbsList_cbs h.manager, List.filterMap_map, List.Nodup,
    List.pairwise_filterMap]
  refine (hnodup.filter _).imp_of_mem ?_
  rintro t t' ht ht' hne f hf f' hf' rfl
  -- both timers would be the one of the call that the fiber is in
  obtain ⟨n, hn, rfl⟩ := h.armed t f hf ((h.manager.mem_iff t).mp (List.mem_filter.mp ht).1)
  obtain ⟨n', hn', rfl⟩ := h.armed t' f hf' ((h.manager.mem_iff t').mp (List.mem_filter.mp ht').1)
  obtain rfl : n = n' := Option.some.inj (hn.symm.trans hn')
  exact hne rfl

/-- An expiry takes the callback of the timer of a sleep, and changes nothing else of it. -/
theorem Inv.heap_expired (h : s.Inv) {f : ℕ} {n : Nap} (hn : s.nap f = some n) (now probe : ℕ) :
    (s.manager.getExpiredCbsList now probe).1.heap n.timer =
      if n.timer ∈ s.manager.timers ∧ s.manager.expires now n.timer = true then
        { s.manager.heap n.timer with cb := none }
      else s.manager.heap n.timer := by
  rw [TimerManager.getExpiredCbsList_heap h.manager, Scheduler.Timer.expired,
    if_neg (ne_true_of_eq_false (h.owns f n hn).isLoop)]

/-- An expiry schedules the fibers of the timers that it takes. -/
theorem Inv.expire (h : s.Inv) {now probe : ℕ} (hstep : s.expire now probe = some s') : s'.Inv := by
  obtain ⟨clock, hclock, rfl⟩ := Option.map_eq_some_iff.mp hstep
  obtain ⟨-, run, hrun, rfl⟩ := clock_step_timer hclock
  have hadvance := TimerRun.step_advance h.manager hrun
  simp only [TimerRun.step, Option.ite_none_right_eq_some, Option.some.injEq] at hrun
  obtain ⟨-, rfl⟩ := hrun
  have hcb : ∀ f n, s.nap f = some n →
      (((s.manager.getExpiredCbsList now probe).1.heap n.timer).cb = none ↔
        (s.manager.heap n.timer).cb = none ∨
          n.timer ∈ s.manager.timers ∧ s.manager.expires now n.timer = true) := by
    intro f n hn
    rw [h.heap_expired hn]
    split
    · next htaken => exact iff_of_true rfl (.inr htaken)
    · next htaken => exact (or_iff_left htaken).symm
  refine ⟨hadvance.manager, fun t f ht => (h.owned t f ht).trans_le hadvance.evolves.allocated,
    ?_, ?_, ?_, ?_⟩
  · intro f n hn
    obtain ⟨howner, hloop, hnext⟩ := h.owns f n hn
    have hsame := h.heap_expired hn now probe
    refine ⟨howner, ?_, ?_⟩
    · show ((s.manager.getExpiredCbsList now probe).1.heap n.timer).isLoop = false
      rw [hsame]
      split <;> exact hloop
    · show ∃ ms, _ ∧ ((s.manager.getExpiredCbsList now probe).1.heap n.timer).next = _
      rw [hsame]
      split <;> exact hnext
  · intro t f ht harmed
    apply h.armed t f ht
    -- what is not armed stays so
    have hkeep := hadvance.evolves.disarmed t (h.owned t f ht)
    contrapose! hkeep
    refine ⟨Option.not_isSome_iff_eq_none.mp hkeep, Option.isSome_iff_ne_none.mp harmed⟩
  · show (s.woken ++ _).Nodup
    refine h.nodup.append (h.nodup_expired now probe) fun f hf hf' => ?_
    obtain ⟨n, hn, hnone⟩ := (h.woken f).mp hf
    obtain ⟨n', hn', hmem, -⟩ := h.mem_expired_iff.mp hf'
    obtain rfl : n = n' := Option.some.inj (hn.symm.trans hn')
    have hsome := (h.manager.mem_iff n.timer).mp hmem
    rw [hnone] at hsome
    exact absurd hsome Bool.false_ne_true
  · intro f
    show f ∈ s.woken ++ _ ↔ _
    rw [List.mem_append, h.woken f, h.mem_expired_iff, ← exists_or]
    refine exists_congr fun n => ?_
    rw [← and_or_left]
    exact and_congr_right fun hn => (hcb f n hn).symm

/-- **Step.** Each step keeps the invariant. -/
theorem Inv.step (h : s.Inv) (hstep : step s a = some s') : s'.Inv := by
  cases a with
  | sleep fiber c now addr => exact h.sleep hstep
  | expire now probe => exact h.expire hstep
  | resume fiber => exact h.resume hstep
  | other b =>
    obtain ⟨hforeign, hstep⟩ := Option.ite_none_right_eq_some.mp hstep
    obtain ⟨clock, hclock, rfl⟩ := Option.map_eq_some_iff.mp hstep
    cases b with
    | tick clock' =>
      simp only [ClockRun.step, Option.ite_none_right_eq_some, Option.some.injEq] at hclock
      obtain ⟨-, rfl⟩ := hclock
      exact h.of_heap h.manager le_rfl fun _ _ _ => rfl
    | timer b =>
      obtain ⟨-, run, hrun, rfl⟩ := clock_step_timer hclock
      -- what others do to their timers leaves those of the fibers alone
      have hadvance := TimerRun.step_advance h.manager hrun
      simp only [foreign, Bool.and_eq_true, Bool.not_eq_true', Option.isNone_iff_eq_none]
        at hforeign
      refine h.of_heap hadvance.manager hadvance.evolves.allocated fun t f ht => ?_
      refine heap_of_step h.manager (h.owned t f ht) hforeign.1 (fun hcalled => ?_) hrun
      have hnone := hforeign.2
      rw [hcalled, Option.bind_some, ht] at hnone
      exact absurd hnone (Option.some_ne_none f)

/-! ### Time -/

/-- An expiry is in time, see `ClockRun.InTime`. -/
def InTime (s : SleepRun) : SleepAction → Prop
  | .expire now _ => s.manager.InTime now
  | .sleep _ _ _ _ | .resume _ | .other _ => True

structure OnTime (s : SleepRun) : Prop where
  sampled : ∀ now ∈ s.clock.run.sampled, now ≤ s.clock.clock
  woken : ∀ f ∈ s.woken, ∀ n, s.nap f = some n → n.Over s.clock.clock
  returned : ∀ r ∈ s.returned, r.1.Over r.2

/-- No clock has been sampled at first. -/
theorem onTime_new (start : ℕ) : (new start).OnTime where
  sampled _ hnow := absurd hnow List.not_mem_nil
  woken _ hf := absurd hf List.not_mem_nil
  returned _ hr := absurd hr List.not_mem_nil

/-- A section of the timers keeps the readings that are on their way behind the clock. -/
theorem sampled_le {c c' : ClockRun} {b : TimerAction} (h : ∀ now ∈ c.run.sampled, now ≤ c.clock)
    (hstep : c.step (.timer b) = some c') :
    c'.clock = c.clock ∧ ∀ now ∈ c'.run.sampled, now ≤ c'.clock := by
  obtain ⟨hreads, run, hrun, rfl⟩ := clock_step_timer hstep
  refine ⟨rfl, fun now hnow => ?_⟩
  rcases TimerRun.step_sampled hrun hnow with hold | rfl
  · exact h now hold
  · exact (beq_iff_eq.mp hreads).le

/-- **Step.** When each expiry is in time, no fiber is woken, and no call returns, before its
    deadline. -/
theorem OnTime.step (h : s.OnTime) (hs : s.Inv) (ha : s.InTime a) (hstep : step s a = some s') :
    s'.OnTime := by
  cases a with
  | sleep fiber c now addr =>
    change s.sleep fiber c now addr = some s' at hstep
    unfold SleepRun.sleep at hstep
    split at hstep
    · next ms hnap hms =>
      obtain ⟨clock, hclock, rfl⟩ := Option.map_eq_some_iff.mp hstep
      obtain ⟨hsame, hsampled⟩ := sampled_le h.sampled hclock
      refine ⟨hsampled, fun f hf n hn => ?_, h.returned⟩
      -- the fiber that calls is not woken
      have hwoken := (hs.woken f).mp hf
      obtain ⟨rfl, -⟩ | ⟨-, hn⟩ := update_eq_some.mp hn
      · obtain ⟨n', hn', -⟩ := hwoken
        exact absurd (hnap.symm.trans hn') (Option.some_ne_none n').symm
      · exact hsame ▸ h.woken f hf n hn
    · exact absurd hstep (Option.some_ne_none _).symm
  | expire now probe =>
    obtain ⟨clock, hclock, rfl⟩ := Option.map_eq_some_iff.mp hstep
    obtain ⟨hsame, hsampled⟩ := sampled_le h.sampled hclock
    refine ⟨hsampled, fun f hf n hn => ?_, h.returned⟩
    show n.Over clock.clock
    rw [hsame]
    rcases List.mem_append.mp hf with hf | hf
    · exact h.woken f hf n hn
    · obtain ⟨n', hn', hmem, hexpires⟩ := hs.mem_expired_iff.mp hf
      obtain rfl : n = n' := Option.some.inj (hn.symm.trans hn')
      obtain ⟨-, -, ms, hms, hnext⟩ := hs.owns f n hn
      have hdue : (s.manager.heap n.timer).next ≤ now := by
        apply ((TimerManager.inTime_iff s.manager now probe).mp ha).1
        rw [TimerManager.getExpiredCbsList_cbs hs.manager, List.map_map]
        exact List.mem_map.mpr ⟨n.timer, List.mem_filter.mpr ⟨hmem, hexpires⟩, rfl⟩
      have hnow : now ∈ s.clock.run.sampled := by
        obtain ⟨-, run, hrun, -⟩ := clock_step_timer hclock
        simp only [TimerRun.step, Option.ite_none_right_eq_some] at hrun
        exact hrun.1.2
      exact ⟨ms, hms, hnext ▸ hdue.trans (h.sampled now hnow)⟩
  | resume fiber =>
    obtain ⟨hwoken, hstep⟩ := Option.ite_none_right_eq_some.mp hstep
    obtain rfl := Option.some.inj hstep
    refine ⟨h.sampled, fun f hf n hn => ?_, fun r hr => ?_⟩
    · obtain ⟨-, hv⟩ | ⟨-, hn⟩ := update_eq_some.mp hn
      · exact absurd hv (Option.some_ne_none n).symm
      · exact h.woken f (List.mem_of_mem_erase hf) n hn
    · rcases List.mem_append.mp hr with hr | hr
      · exact h.returned r hr
      · obtain ⟨n, hn, rfl⟩ := List.mem_map.mp hr
        exact h.woken fiber hwoken n (Option.mem_toList.mp hn)
  | other b =>
    obtain ⟨-, hstep⟩ := Option.ite_none_right_eq_some.mp hstep
    obtain ⟨clock, hclock, rfl⟩ := Option.map_eq_some_iff.mp hstep
    cases b with
    | tick clock' =>
      simp only [ClockRun.step, Option.ite_none_right_eq_some, Option.some.injEq] at hclock
      obtain ⟨⟨hle, -⟩, rfl⟩ := hclock
      refine ⟨fun now hnow => (h.sampled now hnow).trans hle, fun f hf n hn => ?_, h.returned⟩
      exact (h.woken f hf n hn).mono hle
    | timer b =>
      obtain ⟨hsame, hsampled⟩ := sampled_le h.sampled hclock
      exact ⟨hsampled, fun f hf n hn => hsame ▸ h.woken f hf n hn, h.returned⟩

/-- A call whose deadline is over has lasted as long as it was asked for. -/
theorem duration_le {n : Nap} {now : ℕ} (h : n.Over now) (hvalid : n.call.Valid)
    (hexact : n.call.Exact) (hfits : ∀ ms, n.call.msec = some ms → n.start + ms < 2 ^ 64) :
    n.start * 10 ^ 6 + n.call.duration ≤ now * 10 ^ 6 := by
  obtain ⟨ms, hms, hle⟩ := h
  obtain ⟨ms', hms', hduration⟩ := (SleepCall.msec_enough_iff hvalid).mpr hexact
  obtain rfl : ms = ms' := Option.some.inj (hms.symm.trans hms')
  rw [wadd_eq_add_iff.mpr (hfits ms hms)] at hle
  omega

/-- **Sleeping fibers.**  In every interleaving, the fibers that the callbacks of sleeps have
    scheduled are in a call, and each is scheduled once for it; any other fiber that is in a call
    has its timer armed, and is scheduled by the first expiry that samples its deadline or later.
    When each expiry is in time, a call on whose way to milliseconds nothing is lost returns when
    its duration is over. -/
theorem sleeps_exact {start : ℕ} {as : List SleepAction}
    (hrun : runFrom step (new start) as = some s) :
    s.woken.Nodup ∧ (∀ f ∈ s.woken, ∃ n, s.nap f = some n) ∧
      (∀ f n, s.nap f = some n → f ∉ s.woken →
        n.timer ∈ s.manager.timers ∧ ∃ ms, n.call.msec = some ms ∧
          (s.manager.heap n.timer).next = wadd n.start ms ∧
          ∀ now probe s', step s (.expire now probe) = some s' → wadd n.start ms ≤ now →
            f ∈ s'.woken) ∧
      (Along step InTime (new start) as → ∀ n now, (n, now) ∈ s.returned →
        n.call.Valid → n.call.Exact → (∀ ms, n.call.msec = some ms → n.start + ms < 2 ^ 64) →
        n.start * 10 ^ 6 + n.call.duration ≤ now * 10 ^ 6) := by
  have hinv : s.Inv :=
    run_invariant_of_step (fun _ _ _ h hstep => h.step hstep) (inv_new start) hrun
  refine ⟨hinv.nodup, fun f hf => ?_, fun f n hn hf => ?_, fun hintime n now hret => ?_⟩
  · obtain ⟨n, hn, -⟩ := (hinv.woken f).mp hf
    exact ⟨n, hn⟩
  · obtain ⟨-, -, ms, hms, hnext⟩ := hinv.owns f n hn
    -- a fiber that has not been woken has its timer in the set
    have harmed : n.timer ∈ s.manager.timers := by
      rw [hinv.manager.mem_iff, Option.isSome_iff_ne_none]
      exact fun hnone => hf ((hinv.woken f).mpr ⟨n, hn, hnone⟩)
    refine ⟨harmed, ms, hms, hnext, fun now probe s' hstep hdue => ?_⟩
    obtain ⟨clock, -, rfl⟩ := Option.map_eq_some_iff.mp hstep
    apply List.mem_append_right
    refine hinv.mem_expired_iff.mpr ⟨n, hn, harmed, ?_⟩
    rw [TimerManager.expires, TimerManager.due_iff.mpr (hnext ▸ hdue), Bool.or_true]
  -- while the clock is read in time nobody is woken early
  · have htimed := run_invariant (I := fun s => s.Inv ∧ s.OnTime) (C := InTime)
      (fun _ _ _ h ha hstep => ⟨h.1.step hstep, h.2.step h.1 ha hstep⟩)
      ⟨inv_new start, onTime_new start⟩ hintime hrun
    exact duration_le (htimed.2.returned (n, now) hret)

instance decidableInTime (s : SleepRun) : (a : SleepAction) → Decidable (s.InTime a)
  | .expire _ _ => inferInstanceAs (Decidable (_ ∨ _ ∨ (_ ∧ (_ ∨ ∀ t ∈ _, _))))
  | .sleep _ _ _ _ | .resume _ | .other _ => .isTrue trivial

/-- Two fibers sleep, one of them for two seconds, and both are resumed. -/
def twoSleeps : List SleepAction :=
  [.sleep 5 (.sleep 2) 1000 64, .sleep 6 (.usleep 3000) 1000 32, .other (.tick 1004),
    .other (.timer (.sample 1004)), .expire 1004 80, .resume 6, .other (.tick 3001),
    .other (.timer (.sample 3001)), .expire 3001 80, .resume 5]

/-- Two fibers sleep, and the first one sleeps its two seconds. -/
theorem sleeps_exact_two_fibers :
    ∃ s, runFrom step (new 1000) twoSleeps = some s ∧ (⟨.sleep 2, 0, 1000⟩, 3001) ∈ s.returned ∧
      1000 * 10 ^ 6 + (SleepCall.sleep 2).duration ≤ 3001 * 10 ^ 6 := by
  obtain ⟨s, hrun, hret⟩ : ∃ s, runFrom step (new 1000) twoSleeps = some s ∧
      (⟨.sleep 2, 0, 1000⟩, 3001) ∈ s.returned := ⟨_, rfl, by decide⟩
  obtain ⟨-, -, -, htime⟩ := sleeps_exact hrun
  refine ⟨s, hrun, hret, htime (by decide) ⟨.sleep 2, 0, 1000⟩ 3001 hret trivial ?_ ?_⟩
  · show (2 : UInt32).toNat * 1000 < 2 ^ 32
    decide
  · rintro ms hms
    obtain rfl := Option.some.inj hms
    decide

end SleepRun

end LoNetfw.Hook
