import LoNetfw.Scheduler.IdleTimeout
import LoNetfw.Scheduler.IoCounters
import LoNetfw.Scheduler.TimerDeadlines

namespace LoNetfw.Scheduler

open Basis

/-!
# `IOScheduler` — the workers and the timers that they share

`IoPool` only counts the timers.  Here its workers share the timers themselves: any thread adds,
cancels, refreshes and resets them, a worker in `idle()` asks for the wait until the next one and
later takes those that have expired, and a thread that has put a timer at the front calls
`onTimerInsertAtFront()` after it has released the lock.

* `TimedPool.step` — the steps of the workers, of the timers and of the clock;
* `TimedPool.Sound` — the invariant: the count of `IoPool` is the size of `m_timers`, and every
  period in it has begun;
* `TimedPool.step_io`, `timed_workers_refine` — the workers do nothing that those of `IoPool` with
  some callbacks and counts could not do.

All periods are below `2 ^ 31` ms, as `idle()` narrows the wait to an `int`.
-/

/-- `onTimerInsertAtFront` is called for an operation that leads from `m` to `m'`. -/
def TimerManager.insertedAtFront (m m' : TimerManager) : Bool := m'.notified && !m.notified

/-- A period, if the action names one, is below `2 ^ 31`. -/
def TimerAction.short : TimerAction → Bool
  | .addTimer ms _ _ _ _ | .reset _ ms _ _ => ms < 2 ^ 31
  | _ => true

/-- An expiry is the business of a worker in `idle()`. -/
def TimerAction.isExpiry : TimerAction → Bool
  | .getExpiredCbsList _ _ => true
  | _ => false

structure TimedPool where
  io : IoPool
  timers : DeadlineRun
  clock : ℕ
  /-- When each worker called `getNextTimerTimeMs` last, and the wait that it got. -/
  asked : ℕ → ℕ
  wait : ℕ → ℕ
  /-- The calls of `onTimerInsertAtFront` that are to be made. -/
  fronts : ℕ

inductive TimedAction
  | tick (clock : ℕ)
  /-- A step that does not touch the timers. -/
  | io (a : IoAction)
  /-- A thread runs a section of the timers. -/
  | timer (a : TimerAction)
  | onTimerInsertAtFront
  /-- A worker in `stopping()` asks for the wait until the next timer. -/
  | checkTimers (w : ℕ)
  /-- A worker in `idle()` takes the expired timers. -/
  | expire (w now probe : ℕ)
  deriving DecidableEq, Repr

def TimedAction.short : TimedAction → Bool
  | .timer a => a.short
  | _ => true

namespace TimedPool

/-- `n` workers that have not started, and timers created when the clock reads `start`. -/
def new (n start : ℕ) : TimedPool where
  io := .new n
  timers := .new start
  clock := start
  asked := fun _ => 0
  wait := fun _ => 0
  fronts := 0

abbrev manager (s : TimedPool) : TimerManager := s.timers.run.manager

/-- The steps of `IoPool` that stand for an operation on the timers. -/
def touchesTimers (s : TimedPool) : IoAction → Bool
  | .armTimer | .cancelTimer => true
  | .idle w _ _ _ =>
    match s.io.idlePc w with
    | .checkTimers | .expire _ => true
    | _ => false
  | _ => false

/-- The workers after the timers have become `timers`. -/
def counting (s : TimedPool) (timers : DeadlineRun) : IoPool :=
  { s.io with timers := timers.run.manager.timers.length }

def step (s : TimedPool) : TimedAction → Option TimedPool
  | .tick clock =>
    if s.clock ≤ clock ∧ clock < 2 ^ 63 then some { s with clock := clock } else none
  | .io a =>
    if s.touchesTimers a then none else (s.io.step a).map fun io => { s with io := io }
  | .timer a =>
    if a.reads s.clock ∧ a.isExpiry = false then
      (s.timers.step a).map fun timers =>
        { s with
          io := s.counting timers
          timers := timers
          fronts := s.fronts + (s.manager.insertedAtFront timers.run.manager).toNat }
    else none
  | .onTimerInsertAtFront =>
    if 0 < s.fronts then some { s with io := s.io.notify, fronts := s.fronts - 1 } else none
  | .checkTimers w =>
    match (s.io.pool.worker w).pc, s.io.idlePc w with
    | .running _ .idle, .checkTimers =>
      (s.timers.step (.getNextTimerTimeMs s.clock)).map fun timers =>
        let wait := (s.manager.getNextTimerTimeMs s.clock).1
        { s with
          -- with any timer left `stopping()` is false
          io := s.io.setIdlePc w (if wait = 2 ^ 64 - 1 then .checkEvents else .poll)
          timers := timers
          asked := Function.update s.asked w s.clock
          wait := Function.update s.wait w wait }
    | _, _ => none
  | .expire w now probe =>
    match (s.io.pool.worker w).pc, s.io.idlePc w with
    | .running _ .idle, .expire reported =>
      (s.timers.step (.getExpiredCbsList now probe)).map fun timers =>
        let cbs := (s.manager.getExpiredCbsList now probe).2.filterMap Prod.snd
        { s with
          io := (s.counting timers).setIdlePc w (.expired cbs reported)
          timers := timers }
    | _, _ => none

end TimedPool

/-! ### What the sections do to the set -/

namespace TimerManager

variable {m : TimerManager} {now probe t : ℕ}

/-- An expiry adds no timer. -/
theorem mem_timers_of_expired (h : m.Inv)
    (ht : t ∈ (m.getExpiredCbsList now probe).1.timers) : t ∈ m.timers := by
  have hinv := (getExpiredCbsList_expires h now probe).1
  have harmed := (hinv.mem_iff t).mp ht
  rw [getExpiredCbsList_heap h] at harmed
  split at harmed
  · next htaken => exact htaken.1
  · exact (h.mem_iff t).mpr harmed

/-- The callbacks of the timers that expire, in order. -/
theorem getExpiredCbsList_cbs (h : m.Inv) (now probe : ℕ) :
    (m.getExpiredCbsList now probe).2
      = (m.timers.filter (m.expires now)).map fun t => (t, (m.heap t).cb) := by
  by_cases hne : m.timers = []
  · simp [getExpiredCbsList, hne]
  · have hnodup : m.timers.Nodup := h.nodup
    rw [getExpiredCbsList_eq h.sorted hne, rearm_cbs (hnodup.filter _)]

/-- An armed timer has a callback. -/
theorem length_filterMap_cbs (h : m.Inv) (now probe : ℕ) :
    ((m.getExpiredCbsList now probe).2.filterMap Prod.snd).length
      = (m.timers.filter (m.expires now)).length := by
  rw [getExpiredCbsList_cbs h, List.filterMap_map, List.filterMap_length_eq_length]
  exact fun t ht => (h.mem_iff t).mp (List.mem_filter.mp ht).1

/-- An expiry takes out at most the timers whose callbacks it returns. -/
theorem getExpiredCbsList_length (h : m.Inv) (now probe : ℕ) :
    (m.getExpiredCbsList now probe).1.timers.length ≤ m.timers.length ∧
      m.timers.length ≤ (m.getExpiredCbsList now probe).1.timers.length
        + (m.timers.filter (m.expires now)).length := by
  have hinv := (getExpiredCbsList_expires h now probe).1
  have hnodup : m.timers.Nodup := h.nodup
  constructor
  -- nothing is added: a loop timer comes back under its own number
  · have hsub : (m.getExpiredCbsList now probe).1.timers ⊆ m.timers :=
      fun t ht => mem_timers_of_expired h ht
    exact (List.subperm_of_subset hinv.nodup hsub).length_le
  · -- what does not expire stays
    have hsub : m.timers.filter (fun t => !m.expires now t) ⊆
        (m.getExpiredCbsList now probe).1.timers := by
      intro t ht
      obtain ⟨ht, hnot⟩ := List.mem_filter.mp ht
      rw [hinv.mem_iff, getExpiredCbsList_heap h, if_neg (by simp_all)]
      exact (h.mem_iff t).mp ht
    have hle := (List.subperm_of_subset (hnodup.filter _) hsub).length_le
    have hsplit := List.length_eq_length_filter_add (l := m.timers) (m.expires now)
    omega

end TimerManager

/-- Only a call of `getExpiredCbsList` that begins adds a reading. -/
theorem TimerRun.step_sampled {r r' : TimerRun} {a : TimerAction} (h : r.step a = some r') {now : ℕ}
    (hnow : now ∈ r'.sampled) : now ∈ r.sampled ∨ a = .sample now := by
  cases a with
  | cancel t =>
    simp only [step, Option.ite_none_right_eq_some] at h
    obtain ⟨-, h⟩ := h
    split at h <;> cases h <;> exact .inl hnow
  | resetTest t ms fromNow =>
    simp only [step, Option.ite_none_right_eq_some, Option.some.injEq] at h
    obtain ⟨-, rfl⟩ := h
    split at hnow <;> exact .inl hnow
  -- only `sample` reads the clock for the expiry
  | sample now' =>
    simp only [step, Option.ite_none_right_eq_some, Option.some.injEq] at h
    obtain ⟨-, rfl⟩ := h
    rcases List.mem_cons.mp hnow with rfl | hnow
    · exact .inr rfl
    · exact .inl hnow
  | getExpiredCbsList now' probe =>
    simp only [step, Option.ite_none_right_eq_some, Option.some.injEq] at h
    obtain ⟨-, rfl⟩ := h
    exact .inl (List.mem_of_mem_erase hnow)
  | _ =>
    simp only [step, Option.ite_none_right_eq_some, Option.some.injEq] at h
    obtain ⟨-, rfl⟩ := h
    exact .inl hnow

namespace TimedPool

variable {s s' : TimedPool} {timers : DeadlineRun}

/-! ### The invariant -/

structure Sound (s : TimedPool) : Prop where
  tracked : s.timers.Tracked
  counted : s.io.Counted
  synced : s.io.timers = s.manager.timers.length
  /-- The periods of the timers in the set have begun, and are short. -/
  begun : ∀ t ∈ s.manager.timers,
    (s.timers.period t).start ≤ s.clock ∧ (s.timers.period t).ms < 2 ^ 31
  sampled : ∀ now ∈ s.timers.run.sampled, now ≤ s.clock
  clock : s.clock < 2 ^ 63

/-- No timers, and none counted. -/
theorem sound_new (n : ℕ) {start : ℕ} (hstart : start < 2 ^ 63) : (new n start).Sound where
  tracked := DeadlineRun.tracked_new start
  counted := IoPool.counted_new n
  synced := rfl
  begun := fun _ ht => absurd ht List.not_mem_nil
  sampled := fun _ hnow => absurd hnow List.not_mem_nil
  clock := hstart

/-- The stored deadline has not wrapped. -/
theorem Sound.next_eq (h : s.Sound) {t : ℕ} (ht : t ∈ s.manager.timers) :
    (s.manager.heap t).next = (s.timers.period t).start + (s.timers.period t).ms := by
  obtain ⟨hstart, hms⟩ := h.begun t ht
  obtain ⟨-, hnext, -⟩ := h.tracked.stores t ht
  have hclock := h.clock
  rw [hnext]
  apply wadd_eq_add_iff.mpr
  omega

/-- What a section of the timers needs to know about its readings. -/
def Reads (s : TimedPool) (a : TimerAction) : Prop :=
  a.reads s.clock ∧ ∀ now probe, a = .getExpiredCbsList now probe → now ≤ s.clock

/-- A section that reads the clock now knows what it has to. -/
theorem Sound.reads_of_step (h : s.Sound) {a : TimerAction} (hreads : a.reads s.clock)
    (hstep : s.timers.step a = some timers) : s.Reads a := by
  refine ⟨hreads, ?_⟩
  rintro now probe rfl
  obtain ⟨-, run, hrun, -⟩ := DeadlineRun.step_eq_some.mp hstep
  simp only [TimerRun.step, Option.ite_none_right_eq_some] at hrun
  exact h.sampled now hrun.1.2

/-- A period that a section starts begins now or has begun, and is short. -/
theorem Sound.starts_begun (h : s.Sound) {a : TimerAction} (hreads : s.Reads a)
    (hshort : a.short) {t : ℕ} {p : Period}
    (hp : a.starts s.manager s.timers.period t = some p) : p.start ≤ s.clock ∧ p.ms < 2 ^ 31 := by
  obtain ⟨hread, hexpiry⟩ := hreads
  -- a timer that is armed already keeps its length
  have hlen : ∀ u ∈ s.manager.timers, (s.manager.heap u).ms < 2 ^ 31 := by
    intro u hu
    rw [(h.tracked.stores u hu).1]
    exact (h.begun u hu).2
  cases a with
  | addTimer ms cb isLoop now addr =>
    simp only [TimerAction.starts, Option.ite_none_right_eq_some, Option.some.injEq] at hp
    obtain ⟨-, rfl⟩ := hp
    simp only [TimerAction.reads, TimerAction.short, decide_eq_true_eq] at hread hshort
    exact ⟨hread, hshort⟩
  | refresh u now =>
    simp only [TimerAction.starts, Option.ite_none_right_eq_some, Option.some.injEq] at hp
    obtain ⟨⟨-, hcb⟩, rfl⟩ := hp
    simp only [TimerAction.reads, beq_iff_eq] at hread
    exact ⟨Nat.le_of_eq hread, hlen u ((h.tracked.manager.mem_iff u).mpr hcb)⟩
  | reset u ms fromNow now =>
    simp only [TimerAction.starts, Option.ite_none_right_eq_some, Option.some.injEq] at hp
    obtain ⟨⟨-, hcb⟩, rfl⟩ := hp
    simp only [TimerAction.reads, TimerAction.short, beq_iff_eq, decide_eq_true_eq] at hread hshort
    refine ⟨?_, hshort⟩
    cases fromNow with
    | true => exact Nat.le_of_eq hread
    | false => exact (h.begun u ((h.tracked.manager.mem_iff u).mpr hcb)).1
  | getExpiredCbsList now probe =>
    simp only [TimerAction.starts, Option.ite_none_right_eq_some, Option.some.injEq] at hp
    obtain ⟨⟨ht, -⟩, rfl⟩ := hp
    exact ⟨hexpiry now probe rfl, hlen t ht⟩
  | _ => simp [TimerAction.starts] at hp

/-- **Step lemma.** A section of the timers keeps what is known about them. -/
theorem Sound.timersStep (h : s.Sound) {a : TimerAction} (hreads : a.reads s.clock)
    (hshort : a.short) (hstep : s.timers.step a = some timers) :
    timers.Tracked ∧
      (∀ t ∈ timers.run.manager.timers,
        (timers.period t).start ≤ s.clock ∧ (timers.period t).ms < 2 ^ 31) ∧
      ∀ now ∈ timers.run.sampled, now ≤ s.clock := by
  have hbegun := fun t p => h.starts_begun (t := t) (p := p) (h.reads_of_step hreads hstep) hshort
  refine ⟨h.tracked.step hstep, ?_⟩
  obtain ⟨hwords, run, hrun, rfl⟩ := DeadlineRun.step_eq_some.mp hstep
  constructor
  · intro t ht
    dsimp only
    -- a period that begins now starts at the clock; the others go on
    cases hp : a.starts s.manager s.timers.period t with
    | some p => exact hbegun t p hp
    | none => exact h.begun t ((DeadlineRun.step_starts h.tracked hwords hrun).keeps t hp ht).1
  · intro now hnow
    rcases TimerRun.step_sampled hrun hnow with hold | rfl
    · exact h.sampled now hold
    · simp only [TimerAction.reads, beq_iff_eq] at hreads
      exact Nat.le_of_eq hreads

/-- The count of the timers is not part of what the workers count. -/
theorem Sound.counting (h : s.Sound) (timers : DeadlineRun) : (s.counting timers).Counted :=
  ⟨h.counted.balanced, h.counted.events, h.counted.inside⟩

/-- What the actions that a `TimedPool` adds do. -/
theorem step_checkTimers {w : ℕ} (hstep : step s (.checkTimers w) = some s') :
    ∃ f timers, (s.io.pool.worker w).pc = .running f .idle ∧ s.io.idlePc w = .checkTimers ∧
      s.timers.step (.getNextTimerTimeMs s.clock) = some timers ∧
      s' = { s with
        io := s.io.setIdlePc w
          (if (s.manager.getNextTimerTimeMs s.clock).1 = 2 ^ 64 - 1 then .checkEvents else .poll)
        timers := timers
        asked := Function.update s.asked w s.clock
        wait := Function.update s.wait w (s.manager.getNextTimerTimeMs s.clock).1 } := by
  simp only [step] at hstep
  split at hstep
  · next f hpc hidle =>
    obtain ⟨timers, ht, rfl⟩ := Option.map_eq_some_iff.mp hstep
    exact ⟨f, timers, hpc, hidle, ht, rfl⟩
  · simp at hstep

/-- A worker in `idle()` takes the expired timers. -/
theorem step_expire {w now probe : ℕ} (hstep : step s (.expire w now probe) = some s') :
    ∃ f reported timers, (s.io.pool.worker w).pc = .running f .idle ∧
      s.io.idlePc w = .expire reported ∧
      s.timers.step (.getExpiredCbsList now probe) = some timers ∧
      s' = { s with
        io := (s.counting timers).setIdlePc w
          (.expired ((s.manager.getExpiredCbsList now probe).2.filterMap Prod.snd) reported)
        timers := timers } := by
  simp only [step] at hstep
  split at hstep
  · next f reported hpc hidle =>
    obtain ⟨timers, ht, rfl⟩ := Option.map_eq_some_iff.mp hstep
    exact ⟨f, reported, timers, hpc, hidle, ht, rfl⟩
  · simp at hstep

/-- `notify()` writes to the pipe only. -/
theorem notify_eq (s : IoPool) : ∃ k, s.notify = { s with bytes := k } := IoPool.notifyIf_eq s true

/-- A step of the workers that does not touch the timers leaves their number. -/
theorem step_timers_eq {a : IoAction} {io : IoPool} (ha : s.touchesTimers a = false)
    (hstep : s.io.step a = some io) : io.timers = s.io.timers := by
  cases a with
  | worker w =>
    obtain ⟨p, -, -, rfl⟩ := IoPool.step_worker hstep
    obtain ⟨k, hk⟩ := IoPool.notifyIf_eq { s.io with pool := p }
      (IoPool.shouldNotify s.io.pool w (s.io.pool.worker w).pc)
    rw [hk]
  | idle w reported cbs removed =>
    obtain ⟨f, -, hidle⟩ := IoPool.step_idle hstep
    simp only [touchesTimers] at ha
    unfold IoPool.idleStep at hidle
    split at hidle
    -- the two places of `idle()` that look at the timers are made by their own steps
    case h_1 hat | h_5 hat => simp [hat] at ha
    case h_4 =>
      split at hidle
      · obtain rfl := Option.some.inj hidle
        rfl
      · simp at hidle
    case h_6 _ cbs' reported' _ =>
      obtain rfl := Option.some.inj hidle
      obtain ⟨k, hk⟩ := IoPool.scheduleAll_eq s.io (cbs'.map fun c => ⟨.cb c, none⟩)
      rw [hk]
      rfl
    all_goals
      obtain rfl := Option.some.inj hidle
      rfl
  | leave w st =>
    obtain ⟨f, r, -, -, -, rfl⟩ := IoPool.step_leave hstep
    rfl
  | schedule ts =>
    simp only [IoPool.step, Option.ite_none_right_eq_some, Option.some.injEq] at hstep
    obtain ⟨-, rfl⟩ := hstep
    obtain ⟨k, hk⟩ := IoPool.scheduleAll_eq s.io ts
    rw [hk]
  | trigger t =>
    simp only [IoPool.step, Option.ite_none_right_eq_some, Option.some.injEq] at hstep
    obtain ⟨-, rfl⟩ := hstep
    obtain ⟨k, hk⟩ := IoPool.scheduleAll_eq
      { s.io with registered := s.io.registered - 1, triggered := s.io.triggered + 1 } [t]
    rw [hk]
  | notify =>
    obtain rfl := Option.some.inj hstep
    obtain ⟨k, hk⟩ := notify_eq s.io
    rw [hk]
  -- so are the changes of the set
  | armTimer | cancelTimer => simp [touchesTimers] at ha
  | delEvent | countOff =>
    simp only [IoPool.step, Option.ite_none_right_eq_some, Option.some.injEq] at hstep
    obtain ⟨-, rfl⟩ := hstep
    rfl
  | create | addEvent | setAutoStop | setStopping =>
    obtain rfl := Option.some.inj hstep
    rfl

/-- Asking for the wait changes no timer. -/
theorem getNextTimerTimeMs_timers (m : TimerManager) (now : ℕ) :
    (m.getNextTimerTimeMs now).2 = { m with notified := false } := by
  unfold TimerManager.getNextTimerTimeMs
  split <;> rfl

/-- A worker that asks for the wait clears `m_notified`. -/
theorem manager_of_checkTimers {now : ℕ}
    (hstep : s.timers.step (.getNextTimerTimeMs now) = some timers) :
    timers.run.manager = { s.manager with notified := false } := by
  obtain ⟨-, run, hrun, rfl⟩ := DeadlineRun.step_eq_some.mp hstep
  simp only [TimerRun.step, Option.ite_none_right_eq_some, Option.some.injEq] at hrun
  obtain ⟨-, rfl⟩ := hrun
  exact getNextTimerTimeMs_timers _ _

/-- Each step keeps the invariant. -/
theorem Sound.step (h : s.Sound) {a : TimedAction} (hshort : a.short)
    (hstep : step s a = some s') : s'.Sound := by
  cases a with
  -- time that passes puts nothing into the future
  | tick clock =>
    simp only [TimedPool.step, Option.ite_none_right_eq_some, Option.some.injEq] at hstep
    obtain ⟨⟨hle, hlt⟩, rfl⟩ := hstep
    refine ⟨h.tracked, h.counted, h.synced, fun t ht => ?_, fun now hnow => ?_, hlt⟩
    · exact ⟨Nat.le_trans (h.begun t ht).1 hle, (h.begun t ht).2⟩
    · exact Nat.le_trans (h.sampled now hnow) hle
  -- a step of the workers that is not about timers leaves the set alone
  | io a =>
    simp only [TimedPool.step, Option.ite_none_left_eq_some, Option.map_eq_some_iff] at hstep
    obtain ⟨ha, io, hio, rfl⟩ := hstep
    rw [Bool.not_eq_true] at ha
    exact ⟨h.tracked, IoPool.step_counted h.counted hio, (step_timers_eq ha hio).trans h.synced,
      h.begun, h.sampled, h.clock⟩
  | timer a =>
    simp only [TimedPool.step, Option.ite_none_right_eq_some, Option.map_eq_some_iff] at hstep
    obtain ⟨⟨hreads, -⟩, timers, ht, rfl⟩ := hstep
    obtain ⟨htracked, hbegun, hsampled⟩ := h.timersStep hreads hshort ht
    exact ⟨htracked, h.counting timers, rfl, hbegun, hsampled, h.clock⟩
  | onTimerInsertAtFront =>
    simp only [TimedPool.step, Option.ite_none_right_eq_some, Option.some.injEq] at hstep
    obtain ⟨-, rfl⟩ := hstep
    have hcounted : s.io.notify.Counted := IoPool.step_counted (a := .notify) h.counted rfl
    obtain ⟨k, hk⟩ := notify_eq s.io
    have htimers : s.io.notify.timers = s.io.timers := by rw [hk]
    exact ⟨h.tracked, hcounted, htimers.trans h.synced, h.begun, h.sampled, h.clock⟩
  | checkTimers w =>
    obtain ⟨f, timers, hpc, -, ht, rfl⟩ := step_checkTimers hstep
    -- the worker reads the clock as it is
    have hreads : (TimerAction.getNextTimerTimeMs s.clock).reads s.clock := by
      simp [TimerAction.reads]
    obtain ⟨htracked, hbegun, hsampled⟩ := h.timersStep hreads rfl ht
    refine ⟨htracked, h.counted.setIdlePc hpc _, ?_, hbegun, hsampled, h.clock⟩
    show s.io.timers = timers.run.manager.timers.length
    rw [manager_of_checkTimers ht]
    exact h.synced
  | expire w now probe =>
    obtain ⟨f, reported, timers, hpc, -, ht, rfl⟩ := step_expire hstep
    obtain ⟨htracked, hbegun, hsampled⟩ := h.timersStep rfl rfl ht
    exact ⟨htracked, (h.counting timers).setIdlePc hpc _, rfl, hbegun, hsampled, h.clock⟩

/-! ### The workers of `IoPool` can do the same -/

/-- The wait until a timer that is in the set; only an empty set gives all ones. -/
theorem Sound.wait_lt (h : s.Sound) {t : ℕ} (ht : s.manager.timers.head? = some t) :
    (s.manager.getNextTimerTimeMs s.clock).1 = (s.manager.heap t).next - s.clock ∧
      (s.manager.heap t).next - s.clock < 2 ^ 31 := by
  have hmem : t ∈ s.manager.timers := List.mem_of_head? ht
  obtain ⟨hstart, hms⟩ := h.begun t hmem
  rw [getNextTimerTimeMs_eq, ht, Option.elim_some, h.next_eq hmem]
  omega

/-- The wait is the largest number exactly when no timer is counted. -/
theorem Sound.wait_eq_allOnes_iff (h : s.Sound) :
    (s.manager.getNextTimerTimeMs s.clock).1 = 2 ^ 64 - 1 ↔ s.io.timers = 0 := by
  rw [h.synced, List.length_eq_zero_iff]
  cases hhead : s.manager.timers.head? with
  | none =>
    rw [getNextTimerTimeMs_eq, hhead]
    exact iff_of_true rfl (List.head?_eq_none_iff.mp hhead)
  | some t =>
    -- the wait for a timer is below 2³¹, so it is not taken for none
    obtain ⟨hwait, hlt⟩ := h.wait_lt hhead
    rw [hwait]
    refine iff_of_false (by omega) ?_
    intro hnil
    rw [hnil] at hhead
    simp at hhead

/-- What a section of the timers other than an expiry does to their number: one more, one less,
    or the same. -/
theorem timersStep_io (h : s.Sound) {a : TimerAction} (hexpiry : a.isExpiry = false)
    (hstep : s.timers.step a = some timers) :
    s.counting timers = s.io ∨ ∃ b, s.io.step b = some (s.counting timers) := by
  have hinv := h.tracked.manager
  have hsame : timers.run.manager.timers.length = s.manager.timers.length →
      s.counting timers = s.io := by
    intro hlen
    rw [counting, hlen, ← h.synced]
  -- an armed timer that moves to a new key
  have hmoved : ∀ {m : TimerManager} {u : ℕ}, m = s.manager ∨ s.manager.Moved u m →
      m.timers.length = s.manager.timers.length := by
    rintro m u (rfl | hm)
    · rfl
    · have hm' := hm.inv hinv
      obtain ⟨-, v, notified, hcb, -, -, rfl⟩ := hm
      have hperm : ∀ t, t ∈ setInsert (s.manager.setTimer u v).lt u (s.manager.timers.erase u) ↔
          t ∈ s.manager.timers := by
        intro t
        rw [hinv.mem_iff t]
        refine (hm'.mem_iff t).trans ?_
        by_cases htu : t = u
        · subst htu
          simp [hcb]
        · simp [TimerManager.setTimer_heap_of_ne htu]
      apply Nat.le_antisymm
      · exact (List.subperm_of_subset hm'.nodup fun t ht => (hperm t).mp ht).length_le
      · exact (List.subperm_of_subset hinv.nodup fun t ht => (hperm t).mpr ht).length_le
  obtain ⟨-, run, hrun, rfl⟩ := DeadlineRun.step_eq_some.mp hstep
  have hinv' := (TimerRun.step_advance hinv hrun).manager
  cases a with
  | addTimer ms cb isLoop now addr =>
    simp only [TimerRun.step, Option.ite_none_right_eq_some, Option.some.injEq] at hrun
    obtain ⟨⟨-, haddr⟩, rfl⟩ := hrun
    right
    refine ⟨.armTimer, ?_⟩
    have hmem : ∀ t, t ∈ (s.manager.addTimer ms (some cb) isLoop now addr).1.timers ↔
        t ∈ s.manager.allocated :: s.manager.timers := by
      intro t
      refine (hinv'.mem_iff t).trans ?_
      rw [List.mem_cons, hinv.mem_iff t]
      show ((s.manager.setTimer _ _).heap t).cb.isSome = true ↔ _
      by_cases ht : t = s.manager.allocated
      · subst ht
        simp
      · simp [TimerManager.setTimer_heap_of_ne ht, ht]
    have hnew : (s.manager.allocated :: s.manager.timers).Nodup :=
      List.nodup_cons.mpr ⟨fun ht => Nat.lt_irrefl _ (hinv.allocated _ ht), hinv.nodup⟩
    have hlen : (s.manager.addTimer ms (some cb) isLoop now addr).1.timers.length
        = s.manager.timers.length + 1 := by
      apply Nat.le_antisymm
      · exact (List.subperm_of_subset hinv'.nodup fun t ht => (hmem t).mp ht).length_le
      · exact (List.subperm_of_subset hnew fun t ht => (hmem t).mpr ht).length_le
    rw [IoPool.step, counting, hlen, h.synced]
  | cancel u =>
    simp only [TimerRun.step, Option.ite_none_right_eq_some] at hrun
    obtain ⟨-, hrun⟩ := hrun
    by_cases hcb : (s.manager.heap u).cb.isSome
    · rw [TimerManager.cancel_of_armed hinv hcb, Option.some.injEq] at hrun
      subst hrun
      right
      have hmem : u ∈ s.manager.timers := (hinv.mem_iff u).mpr hcb
      have hpos : 0 < s.io.timers := h.synced ▸ List.length_pos_of_mem hmem
      refine ⟨.cancelTimer, ?_⟩
      rw [IoPool.step, if_pos hpos, counting, List.length_erase_of_mem hmem, ← h.synced]
    · rw [TimerManager.cancel_of_disarmed hcb, Option.some.injEq] at hrun
      subst hrun
      exact .inl (hsame rfl)
  | refresh u now =>
    simp only [TimerRun.step, Option.ite_none_right_eq_some, Option.some.injEq] at hrun
    obtain ⟨-, rfl⟩ := hrun
    exact .inl (hsame (hmoved (TimerManager.refresh_cases hinv now)))
  | reset u ms fromNow now =>
    simp only [TimerRun.step, Option.ite_none_right_eq_some, Option.some.injEq] at hrun
    obtain ⟨-, rfl⟩ := hrun
    exact .inl (hsame (hmoved (TimerManager.resetLocked_cases hinv ms now fromNow)))
  | getExpiredCbsList now probe => simp [TimerAction.isExpiry] at hexpiry
  | getNextTimerTimeMs now =>
    simp only [TimerRun.step, Option.ite_none_right_eq_some, Option.some.injEq] at hrun
    obtain ⟨-, rfl⟩ := hrun
    exact .inl (hsame (by rw [getNextTimerTimeMs_timers]))
  | resetTest u ms fromNow =>
    simp only [TimerRun.step, Option.ite_none_right_eq_some, Option.some.injEq] at hrun
    obtain ⟨-, rfl⟩ := hrun
    refine .inl (hsame ?_)
    dsimp only
    split <;> rfl
  | sample now =>
    simp only [TimerRun.step, Option.ite_none_right_eq_some, Option.some.injEq] at hrun
    obtain ⟨-, rfl⟩ := hrun
    exact .inl (hsame rfl)

/-- **Step lemma.** What a step does to the workers, the workers of `IoPool` can do, too. -/
theorem step_io (h : s.Sound) {a : TimedAction} (hstep : step s a = some s') :
    s'.io = s.io ∨ ∃ b, s.io.step b = some s'.io := by
  cases a with
  | tick clock =>
    simp only [step, Option.ite_none_right_eq_some, Option.some.injEq] at hstep
    obtain ⟨-, rfl⟩ := hstep
    exact .inl rfl
  | io a =>
    simp only [step, Option.ite_none_left_eq_some, Option.map_eq_some_iff] at hstep
    obtain ⟨-, io, hio, rfl⟩ := hstep
    exact .inr ⟨a, hio⟩
  | timer a =>
    simp only [step, Option.ite_none_right_eq_some, Option.map_eq_some_iff] at hstep
    obtain ⟨⟨-, hexpiry⟩, timers, ht, rfl⟩ := hstep
    exact timersStep_io h hexpiry ht
  | onTimerInsertAtFront =>
    simp only [step, Option.ite_none_right_eq_some, Option.some.injEq] at hstep
    obtain ⟨-, rfl⟩ := hstep
    exact .inr ⟨.notify, rfl⟩
  | checkTimers w =>
    obtain ⟨f, timers, hpc, hidle, -, rfl⟩ := step_checkTimers hstep
    refine .inr ⟨.idle w false [] 0, ?_⟩
    simp only [IoPool.step, hpc, IoPool.idleStep, hidle, h.wait_eq_allOnes_iff]
  | expire w now probe =>
    obtain ⟨f, reported, timers, hpc, hidle, ht, rfl⟩ := step_expire hstep
    have hinv : s.manager.Inv := h.tracked.manager
    obtain ⟨-, run, hrun, rfl⟩ := DeadlineRun.step_eq_some.mp ht
    simp only [TimerRun.step, Option.ite_none_right_eq_some, Option.some.injEq] at hrun
    obtain ⟨-, rfl⟩ := hrun
    obtain ⟨hle, hge⟩ := TimerManager.getExpiredCbsList_length hinv now probe
    have hcbs := TimerManager.length_filterMap_cbs hinv now probe
    -- taken out are the timers that were counted and are no more
    refine .inr ⟨.idle w reported
      ((s.manager.getExpiredCbsList now probe).2.filterMap Prod.snd)
      (s.manager.timers.length - (s.manager.getExpiredCbsList now probe).1.timers.length), ?_⟩
    simp only [IoPool.step, hpc, IoPool.idleStep, hidle]
    rw [if_pos, h.synced, Nat.sub_sub_self hle]
    · rfl
    · refine ⟨by rw [h.synced]; exact Nat.sub_le _ _, by omega, fun hzero => ?_⟩
      rw [h.synced, List.length_eq_zero_iff] at hzero
      simp [TimerManager.getExpiredCbsList, hzero]

/-- **Refinement.** In every interleaving with periods below `2 ^ 31` ms, the workers with the
    timers themselves do what some interleaving of the workers of `IoPool` does. -/
theorem timed_workers_refine (n start : ℕ) (as : List TimedAction) (s : TimedPool)
    (hstart : start < 2 ^ 63) (hshort : ∀ a ∈ as, a.short)
    (hrun : runFrom step (new n start) as = some s) :
    ∃ bs, runFrom IoPool.step (.new n) bs = some s.io :=
  run_refines (C := fun _ a => a.short = true) TimedPool.io
    (fun _ _ _ h hC hstep => h.step hC hstep) (fun _ _ _ h _ hstep => step_io h hstep)
    (sound_new n hstart) (along_of_forall _ fun a ha _ => hshort a ha) hrun

/-- One worker asks for the wait until a loop timer is due, and takes it when it is. -/
def fireLoopTimer : List TimedAction :=
  .flatten [[.timer (.addTimer 500 7 true 1000 64), .onTimerInsertAtFront],
    .replicate 6 (.io (.worker 0)), [.checkTimers 0, .tick 1600, .io (.idle 0 false [] 0),
      .timer (.sample 1600), .expire 0 1600 80, .io (.idle 0 false [] 0)]]

/-- A loop timer is taken, and its callback is scheduled. -/
theorem timed_workers_refine_loop_timer :
    ∃ s bs, runFrom step (new 1 1000) fireLoopTimer = some s ∧
      s.io.pool.tasks = [⟨.cb 7, none⟩] ∧ runFrom IoPool.step (.new 1) bs = some s.io := by
  obtain ⟨s, hrun, hs⟩ := (Option.any_eq_true
    (fun s : TimedPool => decide (s.io.pool.tasks = [⟨.cb 7, none⟩]))
    (runFrom step (new 1 1000) fireLoopTimer)).mp (by decide +kernel)
  obtain ⟨bs, hbs⟩ := timed_workers_refine 1 1000 _ s (by decide) (by decide) hrun
  exact ⟨s, bs, hrun, of_decide_eq_true hs, hbs⟩

end TimedPool

end LoNetfw.Scheduler
