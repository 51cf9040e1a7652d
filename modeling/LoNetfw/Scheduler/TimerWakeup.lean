import LoNetfw.Scheduler.TimedWorkers
import LoNetfw.Scheduler.Notification

namespace LoNetfw.Scheduler

open Basis

/-!
# `IOScheduler` — no timer is missed

`m_notified` keeps `addTimer` from calling `onTimerInsertAtFront()` twice before a worker asks for
the wait again, and `notify()` writes no byte when no thread counts as idle.  So a thread that puts
a timer at the front may wake nobody, and the workers that are blocked already wait for the timer
that was at the front before.

* `TimedPool.Attended` — something is under way that makes a worker ask for the wait;
* `TimedPool.Covers` — the wait of a worker ends when a timer is due, or before;
* `TimedPool.Watched` — the invariant: unless the pool is attended, the next insertion at the front
  will be notified, and a blocked worker covers the timer that is at the front now;
* `next_timer_is_waited_for` — with all workers blocked, one of them wakes up in time.
-/

/-- The worker asks for the wait before it blocks in `epoll_wait`. -/
def IdlePc.asks : IdlePc → Bool
  | .checkTimers | .expire _ | .expired _ _ | .dispatch _ | .swapOut => true
  | .checkEvents | .checkTasks | .poll | .stopped => false

/-- The worker has asked for the wait and may block with the answer. -/
def IdlePc.hasAsked : IdlePc → Bool
  | .checkEvents | .checkTasks | .poll => true
  | .checkTimers | .expire _ | .expired _ _ | .dispatch _ | .swapOut | .stopped => false

/-! ### The front of the set -/

namespace TimerManager

variable {m m' : TimerManager} {t : ℕ}

/-- The first timer is due when any timer is, or before. -/
theorem exists_head_le (h : m.Inv) (ht : t ∈ m.timers) :
    ∃ u, m.timers.head? = some u ∧ (m.heap u).next ≤ (m.heap t).next := by
  cases hhead : m.timers.head? with
  | none => exact absurd ht (by simp [List.head?_eq_none_iff.mp hhead])
  | some u => exact ⟨u, rfl, next_head_le h hhead ht⟩

/-- A timer that `insertTimer` puts at the front has been notified, now or before. -/
theorem insertTimer_notified (h : (m.insertTimer t).1.Inv)
    (hhead : (m.insertTimer t).1.timers.head? = some t) : (m.insertTimer t).1.notified = true := by
  have hfind : setFind m.lt t (setInsert m.lt t m.timers) = some t :=
    setFind_of_mem lt_irrefl h.sorted (List.mem_of_head? hhead)
  have hfront : (setInsert m.lt t m.timers).head? = some t := hhead
  simp [insertTimer, hfind, hfront]

/-- A reset that puts the timer at the front has notified. -/
theorem resetLocked_notified (h : m.Inv) (hcb : (m.heap t).cb.isSome) {ms now : ℕ} {fromNow : Bool}
    (hhead : (m.resetLocked t ms fromNow now).2.timers.head? = some t) :
    (m.resetLocked t ms fromNow now).2.notified = true := by
  have hinv := inv_of_moved h (resetLocked_cases (t := t) h ms now fromNow)
  unfold resetLocked at hhead hinv ⊢
  rw [if_neg (by simpa [Option.isSome_iff_ne_none] using hcb), h.find_of_armed hcb] at hhead hinv ⊢
  exact insertTimer_notified hinv hhead

end TimerManager

namespace TimedPool

variable {s s' : TimedPool} {timers : DeadlineRun} {t : ℕ}

/-- After a section the first timer is notified, or due no earlier than the first one before. -/
theorem Sound.timersStep_front (h : s.Sound) {a : TimerAction} (hreads : a.reads s.clock)
    (hexpiry : a.isExpiry = false) (hstep : s.timers.step a = some timers)
    (hhead : timers.run.manager.timers.head? = some t) :
    timers.run.manager.notified = true ∨
      ∃ u, s.manager.timers.head? = some u ∧
        (s.manager.heap u).next ≤ (timers.run.manager.heap t).next := by
  have hinv : s.manager.Inv := h.tracked.manager
  obtain ⟨hwords, run, hrun, rfl⟩ := DeadlineRun.step_eq_some.mp hstep
  have hinv' := (TimerRun.step_advance hinv hrun).manager
  have hstarts := DeadlineRun.step_starts h.tracked hwords hrun
  cases hp : a.starts s.manager s.timers.period t with
  | none =>
    obtain ⟨hold, -, hnext⟩ := hstarts.keeps t hp (List.mem_of_head? hhead)
    right
    rw [hnext]
    exact TimerManager.exists_head_le hinv hold
  | some p =>
    cases a with
    | addTimer ms cb isLoop now addr =>
      simp only [TimerAction.starts, Option.ite_none_right_eq_some] at hp
      obtain ⟨rfl, -⟩ := hp
      simp only [TimerRun.step, Option.ite_none_right_eq_some, Option.some.injEq] at hrun
      obtain ⟨-, rfl⟩ := hrun
      exact .inl (TimerManager.insertTimer_notified hinv' hhead)
    | refresh u now =>
      -- the same period, begun again
      obtain ⟨-, -, hnext, -⟩ := hstarts.stores t p hp
      simp only [TimerAction.starts, Option.ite_none_right_eq_some, Option.some.injEq] at hp
      obtain ⟨⟨rfl, hcb⟩, rfl⟩ := hp
      simp only [TimerAction.reads, beq_iff_eq] at hreads
      have hold : t ∈ s.manager.timers := (hinv.mem_iff t).mpr hcb
      obtain ⟨hstart, hms⟩ := h.begun t hold
      have hclock := h.clock
      have hlen : (s.manager.heap t).ms = (s.timers.period t).ms := (h.tracked.stores t hold).1
      dsimp only at hnext
      rw [hlen, wadd_eq_add_iff.mpr (by omega)] at hnext
      obtain ⟨v, hv, hle⟩ := TimerManager.exists_head_le hinv hold
      rw [h.next_eq hold] at hle
      exact .inr ⟨v, hv, by dsimp only; omega⟩
    | reset u ms fromNow now =>
      simp only [TimerAction.starts, Option.ite_none_right_eq_some] at hp
      obtain ⟨⟨rfl, hcb⟩, -⟩ := hp
      simp only [TimerRun.step, Option.ite_none_right_eq_some, Option.some.injEq] at hrun
      obtain ⟨-, rfl⟩ := hrun
      exact .inl (TimerManager.resetLocked_notified hinv hcb hhead)
    | getExpiredCbsList now probe => simp [TimerAction.isExpiry] at hexpiry
    | _ => simp [TimerAction.starts] at hp

/-! ### Who wakes up -/

/-- A worker will ask for the wait before it blocks, or something makes a blocked one return. -/
def Attended (s : TimedPool) : Prop :=
  0 < s.io.bytes ∨ 0 < s.fronts ∨ ∃ w < s.io.pool.size, (s.io.idlePc w).asks = true

/-- The worker is blocked, and the wait that it got ends when `t` is due, or before. -/
def Covers (s : TimedPool) (w t : ℕ) : Prop :=
  s.io.idlePc w = .poll ∧ s.wait w < 2 ^ 31 ∧
    s.asked w + s.wait w ≤ max (s.manager.heap t).next (s.asked w)

/-- If some worker has asked for the wait and none will ask again: the next timer that comes to
    the front is notified, and some worker covers the one that is there. -/
def Watched (s : TimedPool) : Prop :=
  ¬ s.Attended → (∃ w < s.io.pool.size, (s.io.idlePc w).hasAsked = true) →
    s.manager.notified = false ∧
      ∀ t, s.manager.timers.head? = some t → ∃ w < s.io.pool.size, s.Covers w t

/-- A step of the workers after which none of them asks for the wait. -/
structure Settles (s s' : IoPool) : Prop where
  size : s'.pool.size = s.pool.size
  bytes : s.bytes ≤ s'.bytes
  /-- Only a worker that is in `stopping()` has moved. -/
  idlePc : ∀ w, s'.idlePc w = s.idlePc w ∨ s.idlePc w = .checkEvents ∨ s.idlePc w = .checkTasks

/-- A step that moves no worker inside `idle()`. -/
theorem Settles.of_eq {p : IoPool} (hsize : p.pool.size = s.io.pool.size)
    (hidle : p.idlePc = s.io.idlePc) (hbytes : s.io.bytes ≤ p.bytes) : Settles s.io p :=
  ⟨hsize, hbytes, fun w => .inl (congrFun hidle w)⟩

/-- The idle fiber of a worker that is not in `stopping()` moves on to ask for the wait; in
    `stopping()` it moves on, and in the end it stops. -/
theorem idleStep_settles {w f removed : ℕ} {reported : Bool} {cbs : List ℕ} {io : IoPool}
    (hw : w < s.io.pool.size) (ha : s.touchesTimers (.idle w reported cbs removed) = false)
    (hidle : s.io.idleStep w f reported cbs removed = some io) :
    (∃ v < io.pool.size, (io.idlePc v).asks = true) ∨ Settles s.io io := by
  -- a worker that moves on, to a place where it will ask or from a place where it has asked
  have hasks : ∀ {p : IoPool} {pc : IdlePc}, p.pool.size = s.io.pool.size → pc.asks = true →
      ∃ v < (p.setIdlePc w pc).pool.size, ((p.setIdlePc w pc).idlePc v).asks = true := by
    intro p pc hsize hpc
    refine ⟨w, lt_of_lt_of_eq hw hsize.symm, ?_⟩
    simp [IoPool.setIdlePc, hpc]
  have hmoves : ∀ pc, s.io.idlePc w = .checkEvents ∨ s.io.idlePc w = .checkTasks →
      Settles s.io (s.io.setIdlePc w pc) := by
    refine fun pc hat => ⟨rfl, Nat.le_refl _, fun v => ?_⟩
    by_cases hv : v = w
    · exact .inr (hv ▸ hat)
    · exact .inl (Function.update_of_ne hv ..)
  simp only [touchesTimers] at ha
  unfold IoPool.idleStep at hidle
  split at hidle
  case h_1 hat | h_5 hat => simp [hat] at ha
  case h_2 hat =>
    obtain rfl := Option.some.inj hidle
    exact .inr (hmoves _ (.inl hat))
  case h_3 hat =>
    obtain rfl := Option.some.inj hidle
    exact .inr (hmoves _ (.inr hat))
  case h_4 =>
    rw [Option.ite_none_right_eq_some, Option.some.injEq] at hidle
    obtain ⟨-, rfl⟩ := hidle
    exact .inl (hasks rfl rfl)
  case h_6 _ cbs' reported' _ =>
    obtain rfl := Option.some.inj hidle
    obtain ⟨k, hk⟩ := IoPool.scheduleAll_eq s.io (cbs'.map fun c => ⟨.cb c, none⟩)
    rw [hk]
    exact .inl (hasks rfl rfl)
  case h_9 =>
    obtain rfl := Option.some.inj hidle
    exact .inr (.of_eq rfl rfl (Nat.le_refl _))
  all_goals
    obtain rfl := Option.some.inj hidle
    exact .inl (hasks rfl rfl)

/-- A step of the workers: one of them asks for the wait, or none does. -/
theorem step_settles {a : IoAction} {io : IoPool} (hc : s.io.Counted)
    (ha : s.touchesTimers a = false) (hstep : s.io.step a = some io) :
    (∃ v < io.pool.size, (io.idlePc v).asks = true) ∨ Settles s.io io := by
  -- `schedule` may write a byte and takes none
  have hschedule : ∀ (p : IoPool) (ts : List PoolTask), p.pool.size = s.io.pool.size →
      p.idlePc = s.io.idlePc → p.bytes = s.io.bytes → Settles s.io (p.scheduleAll ts) := by
    intro p ts hsize hidle hbytes
    have hgrows := IoPool.bytes_notifyIf { p with pool := { p.pool with tasks := p.pool.tasks ++ ts } }
      (p.pool.tasks.isEmpty && !ts.isEmpty)
    obtain ⟨k, hk⟩ := IoPool.scheduleAll_eq p ts
    have hk' : p.bytes ≤ (p.scheduleAll ts).bytes := hgrows
    rw [hk] at hk' ⊢
    exact .of_eq hsize hidle (hbytes ▸ hk')
  cases a with
  | worker w =>
    obtain ⟨p, -, hp, rfl⟩ := IoPool.step_worker hstep
    obtain ⟨hsize, -⟩ := Pool.workerStep_frame hp
    have hgrows := IoPool.bytes_notifyIf { s.io with pool := p }
      (IoPool.shouldNotify s.io.pool w (s.io.pool.worker w).pc)
    obtain ⟨k, hk⟩ := IoPool.notifyIf_eq { s.io with pool := p }
      (IoPool.shouldNotify s.io.pool w (s.io.pool.worker w).pc)
    rw [hk] at hgrows ⊢
    exact .inr (.of_eq hsize rfl hgrows)
  | idle w reported cbs removed =>
    obtain ⟨f, hpc, hidle⟩ := IoPool.step_idle hstep
    exact idleStep_settles (hc.balanced.lt_size (by simp [hpc])) ha hidle
  | leave w st =>
    obtain ⟨f, r, -, -, -, rfl⟩ := IoPool.step_leave hstep
    exact .inr (.of_eq rfl rfl (Nat.le_refl _))
  | schedule ts =>
    simp only [IoPool.step, Option.ite_none_right_eq_some, Option.some.injEq] at hstep
    obtain ⟨-, rfl⟩ := hstep
    exact .inr (hschedule _ ts rfl rfl rfl)
  | trigger t =>
    simp only [IoPool.step, Option.ite_none_right_eq_some, Option.some.injEq] at hstep
    obtain ⟨-, rfl⟩ := hstep
    exact .inr (hschedule _ [t] rfl rfl rfl)
  | notify =>
    obtain rfl := Option.some.inj hstep
    have hgrows : s.io.bytes ≤ s.io.notify.bytes := IoPool.bytes_notifyIf s.io true
    obtain ⟨k, hk⟩ := notify_eq s.io
    rw [hk] at hgrows ⊢
    exact .inr (.of_eq rfl rfl hgrows)
  | armTimer | cancelTimer => simp [touchesTimers] at ha
  | delEvent | countOff =>
    simp only [IoPool.step, Option.ite_none_right_eq_some, Option.some.injEq] at hstep
    obtain ⟨-, rfl⟩ := hstep
    exact .inr (.of_eq rfl rfl (Nat.le_refl _))
  | create | addEvent | setAutoStop | setStopping =>
    obtain rfl := Option.some.inj hstep
    exact .inr (.of_eq rfl rfl (Nat.le_refl _))

/-- With the same workers and bytes, what was watched is, if the first timer is not due earlier
    than the first one before. -/
theorem Watched.quiet (h : s.Watched) (hidle : s'.io.idlePc = s.io.idlePc)
    (hsize : s'.io.pool.size = s.io.pool.size) (hbytes : s.io.bytes ≤ s'.io.bytes)
    (hfronts : s.fronts ≤ s'.fronts) (hasked : s'.asked = s.asked) (hwait : s'.wait = s.wait)
    (hfront : s'.fronts = 0 → s.manager.notified = false → s'.manager.notified = false ∧
      ∀ t, s'.manager.timers.head? = some t → ∃ u, s.manager.timers.head? = some u ∧
        (s.manager.heap u).next ≤ (s'.manager.heap t).next) : s'.Watched := by
  intro hattended hasked'
  rw [hidle, hsize] at hasked'
  unfold Attended at hattended
  rw [hidle, hsize] at hattended
  simp only [not_or, Nat.not_lt, Nat.le_zero] at hattended
  obtain ⟨hnobytes, hnofronts, hnone⟩ := hattended
  -- nobody attends to the timers now, so nobody did before
  have hbefore : ¬ s.Attended := by
    rintro (hb | hf | ha)
    · omega
    · omega
    · exact hnone ha
  obtain ⟨hnotified, hcovers⟩ := h hbefore hasked'
  obtain ⟨hnotified', hlater⟩ := hfront hnofronts hnotified
  refine ⟨hnotified', fun t ht => ?_⟩
  obtain ⟨u, hu, hle⟩ := hlater t ht
  obtain ⟨w, hw, hpoll, hlt, hdue⟩ := hcovers u hu
  refine ⟨w, hsize ▸ hw, by rw [hidle]; exact hpoll, by rw [hwait]; exact hlt, ?_⟩
  rw [hasked, hwait]
  omega

/-- Each step leaves somebody who watches the front. -/
theorem Sound.step_watched (h : s.Sound) (hw : s.Watched) {a : TimedAction}
    (hstep : TimedPool.step s a = some s') : s'.Watched := by
  cases a with
  | tick clock =>
    simp only [TimedPool.step, Option.ite_none_right_eq_some, Option.some.injEq] at hstep
    obtain ⟨-, rfl⟩ := hstep
    exact hw
  | io a =>
    simp only [TimedPool.step, Option.ite_none_left_eq_some, Option.map_eq_some_iff] at hstep
    obtain ⟨ha, io, hio, rfl⟩ := hstep
    rw [Bool.not_eq_true] at ha
    intro hattended hasked
    rcases step_settles h.counted ha hio with hasks | hsettles
    · exact absurd (.inr (.inr hasks)) hattended
    -- before the step nobody was going to ask, either
    obtain ⟨hsize, hbytes, hidle⟩ := hsettles
    have hbefore : ¬ s.Attended := by
      rintro (hb | hf | ⟨v, hv, hasks⟩)
      · exact hattended (.inl (Nat.lt_of_lt_of_le hb hbytes))
      · exact hattended (.inr (.inl hf))
      · refine hattended (.inr (.inr ⟨v, lt_of_lt_of_eq hv hsize.symm, ?_⟩))
        rcases hidle v with hsame | hat | hat
        · exact (congrArg IdlePc.asks hsame).trans hasks
        · simp [hat, IdlePc.asks] at hasks
        · simp [hat, IdlePc.asks] at hasks
    obtain ⟨v, hv, hv'⟩ := hasked
    have hasked : ∃ v < s.io.pool.size, (s.io.idlePc v).hasAsked = true := by
      refine ⟨v, lt_of_lt_of_eq hv hsize, ?_⟩
      rcases hidle v with hsame | hat | hat
      · exact (congrArg IdlePc.hasAsked hsame).symm.trans hv'
      · simp [hat, IdlePc.hasAsked]
      · simp [hat, IdlePc.hasAsked]
    obtain ⟨hnotified, hcovers⟩ := hw hbefore hasked
    refine ⟨hnotified, fun t ht => ?_⟩
    obtain ⟨u, hu, hpoll, hcover⟩ := hcovers t ht
    refine ⟨u, lt_of_lt_of_eq hu hsize.symm, ?_, hcover⟩
    rcases hidle u with hsame | hat | hat
    · exact hsame.trans hpoll
    · simp [hat] at hpoll
    · simp [hat] at hpoll
  | timer a =>
    simp only [TimedPool.step, Option.ite_none_right_eq_some, Option.map_eq_some_iff] at hstep
    obtain ⟨⟨hreads, hexpiry⟩, timers, ht, rfl⟩ := hstep
    refine hw.quiet rfl rfl (Nat.le_refl _) (Nat.le_add_right _ _) rfl rfl ?_
    intro hnofronts hnotified
    -- an insertion at the front would have been notified
    have hnotified' : timers.run.manager.notified = false := by
      by_contra htrue
      simp [TimerManager.insertedAtFront, hnotified, htrue] at hnofronts
    refine ⟨hnotified', fun t hhead => ?_⟩
    rcases h.timersStep_front hreads hexpiry ht hhead with hset | hlater
    · simp [hnotified'] at hset
    · exact hlater
  | onTimerInsertAtFront =>
    simp only [TimedPool.step, Option.ite_none_right_eq_some, Option.some.injEq] at hstep
    obtain ⟨-, rfl⟩ := hstep
    intro hattended hasked
    -- a worker that has asked counts as idle, so that the byte is written
    refine absurd (.inl ?_) hattended
    obtain ⟨k, hk⟩ := notify_eq s.io
    have hidle : ∃ v, (s.io.idlePc v).hasAsked = true := by
      obtain ⟨v, -, hv⟩ := hasked
      dsimp only at hv
      rw [hk] at hv
      exact ⟨v, hv⟩
    obtain ⟨v, hv⟩ := hidle
    have hpos : 0 < s.io.pool.idle := by
      rcases h.counted.inside v with hat | hat | ⟨f, hpc⟩
      · simp [hat, IdlePc.hasAsked] at hv
      · simp [hat, IdlePc.hasAsked] at hv
      · exact h.counted.balanced.idle_pos hpc
    show 0 < s.io.notify.bytes
    rw [IoPool.notify, if_pos hpos]
    exact Nat.succ_pos _
  | checkTimers w =>
    obtain ⟨f, timers, hpc, -, ht, rfl⟩ := step_checkTimers hstep
    intro _ _
    have hmanager := manager_of_checkTimers ht
    refine ⟨congrArg TimerManager.notified hmanager, fun t hhead => ?_⟩
    -- `w` itself covers the first timer
    have hhead' : s.manager.timers.head? = some t := by
      rw [← hhead]
      exact congrArg (fun m => m.timers.head?) hmanager.symm
    obtain ⟨hwait, hlt⟩ := h.wait_lt hhead'
    refine ⟨w, h.counted.balanced.lt_size (by simp [hpc]), ?_, ?_, ?_⟩
    · simp only [IoPool.setIdlePc, Function.update_self]
      rw [if_neg (by omega)]
    · simp only [Function.update_self]
      omega
    · simp only [Function.update_self]
      have hheap : timers.run.manager.heap t = s.manager.heap t :=
        congrArg (fun m => m.heap t) hmanager
      show _ ≤ max (timers.run.manager.heap t).next s.clock
      rw [hheap]
      omega
  | expire w now probe =>
    obtain ⟨f, reported, timers, hpc, -, -, rfl⟩ := step_expire hstep
    intro hattended
    refine absurd (.inr (.inr ⟨w, h.counted.balanced.lt_size (by simp [hpc]), ?_⟩)) hattended
    simp [IoPool.setIdlePc, IdlePc.asks]

/-- No worker has asked for the wait at first. -/
theorem watched_new (n start : ℕ) : (new n start).Watched := by
  rintro - ⟨w, -, hw⟩
  simp [new, IoPool.new, IdlePc.hasAsked] at hw

/-- The time-outs of `epoll_wait` for a short wait: not negative, and not longer. -/
theorem pollTimeouts_le {wait : ℕ} (hwait : wait < 2 ^ 31) {interrupted : List Bool} {z : ℤ}
    (hz : z ∈ pollTimeouts wait interrupted) : 0 ≤ z ∧ z ≤ wait := by
  have hint : toInt wait = wait := by
    unfold toInt
    split <;> omega
  have hfirst : firstTimeout wait = min (wait : ℤ) maxTimeout := by
    unfold firstTimeout
    rw [if_neg (by omega), hint]
  have hcall := mem_pollTimeouts hz
  unfold maxTimeout at hfirst hcall
  omega

/-- **No missed timer.** For any number of workers and any run with periods below `2 ^ 31` ms: when
    every worker is blocked in `epoll_wait` or has stopped, at least one is blocked, the notify pipe
    is empty and no call of `onTimerInsertAtFront` is to be made, then some blocked worker gave each
    call of `epoll_wait` a time-out that ends when the first timer is due, or before, or at once if
    it was due already. -/
theorem next_timer_is_waited_for (n start : ℕ) (as : List TimedAction) (s : TimedPool)
    (hstart : start < 2 ^ 63) (hshort : ∀ a ∈ as, a.short)
    (hrun : runFrom step (new n start) as = some s)
    (hblocked : ∀ w < s.io.pool.size, s.io.idlePc w = .poll ∨ s.io.idlePc w = .stopped)
    (hsome : ∃ w < s.io.pool.size, s.io.idlePc w = .poll) (hbytes : s.io.bytes = 0)
    (hfronts : s.fronts = 0) (t : ℕ) (ht : s.manager.timers.head? = some t) :
    ∃ w < s.io.pool.size, s.io.idlePc w = .poll ∧
      ∀ interrupted, ∀ z ∈ pollTimeouts (s.wait w) interrupted,
        0 ≤ z ∧ s.asked w + z ≤ max (s.manager.heap t).next (s.asked w) := by
  have hinv : s.Sound ∧ s.Watched := by
    refine run_invariant (C := fun _ a => a.short = true) (I := fun s => s.Sound ∧ s.Watched) ?_
      ⟨sound_new n hstart, watched_new n start⟩ (along_of_forall _ fun a ha _ => hshort a ha) hrun
    rintro t a t' ⟨hsound, hwatched⟩ hC hstep
    exact ⟨hsound.step hC hstep, hsound.step_watched hwatched hstep⟩
  -- every worker is blocked, so nothing is on its way
  have hattended : ¬ s.Attended := by
    rintro (hb | hf | ⟨w, hw, hasks⟩)
    · omega
    · omega
    · rcases hblocked w hw with hat | hat <;> simp [hat, IdlePc.asks] at hasks
  have hasked : ∃ w < s.io.pool.size, (s.io.idlePc w).hasAsked = true := by
    obtain ⟨w, hw, hpoll⟩ := hsome
    exact ⟨w, hw, by simp [hpoll, IdlePc.hasAsked]⟩
  obtain ⟨w, hw, hpoll, hlt, hdue⟩ := (hinv.2 hattended hasked).2 t ht
  refine ⟨w, hw, hpoll, fun interrupted z hz => ?_⟩
  have hle := pollTimeouts_le hlt hz
  omega

/-- Two workers: the first one asks for the wait while there is no timer and blocks, and the second
    one while there is a timer. -/
def addWhileBlocked : List TimedAction :=
  .flatten [.replicate 6 (.io (.worker 0)), [.checkTimers 0], .replicate 2 (.io (.idle 0 false [] 0)),
    [.timer (.addTimer 500 7 false 1000 64)], .replicate 6 (.io (.worker 1)), [.checkTimers 1],
    [.onTimerInsertAtFront, .io (.idle 0 true [] 0), .timer (.sample 1000), .expire 0 1000 80],
    .replicate 3 (.io (.idle 0 false [] 0)), .replicate 10 (.io (.worker 0)), [.checkTimers 0]]

/-- The second worker waits for the timer. -/
theorem next_timer_is_waited_for_two_workers :
    ∃ s, runFrom step (new 2 1000) addWhileBlocked = some s ∧
      ∃ w < s.io.pool.size, s.io.idlePc w = .poll ∧
        ∀ interrupted, ∀ z ∈ pollTimeouts (s.wait w) interrupted,
          0 ≤ z ∧ s.asked w + z ≤ max (s.manager.heap 0).next (s.asked w) := by
  obtain ⟨s, hrun, hs⟩ := (Option.any_eq_true (fun s : TimedPool =>
      decide ((∀ w < s.io.pool.size, s.io.idlePc w = .poll ∨ s.io.idlePc w = .stopped) ∧
        (∃ w < s.io.pool.size, s.io.idlePc w = .poll) ∧ s.io.bytes = 0 ∧ s.fronts = 0 ∧
        s.manager.timers.head? = some 0))
    (runFrom step (new 2 1000) addWhileBlocked)).mp (by decide +kernel)
  obtain ⟨hblocked, hsome, hbytes, hfronts, hhead⟩ := of_decide_eq_true hs
  exact ⟨s, hrun, next_timer_is_waited_for 2 1000 _ s (by decide) (by decide) hrun hblocked hsome
    hbytes hfronts 0 hhead⟩

end TimedPool

end LoNetfw.Scheduler
