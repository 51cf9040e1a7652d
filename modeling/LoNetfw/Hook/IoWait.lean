import LoNetfw.Hook.Io

namespace LoNetfw.Hook

open Basis
open Scheduler (Event)

/-!
# `io()` and `connect_with_timeout` — waits, wake-ups and timers

A call that yields has its fiber registered for one event; `triggerEvent` takes it out of the slot
and gives it to `schedule()`.  Whatever the timers' callbacks, dispatches, closes and other calls on
the same descriptor do in between, these two come in pairs, and a timer does not outlive its wait.

* `WaitExact` — the calls that wait are those that are registered or woken, and none is both;
* `wait_exact` — it holds in every state of every run: no fiber waits for nothing, and none is
  scheduled twice for one wait or while it runs;
* `TimersExact` — a timer that is armed is the one of the wait its call is in;
* `armed_timer_waits` — it holds in every state of every run.
-/

/-- From the registration of the fiber until it is resumed. -/
def IoPc.waits : IoPc → Bool
  | .yield | .parked => true
  | .direct | .call | .arm | .addEvent | .giveUp | .cancelTimer | .test | .sockopt | .returned => false

/-- From `addConditionTimer` until `timer->cancel()`. -/
def IoPc.timed : IoPc → Bool
  | .addEvent | .giveUp | .yield | .parked | .cancelTimer => true
  | .direct | .call | .arm | .test | .sockopt | .returned => false

/-- Another state of a call that waits or not as before. -/
structure IoCall.SameWait (c c' : IoCall) : Prop where
  fd : c'.fd = c.fd
  event : c'.event = c.event
  waits : c'.pc.waits = c.pc.waits
  woken : c'.woken = c.woken

namespace IoRun

variable {s s' : IoRun} {a : IoAction} {i : ℕ}

/-- The fiber of the call `i` is in the slot of its event. -/
def Registered (s : IoRun) (i : ℕ) : Prop := s.slots (s.calls i).fd (s.calls i).event = some i

/-! ### Waits -/

structure WaitExact (s : IoRun) : Prop where
  slot : ∀ fd event i, s.slots fd event = some i →
    i < s.count ∧ (s.calls i).fd = fd ∧ (s.calls i).event = event
  waits : ∀ i < s.count, (s.calls i).pc.waits = true ↔ s.Registered i ∨ (s.calls i).woken = true
  once : ∀ i < s.count, s.Registered i → (s.calls i).woken = false

/-- Nobody waits at first. -/
theorem waitExact_new : new.WaitExact where
  slot := by simp [new]
  waits := by simp [new]
  once := by simp [new]

/-- A step that leaves the slots and the waits of the calls. -/
theorem WaitExact.of_same (h : s.WaitExact) (hslots : s'.slots = s.slots) (hcount : s'.count = s.count)
    (hcalls : ∀ i, (s.calls i).SameWait (s'.calls i)) : s'.WaitExact := by
  -- a call is registered by its slot
  have hreg : ∀ i, s'.Registered i ↔ s.Registered i := by
    intro i
    rw [Registered, Registered, hslots, (hcalls i).fd, (hcalls i).event]
  refine ⟨?_, ?_, ?_⟩
  · intro fd event i hi
    rw [hslots] at hi
    rw [hcount, (hcalls i).fd, (hcalls i).event]
    exact h.slot fd event i hi
  · intro i hi
    rw [hreg, (hcalls i).waits, (hcalls i).woken]
    exact h.waits i (hcount ▸ hi)
  · intro i hi hregistered
    rw [(hcalls i).woken]
    exact h.once i (hcount ▸ hi) ((hreg i).mp hregistered)

/-- Only the call `i` moves on, and it waits as before. -/
theorem sameWait_setCall {c : IoCall} (hc : (s.calls i).SameWait c) (j : ℕ) :
    (s.calls j).SameWait ((s.setCall i c).calls j) := by
  by_cases hj : j = i
  · subst hj
    simpa [setCall] using hc
  · simp only [setCall, Function.update_of_ne hj]
    exact ⟨rfl, rfl, rfl, rfl⟩

/-- A call that waits as before. -/
theorem WaitExact.setCall (h : s.WaitExact) {c : IoCall} (hc : (s.calls i).SameWait c) :
    (s.setCall i c).WaitExact := h.of_same rfl rfl (sameWait_setCall hc)

/-- Cancelling a timer empties no slot. -/
theorem slots_cancelTimer (timer : Option ℕ) : (s.cancelTimer timer).slots = s.slots := by
  unfold cancelTimer
  cases timer with
  | none => rfl
  | some t =>
    dsimp only
    split <;> rfl

/-- Cancelling a timer adds no call. -/
theorem count_cancelTimer (timer : Option ℕ) : (s.cancelTimer timer).count = s.count := by
  unfold cancelTimer
  cases timer with
  | none => rfl
  | some t =>
    dsimp only
    split <;> rfl

/-- After a timer is cancelled all calls wait as before. -/
theorem WaitExact.cancelTimer (h : s.WaitExact) (timer : Option ℕ) :
    (s.cancelTimer timer).WaitExact := by
  refine h.of_same (slots_cancelTimer timer) (count_cancelTimer timer) fun j => ?_
  rw [calls_cancelTimer]
  exact ⟨rfl, rfl, rfl, rfl⟩

/-- A registration ends, and its call is woken. -/
theorem WaitExact.trigger (h : s.WaitExact) (fd : ℕ) (event : Event) :
    (s.trigger fd event).WaitExact := by
  unfold IoRun.trigger
  split
  · exact h
  · next i hi =>
    -- the call of the slot is woken, and waits without being registered
    obtain ⟨hlt, rfl, rfl⟩ := h.slot fd event i hi
    have hne : ∀ j, j ≠ i → (((s.setCall i { s.calls i with woken := true }).setSlot (s.calls i).fd
        (s.calls i).event none).calls j) = s.calls j :=
      fun j hj => Function.update_of_ne hj ..
    refine ⟨?_, ?_, ?_⟩
    · intro fd event j hj
      rw [slots_setSlot] at hj
      split at hj
      · cases hj
      · have hji : j ≠ i := by
          rintro rfl
          obtain ⟨-, hfd, hevent⟩ := h.slot fd event j hj
          next hdiff => exact hdiff ⟨hfd.symm, hevent.symm⟩
        rw [hne j hji]
        exact h.slot fd event j hj
    · intro j hj
      by_cases hji : j = i
      · subst hji
        have hwaits := (h.waits j hlt).mpr (.inl hi)
        simp [setSlot, IoRun.setCall, hwaits]
      · rw [Registered, slots_setSlot, hne j hji, h.waits j hj, Registered]
        split
        · next hsame => simp [hsame.1, hsame.2, hi, Ne.symm hji]
        · exact Iff.rfl
    · intro j hj hregistered
      rw [Registered, slots_setSlot] at hregistered
      split at hregistered
      · cases hregistered
      · next hdiff =>
        have hji : j ≠ i := by
          rintro rfl
          exact hdiff (by simp [setSlot, IoRun.setCall])
        rw [hne j hji] at hregistered ⊢
        exact h.once j hj hregistered

/-- `addEvent` of a call that runs. -/
theorem WaitExact.addEvent (h : s.WaitExact) (hi : i < s.count) (hpc : (s.calls i).pc = .addEvent)
    (epollCtl : Bool) : (s.addEvent i epollCtl).WaitExact := by
  -- a call that has not waited has not been woken
  have hwoken : (s.calls i).woken = false := by
    have hnot := mt (h.waits i hi).mpr (by simp [hpc, IoPc.waits])
    simpa using (not_or.mp hnot).2
  unfold IoRun.addEvent
  dsimp only
  split
  · next hfree =>
    have hne : ∀ j, j ≠ i → (((s.setCall i { s.calls i with pc := .yield }).setSlot (s.calls i).fd
        (s.calls i).event (some i)).calls j) = s.calls j :=
      fun j hj => Function.update_of_ne hj ..
    -- the slot was free, so no other call loses its registration
    have hreg : ∀ j, j ≠ i → (((s.setCall i { s.calls i with pc := .yield }).setSlot (s.calls i).fd
        (s.calls i).event (some i)).Registered j ↔ s.Registered j) := by
      intro j hj
      rw [Registered, slots_setSlot, hne j hj, Registered]
      split
      · next hsame => simp [hsame.1, hsame.2, hfree.1, Ne.symm hj]
      · exact Iff.rfl
    refine ⟨?_, ?_, ?_⟩
    · intro fd event j hj
      rw [slots_setSlot] at hj
      split at hj
      · next hsame =>
        obtain rfl := Option.some.inj hj
        exact ⟨hi, by simp [setSlot, IoRun.setCall, hsame.1], by simp [setSlot, IoRun.setCall, hsame.2]⟩
      · obtain ⟨hlt, hfd, hevent⟩ := h.slot fd event j hj
        have hji : j ≠ i := by
          rintro rfl
          next hdiff => exact hdiff ⟨hfd.symm, hevent.symm⟩
        rw [hne j hji]
        exact ⟨hlt, hfd, hevent⟩
    · intro j hj
      by_cases hji : j = i
      · subst hji
        rw [Registered, slots_setSlot]
        simp [setSlot, IoRun.setCall, IoPc.waits]
      · rw [hreg j hji, hne j hji]
        exact h.waits j hj
    · intro j hj hregistered
      by_cases hji : j = i
      · subst hji
        simpa [setSlot, IoRun.setCall] using hwoken
      · rw [hne j hji]
        exact h.once j hj ((hreg j hji).mp hregistered)
  · exact h.setCall ⟨rfl, rfl, by simp [hpc, IoPc.waits], rfl⟩

/-- The fiber of a woken call is resumed. -/
theorem WaitExact.resume (h : s.WaitExact) (hi : i < s.count) (hwoken : (s.calls i).woken = true) :
    (s.setCall i { s.calls i with pc := .cancelTimer, woken := false }).WaitExact := by
  -- a call that was woken is not registered any more
  have hnot : ¬ s.Registered i := fun hreg => by simp [h.once i hi hreg] at hwoken
  have hne : ∀ j, j ≠ i → (s.setCall i { s.calls i with pc := .cancelTimer, woken := false }).calls j =
      s.calls j := fun j hj => Function.update_of_ne hj ..
  have hreg : ∀ j, (s.setCall i { s.calls i with pc := .cancelTimer, woken := false }).Registered j ↔
      s.Registered j := by
    intro j
    by_cases hji : j = i
    · subst hji
      simp [Registered, IoRun.setCall]
    · rw [Registered, hne j hji]
      exact Iff.rfl
  refine ⟨?_, ?_, ?_⟩
  · intro fd event j hj
    obtain ⟨hlt, hfd, hevent⟩ := h.slot fd event j hj
    have hji : j ≠ i := by
      rintro rfl
      subst hfd hevent
      exact hnot hj
    rw [hne j hji]
    exact ⟨hlt, hfd, hevent⟩
  · intro j hj
    rw [hreg]
    by_cases hji : j = i
    · subst hji
      simp [IoRun.setCall, IoPc.waits, hnot]
    · rw [hne j hji]
      exact h.waits j hj
  · intro j hj hregistered
    rw [hreg] at hregistered
    have hji : j ≠ i := by
      rintro rfl
      exact hnot hregistered
    rw [hne j hji]
    exact h.once j hj hregistered

/-- A call starts outside of any wait. -/
theorem startPc_range (kind : CallKind) (hooked : Bool) (e : Option Fd) :
    startPc kind hooked e = .direct ∨ startPc kind hooked e = .call ∨
      startPc kind hooked e = .returned := by
  unfold startPc
  -- not hooked, closed, or not a socket in the hook's hands
  split
  · exact .inl rfl
  · split
    · exact .inl rfl
    · exact .inr (.inr rfl)
    · split
      · exact .inr (.inr rfl)
      · split
        · exact .inl rfl
        · exact .inr (.inl rfl)

/-- A new call is in no slot. -/
theorem WaitExact.invoke (h : s.WaitExact) (kind : CallKind) (hooked : Bool) (fd : ℕ) (event : Event)
    (ms : ℤ) : (s.invoke kind hooked fd event ms).WaitExact := by
  have hold : ∀ j < s.count, (s.invoke kind hooked fd event ms).calls j = s.calls j :=
    fun j hj => Function.update_of_ne (Nat.ne_of_lt hj) ..
  have hslots : (s.invoke kind hooked fd event ms).slots = s.slots := rfl
  have hstart : ∀ e, (startPc kind hooked e).waits = false := by
    intro e
    rcases startPc_range kind hooked e with hpc | hpc | hpc <;> rw [hpc] <;> rfl
  -- nobody is registered for a call that is not made yet
  have hfree : ¬ (s.invoke kind hooked fd event ms).Registered s.count := by
    intro hreg
    obtain ⟨hlt, -⟩ := h.slot _ _ _ hreg
    exact absurd hlt (Nat.lt_irrefl _)
  refine ⟨?_, ?_, ?_⟩
  · intro g e j hj
    obtain ⟨hlt, hfd, hevent⟩ := h.slot g e j hj
    rw [hold j hlt]
    exact ⟨Nat.lt_succ_of_lt hlt, hfd, hevent⟩
  · intro j hj
    rcases Nat.lt_succ_iff_lt_or_eq.mp hj with hlt | rfl
    · rw [Registered, hold j hlt, hslots]
      exact h.waits j hlt
    · simp only [hfree, false_or]
      simp [IoRun.invoke, IoRun.setCall, hstart]
  · intro j hj hregistered
    rcases Nat.lt_succ_iff_lt_or_eq.mp hj with hlt | rfl
    · rw [Registered, hold j hlt, hslots] at hregistered
      rw [hold j hlt]
      exact h.once j hlt hregistered
    · exact absurd hregistered hfree

/-- The next access of a call. -/
theorem WaitExact.ioStep (h : s.WaitExact) (hi : i < s.count) {r : FunResult} {epollCtl : Bool}
    (hstep : s.ioStep i r epollCtl = some s') : s'.WaitExact := by
  -- a call that performs does not wait, before or after
  have hrunning : ∀ {pc}, (s.calls i).pc.waits = false → pc.waits = false →
      (s.perform i pc).WaitExact := by
    intro pc hbefore hafter
    unfold perform
    dsimp only
    split
    · exact h.setCall ⟨rfl, rfl, hbefore.symm, rfl⟩
    · exact h.setCall ⟨rfl, rfl, hafter.trans hbefore.symm, rfl⟩
  unfold IoRun.ioStep at hstep
  cases hpc : (s.calls i).pc <;> simp only [hpc, Option.some.injEq] at hstep
  case direct | sockopt =>
    subst hstep
    exact hrunning (by rw [hpc]; rfl) rfl
  case call =>
    subst hstep
    apply hrunning (by rw [hpc]; rfl)
    cases r <;> cases (s.calls i).kind <;> rfl
  case arm =>
    subst hstep
    unfold armTimer
    dsimp only
    split
    · refine (h.setCall (i := i)
        (c := { s.calls i with pc := .addEvent, timer := some s.timerCount })
        ⟨rfl, rfl, by simp [hpc, IoPc.waits], rfl⟩).of_same rfl rfl fun j => ⟨rfl, rfl, rfl, rfl⟩
    · exact h.setCall ⟨rfl, rfl, by simp [hpc, IoPc.waits], rfl⟩
  case addEvent =>
    subst hstep
    exact h.addEvent hi hpc epollCtl
  case giveUp | cancelTimer =>
    subst hstep
    apply (h.cancelTimer _).setCall
    rw [calls_cancelTimer]
    exact ⟨rfl, rfl, by simp [hpc, IoPc.waits], rfl⟩
  case yield =>
    subst hstep
    exact h.setCall ⟨rfl, rfl, by simp [hpc, IoPc.waits], rfl⟩
  -- a parked call goes on when it is woken
  case parked =>
    split at hstep
    · next hwoken =>
      cases hstep
      exact h.resume hi hwoken
    · cases hstep
  case test =>
    subst hstep
    apply h.setCall
    split
    · exact ⟨rfl, rfl, by simp [hpc, IoPc.waits], rfl⟩
    · split <;> exact ⟨rfl, rfl, by simp [hpc, IoPc.waits], rfl⟩
  case returned => cases hstep

/-- The next access of a timer. -/
theorem WaitExact.timerStep (h : s.WaitExact) {t : ℕ} {epollCtl : Bool}
    (hstep : s.timerStep t epollCtl = some s') : s'.WaitExact := by
  -- the place of a timer is no call's
  have htimer : ∀ {s : IoRun} (pc : TimerPc), s.WaitExact → (s.setTimerPc t pc).WaitExact :=
    fun pc h => h.of_same rfl rfl fun j => ⟨rfl, rfl, rfl, rfl⟩
  unfold IoRun.timerStep at hstep
  cases hpc : (s.timers t).pc <;> simp only [hpc, Option.some.injEq, reduceCtorEq] at hstep
  case armed | queued =>
    subst hstep
    exact htimer _ h
  case checked =>
    subst hstep
    exact (htimer _ h).setCall ⟨rfl, rfl, rfl, rfl⟩
  case marked =>
    subst hstep
    split
    · exact htimer _ h
    · split
      · exact (htimer _ h).trigger _ _
      · exact htimer _ h

/-- **Step lemma.** -/
theorem WaitExact.step (h : s.WaitExact) (hstep : IoRun.step s a = some s') : s'.WaitExact := by
  -- `triggerEvent` where `epoll_ctl` succeeds
  have htriggers : ∀ {s : IoRun} (b : Bool) (fd : ℕ) (event : Event), s.WaitExact →
      (if b then s.trigger fd event else s).WaitExact := by
    intro s b fd event h
    split
    · exact h.trigger fd event
    · exact h
  cases a with
  | openFile hooked fd =>
    simp only [IoRun.step, Option.ite_none_right_eq_some, Option.some.injEq] at hstep
    obtain ⟨-, rfl⟩ := hstep
    exact h.of_same rfl rfl fun j => ⟨rfl, rfl, rfl, rfl⟩
  | setTimeout fd event ms | close fd | report fd event =>
    cases hstep
    exact h.of_same rfl rfl fun j => ⟨rfl, rfl, rfl, rfl⟩
  | closeStep k epollCtl =>
    obtain ⟨c, -, rfl⟩ := Option.map_eq_some_iff.mp hstep
    cases c.pc with
    | cancelAll =>
      -- `cancelAll` triggers both events
      have hboth : (if epollCtl then (s.trigger c.fd .read).trigger c.fd .write else s).WaitExact := by
        split
        · exact (h.trigger _ _).trigger _ _
        · exact h
      exact hboth.of_same rfl rfl fun j => ⟨rfl, rfl, rfl, rfl⟩
    | del | closeFile => exact h.of_same rfl rfl fun j => ⟨rfl, rfl, rfl, rfl⟩
  | invoke kind hooked fd event ms =>
    cases hstep
    exact h.invoke ..
  | io i r epollCtl =>
    simp only [IoRun.step, Option.ite_none_right_eq_some] at hstep
    exact h.ioStep hstep.1 hstep.2
  | timer t epollCtl =>
    simp only [IoRun.step, Option.ite_none_right_eq_some] at hstep
    exact h.timerStep hstep.2
  | dispatch k epollCtl =>
    obtain ⟨r, -, rfl⟩ := Option.map_eq_some_iff.mp hstep
    exact (htriggers epollCtl r.1 r.2 h).of_same rfl rfl fun j => ⟨rfl, rfl, rfl, rfl⟩

/-- **Waits and wake-ups.** In every interleaving of hooked calls, callbacks of timers, dispatches and
    closes, with any failures of `epoll_ctl`: the calls that wait are those whose fiber is in the slot
    of its event or has been given to `schedule()` since, and never both.  So a fiber is scheduled
    once for each wait, and no call waits without either. -/
theorem wait_exact (as : List IoAction) (s : IoRun) (hrun : runFrom step new as = some s) (i : ℕ)
    (hi : i < s.count) :
    ((s.calls i).pc.waits = true ↔ s.Registered i ∨ (s.calls i).woken = true) ∧
      ¬ (s.Registered i ∧ (s.calls i).woken = true) ∧
      ∀ fd event, s.slots fd event = some i → fd = (s.calls i).fd ∧ event = (s.calls i).event := by
  have h : s.WaitExact := run_invariant_of_step (fun _ _ _ h ht => h.step ht) waitExact_new hrun
  refine ⟨h.waits i hi, ?_, ?_⟩
  · rintro ⟨hreg, hwoken⟩
    simp [h.once i hi hreg] at hwoken
  · intro fd event hslot
    obtain ⟨-, hfd, hevent⟩ := h.slot fd event i hslot
    exact ⟨hfd.symm, hevent.symm⟩

/-- Two calls wait for one socket: a `read` with a timeout of 5 ms and a `write`, which is woken. -/
def readAndWrite : List IoAction :=
  [.openFile true 7, .setTimeout 7 .read 5, .invoke .io true 7 .read 0, .invoke .io true 7 .write 0,
    .io 0 .again true, .io 0 .done true, .io 0 .done true, .io 1 .again true, .io 1 .done true,
    .io 1 .done true, .io 0 .done true, .report 7 .write, .dispatch 0 true]

/-- A reader that waits and a writer that was woken. -/
theorem wait_exact_two_calls : ∃ s, runFrom step new readAndWrite = some s ∧ s.Registered 0 ∧
    ¬ s.Registered 1 ∧ (s.calls 1).woken = true := by
  obtain ⟨s, hrun, hs⟩ : ∃ s, runFrom step new readAndWrite = some s ∧ 2 = s.count ∧
      (s.calls 0).pc.waits = true ∧ (s.calls 0).woken = false ∧ (s.calls 1).woken = true :=
    ⟨_, rfl, rfl, by decide, by decide, by decide⟩
  obtain ⟨hcount, hwaits, hnot, hwoken⟩ := hs
  obtain ⟨hread, -⟩ := wait_exact readAndWrite s hrun 0 (by omega)
  obtain ⟨-, hwrite, -⟩ := wait_exact readAndWrite s hrun 1 (by omega)
  refine ⟨s, hrun, ?_, fun hreg => hwrite ⟨hreg, hwoken⟩, hwoken⟩
  rcases hread.mp hwaits with hreg | hwoken'
  · exact hreg
  · rw [hnot] at hwoken'
    exact absurd hwoken' Bool.false_ne_true

/-! ### Timers -/

/-- An armed timer is the one its call has kept, and the call has not canceled it yet. -/
structure TimersExact (s : IoRun) : Prop where
  made : ∀ t < s.timerCount, (s.timers t).call < s.count
  armed : ∀ t < s.timerCount, (s.timers t).pc = .armed →
    (s.calls (s.timers t).call).timer = some t ∧ (s.calls (s.timers t).call).pc.timed = true

/-- There are no timers at first. -/
theorem timersExact_new : new.TimersExact where
  made := by simp [new]
  armed := by simp [new]

/-- A step that arms no timer, and after which every call that has an armed one is as before. -/
theorem TimersExact.of_fewer (h : s.TimersExact) (hcount : s.count ≤ s'.count)
    (htimerCount : s'.timerCount = s.timerCount)
    (htimers : ∀ t < s.timerCount, (s'.timers t).call = (s.timers t).call ∧
      ((s'.timers t).pc = .armed → (s.timers t).pc = .armed ∧
        (s'.calls (s.timers t).call).timer = (s.calls (s.timers t).call).timer ∧
        (s'.calls (s.timers t).call).pc.timed = (s.calls (s.timers t).call).pc.timed)) :
    s'.TimersExact where
  made := by
    intro t ht
    rw [htimerCount] at ht
    rw [(htimers t ht).1]
    exact Nat.lt_of_lt_of_le (h.made t ht) hcount
  -- a timer that is armed was armed, and its call has not moved past it
  armed := by
    intro t ht harmed
    rw [htimerCount] at ht
    obtain ⟨hcall, hkeeps⟩ := htimers t ht
    obtain ⟨harmed', htimer, htimed⟩ := hkeeps harmed
    rw [hcall, htimer, htimed]
    exact h.armed t ht harmed'

/-- A call that has no armed timer moves on. -/
theorem TimersExact.setCall_free (h : s.TimersExact) {c : IoCall}
    (hfree : ∀ t < s.timerCount, (s.timers t).call = i → (s.timers t).pc ≠ .armed) :
    (s.setCall i c).TimersExact := by
  refine h.of_fewer (Nat.le_refl _) rfl fun t ht => ⟨rfl, fun harmed => ⟨harmed, ?_⟩⟩
  have hne : (s.timers t).call ≠ i := fun hcall => hfree t ht hcall harmed
  simp only [IoRun.setCall, Function.update_of_ne hne]
  exact ⟨trivial, trivial⟩

/-- A call moves on that keeps its timer for as long. -/
theorem TimersExact.setCall (h : s.TimersExact) {c : IoCall} (htimer : c.timer = (s.calls i).timer)
    (htimed : c.pc.timed = (s.calls i).pc.timed) : (s.setCall i c).TimersExact := by
  refine h.of_fewer (Nat.le_refl _) rfl fun t ht => ⟨rfl, fun harmed => ⟨harmed, ?_⟩⟩
  by_cases hcall : (s.timers t).call = i
  · rw [hcall]
    simp [IoRun.setCall, htimer, htimed]
  · simp [IoRun.setCall, Function.update_of_ne hcall]

/-- Outside of its timed part a call has no armed timer. -/
theorem TimersExact.free_of_untimed (h : s.TimersExact) (hpc : (s.calls i).pc.timed = false) :
    ∀ t < s.timerCount, (s.timers t).call = i → (s.timers t).pc ≠ .armed := by
  rintro t ht rfl harmed
  simp [(h.armed t ht harmed).2] at hpc

/-- A timer that has been taken is not armed any more. -/
theorem TimersExact.setTimerPc (h : s.TimersExact) (t : ℕ) {pc : TimerPc} (hpc : pc ≠ .armed) :
    (s.setTimerPc t pc).TimersExact := by
  refine h.of_fewer (Nat.le_refl _) rfl fun u hu => ?_
  by_cases hut : u = t
  · subst hut
    exact ⟨by simp [IoRun.setTimerPc], fun harmed => absurd (by simpa [IoRun.setTimerPc] using harmed) hpc⟩
  · simp only [IoRun.setTimerPc, Function.update_of_ne hut]
    exact ⟨trivial, fun harmed => ⟨harmed, trivial, trivial⟩⟩

/-- After `timer->cancel()` the call has no armed timer. -/
theorem TimersExact.cancelTimer (h : s.TimersExact) (i : ℕ) :
    (s.cancelTimer (s.calls i).timer).TimersExact ∧
      ∀ t < (s.cancelTimer (s.calls i).timer).timerCount,
        ((s.cancelTimer (s.calls i).timer).timers t).call = i →
          ((s.cancelTimer (s.calls i).timer).timers t).pc ≠ .armed := by
  unfold IoRun.cancelTimer
  split
  -- a call without a timer has none armed
  · next hnone =>
    refine ⟨h, ?_⟩
    rintro t ht rfl harmed
    simp [(h.armed t ht harmed).1] at hnone
  · next u hu =>
    split
    -- the call's timer is the only one that could be armed
    · refine ⟨h.setTimerPc u (by decide), fun t ht hcall harmed => ?_⟩
      by_cases hut : t = u
      · subst hut
        simp [IoRun.setTimerPc] at harmed
      · simp only [IoRun.setTimerPc, Function.update_of_ne hut] at hcall harmed
        subst hcall
        exact hut (Option.some.inj ((h.armed t ht harmed).1.symm.trans hu))
    · next hnot =>
      refine ⟨h, ?_⟩
      rintro t ht rfl harmed
      obtain rfl : t = u := Option.some.inj ((h.armed t ht harmed).1.symm.trans hu)
      exact hnot harmed

/-- An event that is triggered leaves the timers. -/
theorem TimersExact.trigger (h : s.TimersExact) (fd : ℕ) (event : Event) :
    (s.trigger fd event).TimersExact := by
  unfold IoRun.trigger
  split
  · exact h
  · exact (h.setCall (i := _) (c := { s.calls _ with woken := true }) rfl rfl).of_fewer (Nat.le_refl _)
      rfl fun t ht => ⟨rfl, fun harmed => ⟨harmed, rfl, rfl⟩⟩

/-- A call without a timer performs. -/
theorem TimersExact.perform (h : s.TimersExact) {pc : IoPc} (hpc : (s.calls i).pc.timed = false) :
    (s.perform i pc).TimersExact := by
  unfold IoRun.perform
  dsimp only
  split <;> exact h.setCall_free (h.free_of_untimed hpc)

/-- `addConditionTimer`. -/
theorem TimersExact.armTimer (h : s.TimersExact) (hi : i < s.count) (hpc : (s.calls i).pc = .arm) :
    (s.armTimer i).TimersExact := by
  -- the call has no timer yet
  have hfree := h.free_of_untimed (i := i) (by rw [hpc]; rfl)
  unfold IoRun.armTimer
  dsimp only
  split
  · have hmoved := h.setCall_free (c := { s.calls i with pc := .addEvent, timer := some s.timerCount })
      hfree
    refine ⟨fun t ht => ?_, fun t ht harmed => ?_⟩
    · rcases Nat.lt_succ_iff_lt_or_eq.mp ht with hlt | rfl
      · simp only [Function.update_of_ne (Nat.ne_of_lt hlt)]
        exact hmoved.made t hlt
      · simpa [IoRun.setCall] using hi
    · rcases Nat.lt_succ_iff_lt_or_eq.mp ht with hlt | rfl
      · simp only [Function.update_of_ne (Nat.ne_of_lt hlt)] at harmed ⊢
        exact hmoved.armed t hlt harmed
      · simp [IoRun.setCall, IoPc.timed]
  · exact h.setCall_free hfree

/-- A call arms a timer before it waits, and cancels it when it goes on. -/
theorem TimersExact.ioStep (h : s.TimersExact) (hi : i < s.count) {r : FunResult} {epollCtl : Bool}
    (hstep : s.ioStep i r epollCtl = some s') : s'.TimersExact := by
  unfold IoRun.ioStep at hstep
  cases hpc : (s.calls i).pc <;> simp only [hpc, Option.some.injEq] at hstep
  case direct | call | sockopt =>
    subst hstep
    exact h.perform (by rw [hpc]; rfl)
  case arm =>
    subst hstep
    exact h.armTimer hi hpc
  case addEvent =>
    subst hstep
    unfold IoRun.addEvent
    dsimp only
    split
    · exact (h.setCall (i := i) (c := { s.calls i with pc := .yield }) rfl (by rw [hpc]; rfl)).of_fewer
        (Nat.le_refl _) rfl fun t ht => ⟨rfl, fun harmed => ⟨harmed, rfl, rfl⟩⟩
    · exact h.setCall rfl (by rw [hpc]; rfl)
  -- here the call gives up its timer, by `cancel()`
  case giveUp | cancelTimer =>
    subst hstep
    obtain ⟨hcanceled, hfree⟩ := h.cancelTimer i
    exact hcanceled.setCall_free hfree
  case yield =>
    subst hstep
    exact h.setCall rfl (by rw [hpc]; rfl)
  case parked =>
    split at hstep
    · cases hstep
      exact h.setCall rfl (by rw [hpc]; rfl)
    · cases hstep
  case test =>
    subst hstep
    exact h.setCall_free (h.free_of_untimed (by rw [hpc]; rfl))
  case returned => cases hstep

/-- The callback of a timer that has been taken. -/
theorem TimersExact.timerStep (h : s.TimersExact) {t : ℕ} {epollCtl : Bool}
    (hstep : s.timerStep t epollCtl = some s') : s'.TimersExact := by
  unfold IoRun.timerStep at hstep
  cases hpc : (s.timers t).pc <;> simp only [hpc, Option.some.injEq, reduceCtorEq] at hstep
  case armed =>
    subst hstep
    exact h.setTimerPc t (by decide)
  -- whether the call still waits decides where the timer goes
  case queued =>
    subst hstep
    apply h.setTimerPc t
    split <;> decide
  case checked =>
    subst hstep
    exact (h.setTimerPc t (by decide)).setCall rfl rfl
  -- the event may have ended by now, and then nothing is triggered
  case marked =>
    subst hstep
    split
    · exact h.setTimerPc t (by decide)
    · split
      · exact (h.setTimerPc t (by decide)).trigger _ _
      · exact h.setTimerPc t (by decide)

/-- **Step lemma.** -/
theorem TimersExact.step (h : s.TimersExact) (hstep : IoRun.step s a = some s') : s'.TimersExact := by
  -- most steps touch neither timers nor calls
  have hsame : ∀ {s s' : IoRun}, s.TimersExact → s'.count = s.count → s'.timerCount = s.timerCount →
      s'.timers = s.timers → s'.calls = s.calls → s'.TimersExact := by
    intro s s' h hcount htimerCount htimers hcalls
    refine h.of_fewer (Nat.le_of_eq hcount.symm) htimerCount fun t ht => ?_
    rw [htimers, hcalls]
    exact ⟨rfl, fun harmed => ⟨harmed, rfl, rfl⟩⟩
  cases a with
  | openFile hooked fd =>
    simp only [IoRun.step, Option.ite_none_right_eq_some, Option.some.injEq] at hstep
    obtain ⟨-, rfl⟩ := hstep
    exact hsame h rfl rfl rfl rfl
  | setTimeout fd event ms | close fd | report fd event =>
    cases hstep
    exact hsame h rfl rfl rfl rfl
  | closeStep k epollCtl =>
    obtain ⟨c, -, rfl⟩ := Option.map_eq_some_iff.mp hstep
    cases c.pc with
    | cancelAll =>
      have hboth :
          (if epollCtl then (s.trigger c.fd .read).trigger c.fd .write else s).TimersExact := by
        split
        · exact (h.trigger _ _).trigger _ _
        · exact h
      exact hsame hboth rfl rfl rfl rfl
    | del | closeFile => exact hsame h rfl rfl rfl rfl
  | invoke kind hooked fd event ms =>
    cases hstep
    refine h.of_fewer (Nat.le_succ _) rfl fun t ht => ⟨rfl, fun harmed => ⟨harmed, ?_⟩⟩
    -- a new call has no timer
    have hne : (s.timers t).call ≠ s.count := Nat.ne_of_lt (h.made t ht)
    simp [IoRun.invoke, IoRun.setCall, Function.update_of_ne hne]
  | io i r epollCtl =>
    simp only [IoRun.step, Option.ite_none_right_eq_some] at hstep
    exact h.ioStep hstep.1 hstep.2
  | timer t epollCtl =>
    simp only [IoRun.step, Option.ite_none_right_eq_some] at hstep
    exact h.timerStep hstep.2
  | dispatch k epollCtl =>
    obtain ⟨r, -, rfl⟩ := Option.map_eq_some_iff.mp hstep
    have htriggered : (if epollCtl then s.trigger r.1 r.2 else s).TimersExact := by
      split
      · exact h.trigger _ _
      · exact h
    exact hsame htriggered rfl rfl rfl rfl

/-- **Timers.** In every such interleaving a timer that is armed is the one of the wait that its call
    is in: a call has at most one, and a call that has returned, or tries its system call again, has
    none left. -/
theorem armed_timer_waits (as : List IoAction) (s : IoRun) (hrun : runFrom step new as = some s)
    (t : ℕ) (ht : t < s.timerCount) (harmed : (s.timers t).pc = .armed) :
    (s.calls (s.timers t).call).pc.timed = true ∧ (s.calls (s.timers t).call).pc ≠ .returned ∧
      ∀ u < s.timerCount, (s.timers u).pc = .armed → (s.timers u).call = (s.timers t).call →
        u = t := by
  have h : s.TimersExact :=
    run_invariant_of_step (fun _ _ _ h ht => h.step ht) timersExact_new hrun
  obtain ⟨htimer, htimed⟩ := h.armed t ht harmed
  refine ⟨htimed, ?_, fun u hu harmed' hcall => ?_⟩
  · intro hpc
    rw [hpc] at htimed
    exact absurd htimed (by decide)
  -- two armed timers of one call are both the one it has stored
  · obtain ⟨htimer', -⟩ := h.armed u hu harmed'
    rw [hcall, htimer] at htimer'
    exact (Option.some.inj htimer').symm

/-- The timer of the `read` is armed while the call waits. -/
theorem armed_timer_waits_two_calls : ∃ s, runFrom step new readAndWrite = some s ∧
    (s.timers 0).pc = .armed ∧ (s.calls (s.timers 0).call).pc ≠ .returned := by
  obtain ⟨s, hrun, hcount, harmed⟩ : ∃ s, runFrom step new readAndWrite = some s ∧
      1 = s.timerCount ∧ (s.timers 0).pc = .armed := ⟨_, rfl, rfl, by decide⟩
  obtain ⟨-, hpc, -⟩ := armed_timer_waits readAndWrite s hrun 0 (by omega) harmed
  exact ⟨s, hrun, harmed, hpc⟩

end IoRun

end LoNetfw.Hook
