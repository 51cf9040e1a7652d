import LoNetfw.Hook.Io

namespace LoNetfw.Hook

open Basis
open Scheduler (Event)

/-!
# `io()` and `connect_with_timeout` — the timeout of a parked call

The timer of a wait is armed before the event is registered, and its callback sets
`tinfo->canceled` once and calls `cancelEvent` once.  A callback that does both before
`addEvent` leaves a call that nothing but I/O resumes.

* `IoRun.TimeoutLost` — a call in that situation;
* `IoRun.TimerStillWakes` — the condition on `addEvent`: no callback has come and gone;
* `IoRun.timeout_not_lost` — along every interleaving in which every `addEvent` meets it, no
  call loses its timeout.
-/

namespace IoRun

/-- A callback of the call `i` that will call `cancelEvent`. -/
def CallbackUnderWay (s : IoRun) (i : ℕ) : Prop :=
  ∃ t < s.timerCount, (s.timers t).call = i ∧ TimerPc.underWay (s.timers t).pc

/-- The call `i` is parked with its event registered; `canceled` is set, the `cancelEvent` of
    its callback has returned `false` because the event was not registered, and no callback,
    report or `close` is under way that would resume it. -/
structure TimeoutLost (s : IoRun) (i : ℕ) : Prop where
  made : i < s.count
  parked : (s.calls i).pc = .parked
  registered : s.slots (s.calls i).fd (s.calls i).event = some i
  canceled : (s.calls i).canceled = true
  missed : ∃ t < s.timerCount, (s.timers t).call = i ∧ (s.timers t).pc = .missed
  notFailed : ∀ t < s.timerCount, (s.timers t).call = i → (s.timers t).pc ≠ .failed
  notWoken : (s.calls i).woken = false
  noCallback : ¬ s.CallbackUnderWay i
  noReport : ((s.calls i).fd, (s.calls i).event) ∉ s.reports
  noClose : ∀ c ∈ s.closing, c.fd = (s.calls i).fd → c.pc ≠ .cancelAll

/-- The condition on `addEvent` of a call, when it registers the event: `canceled` is clear, or
    a callback of the call has still to call `cancelEvent`. -/
def TimerStillWakes (s : IoRun) : IoAction → Prop
  | .io i _ epollCtl =>
    i < s.count → (s.calls i).pc = .addEvent → epollCtl = true →
      s.slots (s.calls i).fd (s.calls i).event = none →
      (s.calls i).canceled = false ∨ s.CallbackUnderWay i
  | _ => True

/-- A registered call whose `canceled` is set has a callback that will call `cancelEvent`, or
    one in which `epoll_ctl` failed. -/
structure WaitInv (s : IoRun) : Prop where
  slot : ∀ fd event i, s.slots fd event = some i →
    i < s.count ∧ (s.calls i).fd = fd ∧ (s.calls i).event = event
  timer : ∀ t < s.timerCount, (s.timers t).call < s.count
  wakes : ∀ fd event i, s.slots fd event = some i → (s.calls i).canceled = true →
    ∃ t < s.timerCount, (s.timers t).call = i ∧
      (TimerPc.underWay (s.timers t).pc ∨ (s.timers t).pc = .failed)

/-- Nobody waits at first. -/
theorem waitInv_new : new.WaitInv where
  slot := by simp [new]
  timer := by simp [new]
  wakes := by simp [new]

/-! ### Steps that keep every callback -/

/-- A step that registers nothing, sets no `canceled` and moves no callback that is past its
    test. -/
structure Quiet (s s' : IoRun) : Prop where
  count : s.count ≤ s'.count
  calls : ∀ i < s.count, (s'.calls i).fd = (s.calls i).fd ∧
    (s'.calls i).event = (s.calls i).event ∧ (s'.calls i).canceled = (s.calls i).canceled
  slots : ∀ fd event i, s'.slots fd event = some i → s.slots fd event = some i
  timers : ∀ t < s.timerCount, t < s'.timerCount ∧ (s'.timers t).call = (s.timers t).call ∧
    (TimerPc.underWay (s.timers t).pc ∨ (s.timers t).pc = .failed →
      (s'.timers t).pc = (s.timers t).pc)
  newTimers : ∀ t < s'.timerCount, s.timerCount ≤ t → (s'.timers t).call < s'.count

variable {s s' : IoRun} {a : IoAction}

/-- A step that is quiet keeps the invariant. -/
theorem WaitInv.quiet (hs : s.WaitInv) (h : s.Quiet s') : s'.WaitInv where
  slot := by
    intro fd event i hi
    obtain ⟨hlt, hfd, hev⟩ := hs.slot fd event i (h.slots fd event i hi)
    obtain ⟨hfd', hev', -⟩ := h.calls i hlt
    exact ⟨Nat.lt_of_lt_of_le hlt h.count, hfd'.trans hfd, hev'.trans hev⟩
  timer := by
    intro t ht
    by_cases hold : t < s.timerCount
    · rw [(h.timers t hold).2.1]
      exact Nat.lt_of_lt_of_le (hs.timer t hold) h.count
    · exact h.newTimers t ht (Nat.not_lt.mp hold)
  -- a timer that is under way stays so when its call does not move
  wakes := by
    intro fd event i hi hcanceled
    have hold := h.slots fd event i hi
    rw [(h.calls i (hs.slot fd event i hold).1).2.2] at hcanceled
    obtain ⟨t, ht, hcall, hpc⟩ := hs.wakes fd event i hold hcanceled
    obtain ⟨ht', hcall', hpc'⟩ := h.timers t ht
    exact ⟨t, ht', hcall'.trans hcall, by rwa [hpc' hpc]⟩

/-- Two quiet steps. -/
theorem Quiet.trans {t u : IoRun} (h : s.Quiet t) (h' : t.Quiet u) : s.Quiet u where
  count := Nat.le_trans h.count h'.count
  calls := by
    intro i hi
    obtain ⟨h1, h2, h3⟩ := h.calls i hi
    obtain ⟨h1', h2', h3'⟩ := h'.calls i (Nat.lt_of_lt_of_le hi h.count)
    exact ⟨h1'.trans h1, h2'.trans h2, h3'.trans h3⟩
  slots := fun fd event i hi => h.slots fd event i (h'.slots fd event i hi)
  timers := by
    intro k hk
    obtain ⟨ht1, hc1, hp1⟩ := h.timers k hk
    obtain ⟨ht2, hc2, hp2⟩ := h'.timers k ht1
    exact ⟨ht2, hc2.trans hc1, fun hpc => (hp2 (by rwa [hp1 hpc])).trans (hp1 hpc)⟩
  -- a timer that is new at the end was made before or after `t`
  newTimers := by
    intro k hk hle
    by_cases hmid : k < t.timerCount
    · rw [(h'.timers k hmid).2.1]
      exact Nat.lt_of_lt_of_le (h.newTimers k hmid hle) h'.count
    · exact h'.newTimers k hk (Nat.not_lt.mp hmid)

/-- A step that leaves calls, slots and timers as they are. -/
theorem quiet_of_eq (hcalls : s'.calls = s.calls) (hcount : s'.count = s.count)
    (hslots : s'.slots = s.slots) (htimers : s'.timers = s.timers)
    (htimerCount : s'.timerCount = s.timerCount) : s.Quiet s' where
  count := hcount ▸ Nat.le_refl _
  calls := by simp [hcalls]
  slots := by simp [hslots]
  timers := by simp [htimers, htimerCount]
  newTimers := by
    intro t ht hle
    omega

/-- A call moves on. -/
theorem quiet_setCall {i : ℕ} {c : IoCall} (hfd : c.fd = (s.calls i).fd)
    (hevent : c.event = (s.calls i).event) (hcanceled : c.canceled = (s.calls i).canceled) :
    s.Quiet (s.setCall i c) where
  count := Nat.le_refl _
  calls := by
    intro j _
    by_cases hj : j = i
    · subst hj
      simp [setCall, hfd, hevent, hcanceled]
    · simp [setCall, hj]
  slots := fun _ _ _ h => h
  timers := fun t ht => ⟨ht, rfl, fun _ => rfl⟩
  newTimers := by
    intro t (ht : t < s.timerCount) hle
    omega

/-- A timer moves on whose callback is not past its test. -/
theorem quiet_setTimerPc {t : ℕ} {pc : TimerPc}
    (h : ¬ (TimerPc.underWay (s.timers t).pc ∨ (s.timers t).pc = .failed)) :
    s.Quiet (s.setTimerPc t pc) where
  count := Nat.le_refl _
  calls := fun _ _ => ⟨rfl, rfl, rfl⟩
  slots := fun _ _ _ h => h
  timers := by
    intro u hu
    -- `t` is not under way, so nothing is asked of it
    by_cases hut : u = t
    · subst hut
      exact ⟨hu, by simp [setTimerPc], fun hpc => absurd hpc h⟩
    · exact ⟨hu, by simp [setTimerPc, hut], fun _ => by simp [setTimerPc, hut]⟩
  newTimers := by
    intro t (ht : t < s.timerCount) hle
    omega

/-- Cancelling a timer touches no slot. -/
theorem quiet_cancelTimer (timer : Option ℕ) : s.Quiet (s.cancelTimer timer) := by
  unfold cancelTimer
  cases timer with
  | none => exact quiet_of_eq rfl rfl rfl rfl rfl
  | some t =>
    dsimp only
    split
    · next harmed => exact quiet_setTimerPc (by simp [harmed, TimerPc.underWay])
    · exact quiet_of_eq rfl rfl rfl rfl rfl

/-- `timer->cancel()` of a call that moves on. -/
theorem quiet_cancelTimer_setCall {i : ℕ} {c : IoCall} (timer : Option ℕ)
    (hfd : c.fd = (s.calls i).fd) (hevent : c.event = (s.calls i).event)
    (hcanceled : c.canceled = (s.calls i).canceled) :
    s.Quiet ((s.cancelTimer timer).setCall i c) := by
  apply (quiet_cancelTimer timer).trans
  apply quiet_setCall
  · rw [calls_cancelTimer, hfd]
  · rw [calls_cancelTimer, hevent]
  · rw [calls_cancelTimer, hcanceled]

/-- An event ends. -/
theorem quiet_trigger (fd : ℕ) (event : Event) : s.Quiet (s.trigger fd event) := by
  unfold trigger
  split
  · exact quiet_of_eq rfl rfl rfl rfl rfl
  · next i hi =>
    refine (quiet_setCall (i := i) (c := { s.calls i with woken := true }) rfl rfl rfl).trans ?_
    refine ⟨Nat.le_refl _, fun _ _ => ⟨rfl, rfl, rfl⟩, ?_, fun t ht => ⟨ht, rfl, fun _ => rfl⟩, ?_⟩
    -- a slot is emptied, and no other is filled
    · intro g e j hj
      rw [slots_setSlot] at hj
      split at hj
      · cases hj
      · exact hj
    · intro t (ht : t < s.timerCount) (hle : s.timerCount ≤ t)
      omega

/-- A call that performs touches no slot. -/
theorem quiet_perform {i : ℕ} (pc : IoPc) : s.Quiet (s.perform i pc) := by
  unfold perform
  dsimp only
  split <;> exact quiet_setCall rfl rfl rfl

/-- Arming a timer touches no slot. -/
theorem quiet_armTimer {i : ℕ} (hi : i < s.count) : s.Quiet (s.armTimer i) := by
  unfold armTimer
  dsimp only
  split
  · refine (quiet_setCall (i := i)
      (c := { s.calls i with pc := .addEvent, timer := some s.timerCount }) rfl rfl rfl).trans ?_
    refine ⟨Nat.le_refl _, fun _ _ => ⟨rfl, rfl, rfl⟩, fun _ _ _ h => h, ?_, ?_⟩
    · intro t (ht : t < s.timerCount)
      have hne : t ≠ s.timerCount := Nat.ne_of_lt ht
      exact ⟨Nat.lt_succ_of_lt ht, by simp [hne, setCall], fun _ => by simp [hne, setCall]⟩
    · intro t (ht : t < s.timerCount + 1) (hle : s.timerCount ≤ t)
      -- the only new timer is the call's
      obtain rfl : t = s.timerCount := Nat.le_antisymm (Nat.le_of_lt_succ ht) hle
      simpa [setCall] using hi
  · exact quiet_setCall rfl rfl rfl

/-- A call that begins touches no slot. -/
theorem quiet_invoke (kind : CallKind) (hooked : Bool) (fd : ℕ) (event : Event) (ms : ℤ) :
    s.Quiet (s.invoke kind hooked fd event ms) where
  count := Nat.le_succ _
  calls := by
    intro i hi
    simp [invoke, setCall, Nat.ne_of_lt hi]
  slots := fun _ _ _ h => h
  timers := fun t ht => ⟨ht, rfl, fun _ => rfl⟩
  newTimers := by
    intro t (ht : t < s.timerCount) hle
    omega

/-- `close` empties the slots of its number only. -/
theorem quiet_closeStep {k : ℕ} {epollCtl : Bool} (h : s.closeStep k epollCtl = some s') :
    s.Quiet s' := by
  obtain ⟨c, -, rfl⟩ := Option.map_eq_some_iff.mp h
  cases c.pc with
  | cancelAll =>
    refine Quiet.trans (t := if epollCtl then (s.trigger c.fd .read).trigger c.fd .write else s)
      ?_ (quiet_of_eq rfl rfl rfl rfl rfl)
    split
    · exact (quiet_trigger _ _).trans (quiet_trigger _ _)
    · exact quiet_of_eq rfl rfl rfl rfl rfl
  | del => exact quiet_of_eq rfl rfl rfl rfl rfl
  | closeFile => exact quiet_of_eq rfl rfl rfl rfl rfl

/-! ### The other steps -/

/-- `addEvent` of a call that meets the condition. -/
theorem WaitInv.addEvent (hs : s.WaitInv) {i : ℕ} {epollCtl : Bool} (hi : i < s.count)
    (hC : epollCtl = true → s.slots (s.calls i).fd (s.calls i).event = none →
      (s.calls i).canceled = false ∨ s.CallbackUnderWay i) : (s.addEvent i epollCtl).WaitInv := by
  unfold IoRun.addEvent
  dsimp only
  split
  · next hfree =>
    have hmoved := hs.quiet (quiet_setCall (i := i) (c := { s.calls i with pc := .yield }) rfl rfl rfl)
    refine ⟨?_, hmoved.timer, ?_⟩
    · intro fd event j hj
      rw [slots_setSlot] at hj
      split at hj
      · next hsame =>
        obtain rfl := Option.some.inj hj
        exact ⟨hi, by simp [setSlot, setCall, hsame.1], by simp [setSlot, setCall, hsame.2]⟩
      · exact hmoved.slot fd event j hj
    · intro fd event j hj hcanceled
      rw [slots_setSlot] at hj
      split at hj
      · obtain rfl := Option.some.inj hj
        have hset : (s.calls i).canceled = true := by simpa [setSlot, setCall] using hcanceled
        -- a call that is cancelled before it waits has a callback that will cancel the event
        rcases hC hfree.2 hfree.1 with hclear | ⟨t, ht, hcall, hpc⟩
        · exact absurd hset (by simp [hclear])
        · exact ⟨t, ht, hcall, Or.inl hpc⟩
      · exact hmoved.wakes fd event j hj hcanceled
  · exact hs.quiet (quiet_setCall rfl rfl rfl)

/-- A step of the call `i`. -/
theorem WaitInv.ioStep (hs : s.WaitInv) {i : ℕ} {r : FunResult} {epollCtl : Bool} (hi : i < s.count)
    (hC : s.TimerStillWakes (.io i r epollCtl)) (h : s.ioStep i r epollCtl = some s') :
    s'.WaitInv := by
  have hC' := hC hi
  unfold IoRun.ioStep at h
  cases hpc : (s.calls i).pc <;> simp only [hpc, Option.some.injEq] at h
  case direct => subst h; exact hs.quiet (quiet_perform _)
  case call => subst h; exact hs.quiet (quiet_perform _)
  case arm => subst h; exact hs.quiet (quiet_armTimer hi)
  -- the step that waits; the others leave the slots alone
  case addEvent => subst h; exact hs.addEvent hi (hC' hpc)
  case giveUp =>
    subst h
    exact hs.quiet (quiet_cancelTimer_setCall _ rfl rfl rfl)
  case yield => subst h; exact hs.quiet (quiet_setCall rfl rfl rfl)
  case parked =>
    split at h
    · cases h
      exact hs.quiet (quiet_setCall rfl rfl rfl)
    · cases h
  case cancelTimer =>
    subst h
    exact hs.quiet (quiet_cancelTimer_setCall _ rfl rfl rfl)
  case test =>
    subst h
    apply hs.quiet
    apply quiet_setCall
    all_goals split <;> first | rfl | (split <;> rfl)
  case sockopt => subst h; exact hs.quiet (quiet_perform _)
  case returned => cases h

/-- The callback of the timer `t` writes `canceled`: it is under way itself. -/
theorem WaitInv.mark (hs : s.WaitInv) {t : ℕ} (ht : t < s.timerCount)
    (hpc : (s.timers t).pc = .checked) :
    ((s.setTimerPc t .marked).setCall (s.timers t).call
      { s.calls (s.timers t).call with canceled := true }).WaitInv where
  slot := by
    intro fd event i hi
    obtain ⟨hlt, hfd, hev⟩ := hs.slot fd event i hi
    refine ⟨hlt, ?_⟩
    -- the call is marked, and its own callback is the one under way
    by_cases hcall : i = (s.timers t).call
    · subst hcall
      simpa [setCall] using ⟨hfd, hev⟩
    · simpa [setCall, setTimerPc, hcall] using ⟨hfd, hev⟩
  timer := by
    intro u hu
    by_cases hut : u = t
    · subst hut
      simpa [setCall, setTimerPc] using hs.timer u hu
    · simpa [setCall, setTimerPc, hut] using hs.timer u hu
  wakes := by
    intro fd event i hi hcanceled
    by_cases hcall : i = (s.timers t).call
    · exact ⟨t, ht, by simp [setCall, setTimerPc, hcall],
        Or.inl (by simp [setCall, setTimerPc, TimerPc.underWay])⟩
    · have hold : (s.calls i).canceled = true := by
        simpa [setCall, setTimerPc, hcall] using hcanceled
      obtain ⟨u, hu, hucall, hupc⟩ := hs.wakes fd event i hi hold
      have hut : u ≠ t := by
        rintro rfl
        exact hcall hucall.symm
      exact ⟨u, hu, by simpa [setCall, setTimerPc, hut] using hucall,
        by simpa [setCall, setTimerPc, hut] using hupc⟩

/-- A callback ends with its call not registered, or with `epoll_ctl` failed. -/
theorem WaitInv.setTimerPc (hs : s.WaitInv) {t : ℕ} {pc : TimerPc}
    (h : pc = .failed ∨ ∀ fd event, s.slots fd event ≠ some (s.timers t).call) :
    (s.setTimerPc t pc).WaitInv where
  slot := hs.slot
  timer := by
    intro u hu
    by_cases hut : u = t
    · subst hut
      simpa [IoRun.setTimerPc] using hs.timer u hu
    · simpa [IoRun.setTimerPc, hut] using hs.timer u hu
  wakes := by
    intro fd event i hi hcanceled
    obtain ⟨u, hu, hucall, hupc⟩ := hs.wakes fd event i hi hcanceled
    by_cases hut : u = t
    · subst hut
      -- a callback that ends has failed, or leaves no slot behind
      rcases h with rfl | hfree
      · exact ⟨u, hu, by simpa [IoRun.setTimerPc] using hucall, Or.inr (by simp [IoRun.setTimerPc])⟩
      · exact absurd (hucall ▸ hi) (hfree fd event)
    · exact ⟨u, hu, by simpa [IoRun.setTimerPc, hut] using hucall,
        by simpa [IoRun.setTimerPc, hut] using hupc⟩

/-- A call whose own event is not registered is in no slot. -/
theorem WaitInv.not_registered (hs : s.WaitInv) {i : ℕ}
    (h : s.slots (s.calls i).fd (s.calls i).event ≠ some i) (fd : ℕ) (event : Event) :
    s.slots fd event ≠ some i := by
  intro hi
  obtain ⟨-, hfd, hev⟩ := hs.slot fd event i hi
  exact h (hfd ▸ hev ▸ hi)

/-- An event that is triggered leaves its slot empty. -/
theorem slots_trigger (fd : ℕ) (event : Event) : (s.trigger fd event).slots fd event = none := by
  unfold trigger
  split
  · next h => exact h
  · rw [slots_setSlot, if_pos ⟨rfl, rfl⟩]

/-- The two writes of a callback that ends an event can be taken in the other order. -/
theorem trigger_setTimerPc (t : ℕ) (pc : TimerPc) (fd : ℕ) (event : Event) :
    (s.setTimerPc t pc).trigger fd event = (s.trigger fd event).setTimerPc t pc := by
  have hslots : (s.setTimerPc t pc).slots fd event = s.slots fd event := rfl
  unfold trigger
  rw [hslots]
  cases s.slots fd event <;> rfl

/-- The `cancelEvent` of the callback of `t` ends the event of its call. -/
theorem WaitInv.cancelEvent (hs : s.WaitInv) {t : ℕ} (ht : t < s.timerCount) :
    ((s.setTimerPc t .over).trigger (s.calls (s.timers t).call).fd
      (s.calls (s.timers t).call).event).WaitInv := by
  rw [trigger_setTimerPc]
  have hquiet := quiet_trigger (s := s) (s.calls (s.timers t).call).fd (s.calls (s.timers t).call).event
  have htriggered := hs.quiet hquiet
  obtain ⟨hfd, hev, -⟩ := hquiet.calls _ (hs.timer t ht)
  refine htriggered.setTimerPc (Or.inr ?_)
  rw [(hquiet.timers t ht).2.1]
  apply htriggered.not_registered
  rw [hfd, hev, slots_trigger]
  exact Option.some_ne_none _ ∘ Eq.symm

/-- A step of the timer `t`. -/
theorem WaitInv.timerStep (hs : s.WaitInv) {t : ℕ} {epollCtl : Bool} (ht : t < s.timerCount)
    (h : s.timerStep t epollCtl = some s') : s'.WaitInv := by
  unfold IoRun.timerStep at h
  cases hpc : (s.timers t).pc <;> simp only [hpc, Option.some.injEq, reduceCtorEq] at h
  case armed => subst h; exact hs.quiet (quiet_setTimerPc (by simp [hpc, TimerPc.underWay]))
  case queued => subst h; exact hs.quiet (quiet_setTimerPc (by simp [hpc, TimerPc.underWay]))
  case checked => subst h; exact hs.mark ht hpc
  -- `cancelEvent` finds the event gone, takes it, or fails with `epoll_ctl`
  case marked =>
    subst h
    split
    · next hfree =>
      refine hs.setTimerPc (Or.inr (hs.not_registered ?_))
      rw [hfree]
      exact Option.some_ne_none _ ∘ Eq.symm
    · split
      · exact hs.cancelEvent ht
      · exact hs.setTimerPc (Or.inl rfl)

/-- **Step.** A step that meets the condition keeps the callbacks that a registered call needs. -/
theorem step_waitInv (hs : s.WaitInv) (hC : s.TimerStillWakes a) (h : step s a = some s') :
    s'.WaitInv := by
  cases a with
  | openFile hooked fd =>
    simp only [step, Option.ite_none_right_eq_some, Option.some.injEq] at h
    obtain ⟨-, rfl⟩ := h
    exact hs.quiet (quiet_of_eq rfl rfl rfl rfl rfl)
  | setTimeout fd event ms => cases h; exact hs.quiet (quiet_of_eq rfl rfl rfl rfl rfl)
  | close fd => cases h; exact hs.quiet (quiet_of_eq rfl rfl rfl rfl rfl)
  | closeStep k epollCtl => exact hs.quiet (quiet_closeStep h)
  | invoke kind hooked fd event ms => cases h; exact hs.quiet (quiet_invoke ..)
  -- the calls and the timers are the steps that touch slots of waiting calls
  | io i r epollCtl =>
    simp only [step, Option.ite_none_right_eq_some] at h
    exact hs.ioStep h.1 hC h.2
  | timer t epollCtl =>
    simp only [step, Option.ite_none_right_eq_some] at h
    exact hs.timerStep h.1 h.2
  | report fd event => cases h; exact hs.quiet (quiet_of_eq rfl rfl rfl rfl rfl)
  | dispatch k epollCtl =>
    obtain ⟨r, -, rfl⟩ := Option.map_eq_some_iff.mp h
    refine hs.quiet (Quiet.trans (t := if epollCtl then s.trigger r.1 r.2 else s) ?_
      (quiet_of_eq rfl rfl rfl rfl rfl))
    split
    · exact quiet_trigger _ _
    · exact quiet_of_eq rfl rfl rfl rfl rfl

/-- **No lost timeout.** In every interleaving of hooked calls, timer callbacks, dispatches and
    closes in which every `addEvent` that registers a call finds its `canceled` clear or a
    callback of it that will still call `cancelEvent`, no state is reached in which a parked
    call has lost its timeout. -/
theorem timeout_not_lost (as : List IoAction) (s : IoRun) (hrun : runFrom step new as = some s)
    (hC : Along step TimerStillWakes new as) : ∀ i, ¬ s.TimeoutLost i := by
  have hs : s.WaitInv := run_invariant (fun _ _ _ => step_waitInv) waitInv_new hC hrun
  intro i hlost
  obtain ⟨t, ht, hcall, hpc⟩ := hs.wakes _ _ i hlost.registered hlost.canceled
  rcases hpc with hpc | hpc
  · exact hlost.noCallback ⟨t, ht, hcall, hpc⟩
  · exact hlost.notFailed t ht hcall hpc

/-- A `read` with a timeout of 5 ms whose timer fires while it is parked. -/
def parkedRead : List IoAction :=
  [.openFile true 7, .setTimeout 7 .read 5, .invoke .io true 7 .read 0, .io 0 .again true,
    .io 0 .done true, .io 0 .done true, .io 0 .done true, .timer 0 true, .timer 0 true,
    .timer 0 true, .timer 0 true]

instance (s : IoRun) (i : ℕ) : Decidable (s.CallbackUnderWay i) :=
  inferInstanceAs (Decidable (∃ t < s.timerCount, _ ∧ _))

instance (s : IoRun) : (a : IoAction) → Decidable (s.TimerStillWakes a)
  | .io _ _ _ => inferInstanceAs (Decidable (_ → _ → _ → _ → _))
  | .openFile _ _ | .setTimeout _ _ _ | .close _ | .closeStep _ _ | .invoke _ _ _ _ _
  | .timer _ _ | .report _ _ | .dispatch _ _ => .isTrue trivial

/-- The call is woken by its timer. -/
theorem timeout_not_lost_parked_read :
    ∃ s, runFrom step new parkedRead = some s ∧ (s.calls 0).pc = .parked ∧
      (s.calls 0).canceled = true ∧ (s.calls 0).woken = true ∧ ¬ s.TimeoutLost 0 := by
  obtain ⟨s, hrun, hstate⟩ : ∃ s, runFrom step new parkedRead = some s ∧
      (s.calls 0).pc = .parked ∧ (s.calls 0).canceled = true ∧ (s.calls 0).woken = true :=
    ⟨_, rfl, by decide, by decide, by decide⟩
  have hlost := timeout_not_lost parkedRead s hrun (by decide) 0
  exact ⟨s, hrun, hstate.1, hstate.2.1, hstate.2.2, hlost⟩

/-- The timer fires between `addConditionTimer` and `addEvent`: the callback sets `canceled`, its
    `cancelEvent` finds nothing, and then the call registers its event and parks. -/
theorem fired_before_addEvent :
    ∃ s, runFrom step new
        [.openFile true 7, .setTimeout 7 .read 5, .invoke .io true 7 .read 0, .io 0 .again true,
          .io 0 .done true, .timer 0 true, .timer 0 true, .timer 0 true, .timer 0 true,
          .io 0 .done true, .io 0 .done true] = some s ∧ s.TimeoutLost 0 := by
  refine ⟨_, rfl, ⟨by decide, by decide, by decide, by decide, by decide, by decide, by decide,
    by decide, by decide, by decide⟩⟩

end IoRun

end LoNetfw.Hook
