import LoNetfw.Hook.FdManager
import LoNetfw.Basis.StepSystem

namespace LoNetfw.Hook

open Basis
open Scheduler (Event)

/-!
# `io()` and `connect_with_timeout` — hooked calls, their timers and `close`

A hooked call tries the system call; on `EAGAIN` it arms a condition timer, registers an event
for its fiber, yields, and when it is resumed it cancels the timer, looks at `tinfo->canceled`
and tries again.  Other workers run the timers' callbacks, dispatch what `epoll_wait` reported
and close descriptors, and the kernel gives closed numbers out again.

* `IoCall`, `IoPc` — a call and where it is in the function;
* `IoTimer`, `TimerPc` — a condition timer and where its callback is;
* `IoRun.step` — every party moves one access to the shared state at a time.

Open file descriptions are numbered, so that a number that was closed and given out again
refers to another one.
-/

/-- What the system call of a hooked call returned. -/
inductive FunResult
  /-- A result, or an error other than the next two. -/
  | done
  /-- `-1` with `EAGAIN`, for `connect` with `EINPROGRESS`. -/
  | again
  /-- `-1` with `EINTR`. -/
  | interrupted
  deriving DecidableEq, Repr

inductive CallKind
  /-- `io()`: `read`, `write`, `accept` and the others like them. -/
  | io
  | connect
  deriving DecidableEq, Repr

/-- The next access of a call to the shared state. -/
inductive IoPc
  /-- `fun(fd, …)`, whose result is returned as it is. -/
  | direct
  /-- `fun(fd, …)` at the label `retry`. -/
  | call
  /-- `addConditionTimer`. -/
  | arm
  | addEvent
  /-- `timer->cancel()` after `addEvent` failed. -/
  | giveUp
  /-- `yieldToHold`. -/
  | yield
  | parked
  /-- `timer->cancel()` after the fiber was resumed. -/
  | cancelTimer
  /-- The test of `tinfo->canceled`. -/
  | test
  /-- `getsockopt(SO_ERROR)` of `connect_with_timeout`. -/
  | sockopt
  | returned
  deriving DecidableEq, Repr

structure IoCall where
  kind : CallKind
  fd : ℕ
  event : Event
  timeout : ℤ
  /-- The open file description that `fd` was when the call was made. -/
  invokedOn : Option ℕ
  pc : IoPc
  /-- `tinfo->canceled` is `ETIMEDOUT`. -/
  canceled : Bool
  /-- The timer of the current wait. -/
  timer : Option ℕ
  /-- The call's fiber was given to `schedule()`. -/
  woken : Bool
  /-- The open file descriptions its system calls were performed on. -/
  touched : List ℕ
  /-- It returned `-1` by itself (`ETIMEDOUT`, a failed `addEvent`) or because the number is not
      open (`EBADF`). -/
  minusOne : Bool
  deriving DecidableEq, Repr

inductive TimerPc
  | armed
  /-- Taken out of the timer set, and the callback scheduled. -/
  | queued
  /-- The callback holds `tinfo` and has found `canceled` clear. -/
  | checked
  /-- The callback has written `canceled`; `cancelEvent` comes next. -/
  | marked
  /-- `cancelEvent` found no such event registered. -/
  | missed
  /-- `epoll_ctl` failed in `cancelEvent`. -/
  | failed
  | over
  deriving DecidableEq, Repr

/-- A callback that has passed its test of `canceled` and not called `cancelEvent` yet. -/
def TimerPc.underWay : TimerPc → Bool
  | .checked | .marked => true
  | _ => false

structure IoTimer where
  call : ℕ
  pc : TimerPc
  deriving DecidableEq, Repr

/-- The next access of a hooked `close`. -/
inductive ClosePc
  | cancelAll
  | del
  | closeFile
  deriving DecidableEq, Repr

structure Closing where
  fd : ℕ
  pc : ClosePc
  deriving DecidableEq, Repr

inductive IoAction
  /-- `socket` or `accept` returns the number `fd` to a thread. -/
  | openFile (hooked : Bool) (fd : ℕ)
  /-- `setsockopt` with `SO_RCVTIMEO` or `SO_SNDTIMEO`. -/
  | setTimeout (fd : ℕ) (event : Event) (ms : ℤ)
  | close (fd : ℕ)
  | closeStep (k : ℕ) (epollCtl : Bool)
  /-- A call of a hooked function; `ms` is the timeout that `connect` is given. -/
  | invoke (kind : CallKind) (hooked : Bool) (fd : ℕ) (event : Event) (ms : ℤ)
  | io (i : ℕ) (r : FunResult) (epollCtl : Bool)
  | timer (t : ℕ) (epollCtl : Bool)
  /-- `epoll_wait` reports an event of a descriptor to an idle fiber. -/
  | report (fd : ℕ) (event : Event)
  | dispatch (k : ℕ) (epollCtl : Bool)
  deriving DecidableEq, Repr

structure IoRun where
  /-- The open file description of every open number. -/
  files : ℕ → Option ℕ
  nextFile : ℕ
  manager : FdManager
  /-- The call whose fiber is registered for an event. -/
  slots : ℕ → Event → Option ℕ
  calls : ℕ → IoCall
  count : ℕ
  timers : ℕ → IoTimer
  timerCount : ℕ
  closing : List Closing
  /-- The reports that were not dispatched yet. -/
  reports : List (ℕ × Event)

namespace IoRun

/-- No call was made yet; what stands under the numbers of calls and timers to come does not
    matter. -/
def new : IoRun where
  files := fun _ => none
  nextFile := 0
  manager := .new
  slots := fun _ _ => none
  calls := fun _ => ⟨.io, 0, .read, -1, none, .returned, false, none, false, [], true⟩
  count := 0
  timers := fun _ => ⟨0, .over⟩
  timerCount := 0
  closing := []
  reports := []

def setCall (s : IoRun) (i : ℕ) (c : IoCall) : IoRun :=
  { s with calls := Function.update s.calls i c }

def setSlot (s : IoRun) (fd : ℕ) (event : Event) (v : Option ℕ) : IoRun :=
  { s with slots := Function.update s.slots fd (Function.update (s.slots fd) event v) }

def setTimerPc (s : IoRun) (t : ℕ) (pc : TimerPc) : IoRun :=
  { s with timers := Function.update s.timers t { s.timers t with pc } }

/-- `triggerEvent`, where the event is registered: the slot is cleared and its fiber given to
    `schedule()`. -/
def trigger (s : IoRun) (fd : ℕ) (event : Event) : IoRun :=
  match s.slots fd event with
  | none => s
  | some i => (s.setCall i { s.calls i with woken := true }).setSlot fd event none

/-- `timer->cancel()`: a timer that has expired is not held back. -/
def cancelTimer (s : IoRun) (timer : Option ℕ) : IoRun :=
  match timer with
  | none => s
  | some t => if (s.timers t).pc = .armed then s.setTimerPc t .over else s

/-- How a hooked function begins, from what it finds in the table. -/
def startPc (kind : CallKind) (hooked : Bool) (e : Option Fd) : IoPc :=
  if hooked = false then .direct
  else match kind, e with
    | .io, none => .direct
    | .connect, none => .returned
    | _, some e =>
      if e.isClosed then .returned
      else if !e.isSocket || e.userNonBlock then .direct
      else .call

def invoke (s : IoRun) (kind : CallKind) (hooked : Bool) (fd : ℕ) (event : Event) (ms : ℤ) : IoRun :=
  let e := s.manager.find fd
  let timeout := match kind with
    | .io => e.elim (-1) (Fd.getTimeout · event)
    | .connect => ms
  let pc := startPc kind hooked e
  { s.setCall s.count ⟨kind, fd, event, timeout, s.files fd, pc, false, none, false, [],
      decide (pc = .returned)⟩ with
    count := s.count + 1 }

/-- A system call of the call `i` on what the number is now; afterwards the call is at `pc`, or
    has returned `-1` with `EBADF`. -/
def perform (s : IoRun) (i : ℕ) (pc : IoPc) : IoRun :=
  let c := s.calls i
  match s.files c.fd with
  | none => s.setCall i { c with pc := .returned, minusOne := true }
  | some file => s.setCall i { c with pc, touched := c.touched ++ [file] }

def armTimer (s : IoRun) (i : ℕ) : IoRun :=
  let c := s.calls i
  if 0 ≤ c.timeout then
    { s.setCall i { c with pc := .addEvent, timer := some s.timerCount } with
      timers := Function.update s.timers s.timerCount ⟨i, .armed⟩
      timerCount := s.timerCount + 1 }
  else s.setCall i { c with pc := .addEvent, timer := none }

/-- `addEvent` for the call's own fiber. -/
def addEvent (s : IoRun) (i : ℕ) (epollCtl : Bool) : IoRun :=
  let c := s.calls i
  if s.slots c.fd c.event = none ∧ epollCtl then
    (s.setCall i { c with pc := .yield }).setSlot c.fd c.event (some i)
  else s.setCall i { c with pc := .giveUp }

/-- The next access of the call `i`. -/
def ioStep (s : IoRun) (i : ℕ) (r : FunResult) (epollCtl : Bool) : Option IoRun :=
  let c := s.calls i
  match c.pc with
  | .direct => some (s.perform i .returned)
  | .call =>
    some (s.perform i (match r, c.kind with
      | .again, _ => .arm
      | .interrupted, .io => .call
      | _, _ => .returned))
  | .arm => some (s.armTimer i)
  | .addEvent => some (s.addEvent i epollCtl)
  | .giveUp =>
    some ((s.cancelTimer c.timer).setCall i { c with pc := .returned, minusOne := true })
  | .yield => some (s.setCall i { c with pc := .parked })
  | .parked =>
    if c.woken then some (s.setCall i { c with pc := .cancelTimer, woken := false }) else none
  | .cancelTimer => some ((s.cancelTimer c.timer).setCall i { c with pc := .test })
  | .test =>
    some (s.setCall i (if c.canceled then { c with pc := .returned, minusOne := true }
      else match c.kind with
        | .io => { c with pc := .call }
        | .connect => { c with pc := .sockopt }))
  | .sockopt => some (s.perform i .returned)
  | .returned => none

/-- The next access of a timer: its expiry, or the next one of its callback. -/
def timerStep (s : IoRun) (t : ℕ) (epollCtl : Bool) : Option IoRun :=
  let i := (s.timers t).call
  let c := s.calls i
  match (s.timers t).pc with
  | .armed => some (s.setTimerPc t .queued)
  | .queued =>
    -- `tinfo` is gone once the call has returned
    some (s.setTimerPc t (if c.pc = .returned ∨ c.canceled then .over else .checked))
  | .checked => some ((s.setTimerPc t .marked).setCall i { c with canceled := true })
  | .marked =>
    some (if s.slots c.fd c.event = none then s.setTimerPc t .missed
      else if epollCtl then (s.setTimerPc t .over).trigger c.fd c.event
      else s.setTimerPc t .failed)
  | .missed | .failed | .over => none

/-- The next access of a `close` that is under way. -/
def closeStep (s : IoRun) (k : ℕ) (epollCtl : Bool) : Option IoRun :=
  (s.closing[k]?).map fun c =>
    match c.pc with
    | .cancelAll =>
      let s := if epollCtl then (s.trigger c.fd .read).trigger c.fd .write else s
      { s with closing := s.closing.set k ⟨c.fd, .del⟩ }
    | .del => { s with manager := s.manager.del c.fd, closing := s.closing.set k ⟨c.fd, .closeFile⟩ }
    | .closeFile =>
      { s with files := Function.update s.files c.fd none, closing := s.closing.eraseIdx k }

def step (s : IoRun) : IoAction → Option IoRun
  | .openFile hooked fd =>
    if s.files fd = none then
      some { s with
        files := Function.update s.files fd (some s.nextFile)
        nextFile := s.nextFile + 1
        manager := if hooked then (s.manager.getCreate (some ⟨true, false⟩) fd).1 else s.manager }
    else none
  | .setTimeout fd event ms =>
    some { s with
      manager := match s.manager.find fd with
        | none => s.manager
        | some e => s.manager.store fd (some (e.setTimeout event ms)) }
  | .close fd =>
    let pc := if (s.manager.find fd).isSome then ClosePc.cancelAll else .closeFile
    some { s with closing := s.closing ++ [⟨fd, pc⟩] }
  | .closeStep k epollCtl => s.closeStep k epollCtl
  | .invoke kind hooked fd event ms => some (s.invoke kind hooked fd event ms)
  | .io i r epollCtl => if i < s.count then s.ioStep i r epollCtl else none
  | .timer t epollCtl => if t < s.timerCount then s.timerStep t epollCtl else none
  | .report fd event => some { s with reports := s.reports ++ [(fd, event)] }
  | .dispatch k epollCtl =>
    (s.reports[k]?).map fun r =>
      let s := if epollCtl then s.trigger r.1 r.2 else s
      { s with reports := s.reports.eraseIdx k }

/-- The slots after one of them is set. -/
theorem slots_setSlot {s : IoRun} {fd g : ℕ} {event e : Event} {v : Option ℕ} :
    (s.setSlot fd event v).slots g e = if g = fd ∧ e = event then v else s.slots g e := by
  unfold setSlot
  by_cases hg : g = fd
  · subst hg
    by_cases he : e = event <;> simp [he]
  · simp [hg]

/-- A timer that is cancelled changes no call. -/
theorem calls_cancelTimer {s : IoRun} (timer : Option ℕ) : (s.cancelTimer timer).calls = s.calls := by
  unfold cancelTimer
  cases timer with
  | none => rfl
  | some t =>
    dsimp only
    split <;> rfl

end IoRun

end LoNetfw.Hook
