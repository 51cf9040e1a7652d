import Mathlib.Data.Nat.Notation
import Mathlib.Data.Int.Notation

namespace LoNetfw.Scheduler

/-!
# `IOScheduler` — event contexts and the critical sections on them

`addEvent`, `delEvent`, `cancelEvent`, `cancelAll` and the dispatch loop of `idle` work on
one `FdContext` under its mutex.  Each section is a function on what it can change: the
context, the counter `m_waitting_events_count`, and the tasks handed to `schedule()`.  The
result of `epoll_ctl`, which is the kernel's, is an argument.

A failed assertion or a call through a null scheduler ends the program; it is an error that
carries the state at that point.  The counter is an integer, so that a decrement below zero
shows.
-/

/-- A single event. -/
inductive Event
  | read
  | write
  deriving DecidableEq, Repr

/-- A set of events: the bits of the enum `Event`. -/
structure Events where
  read : Bool
  write : Bool
  deriving DecidableEq, Repr

namespace Events

def none : Events := ⟨false, false⟩

def has (s : Events) : Event → Bool
  | .read => s.read
  | .write => s.write

def single : Event → Events
  | .read => ⟨true, false⟩
  | .write => ⟨false, true⟩

def union (s t : Events) : Events := ⟨s.read || t.read, s.write || t.write⟩

def inter (s t : Events) : Events := ⟨s.read && t.read, s.write && t.write⟩

def diff (s t : Events) : Events := ⟨s.read && !t.read, s.write && !t.write⟩

/-- The number of bits set. -/
def bits (s : Events) : ℕ := s.read.toNat + s.write.toNat

end Events

/-- A callback or a fiber stored in a slot, with the registration that stored it. -/
structure Wakeup where
  registration : ℕ
  target : ℕ
  deriving DecidableEq, Repr

structure EventContext where
  scheduler : Option ℕ
  fiber : Option Wakeup
  cb : Option Wakeup
  deriving DecidableEq, Repr

/-- An empty slot. -/
def EventContext.empty : EventContext := ⟨none, none, none⟩

structure FdContext where
  rEvent : EventContext
  wEvent : EventContext
  fd : ℕ
  event : Events
  deriving DecidableEq, Repr

namespace FdContext

/-- `new FdContext` for the descriptor `fd`. -/
def new (fd : ℕ) : FdContext := ⟨.empty, .empty, fd, .none⟩

def getContext (ctx : FdContext) : Event → EventContext
  | .read => ctx.rEvent
  | .write => ctx.wEvent

def setContext (ctx : FdContext) : Event → EventContext → FdContext
  | .read, slot => { ctx with rEvent := slot }
  | .write, slot => { ctx with wEvent := slot }

/-- `resetContext` on the slot of an event. -/
def resetContext (ctx : FdContext) (e : Event) : FdContext := ctx.setContext e .empty

end FdContext

/-- What a task runs. -/
inductive Task
  | cb (target : ℕ)
  | fiber (target : ℕ)
  deriving DecidableEq, Repr

/-- A registration: where it is to be scheduled, and what.  The same data is what
    `schedule()` is given. -/
structure Handover where
  registration : ℕ
  scheduler : Option ℕ
  task : Task
  deriving DecidableEq, Repr

/-- The thread that calls `addEvent`: its scheduler and its running fiber. -/
structure Caller where
  scheduler : Option ℕ
  fiber : ℕ
  /-- `Fiber::getThis()->getState() == EXEC`. -/
  isExec : Bool
  deriving DecidableEq, Repr

/-- The failures that end the program. -/
inductive EventFault
  /-- `triggerEvent`: the event is not registered. -/
  | notRegistered
  /-- `triggerEvent`: "error ctx". -/
  | errorCtx
  /-- `triggerEvent`: `ctx.scheduler` is null. -/
  | nullScheduler
  /-- `addEvent`: the slot is in use. -/
  | slotInUse
  /-- `addEvent`: the calling fiber is not in state `EXEC`. -/
  | fiberNotExec
  /-- `cancelAll`: an event is left. -/
  | eventsLeft
  deriving DecidableEq, Repr

/-- What a critical section on a context can change. -/
structure Critical where
  ctx : FdContext
  /-- `m_waitting_events_count`. -/
  waitting : ℤ
  /-- What was given to `schedule()`. -/
  handed : List Handover
  deriving DecidableEq, Repr

namespace Critical

/-- The result of a section: it ends the program, or returns. -/
abbrev Result (α : Type) := Except (EventFault × Critical) α

def setEvent (s : Critical) (event : Events) : Critical :=
  { s with ctx := { s.ctx with event := event } }

/-- `--m_waitting_events_count`. -/
def decrement (s : Critical) : Critical := { s with waitting := s.waitting - 1 }

/-- `schedule()` on the task of a slot, which leaves the slot empty of it, and the end of
    `triggerEvent`. -/
def release (s : Critical) (e : Event) (slot : EventContext) (h : Handover) : Critical :=
  { s with
    ctx := s.ctx.setContext e { slot with scheduler := none }
    handed := s.handed ++ [h] }

/-- `FdContext::triggerEvent(event)`. -/
def triggerEvent (s : Critical) (e : Event) : Result Critical :=
  if !s.ctx.event.has e then .error (.notRegistered, s)
  else
    -- the bit is cleared before the slot is looked at
    let s := s.setEvent (s.ctx.event.diff (.single e))
    let ctx := s.ctx.getContext e
    match ctx.cb, ctx.fiber, ctx.scheduler with
    -- a callback is preferred to a fiber; `schedule(&ctx.cb)` swaps it out of the slot
    | some w, _, some sch =>
      .ok (s.release e { ctx with cb := none } ⟨w.registration, some sch, .cb w.target⟩)
    | none, some w, some sch =>
      .ok (s.release e { ctx with fiber := none } ⟨w.registration, some sch, .fiber w.target⟩)
    | none, none, _ => .error (.errorCtx, s)
    | _, _, none => .error (.nullScheduler, s)

/-- `triggerEvent(event)` and the decrement after it. -/
def finishEvent (s : Critical) (e : Event) : Result Critical := do
  let s ← s.triggerEvent e
  return s.decrement

/-- `finishEvent` under an `if`. -/
def finishIf (s : Critical) (b : Bool) (e : Event) : Result Critical :=
  if b then s.finishEvent e else .ok s

/-- `addEvent(fd, event, cb)` from the lock on.  `registration` numbers the call. -/
def addEvent (s : Critical) (e : Event) (caller : Caller) (cb : Option ℕ) (registration : ℕ)
    (epollCtl : Bool) : Result (Bool × Critical) :=
  if s.ctx.event.has e then .ok (false, s)
  else if !epollCtl then .ok (false, s)
  else
    -- counter and bit change only after `epoll_ctl` has succeeded
    let s := { s with waitting := s.waitting + 1 }.setEvent (s.ctx.event.union (.single e))
    let slot := s.ctx.getContext e
    if slot.cb.isSome || slot.fiber.isSome || slot.scheduler.isSome then .error (.slotInUse, s)
    else
      match cb with
      | some f =>
        let slot := { slot with scheduler := caller.scheduler, cb := some ⟨registration, f⟩ }
        .ok (true, { s with ctx := s.ctx.setContext e slot })
      | none =>
        let slot :=
          { slot with scheduler := caller.scheduler, fiber := some ⟨registration, caller.fiber⟩ }
        let s := { s with ctx := s.ctx.setContext e slot }
        -- the assertion stands after the assignment to `ctx.fiber`
        if caller.isExec then .ok (true, s) else .error (.fiberNotExec, s)

/-- `delEvent(fd, event)` from the lock on. -/
def delEvent (s : Critical) (e : Event) (epollCtl : Bool) : Result (Bool × Critical) :=
  if !s.ctx.event.has e then .ok (false, s)
  else
    let newEvent := s.ctx.event.diff (.single e)
    if !epollCtl then .ok (false, s)
    else
      -- nothing is scheduled: the slot is emptied
      let s := s.decrement.setEvent newEvent
      .ok (true, { s with ctx := s.ctx.resetContext e })

/-- `cancelEvent(fd, event)` from the lock on. -/
def cancelEvent (s : Critical) (e : Event) (epollCtl : Bool) : Result (Bool × Critical) :=
  if !s.ctx.event.has e then .ok (false, s)
  else if !epollCtl then .ok (false, s)
  else do
    let s ← s.finishEvent e
    return (true, s)

/-- `cancelAll(fd)` from the lock on. -/
def cancelAll (s : Critical) (epollCtl : Bool) : Result (Bool × Critical) :=
  if s.ctx.event = .none then .ok (false, s)
  else if !epollCtl then .ok (false, s)
  else do
    -- each bit is tested against the registered events
    let s ← s.finishIf s.ctx.event.read .read
    let s ← s.finishIf s.ctx.event.write .write
    if s.ctx.event = .none then .ok (true, s) else .error (.eventsLeft, s)

end Critical

/-- An `epoll_event` that `epoll_wait` returned for a context. -/
structure Report where
  context : ℕ
  epollIn : Bool
  epollOut : Bool
  epollErr : Bool
  epollHup : Bool
  deriving DecidableEq, Repr

/-- `real_event`: the reported events; after an error or a hang-up, those registered too. -/
def Report.realEvent (r : Report) (event : Events) : Events :=
  if r.epollErr || r.epollHup then Events.union ⟨r.epollIn, r.epollOut⟩ event
  else ⟨r.epollIn, r.epollOut⟩

/-- The loop body of `idle` for one report, from the lock on. -/
def Critical.dispatch (s : Critical) (r : Report) (epollCtl : Bool) : Critical.Result Critical :=
  let realEvent := r.realEvent s.ctx.event
  if s.ctx.event.inter realEvent = .none then .ok s
  else if !epollCtl then .ok s
  else do
    -- each bit is tested against the reported events, not the registered ones
    let s ← s.finishIf realEvent.read .read
    s.finishIf realEvent.write .write

end LoNetfw.Scheduler
