import LoNetfw.Scheduler.FdContext
import LoNetfw.Basis.StepSystem
import LoNetfw.Basis.Sums

namespace LoNetfw.Scheduler

open Basis

/-!
# `IOScheduler` — interleavings of event operations

Threads register, delete and cancel events, and the idle fibers dispatch what `epoll_wait`
returned to them some time ago.  Every operation is one critical section on one context, so
an interleaving is a list of `EventAction`s.

* `EventRun.step` — the sections, the creation of contexts, and `epoll_wait`, which adds a
  report to the reports in flight;
* `EventRun.registered`, `EventRun.ended`, `EventRun.handed` — the history: the
  registrations `addEvent` made, those whose bit an operation cleared (and which operation),
  and what was given to `schedule()`.
-/

/-- The registration in a slot. -/
def EventContext.handover (slot : EventContext) : Option Handover :=
  match slot.cb, slot.fiber with
  | some w, _ => some ⟨w.registration, slot.scheduler, .cb w.target⟩
  | none, some w => some ⟨w.registration, slot.scheduler, .fiber w.target⟩
  | none, none => none

/-- The registrations in the slots of a set of events. -/
def FdContext.handovers (ctx : FdContext) (s : Events) : List Handover :=
  (if s.read then ctx.rEvent.handover.toList else []) ++
    (if s.write then ctx.wEvent.handover.toList else [])

/-- The operations that end a registration. -/
inductive Ending
  | delEvent
  | cancelEvent
  | cancelAll
  | dispatch
  deriving DecidableEq, Repr

inductive EventAction
  /-- `contextResize` creates a context for the descriptor `fd`. -/
  | newContext (fd : ℕ)
  | addEvent (c : ℕ) (e : Event) (caller : Caller) (cb : Option ℕ) (epollCtl : Bool)
  | delEvent (c : ℕ) (e : Event) (epollCtl : Bool)
  | cancelEvent (c : ℕ) (e : Event) (epollCtl : Bool)
  | cancelAll (c : ℕ) (epollCtl : Bool)
  /-- `epoll_wait` returns a report to some thread. -/
  | epollWait (r : Report)
  /-- A thread takes the lock for a report it received. -/
  | dispatch (r : Report) (epollCtl : Bool)
  deriving DecidableEq, Repr

structure EventRun where
  /-- The contexts created so far, by number. -/
  contexts : ℕ → FdContext
  size : ℕ
  waitting : ℤ
  handed : List Handover
  reports : List Report
  registered : List Handover
  ended : List (Handover × Ending)
  /-- What the last operation returned: `true` for `0` or `true`, `false` for `-1` or `false`. -/
  returned : Option Bool
  fault : Option EventFault

namespace EventRun

def new : EventRun where
  contexts := FdContext.new
  size := 0
  waitting := 0
  handed := []
  reports := []
  registered := []
  ended := []
  returned := none
  fault := none

/-- The state a section on the context `c` starts from. -/
def critical (s : EventRun) (c : ℕ) : Critical := ⟨s.contexts c, s.waitting, s.handed⟩

/-- The state after a section on the context `c`. -/
def store (s : EventRun) (c : ℕ) (t : Critical) : EventRun :=
  { s with contexts := Function.update s.contexts c t.ctx, waitting := t.waitting, handed := t.handed }

/-- The registrations whose bits a section has cleared, ended by `k`. -/
def endings (k : Ending) (before after : FdContext) : List (Handover × Ending) :=
  (before.handovers (before.event.diff after.event)).map (fun h => (h, k))

/-- What a section leaves, whether it returned or ended the program. -/
def outcome : Critical.Result (Option Bool × Critical) → Critical × Option Bool × Option EventFault
  | .ok (returned, t) => (t, returned, none)
  | .error (f, t) => (t, none, some f)

/-- A section that can end registrations. -/
def runEnding (s : EventRun) (c : ℕ) (k : Ending) (r : Critical.Result (Option Bool × Critical)) :
    EventRun :=
  let (t, returned, fault) := outcome r
  { s.store c t with
    ended := s.ended ++ endings k (s.contexts c) t.ctx, returned := returned, fault := fault }

/-- The registration that a call of `addEvent` makes. -/
def registration (number : ℕ) (caller : Caller) (cb : Option ℕ) : Handover :=
  ⟨number, caller.scheduler, cb.elim (.fiber caller.fiber) .cb⟩

/-- A section of `addEvent`. -/
def runAdd (s : EventRun) (c : ℕ) (e : Event) (h : Handover)
    (r : Critical.Result (Option Bool × Critical)) : EventRun :=
  let (t, returned, fault) := outcome r
  { s.store c t with
    -- a registration counts from its bit on, also when the program ends in the same section
    registered :=
      if t.ctx.event.has e && !(s.contexts c).event.has e then s.registered ++ [h] else s.registered
    returned := returned
    fault := fault }

/-- A result with its return value. -/
def returning (r : Critical.Result (Bool × Critical)) : Critical.Result (Option Bool × Critical) :=
  r.map (fun p => (some p.1, p.2))

/-- One step.  A failed assertion or a null scheduler ends the run.  A registration is
    numbered by the registrations before it. -/
def step (s : EventRun) : EventAction → Option EventRun
  | .newContext fd =>
    if s.fault = none then
      some { s with
        contexts := Function.update s.contexts s.size (.new fd), size := s.size + 1, returned := none }
    else none
  | .addEvent c e caller cb epollCtl =>
    if s.fault = none ∧ c < s.size then
      let number := s.registered.length
      some (s.runAdd c e (registration number caller cb)
        (returning ((s.critical c).addEvent e caller cb number epollCtl)))
    else none
  | .delEvent c e epollCtl =>
    if s.fault = none ∧ c < s.size then
      some (s.runEnding c .delEvent (returning ((s.critical c).delEvent e epollCtl)))
    else none
  | .cancelEvent c e epollCtl =>
    if s.fault = none ∧ c < s.size then
      some (s.runEnding c .cancelEvent (returning ((s.critical c).cancelEvent e epollCtl)))
    else none
  | .cancelAll c epollCtl =>
    if s.fault = none ∧ c < s.size then
      some (s.runEnding c .cancelAll (returning ((s.critical c).cancelAll epollCtl)))
    else none
  -- Reported are registered events, errors and hang-ups.
  | .epollWait r =>
    if s.fault = none ∧ r.context < s.size ∧
        (r.epollIn → (s.contexts r.context).event.read) ∧
        (r.epollOut → (s.contexts r.context).event.write) then
      some { s with reports := r :: s.reports, returned := none }
    else none
  | .dispatch r epollCtl =>
    if s.fault = none ∧ r ∈ s.reports ∧ r.context < s.size then
      some ({ s with reports := s.reports.erase r }.runEnding r.context .dispatch
        (((s.critical r.context).dispatch r epollCtl).map (fun t => (none, t))))
    else none

/-- The number of READ and WRITE bits set over all contexts. -/
def bits (s : EventRun) : ℕ := ∑ c ∈ Finset.range s.size, (s.contexts c).event.bits

/-- The registrations whose bit is set. -/
def live (s : EventRun) : Multiset Handover :=
  ∑ c ∈ Finset.range s.size, ((s.contexts c).handovers (s.contexts c).event : Multiset Handover)

end EventRun

end LoNetfw.Scheduler
