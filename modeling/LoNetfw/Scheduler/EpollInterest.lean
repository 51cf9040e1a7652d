import LoNetfw.Scheduler.EventDelivery

namespace LoNetfw.Scheduler

open Basis

/-!
# `IOScheduler` — the event contexts and the kernel's interest list

Each section on an `FdContext` chooses between `EPOLL_CTL_ADD`, `EPOLL_CTL_MOD` and
`EPOLL_CTL_DEL` by what the context says is registered, and changes the context only when
`epoll_ctl` succeeds.  The kernel decides by its own interest list, and it takes a descriptor out
of the list when it is closed, without telling the context.

* `Epoll.ctl` — the interest list and `epoll_ctl`, with `EEXIST`, `ENOENT` and `EBADF`;
* `FdContext.epollCall` — the call that a section makes;
* `EpollRun.step` — the interleavings of `EventRun` with the answers of that list, with reports for
  what is in the list, and with descriptors that are opened and closed;
* `interest_list_iff` — the list says what the contexts say exactly when no descriptor is closed
  while events are registered on it;
* `epoll_refines` — then `EventRun` has the same run;
* `closed_registration_stuck` — a registration that a close has left behind never ends.

A descriptor has one number here: `dup` would keep a closed one in the list.
-/

inductive EpollOp
  | add
  | mod
  | del
  deriving DecidableEq, Repr

/-- The `epoll_event` of a descriptor: the events, and the context in `data.ptr`. -/
structure Interest where
  events : Events
  context : ℕ
  deriving DecidableEq, Repr

structure EpollCall where
  op : EpollOp
  fd : ℕ
  interest : Interest
  deriving DecidableEq, Repr

/-- What the kernel knows: the open descriptors and the interest list. -/
structure Epoll where
  isOpen : ℕ → Bool
  interest : ℕ → Option Interest

namespace Epoll

def new : Epoll := ⟨fun _ => false, fun _ => none⟩

def setInterest (k : Epoll) (fd : ℕ) (i : Option Interest) : Epoll :=
  { k with interest := Function.update k.interest fd i }

/-- `epoll_ctl`; `none` is a failure. -/
def ctl (k : Epoll) (call : EpollCall) : Option Epoll :=
  -- `EBADF`
  if !k.isOpen call.fd then none
  else
    match call.op, k.interest call.fd with
    | .add, none | .mod, some _ => some (k.setInterest call.fd (some call.interest))
    | .del, some _ => some (k.setInterest call.fd none)
    -- `EEXIST`, and `ENOENT` twice
    | .add, some _ | .mod, none | .del, none => none

/-- `close(fd)`. -/
def close (k : Epoll) (fd : ℕ) : Epoll :=
  { k.setInterest fd none with isOpen := Function.update k.isOpen fd false }

/-- A descriptor with the number `fd` is opened. -/
def opened (k : Epoll) (fd : ℕ) : Epoll := { k with isOpen := Function.update k.isOpen fd true }

end Epoll

namespace EventAction

/-- The context a section works on. -/
def context? : EventAction → Option ℕ
  | .addEvent c _ _ _ _ | .delEvent c _ _ | .cancelEvent c _ _ | .cancelAll c _ => some c
  | .dispatch r _ => some r.context
  | .newContext _ | .epollWait _ => none

def epollCtl : EventAction → Bool
  | .addEvent _ _ _ _ b | .delEvent _ _ b | .cancelEvent _ _ b | .cancelAll _ b | .dispatch _ b => b
  | .newContext _ | .epollWait _ => false

/-- The same section with another answer of `epoll_ctl`. -/
def withEpollCtl (b : Bool) : EventAction → EventAction
  | .addEvent c e caller cb _ => .addEvent c e caller cb b
  | .delEvent c e _ => .delEvent c e b
  | .cancelEvent c e _ => .cancelEvent c e b
  | .cancelAll c _ => .cancelAll c b
  | .dispatch r _ => .dispatch r b
  | .newContext fd => .newContext fd
  | .epollWait r => .epollWait r

end EventAction

namespace FdContext

/-- The call that leaves the events `left` of a context. -/
def leaveCall (ctx : FdContext) (c : ℕ) (left : Events) : EpollCall :=
  ⟨if left = .none then .del else .mod, ctx.fd, ⟨left, c⟩⟩

/-- The call of `epoll_ctl` that a section on the context `c` makes, if it makes one. -/
def epollCall (ctx : FdContext) (c : ℕ) : EventAction → Option EpollCall
  | .addEvent _ e _ _ _ =>
    if ctx.event.has e then none
    else
      some ⟨if ctx.event = .none then .add else .mod, ctx.fd, ⟨ctx.event.union (.single e), c⟩⟩
  | .delEvent _ e _ | .cancelEvent _ e _ =>
    if ctx.event.has e then some (ctx.leaveCall c (ctx.event.diff (.single e))) else none
  | .cancelAll _ _ => if ctx.event = .none then none else some ⟨.del, ctx.fd, ⟨.none, c⟩⟩
  | .dispatch r _ =>
    if ctx.event.inter (r.realEvent ctx.event) = .none then none
    else some (ctx.leaveCall c (ctx.event.diff (r.realEvent ctx.event)))
  | .newContext _ | .epollWait _ => none

end FdContext

inductive EpollAction
  | newContext (fd : ℕ)
  /-- A section; its flag says that `epoll_ctl` does not fail for want of memory or the like. -/
  | event (a : EventAction)
  /-- `epoll_wait` returns a report on the descriptor `fd`. -/
  | epollWait (fd : ℕ) (epollIn epollOut epollErr epollHup : Bool)
  | opened (fd : ℕ)
  | close (fd : ℕ)
  deriving DecidableEq, Repr

structure EpollRun where
  run : EventRun
  epoll : Epoll

namespace EpollRun

def new : EpollRun := ⟨.new, .new⟩

/-- The answer of `epoll_ctl` to the call that a section on the context `c` makes. -/
def answer (s : EpollRun) (c : ℕ) (a : EventAction) : Option Epoll :=
  ((s.run.contexts c).epollCall c a).bind fun call => if a.epollCtl then s.epoll.ctl call else none

def step (s : EpollRun) : EpollAction → Option EpollRun
  | .newContext fd => (s.run.step (.newContext fd)).map fun run => { s with run := run }
  | .event a =>
    a.context?.bind fun c =>
      (s.run.step (a.withEpollCtl (s.answer c a).isSome)).map fun run =>
        { run := run, epoll := (s.answer c a).getD s.epoll }
  | .epollWait fd epollIn epollOut epollErr epollHup =>
    (s.epoll.interest fd).bind fun i =>
      if s.run.fault = none ∧ (epollIn → i.events.read) ∧ (epollOut → i.events.write) then
        let r : Report := ⟨i.context, epollIn, epollOut, epollErr, epollHup⟩
        some { s with run := { s.run with reports := r :: s.run.reports, returned := none } }
      else none
  | .opened fd =>
    if s.run.fault = none ∧ s.epoll.isOpen fd = false then
      some { s with epoll := s.epoll.opened fd }
    else none
  | .close fd =>
    if s.run.fault = none ∧ s.epoll.isOpen fd = true then
      some { s with epoll := s.epoll.close fd }
    else none

/-- The interest list and the contexts say the same. -/
structure Agrees (s : EpollRun) : Prop where
  registered : ∀ c < s.run.size, (s.run.contexts c).event ≠ .none →
    s.epoll.interest (s.run.contexts c).fd = some ⟨(s.run.contexts c).event, c⟩
  listed : ∀ fd i, s.epoll.interest fd = some i →
    s.epoll.isOpen fd = true ∧ i.context < s.run.size ∧ (s.run.contexts i.context).fd = fd ∧
      (s.run.contexts i.context).event = i.events ∧ i.events ≠ .none

/-- Unless the program has ended, they do. -/
def Coherent (s : EpollRun) : Prop := s.run.fault = none → s.Agrees

/-- The condition on a step: no event is registered on a descriptor that is closed. -/
def Closes (s : EpollRun) : EpollAction → Prop
  | .close fd => ∀ c < s.run.size, (s.run.contexts c).fd = fd → (s.run.contexts c).event = .none
  | _ => True

instance (s : EpollRun) (a : EpollAction) : Decidable (s.Closes a) := by
  cases a <;> unfold Closes <;> infer_instance

end EpollRun

/-! ### What a section does to the bits -/

namespace Critical

variable {s : Critical} {c : ℕ}

/-- Unless the program ends in it, a section leaves the events that it has told `epoll_ctl`, or
    those that there were. -/
def Sets (s : Critical) (call : Option EpollCall) (epollCtl : Bool)
    (r : Result (Option Bool × Critical)) : Prop :=
  (EventRun.outcome r).2.2 = none → (EventRun.outcome r).1.ctx.fd = s.ctx.fd ∧
    (EventRun.outcome r).1.ctx.event =
      if epollCtl then call.elim s.ctx.event fun call => call.interest.events else s.ctx.event

/-- A section that makes no call, or whose call fails. -/
theorem Sets.of_nothing {call : Option EpollCall} {epollCtl : Bool} (returned : Option Bool)
    (h : call = none ∨ epollCtl = false) : s.Sets call epollCtl (.ok (returned, s)) := by
  intro _
  refine ⟨rfl, ?_⟩
  rcases h with rfl | rfl
  · exact (ite_self _).symm
  · rfl

/-- The slot, the callback and the state of the calling fiber do not matter for the bits. -/
theorem addEvent_event {e : Event} (hfree : ¬ s.ctx.event.has e = true) (caller : Caller)
    (cb : Option ℕ) (number : ℕ)
    (hfault : (EventRun.outcome (EventRun.returning (s.addEvent e caller cb number true))).2.2 = none) :
    (EventRun.outcome (EventRun.returning (s.addEvent e caller cb number true))).1.ctx.fd = s.ctx.fd ∧
      (EventRun.outcome (EventRun.returning (s.addEvent e caller cb number true))).1.ctx.event =
        s.ctx.event.union (.single e) := by
  -- storing a slot changes neither the descriptor nor the events
  have hset : ∀ (ctx : FdContext) (slot : EventContext), (ctx.setContext e slot).fd = ctx.fd ∧
      (ctx.setContext e slot).event = ctx.event := by
    intro ctx slot
    cases e <;> exact ⟨rfl, rfl⟩
  unfold addEvent at hfault ⊢
  simp only [hfree, Bool.not_true, Bool.false_eq_true, if_false] at hfault ⊢
  split at hfault
  · simp [EventRun.returning, Except.map, EventRun.outcome] at hfault
  · next hempty =>
    rw [if_neg hempty]
    cases cb with
    | some f => exact hset _ _
    | none =>
      dsimp only at hfault ⊢
      split at hfault
      -- without a callback the slot takes the fiber that runs
      · next hexec =>
        rw [if_pos hexec]
        exact hset _ _
      · simp [EventRun.returning, Except.map, EventRun.outcome] at hfault

/-- `addEvent` tells `epoll_ctl` the events with the new one. -/
theorem addEvent_sets (e : Event) (caller : Caller) (cb : Option ℕ) (number : ℕ) (b b' : Bool) :
    s.Sets (s.ctx.epollCall c (.addEvent c e caller cb b')) b
      (EventRun.returning (s.addEvent e caller cb number b)) := by
  -- an event that is registered already makes no call
  by_cases hreg : s.ctx.event.has e = true
  · have hnothing : s.addEvent e caller cb number b = .ok (false, s) := by rw [addEvent, if_pos hreg]
    rw [hnothing]
    exact .of_nothing _ (.inl (by simp [FdContext.epollCall, hreg]))
  · cases b with
    | false =>
      have hnothing : s.addEvent e caller cb number false = .ok (false, s) := by
        rw [addEvent, if_neg hreg]
        rfl
      rw [hnothing]
      exact .of_nothing _ (.inr rfl)
    | true =>
      intro hfault
      simp only [FdContext.epollCall, hreg, if_true]
      exact addEvent_event hreg caller cb number hfault

/-- `delEvent` tells `epoll_ctl` the events without the one it ends. -/
theorem delEvent_sets (e : Event) (b b' : Bool) :
    s.Sets (s.ctx.epollCall c (.delEvent c e b')) b (EventRun.returning (s.delEvent e b)) := by
  unfold delEvent
  split
  · next hfree => exact .of_nothing _ (.inl (by simp_all [FdContext.epollCall]))
  · next hreg =>
    cases b with
    | false => exact .of_nothing _ (.inr rfl)
    | true =>
      have hreg : s.ctx.event.has e = true := by simpa using hreg
      intro _
      simp only [FdContext.epollCall, hreg, if_true]
      cases e <;> exact ⟨rfl, rfl⟩

/-- Ending the registrations of some events leaves the other bits. -/
theorem finishEvents_sets (hm : s.ctx.Matches) {E : Events} {t : Critical}
    (ht : s.finishEvents E = .ok t) : t.ctx.fd = s.ctx.fd ∧ t.ctx.event = s.ctx.event.diff E := by
  rcases finishEvents_spec hm E with ⟨⟨u, hu⟩, -⟩ | ⟨-, hok⟩ | ⟨-, E', -, herr⟩
  · simp [hu] at ht
  · rw [hok, Except.ok.injEq] at ht
    subst ht
    exact ⟨rfl, rfl⟩
  · simp [herr] at ht

/-- `cancelEvent` tells `epoll_ctl` the events without the one it ends. -/
theorem cancelEvent_sets (hm : s.ctx.Matches) (e : Event) (b b' : Bool) :
    s.Sets (s.ctx.epollCall c (.cancelEvent c e b')) b (EventRun.returning (s.cancelEvent e b)) := by
  unfold cancelEvent
  split
  · next hfree => exact .of_nothing _ (.inl (by simp_all [FdContext.epollCall]))
  · next hreg =>
    cases b with
    | false => exact .of_nothing _ (.inr rfl)
    | true =>
      have hreg : s.ctx.event.has e = true := by simpa using hreg
      -- a null scheduler ends the program, and otherwise the bit is taken away
      rcases finishEvent_of_registered hm hreg with ⟨⟨t, ht⟩, -⟩ | hok
      · rw [ht]
        exact fun hfault => absurd hfault
          (by simp [EventRun.returning, Except.map, EventRun.outcome, bind, Except.bind])
      · rw [hok]
        intro _
        simp only [FdContext.epollCall, hreg, if_true]
        exact ⟨rfl, rfl⟩

/-- `cancelAll` tells `epoll_ctl` no event. -/
theorem cancelAll_sets (hm : s.ctx.Matches) (b b' : Bool) :
    s.Sets (s.ctx.epollCall c (.cancelAll c b')) b (EventRun.returning (s.cancelAll b)) := by
  unfold cancelAll
  split
  · next hnone => exact .of_nothing _ (.inl (by simp [FdContext.epollCall, hnone]))
  · next hsome =>
    cases b with
    | false => exact .of_nothing _ (.inr rfl)
    | true =>
      simp only [Bool.not_true, Bool.false_eq_true, if_false]
      rw [cancelAll_body hm]
      cases ht : s.finishEvents s.ctx.event with
      | error p =>
        exact fun hfault => absurd hfault
          (by simp [Except.bind, EventRun.returning, Except.map, EventRun.outcome])
      | ok t =>
        obtain ⟨hfd, hevent⟩ := finishEvents_sets hm ht
        -- what is ended is all that was registered
        have hnone : t.ctx.event = .none := by
          rw [hevent]
          simp [Events.diff, Events.none]
        intro _
        simp only [Except.bind, hnone, if_true, FdContext.epollCall, hsome, if_false]
        exact ⟨hfd, hnone⟩

/-- `idle` tells `epoll_ctl` the events that the report leaves. -/
theorem dispatch_sets (hm : s.ctx.Matches) (r : Report) (b b' : Bool) :
    s.Sets (s.ctx.epollCall c (.dispatch r b')) b ((s.dispatch r b).map fun t => (none, t)) := by
  unfold dispatch
  dsimp only
  split
  · next hnone => exact .of_nothing _ (.inl (by simp [FdContext.epollCall, hnone]))
  · next hsome =>
    cases b with
    | false => exact .of_nothing _ (.inr rfl)
    | true =>
      -- the events of the report that are registered are ended
      change s.Sets _ _ ((s.finishEvents (r.realEvent s.ctx.event)).map _)
      cases ht : s.finishEvents (r.realEvent s.ctx.event) with
      | error p => exact fun hfault => absurd hfault (by simp [Except.map, EventRun.outcome])
      | ok t =>
        obtain ⟨hfd, hevent⟩ := finishEvents_sets hm ht
        intro _
        simp only [FdContext.epollCall, hsome, if_false, if_true]
        exact ⟨hfd, hevent⟩

end Critical

/-! ### The calls and their answers -/

variable {c : ℕ} {a : EventAction}

/-- A call adds a descriptor for which nothing is registered; otherwise it deletes the descriptor if
    no event is left, and modifies its events if some are. -/
theorem FdContext.epollCall_eq_some {ctx : FdContext} {call : EpollCall}
    (h : ctx.epollCall c a = some call) :
    call.fd = ctx.fd ∧ call.interest.context = c ∧
      (call.op = .add ∧ ctx.event = .none ∧ call.interest.events ≠ .none ∨
        ctx.event ≠ .none ∧ call.op = if call.interest.events = .none then .del else .mod) := by
  have hhas : ∀ e, ctx.event.has e = true → ctx.event ≠ .none := by
    intro e he hnone
    rw [hnone] at he
    cases e <;> exact absurd he (by decide)
  -- an event that is added leaves some
  have hunion : ∀ e, ctx.event.union (.single e) ≠ .none := by
    intro e hnone
    cases e <;> simp [Events.union, Events.single, Events.none] at hnone
  cases a with
  | addEvent d e caller cb b =>
    simp only [epollCall, Option.ite_none_left_eq_some, Option.some.injEq] at h
    obtain ⟨-, rfl⟩ := h
    refine ⟨rfl, rfl, ?_⟩
    -- `ADD` for the first event of a context, `MOD` for the second
    by_cases hnone : ctx.event = .none
    · exact .inl ⟨if_pos hnone, hnone, hunion e⟩
    · exact .inr ⟨hnone, (if_neg hnone).trans (if_neg (hunion e)).symm⟩
  | delEvent d e b | cancelEvent d e b =>
    simp only [epollCall, Option.ite_none_right_eq_some, Option.some.injEq] at h
    obtain ⟨he, rfl⟩ := h
    exact ⟨rfl, rfl, .inr ⟨hhas e he, rfl⟩⟩
  | cancelAll d b =>
    simp only [epollCall, Option.ite_none_left_eq_some, Option.some.injEq] at h
    obtain ⟨hsome, rfl⟩ := h
    exact ⟨rfl, rfl, .inr ⟨hsome, rfl⟩⟩
  -- a report without a registered event makes no call
  | dispatch r b =>
    simp only [epollCall, Option.ite_none_left_eq_some, Option.some.injEq] at h
    obtain ⟨hinter, rfl⟩ := h
    refine ⟨rfl, rfl, .inr ⟨fun hnone => hinter ?_, rfl⟩⟩
    simp [hnone, Events.inter, Events.none]
  | newContext fd | epollWait r => simp [epollCall] at h

/-- What a call does when it succeeds. -/
theorem Epoll.ctl_eq_some {k k' : Epoll} {call : EpollCall} (h : k.ctl call = some k') :
    k.isOpen call.fd = true ∧ (call.op = .add ↔ k.interest call.fd = none) ∧
      k' = k.setInterest call.fd (if call.op = .del then none else some call.interest) := by
  unfold ctl at h
  split at h
  · simp at h
  · next hopen =>
    have hopen : k.isOpen call.fd = true := by simpa using hopen
    split at h
    -- `EEXIST` for `ADD`, and `ENOENT` for the others
    case h_4 | h_5 | h_6 => simp at h
    all_goals
      next hop hin =>
        obtain rfl := Option.some.inj h
        simp [hopen, hop, hin]

namespace EpollRun

variable {s s' : EpollRun}

/-- A section on a context leaves the other contexts, and sets its bits. -/
theorem section_sets {run run' : EventRun} (h : run.Inv) {b : Bool} (hc : a.context? = some c)
    (hstep : run.step (a.withEpollCtl b) = some run') :
    run.fault = none ∧ c < run.size ∧ run'.size = run.size ∧
      (∀ d, d ≠ c → run'.contexts d = run.contexts d) ∧
      (run'.fault = none → (run'.contexts c).fd = (run.contexts c).fd ∧
        (run'.contexts c).event =
          if b then ((run.contexts c).epollCall c a).elim (run.contexts c).event
            fun call => call.interest.events
          else (run.contexts c).event) := by
  -- all sections store their outcome in the same way
  have hstored : ∀ {t : EventRun} {r : Critical.Result (Option Bool × Critical)},
      t.contexts = Function.update run.contexts c (EventRun.outcome r).1.ctx →
      t.fault = (EventRun.outcome r).2.2 →
      (run.critical c).Sets ((run.contexts c).epollCall c a) b r →
      (∀ d, d ≠ c → t.contexts d = run.contexts d) ∧
      (t.fault = none → (t.contexts c).fd = (run.contexts c).fd ∧
        (t.contexts c).event =
          if b then ((run.contexts c).epollCall c a).elim (run.contexts c).event
            fun call => call.interest.events
          else (run.contexts c).event) := by
    intro t r hcontexts hfault hsets
    rw [hcontexts, hfault]
    refine ⟨fun d hd => Function.update_of_ne hd .., fun hok => ?_⟩
    rw [Function.update_self]
    exact hsets hok
  cases a with
  | addEvent d e caller cb b' =>
    obtain rfl := Option.some.inj hc
    simp only [EventAction.withEpollCtl, EventRun.step, Option.ite_none_right_eq_some,
      Option.some.injEq] at hstep
    obtain ⟨⟨hfault, hlt⟩, rfl⟩ := hstep
    exact ⟨hfault, hlt, rfl, hstored rfl rfl (Critical.addEvent_sets e caller cb _ b b')⟩
  | delEvent d e b' =>
    obtain rfl := Option.some.inj hc
    simp only [EventAction.withEpollCtl, EventRun.step, Option.ite_none_right_eq_some,
      Option.some.injEq] at hstep
    obtain ⟨⟨hfault, hlt⟩, rfl⟩ := hstep
    exact ⟨hfault, hlt, rfl, hstored rfl rfl (Critical.delEvent_sets e b b')⟩
  | cancelEvent d e b' =>
    obtain rfl := Option.some.inj hc
    simp only [EventAction.withEpollCtl, EventRun.step, Option.ite_none_right_eq_some,
      Option.some.injEq] at hstep
    obtain ⟨⟨hfault, hlt⟩, rfl⟩ := hstep
    exact ⟨hfault, hlt, rfl, hstored rfl rfl (Critical.cancelEvent_sets (h.slots _ hlt) e b b')⟩
  | cancelAll d b' =>
    obtain rfl := Option.some.inj hc
    simp only [EventAction.withEpollCtl, EventRun.step, Option.ite_none_right_eq_some,
      Option.some.injEq] at hstep
    obtain ⟨⟨hfault, hlt⟩, rfl⟩ := hstep
    exact ⟨hfault, hlt, rfl, hstored rfl rfl (Critical.cancelAll_sets (h.slots _ hlt) b b')⟩
  | dispatch r b' =>
    obtain rfl := Option.some.inj hc
    simp only [EventAction.withEpollCtl, EventRun.step, Option.ite_none_right_eq_some,
      Option.some.injEq] at hstep
    obtain ⟨⟨hfault, -, hlt⟩, rfl⟩ := hstep
    exact ⟨hfault, hlt, rfl, hstored rfl rfl (Critical.dispatch_sets (h.slots _ hlt) r b b')⟩
  | newContext fd | epollWait r => simp [EventAction.context?] at hc

/-- What a step of a section is. -/
theorem step_event (hstep : step s (.event a) = some s') :
    ∃ c run, a.context? = some c ∧
      s.run.step (a.withEpollCtl (s.answer c a).isSome) = some run ∧
      s' = { run := run, epoll := (s.answer c a).getD s.epoll } := by
  obtain ⟨c, hc, hstep⟩ := Option.bind_eq_some_iff.mp hstep
  obtain ⟨run, hrun, rfl⟩ := Option.map_eq_some_iff.mp hstep
  exact ⟨c, run, hc, hrun, rfl⟩

/-- A report is about a descriptor in the interest list, and about events that it is listed with. -/
theorem step_epollWait {fd : ℕ} {epollIn epollOut epollErr epollHup : Bool}
    (hstep : step s (.epollWait fd epollIn epollOut epollErr epollHup) = some s') :
    ∃ i, s.epoll.interest fd = some i ∧ s.run.fault = none ∧ (epollIn → i.events.read) ∧
      (epollOut → i.events.write) ∧
      s' = { s with run := { s.run with
        reports := ⟨i.context, epollIn, epollOut, epollErr, epollHup⟩ :: s.run.reports
        returned := none } } := by
  obtain ⟨i, hi, hstep⟩ := Option.bind_eq_some_iff.mp hstep
  simp only [Option.ite_none_right_eq_some, Option.some.injEq] at hstep
  obtain ⟨⟨hfault, hin, hout⟩, rfl⟩ := hstep
  exact ⟨i, hi, hfault, hin, hout, rfl⟩

/-- `epoll_ctl` has done what it was called for. -/
theorem answer_eq_some {k : Epoll} (h : s.answer c a = some k) :
    ∃ call, (s.run.contexts c).epollCall c a = some call ∧ s.epoll.ctl call = some k := by
  obtain ⟨call, hcall, hk⟩ := Option.bind_eq_some_iff.mp h
  simp only [Option.ite_none_right_eq_some] at hk
  exact ⟨call, hcall, hk.2⟩

/-! ### Agreement -/

/-- The bits and the descriptors of the contexts are all that agreement is about. -/
theorem Agrees.congr (h : s.Agrees) (hsize : s'.run.size = s.run.size)
    (hfd : ∀ c, (s'.run.contexts c).fd = (s.run.contexts c).fd)
    (hevent : ∀ c, (s'.run.contexts c).event = (s.run.contexts c).event)
    (hepoll : s'.epoll = s.epoll) : s'.Agrees := by
  refine ⟨fun c hc => ?_, fun fd i hi => ?_⟩
  · rw [hfd, hevent, hepoll]
    exact h.registered c (hsize ▸ hc)
  · rw [hfd, hevent, hepoll, hsize]
    exact h.listed fd i (hepoll ▸ hi)

/-- A section whose call succeeds. -/
theorem Agrees.called (h : s.Agrees) {run : EventRun} {call : EpollCall} {k : Epoll}
    (hcall : (s.run.contexts c).epollCall c a = some call) (hk : s.epoll.ctl call = some k)
    (hc : c < s.run.size) (hsize : run.size = s.run.size)
    (hothers : ∀ d, d ≠ c → run.contexts d = s.run.contexts d)
    (hfd : (run.contexts c).fd = (s.run.contexts c).fd)
    (hevent : (run.contexts c).event = call.interest.events) : Agrees ⟨run, k⟩ := by
  obtain ⟨hcallfd, hcontext, hop⟩ := FdContext.epollCall_eq_some hcall
  obtain ⟨hopen, hadd, rfl⟩ := Epoll.ctl_eq_some hk
  have hinterest : ∀ fd, (s.epoll.setInterest call.fd
      (if call.op = .del then none else some call.interest)).interest fd =
        if fd = call.fd then (if call.op = .del then none else some call.interest)
        else s.epoll.interest fd := by
    intro fd
    simp only [Epoll.setInterest, Function.update_apply]
  constructor
  · intro d hd hne
    dsimp only at hd hne ⊢
    rw [hinterest]
    by_cases hdc : d = c
    · subst hdc
      rw [hevent] at hne ⊢
      rw [hfd, hcallfd, if_pos rfl, if_neg, ← hcontext]
      rcases hop with ⟨hop, -, -⟩ | ⟨-, hop⟩
      · simp [hop]
      · simp [hop, hne]
    · rw [hothers d hdc] at hne ⊢
      rw [hsize] at hd
      have hold := h.registered d hd hne
      -- the descriptor of another context with events is another one
      rw [if_neg, hold]
      intro heq
      rcases hop with ⟨hop, -, -⟩ | ⟨hsome, -⟩
      · rw [heq, hadd.mp hop] at hold
        simp at hold
      · have hown := h.registered c hc hsome
        rw [heq, hcallfd, hown] at hold
        exact hdc (congrArg Interest.context (Option.some.inj hold)).symm
  · intro fd i hi
    dsimp only at hi ⊢
    rw [hinterest] at hi
    split at hi
    · next heq =>
      rw [Option.ite_none_left_eq_some, Option.some.injEq] at hi
      obtain ⟨hdel, rfl⟩ := hi
      rw [hcontext, hsize, hfd, heq, hcallfd]
      refine ⟨hcallfd ▸ hopen, hc, rfl, hevent, ?_⟩
      rcases hop with ⟨-, -, hne⟩ | ⟨-, hop⟩
      · exact hne
      · intro hnone
        rw [if_pos hnone] at hop
        exact hdel hop
    · next hne =>
      obtain ⟨hopen', hlt, hown, hevents, hsome⟩ := h.listed fd i hi
      have hic : i.context ≠ c := by
        intro heq
        rw [heq, ← hcallfd] at hown
        exact hne hown.symm
      rw [hothers _ hic, hsize]
      exact ⟨hopen', hlt, hown, hevents, hsome⟩

/-- **Step lemma.** A step that is no close keeps the agreement. -/
theorem Agrees.event (h : s.Agrees) (hinv : s.run.Inv) (hstep : step s (.event a) = some s')
    (hfault : s'.run.fault = none) : s'.Agrees := by
  obtain ⟨c, run, hc, hrun, rfl⟩ := step_event hstep
  obtain ⟨-, hlt, hsize, hothers, hsets⟩ := section_sets hinv hc hrun
  obtain ⟨hfd, hevent⟩ := hsets hfault
  -- without an answer the events of the context stay, and with one both lists change
  cases hanswer : s.answer c a with
  | none =>
    rw [hanswer] at hevent
    simp only [Option.isSome_none, Bool.false_eq_true, if_false] at hevent
    refine h.congr hsize (fun d => ?_) (fun d => ?_) rfl
    · by_cases hd : d = c
      · exact hd ▸ hfd
      · exact congrArg FdContext.fd (hothers d hd)
    · by_cases hd : d = c
      · exact hd ▸ hevent
      · exact congrArg FdContext.event (hothers d hd)
  | some k =>
    obtain ⟨call, hcall, hk⟩ := answer_eq_some hanswer
    rw [hanswer, hcall] at hevent
    exact h.called hcall hk hlt hsize hothers hfd hevent

/-- A new context has no events, and its descriptor is not in the list. -/
theorem Agrees.newContext (h : s.Agrees) {fd : ℕ}
    (hstep : step s (.newContext fd) = some s') : s'.Agrees := by
  obtain ⟨run, hrun, rfl⟩ := Option.map_eq_some_iff.mp hstep
  simp only [EventRun.step, Option.ite_none_right_eq_some, Option.some.injEq] at hrun
  obtain ⟨-, rfl⟩ := hrun
  -- a new context has no events, and the list has no entry for it
  constructor
  · intro c hc hne
    dsimp only at hc hne ⊢
    rcases Nat.lt_succ_iff_lt_or_eq.mp hc with hc | rfl
    · rw [Function.update_of_ne (Nat.ne_of_lt hc)] at hne ⊢
      exact h.registered c hc hne
    · rw [Function.update_self] at hne
      exact absurd rfl hne
  · intro fd' i hi
    obtain ⟨hopen, hlt, hown⟩ := h.listed fd' i hi
    dsimp only
    rw [Function.update_of_ne (Nat.ne_of_lt hlt)]
    exact ⟨hopen, Nat.lt_succ_of_lt hlt, hown⟩

/-- A close keeps the agreement exactly when nothing is registered on the descriptor. -/
theorem Agrees.close_iff (h : s.Agrees) {fd : ℕ} (hstep : step s (.close fd) = some s') :
    s'.Agrees ↔ s.Closes (.close fd) := by
  simp only [step, Option.ite_none_right_eq_some, Option.some.injEq] at hstep
  obtain ⟨-, rfl⟩ := hstep
  constructor
  -- closing takes the descriptor out of the list, whoever is registered for it
  · intro h' c hc hfd
    by_contra hne
    have hlisted := h'.registered c hc hne
    simp [Epoll.close, Epoll.setInterest, hfd] at hlisted
  · intro hcloses
    constructor
    · intro c hc hne
      have hfd : (s.run.contexts c).fd ≠ fd := fun heq => hne (hcloses c hc heq)
      exact (Function.update_of_ne hfd ..).trans (h.registered c hc hne)
    · intro fd' i hi
      by_cases hfd : fd' = fd
      · simp [Epoll.close, Epoll.setInterest, hfd] at hi
      · have hi' : s.epoll.interest fd' = some i := (Function.update_of_ne hfd ..).symm.trans hi
        obtain ⟨hopen, hrest⟩ := h.listed fd' i hi'
        exact ⟨(Function.update_of_ne hfd ..).trans hopen, hrest⟩

/-- The invariant, while the program runs. -/
def Sound (s : EpollRun) : Prop := s.run.fault = none → s.run.Inv ∧ s.Agrees

/-- Nothing is registered at first. -/
theorem sound_new : new.Sound := fun _ =>
  ⟨EventRun.inv_new, fun c hc => absurd hc (Nat.not_lt_zero c), fun fd i hi => by simp [new, Epoll.new] at hi⟩

/-- No step follows on the end of the program. -/
theorem step_fault {a : EpollAction} (hstep : step s a = some s') : s.run.fault = none := by
  -- a program that has ended makes no step
  have hrun : ∀ {b : EventAction} {run : EventRun}, s.run.step b = some run → s.run.fault = none := by
    intro b run hrun
    cases hfault : s.run.fault with
    | none => rfl
    | some f => simp [EventRun.step_of_fault hfault] at hrun
  cases a with
  | newContext fd =>
    obtain ⟨run, hb, -⟩ := Option.map_eq_some_iff.mp hstep
    exact hrun hb
  | event a =>
    obtain ⟨c, run, -, hb, -⟩ := step_event hstep
    exact hrun hb
  | epollWait fd epollIn epollOut epollErr epollHup =>
    obtain ⟨i, -, hfault, -⟩ := step_epollWait hstep
    exact hfault
  | opened fd | close fd =>
    simp only [step, Option.ite_none_right_eq_some] at hstep
    exact hstep.1.1

/-- The history of `EventRun` stays in order, whatever the interest list says. -/
theorem step_inv {a : EpollAction} (h : s.run.Inv) (hstep : step s a = some s')
    (hfault : s'.run.fault = none) : s'.run.Inv := by
  -- the invariant of the events is theirs, unless a scheduler was null
  have hrun : ∀ {b : EventAction} {run : EventRun}, s.run.step b = some run → run.fault = none →
      run.Inv := by
    intro b run hb hok
    rcases EventRun.step_inv h hb with ⟨hnull, -⟩ | ⟨hinv, -⟩
    · simp [hok] at hnull
    · exact hinv
  cases a with
  | newContext fd =>
    obtain ⟨run, hb, rfl⟩ := Option.map_eq_some_iff.mp hstep
    exact hrun hb hfault
  | event a =>
    obtain ⟨c, run, -, hb, rfl⟩ := step_event hstep
    exact hrun hb hfault
  | epollWait fd epollIn epollOut epollErr epollHup =>
    obtain ⟨i, -, hok, -, -, rfl⟩ := step_epollWait hstep
    exact h.of_same rfl rfl rfl rfl rfl rfl hok
  | opened fd | close fd =>
    simp only [step, Option.ite_none_right_eq_some, Option.some.injEq] at hstep
    obtain ⟨-, rfl⟩ := hstep
    exact h

/-- Each step keeps the invariant, when no descriptor is closed with events on it. -/
theorem Sound.step {a : EpollAction} (h : s.Sound) (hC : s.Closes a)
    (hstep : EpollRun.step s a = some s') : s'.Sound := by
  intro hfault
  obtain ⟨hinv, hagrees⟩ := h (step_fault hstep)
  refine ⟨step_inv hinv hstep hfault, ?_⟩
  cases a with
  | newContext fd => exact hagrees.newContext hstep
  | event a => exact hagrees.event hinv hstep hfault
  | epollWait fd epollIn epollOut epollErr epollHup =>
    obtain ⟨i, -, -, -, -, rfl⟩ := step_epollWait hstep
    exact ⟨hagrees.registered, hagrees.listed⟩
  -- a new descriptor changes no entry of the list
  | opened fd =>
    simp only [EpollRun.step, Option.ite_none_right_eq_some, Option.some.injEq] at hstep
    obtain ⟨-, rfl⟩ := hstep
    refine ⟨hagrees.registered, fun fd' i hi => ?_⟩
    obtain ⟨hopen, hrest⟩ := hagrees.listed fd' i hi
    refine ⟨?_, hrest⟩
    show Function.update s.epoll.isOpen fd true fd' = true
    rw [Function.update_apply]
    split
    · rfl
    · exact hopen
  | close fd => exact (hagrees.close_iff hstep).mpr hC

/-- **The interest list, exactly.** For any interleaving of the sections on the contexts, with any
    further failures of `epoll_ctl`, of reports, and of descriptors that are opened and closed: in
    every state before the program ends, the kernel's interest list has exactly the events and the
    context of each descriptor on which events are registered, if and only if no descriptor is
    closed while an event is registered on it. -/
theorem interest_list_iff (as : List EpollAction) (s : EpollRun)
    (hrun : runFrom step new as = some s) :
    Always step Coherent new as ↔ Along step Closes new as := by
  apply always_iff_along_of_stronger (J := Sound) ?_ ?_ ?_ sound_new hrun
  · exact fun s h hfault => (h hfault).2
  · intro s a s' h hstep hP
    cases a with
    -- only a close can part the two lists
    | close fd =>
      obtain ⟨-, hagrees⟩ := h (step_fault hstep)
      have hfault : s'.run.fault = none := by
        simp only [step, Option.ite_none_right_eq_some, Option.some.injEq] at hstep
        obtain ⟨⟨hfault, -⟩, rfl⟩ := hstep
        exact hfault
      exact (hagrees.close_iff hstep).mp (hP hfault)
    | _ => trivial
  · exact fun s a s' h hC hstep => h.step hC hstep

/-- A descriptor is closed while a fiber waits to read from it. -/
def closeWhileReading : List EpollAction :=
  [.newContext 5, .opened 5, .event (.addEvent 0 .read ⟨some 1, 2, true⟩ none true), .close 5]

/-- Then the list lacks what the context still has. -/
theorem interest_list_iff_closeWhileReading : ¬ Always step Coherent new closeWhileReading := by
  obtain ⟨s, hrun⟩ := Option.isSome_iff_exists.mp
    (show (runFrom step new closeWhileReading).isSome by decide)
  exact mt (interest_list_iff closeWhileReading s hrun).mp (by decide)

/-- **Refinement.** With no such close, the sections do what they do in `EventRun`: a report is one
    of registered events, and every call of `epoll_ctl` that modifies or deletes a descriptor can
    succeed. -/
theorem epoll_refines (as : List EpollAction) (s : EpollRun)
    (hcloses : Along step Closes new as) (hrun : runFrom step new as = some s) :
    (∃ bs, runFrom EventRun.step .new bs = some s.run) ∧
      (s.run.fault = none → ∀ c < s.run.size, ∀ a call,
        (s.run.contexts c).epollCall c a = some call → call.op ≠ .add →
          (s.epoll.ctl call).isSome) := by
  constructor
  · refine run_refines (I := Sound) EpollRun.run (fun _ _ _ h hC hstep => h.step hC hstep) ?_ sound_new
      hcloses hrun
    intro s a s' h hC hstep
    obtain ⟨-, hagrees⟩ := h (step_fault hstep)
    cases a with
    | newContext fd =>
      obtain ⟨run, hb, rfl⟩ := Option.map_eq_some_iff.mp hstep
      exact .inr ⟨_, hb⟩
    | event a =>
      obtain ⟨c, run, -, hb, rfl⟩ := step_event hstep
      exact .inr ⟨_, hb⟩
    -- the report names the context of the entry, and so it is one of the event machine's
    | epollWait fd epollIn epollOut epollErr epollHup =>
      obtain ⟨i, hi, hfault, hin, hout, rfl⟩ := step_epollWait hstep
      obtain ⟨-, hlt, -, hevents, -⟩ := hagrees.listed fd i hi
      refine .inr ⟨.epollWait ⟨i.context, epollIn, epollOut, epollErr, epollHup⟩, ?_⟩
      rw [← hevents] at hin hout
      exact if_pos ⟨hfault, hlt, hin, hout⟩
    | opened fd | close fd =>
      simp only [step, Option.ite_none_right_eq_some, Option.some.injEq] at hstep
      obtain ⟨-, rfl⟩ := hstep
      exact .inl rfl
  · intro hfault c hc a call hcall hop
    have hsound : s.Sound :=
      run_invariant (fun _ _ _ h hC hstep => h.step hC hstep) sound_new hcloses hrun
    obtain ⟨-, hagrees⟩ := hsound hfault
    obtain ⟨hfd, -, ⟨hadd, -, -⟩ | ⟨hsome, -⟩⟩ := FdContext.epollCall_eq_some hcall
    · exact absurd hadd hop
    · have hlisted := hagrees.registered c hc hsome
      -- the entry exists, so `MOD` and `DEL` succeed
      obtain ⟨hopen, -⟩ := hagrees.listed _ _ hlisted
      unfold Epoll.ctl
      rw [hfd, hopen, hlisted]
      cases hcallop : call.op
      · exact absurd hcallop hop
      · rfl
      · rfl

/-- READ and WRITE on one descriptor, which are reported and dispatched before it is closed. -/
def addTwoAndClose : List EpollAction :=
  [.newContext 5, .opened 5, .event (.addEvent 0 .read ⟨some 1, 2, true⟩ (some 7) true),
    .event (.addEvent 0 .write ⟨some 1, 2, true⟩ (some 8) true), .epollWait 5 true true false false,
    .event (.dispatch ⟨0, true, true, false, false⟩ true), .close 5]

/-- Both events of a descriptor are handed over. -/
theorem epoll_refines_two_events :
    ∃ s, runFrom step new addTwoAndClose = some s ∧ s.run.handed.length = 2 ∧
      ∃ bs, runFrom EventRun.step .new bs = some s.run := by
  obtain ⟨s, hrun, hs⟩ := (Option.any_eq_true (fun s : EpollRun => decide (s.run.handed.length = 2))
    (runFrom step new addTwoAndClose)).mp (by decide)
  exact ⟨s, hrun, of_decide_eq_true hs, (epoll_refines _ s (by decide) hrun).1⟩

/-! ### A registration left behind -/

/-- A section whose call fails leaves its context, and returns no success. -/
theorem section_of_failed {run run' : EventRun} (hc : a.context? = some c)
    (hstep : run.step (a.withEpollCtl false) = some run') :
    run'.contexts = run.contexts ∧ run'.returned ≠ some true := by
  -- every section tests the answer of `epoll_ctl` before it touches the context
  have hquiet : ∀ d k, (run.runEnding d k (EventRun.returning (.ok (false, run.critical d)))).contexts
      = run.contexts ∧
      (run.runEnding d k (EventRun.returning (.ok (false, run.critical d)))).returned ≠ some true :=
    fun d k => ⟨Function.update_eq_self d _,
      by simp [EventRun.runEnding, EventRun.returning, EventRun.outcome, Except.map]⟩
  cases a with
  | addEvent d e caller cb b =>
    simp only [EventAction.withEpollCtl, EventRun.step, Option.ite_none_right_eq_some,
      Option.some.injEq] at hstep
    obtain ⟨-, rfl⟩ := hstep
    have hfails : (run.critical d).addEvent e caller cb run.registered.length false =
        .ok (false, run.critical d) := by
      unfold Critical.addEvent
      split <;> rfl
    rw [hfails]
    refine ⟨Function.update_eq_self d _, ?_⟩
    simp [EventRun.runAdd, EventRun.returning, EventRun.outcome, Except.map]
  | delEvent d e b =>
    simp only [EventAction.withEpollCtl, EventRun.step, Option.ite_none_right_eq_some,
      Option.some.injEq] at hstep
    obtain ⟨-, rfl⟩ := hstep
    have hfails : (run.critical d).delEvent e false = .ok (false, run.critical d) := by
      unfold Critical.delEvent
      split <;> rfl
    rw [hfails]
    exact hquiet d .delEvent
  | cancelEvent d e b =>
    simp only [EventAction.withEpollCtl, EventRun.step, Option.ite_none_right_eq_some,
      Option.some.injEq] at hstep
    obtain ⟨-, rfl⟩ := hstep
    have hfails : (run.critical d).cancelEvent e false = .ok (false, run.critical d) := by
      unfold Critical.cancelEvent
      split <;> rfl
    rw [hfails]
    exact hquiet d .cancelEvent
  | cancelAll d b =>
    simp only [EventAction.withEpollCtl, EventRun.step, Option.ite_none_right_eq_some,
      Option.some.injEq] at hstep
    obtain ⟨-, rfl⟩ := hstep
    have hfails : (run.critical d).cancelAll false = .ok (false, run.critical d) := by
      unfold Critical.cancelAll
      split <;> rfl
    rw [hfails]
    exact hquiet d .cancelAll
  | dispatch r b =>
    simp only [EventAction.withEpollCtl, EventRun.step, Option.ite_none_right_eq_some,
      Option.some.injEq] at hstep
    obtain ⟨-, rfl⟩ := hstep
    have hfails : (run.critical r.context).dispatch r false = .ok (run.critical r.context) := by
      unfold Critical.dispatch
      dsimp only
      split <;> rfl
    rw [hfails]
    refine ⟨Function.update_eq_self r.context _, ?_⟩
    simp [EventRun.runEnding, EventRun.outcome, Except.map]
  | newContext fd | epollWait r => simp [EventAction.context?] at hc

/-- The events `ctx.event` of the context `c` are registered, and the interest list has no entry
    that a section on it or on another context could change. -/
structure LeftBehind (s : EpollRun) (c : ℕ) (ctx : FdContext) : Prop where
  context : c < s.run.size ∧ s.run.contexts c = ctx
  registered : ctx.event ≠ .none
  running : s.run.fault = none → s.run.Inv ∧ s.epoll.interest ctx.fd = none ∧
    ∀ d < s.run.size, d ≠ c → (s.run.contexts d).fd ≠ ctx.fd

variable {ctx : FdContext}

/-- Every call on the context is to modify or to delete what is not in the list. -/
theorem LeftBehind.answer_eq_none (h : s.LeftBehind c ctx) (hfault : s.run.fault = none) :
    s.answer c a = none := by
  obtain ⟨-, hinterest, -⟩ := h.running hfault
  cases hanswer : s.answer c a with
  | none => rfl
  | some k =>
    obtain ⟨call, hcall, hk⟩ := answer_eq_some hanswer
    rw [h.context.2] at hcall
    obtain ⟨hfd, -, ⟨-, hnone, -⟩ | ⟨hsome, hop⟩⟩ := FdContext.epollCall_eq_some hcall
    · exact absurd hnone h.registered
    · obtain ⟨-, hadd, -⟩ := Epoll.ctl_eq_some hk
      -- without an entry only `ADD` could succeed, and the context asks for `MOD` or `DEL`
      have hop' := hadd.mpr (hfd ▸ hinterest)
      rw [hop'] at hop
      split at hop <;> simp at hop

/-- A section on the context fails, and sections on others do not change it. -/
theorem LeftBehind.event (h : s.LeftBehind c ctx) (hstep : step s (.event a) = some s') :
    s'.LeftBehind c ctx := by
  have hfault := step_fault hstep
  obtain ⟨hinv, hinterest, hothers⟩ := h.running hfault
  have hinv' := step_inv hinv hstep
  obtain ⟨d, run, hd, hrun, rfl⟩ := step_event hstep
  obtain ⟨-, hlt, hsize, hrest, hsets⟩ := section_sets hinv hd hrun
  -- a section of the context itself fails; one of another leaves it alone
  by_cases hdc : d = c
  · subst hdc
    rw [h.answer_eq_none hfault] at hrun hsets ⊢
    obtain ⟨hsame, -⟩ := section_of_failed hd hrun
    refine ⟨⟨hsize ▸ hlt, (congrFun hsame d).trans h.context.2⟩, h.registered, fun hok => ?_⟩
    refine ⟨hinv' hok, hinterest, fun e he hne => ?_⟩
    rw [hsame]
    exact hothers e (hsize ▸ he) hne
  · refine ⟨⟨hsize ▸ h.context.1, (hrest c (Ne.symm hdc)).trans h.context.2⟩, h.registered, ?_⟩
    intro hok
    obtain ⟨hfd, -⟩ := hsets hok
    refine ⟨hinv' hok, ?_, fun e he hne => ?_⟩
    · -- the call is about another descriptor
      cases hanswer : s.answer d a with
      | none => exact hinterest
      | some k =>
        obtain ⟨call, hcall, hk⟩ := answer_eq_some hanswer
        obtain ⟨hcallfd, -, -⟩ := FdContext.epollCall_eq_some hcall
        obtain ⟨-, -, rfl⟩ := Epoll.ctl_eq_some hk
        have hne : ctx.fd ≠ call.fd := by
          rw [hcallfd]
          exact (hothers d hlt hdc).symm
        exact (Function.update_of_ne hne ..).trans hinterest
    · by_cases hed : e = d
      · rw [hed]
        exact fun heq => hothers d hlt hdc (hfd.symm.trans heq)
      · rw [hrest e hed]
        exact hothers e (hsize ▸ he) hne

/-- The condition on a step: no second context for the descriptor. -/
def NoSecond (fd : ℕ) (_ : EpollRun) : EpollAction → Prop
  | .newContext fd' => fd' ≠ fd
  | _ => True

/-- A registration that is left behind stays so in every step. -/
theorem LeftBehind.step {a : EpollAction} (h : s.LeftBehind c ctx) (hC : NoSecond ctx.fd s a)
    (hstep : EpollRun.step s a = some s') : s'.LeftBehind c ctx := by
  cases a with
  | event a => exact h.event hstep
  -- by `NoSecond` the new context is for another descriptor
  | newContext fd =>
    have hfault := step_fault hstep
    obtain ⟨hinv, hinterest, hothers⟩ := h.running hfault
    have hinv' := step_inv hinv hstep
    obtain ⟨run, hrun, rfl⟩ := Option.map_eq_some_iff.mp hstep
    simp only [EventRun.step, Option.ite_none_right_eq_some, Option.some.injEq] at hrun
    obtain ⟨-, rfl⟩ := hrun
    refine ⟨⟨Nat.lt_succ_of_lt h.context.1, ?_⟩, h.registered, fun hok => ?_⟩
    · exact (Function.update_of_ne (Nat.ne_of_lt h.context.1) ..).trans h.context.2
    · refine ⟨hinv' hok, hinterest, fun d hd hne => ?_⟩
      dsimp only at hd ⊢
      rcases Nat.lt_succ_iff_lt_or_eq.mp hd with hd | rfl
      · rw [Function.update_of_ne (Nat.ne_of_lt hd)]
        exact hothers d hd hne
      · rw [Function.update_self]
        exact hC
  | epollWait fd epollIn epollOut epollErr epollHup =>
    have hfault := step_fault hstep
    obtain ⟨hinv, hrest⟩ := h.running hfault
    have hinv' := step_inv hinv hstep
    obtain ⟨i, -, -, -, -, rfl⟩ := step_epollWait hstep
    exact ⟨h.context, h.registered, fun hok => ⟨hinv' hok, hrest⟩⟩
  | opened fd =>
    simp only [EpollRun.step, Option.ite_none_right_eq_some, Option.some.injEq] at hstep
    obtain ⟨-, rfl⟩ := hstep
    exact ⟨h.context, h.registered, h.running⟩
  -- a close adds no entry
  | close fd =>
    simp only [EpollRun.step, Option.ite_none_right_eq_some, Option.some.injEq] at hstep
    obtain ⟨-, rfl⟩ := hstep
    refine ⟨h.context, h.registered, fun hok => ?_⟩
    obtain ⟨hinv, hinterest, hothers⟩ := h.running hok
    refine ⟨hinv, ?_, hothers⟩
    show Function.update s.epoll.interest fd none ctx.fd = none
    rw [Function.update_apply]
    split
    · rfl
    · exact hinterest

/-- **A registration left behind.** When a reachable state has events registered on a context whose
    descriptor is not in the interest list, and the descriptor has no other context, then in every
    run from there the context stays as it is, with its callbacks and fibers, and every section on
    it returns failure, also after the descriptor number is in use again. -/
theorem closed_registration_stuck (bs as : List EpollAction) (s s' : EpollRun) (c : ℕ)
    (hreach : runFrom step new bs = some s) (hfault : s.run.fault = none) (hc : c < s.run.size)
    (hregistered : (s.run.contexts c).event ≠ .none)
    (hclosed : s.epoll.interest (s.run.contexts c).fd = none)
    (halone : ∀ d < s.run.size, d ≠ c → (s.run.contexts d).fd ≠ (s.run.contexts c).fd)
    (hsecond : Along step (NoSecond (s.run.contexts c).fd) s as)
    (hrun : runFrom step s as = some s') :
    s'.run.contexts c = s.run.contexts c ∧
      ∀ a, a.context? = some c → ∀ s'', step s' (.event a) = some s'' →
        s''.run.contexts c = s.run.contexts c ∧ s''.run.returned ≠ some true := by
  -- the state was reached, so the context is as the event machine keeps it
  have hinv : s.run.Inv := by
    refine run_invariant_of_step (I := fun s => s.run.fault = none → s.run.Inv) ?_
      (fun _ => EventRun.inv_new) hreach hfault
    exact fun t a t' ht hstep hok => step_inv (ht (step_fault hstep)) hstep hok
  have hleft : s.LeftBehind c (s.run.contexts c) :=
    ⟨⟨hc, rfl⟩, hregistered, fun _ => ⟨hinv, hclosed, halone⟩⟩
  have hleft' : s'.LeftBehind c (s.run.contexts c) :=
    run_invariant (I := fun t => t.LeftBehind c (s.run.contexts c))
      (fun _ _ _ h hC hstep => h.step hC hstep) hleft hsecond hrun
  refine ⟨hleft'.context.2, fun a ha s'' hstep => ⟨(hleft'.event hstep).context.2, ?_⟩⟩
  have hok := step_fault hstep
  obtain ⟨d, run, hd, hb, rfl⟩ := step_event hstep
  obtain rfl : d = c := Option.some.inj (hd.symm.trans ha)
  rw [hleft'.answer_eq_none hok] at hb
  exact (section_of_failed hd hb).2

/-- Its number is used again, and a fiber wants to write. -/
def reuseToWrite : List EpollAction :=
  [.opened 5, .event (.addEvent 0 .write ⟨some 1, 3, true⟩ none true)]

/-- The first event can not be canceled any more. -/
theorem closed_registration_stuck_reused :
    ∃ s s' s'', runFrom step new closeWhileReading = some s ∧
      runFrom step s reuseToWrite = some s' ∧ step s' (.event (.cancelEvent 0 .read true)) = some s'' ∧
      s''.run.contexts 0 = s.run.contexts 0 ∧ s''.run.returned ≠ some true := by
  obtain ⟨s, hreach, hs⟩ := (Option.any_eq_true (fun s : EpollRun =>
      decide (s.run.fault = none ∧ s.run.size = 1 ∧ (s.run.contexts 0).event ≠ .none ∧
        s.epoll.interest (s.run.contexts 0).fd = none) &&
      ((runFrom step s reuseToWrite).bind fun t => step t (.event (.cancelEvent 0 .read true))).isSome)
    (runFrom step new closeWhileReading)).mp (by decide)
  obtain ⟨hs, hsome⟩ := Bool.and_eq_true_iff.mp hs
  obtain ⟨hfault, hsize, hevent, hclosed⟩ := of_decide_eq_true hs
  obtain ⟨s'', hs''⟩ := Option.isSome_iff_exists.mp hsome
  obtain ⟨s', hrun, hstep⟩ := Option.bind_eq_some_iff.mp hs''
  -- the number is used again, but no second context is made for it
  have hsecond : Along step (NoSecond (s.run.contexts 0).fd) s reuseToWrite :=
    ⟨trivial, fun _ _ => ⟨trivial, fun _ _ => trivial⟩⟩
  refine ⟨s, s', s'', hreach, hrun, hstep, ?_⟩
  exact (closed_registration_stuck _ _ s s' 0 hreach hfault (by omega) hevent hclosed
    (fun d hd hne => by omega) hsecond hrun).2 _ rfl s'' hstep

end EpollRun

end LoNetfw.Scheduler
