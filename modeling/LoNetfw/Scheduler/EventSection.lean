import LoNetfw.Scheduler.EventRun

namespace LoNetfw.Scheduler

open Basis

/-!
# `IOScheduler` — what a critical section does

On a context whose bits and slots agree, every critical section does one of two things: it
adds a registration to a free slot, or it ends the registrations of a set of events and
empties their slots.

* `FdContext.Matches` — the bits and the slots of a context agree;
* `FdContext.added`, `FdContext.released` — the two changes of a context;
* `Critical.AddsWith` — everything `addEvent` can do;
* `Critical.EndsWith` — everything `delEvent`, `cancelEvent`, `cancelAll` and a dispatch can
  do.
-/

/-! ### Sets of events -/

namespace Events

variable {s t : Events} {e : Event}

/-- Every event of `s` is in `t`. -/
def Subset (s t : Events) : Prop := (s.read → t.read) ∧ (s.write → t.write)

instance (s t : Events) : Decidable (s.Subset t) :=
  inferInstanceAs (Decidable ((s.read → t.read) ∧ (s.write → t.write)))

/-- A set is a part of it and the rest. -/
theorem bits_diff (h : s.Subset t) : t.bits = s.bits + (t.diff s).bits := by
  obtain ⟨sr, sw⟩ := s
  obtain ⟨tr, tw⟩ := t
  revert h
  cases sr <;> cases sw <;> cases tr <;> cases tw <;> simp [Subset, bits, diff]

/-- A registered event is one of the registered ones. -/
theorem single_subset (h : s.has e = true) : (single e).Subset s := by
  cases e
  · exact ⟨fun _ => h, fun hw => absurd hw (by decide)⟩
  · exact ⟨fun hr => absurd hr (by decide), fun _ => h⟩

/-- A set of events is a subset of itself. -/
theorem subset_refl (s : Events) : s.Subset s := ⟨id, id⟩

/-- The empty set of events is a subset of every other. -/
theorem none_subset (s : Events) : none.Subset s :=
  ⟨fun h => absurd h (by decide), fun h => absurd h (by decide)⟩

/-- What is left after the rest is taken away is the part. -/
theorem diff_diff (h : s.Subset t) : t.diff (t.diff s) = s := by
  obtain ⟨sr, sw⟩ := s
  obtain ⟨tr, tw⟩ := t
  revert h
  cases sr <;> cases sw <;> cases tr <;> cases tw <;> simp [Subset, diff]

@[simp] theorem bits_single (e : Event) : (single e).bits = 1 := by cases e <;> rfl

end Events

/-! ### Slots -/

/-- The slot of a registration. -/
def EventContext.ofHandover (h : Handover) : EventContext :=
  match h.task with
  | .cb f => ⟨h.scheduler, none, some ⟨h.registration, f⟩⟩
  | .fiber f => ⟨h.scheduler, some ⟨h.registration, f⟩, none⟩

@[simp] theorem EventContext.handover_ofHandover (h : Handover) : (ofHandover h).handover = some h := by
  obtain ⟨r, sch, task⟩ := h
  cases task <;> rfl

namespace FdContext

variable {ctx : FdContext} {e : Event} {s : Events}

/-- The slot of a registered event holds its registration; any other slot is empty. -/
def Matches (ctx : FdContext) : Prop :=
  ∀ e, (ctx.event.has e = true → ∃ h, ctx.getContext e = .ofHandover h) ∧
    (ctx.event.has e = false → ctx.getContext e = .empty)

/-- The slots of a new context are empty. -/
theorem matches_new (fd : ℕ) : (new fd).Matches := by
  intro e
  cases e <;> exact ⟨fun h => absurd h (by simp [new, Events.none, Events.has]), fun _ => rfl⟩

/-- The context after the registrations of a set of events have ended. -/
def released (ctx : FdContext) (s : Events) : FdContext where
  rEvent := if s.read then .empty else ctx.rEvent
  wEvent := if s.write then .empty else ctx.wEvent
  fd := ctx.fd
  event := ctx.event.diff s

/-- When registrations end, their slots are emptied. -/
theorem Matches.released (h : ctx.Matches) (s : Events) : (ctx.released s).Matches := by
  intro e
  have he := h e
  obtain ⟨sr, sw⟩ := s
  cases e
  · cases sr <;> simp_all [FdContext.released, getContext, Events.has, Events.diff]
  · cases sw <;> simp_all [FdContext.released, getContext, Events.has, Events.diff]

@[simp] theorem released_none (ctx : FdContext) : ctx.released .none = ctx := by
  simp [released, Events.none, Events.diff]

/-- The context with one more registration. -/
def added (ctx : FdContext) (e : Event) (h : Handover) : FdContext :=
  { ctx with event := ctx.event.union (.single e) }.setContext e (.ofHandover h)

/-- When a registration is added its slot is filled. -/
theorem Matches.added (hm : ctx.Matches) (e : Event) (h : Handover) : (ctx.added e h).Matches := by
  intro e'
  have he := hm e'
  cases e <;> cases e' <;>
    simp_all [FdContext.added, setContext, getContext, Events.has, Events.union, Events.single]

/-- The live registrations before are those that end and those that stay. -/
theorem handovers_released (hs : s.Subset ctx.event) :
    (ctx.handovers ctx.event : Multiset Handover) =
      ctx.handovers s + (ctx.released s).handovers (ctx.released s).event := by
  obtain ⟨r, w, fd, ⟨er, ew⟩⟩ := ctx
  obtain ⟨sr, sw⟩ := s
  revert hs
  cases sr <;> cases sw <;> cases er <;> cases ew <;>
    simp [Events.Subset, handovers, released, Events.diff, add_comm]

/-- The registrations of a context with one more. -/
theorem handovers_added (hm : ctx.Matches) (he : ctx.event.has e = false) (h : Handover) :
    ((ctx.added e h).handovers (ctx.added e h).event : Multiset Handover) =
      ctx.handovers ctx.event + {h} := by
  obtain ⟨r, w, fd, ⟨er, ew⟩⟩ := ctx
  cases e <;> cases er <;> cases ew <;>
    simp_all [handovers, added, setContext, Events.has, Events.union, Events.single, add_comm]

/-- The registration of a registered event. -/
theorem Matches.handovers_single (hm : ctx.Matches) (he : ctx.event.has e = true) :
    ∃ h, ctx.getContext e = .ofHandover h ∧ ctx.handovers (.single e) = [h] ∧
      h ∈ ctx.handovers ctx.event := by
  obtain ⟨h, hslot⟩ := (hm e).1 he
  refine ⟨h, hslot, ?_⟩
  cases e <;> simp_all [handovers, getContext, Events.single, Events.has]

end FdContext

/-! ### What each section does -/

namespace Critical

variable {s : Critical} {e : Event} {k : Ending}

/-- The state after the registrations of a set of events were handed over. -/
def finished (s : Critical) (E : Events) : Critical where
  ctx := s.ctx.released E
  waitting := s.waitting - E.bits
  handed := s.handed ++ s.ctx.handovers E

@[simp] theorem finished_none (s : Critical) : s.finished .none = s := by
  have hnone : s.ctx.handovers .none = [] := rfl
  have hbits : Events.none.bits = 0 := rfl
  simp [finished, hnone, hbits]

/-- READ and then WRITE are handed over, or both at once. -/
theorem finished_finished (s : Critical) (r w : Bool) :
    (s.finished ⟨r, false⟩).finished ⟨false, w⟩ = s.finished ⟨r, w⟩ := by
  obtain ⟨⟨re, we, fd, ⟨er, ew⟩⟩, n, handed⟩ := s
  cases r <;> cases w <;>
    simp [finished, FdContext.released, FdContext.handovers, Events.diff, Events.bits]
  omega

/-- A registration in the slots of the context has no scheduler to run on. -/
def HasNullScheduler (s : Critical) : Prop :=
  ∃ h ∈ s.ctx.handovers s.ctx.event, h.scheduler = none

/-- The assertion of `triggerEvent` fails on an event that is not registered. -/
theorem triggerEvent_of_not_registered (he : s.ctx.event.has e = false) :
    s.triggerEvent e = .error (.notRegistered, s) := by
  unfold triggerEvent
  rw [he]
  rfl

/-- `triggerEvent` on a registered event hands its registration over and empties the slot,
    unless there is no scheduler. -/
theorem triggerEvent_of_registered (hm : s.ctx.Matches) (he : s.ctx.event.has e = true) :
    ((∃ t, s.triggerEvent e = .error (.nullScheduler, t)) ∧ s.HasNullScheduler) ∨
    s.triggerEvent e = .ok ⟨s.ctx.released (.single e), s.waitting,
      s.handed ++ s.ctx.handovers (.single e)⟩ := by
  obtain ⟨⟨n, sch, task⟩, hslot, hone, hmem⟩ := hm.handovers_single he
  have hget : ({ s.ctx with event := s.ctx.event.diff (.single e) } : FdContext).getContext e =
      s.ctx.getContext e := by cases e <;> rfl
  -- what is left of the slot after the task was swapped out
  have hrel : ({ s.ctx with event := s.ctx.event.diff (.single e) } : FdContext).setContext e .empty
      = s.ctx.released (.single e) := by
    cases e <;> simp [FdContext.setContext, FdContext.released, Events.single]
  cases sch with
  | none =>
    refine Or.inl ⟨⟨s.setEvent (s.ctx.event.diff (.single e)), ?_⟩, ⟨_, hmem, rfl⟩⟩
    unfold triggerEvent
    cases task <;> simp [he, setEvent, hget, hslot, EventContext.ofHandover]
  | some sch =>
    right
    rw [hone, ← hrel]
    unfold triggerEvent
    cases task <;>
      simp [he, setEvent, hget, hslot, EventContext.ofHandover, release, EventContext.empty]

/-- A failed assertion ends the program. -/
theorem finishEvent_of_not_registered (he : s.ctx.event.has e = false) :
    s.finishEvent e = .error (.notRegistered, s) := by
  unfold finishEvent
  rw [triggerEvent_of_not_registered he]
  rfl

/-- A registered event is handed over, unless it has no scheduler. -/
theorem finishEvent_of_registered (hm : s.ctx.Matches) (he : s.ctx.event.has e = true) :
    ((∃ t, s.finishEvent e = .error (.nullScheduler, t)) ∧ s.HasNullScheduler) ∨
    s.finishEvent e = .ok (s.finished (.single e)) := by
  unfold finishEvent
  rcases triggerEvent_of_registered hm he with ⟨⟨t, ht⟩, hnull⟩ | hok
  · exact Or.inl ⟨⟨t, by rw [ht]; rfl⟩, hnull⟩
  · right
    rw [hok]
    simp [finished, decrement, bind, Except.bind, pure, Except.pure]

/-- READ and then WRITE are triggered, each if it is in the set. -/
def finishEvents (s : Critical) (E : Events) : Result Critical := do
  let s ← s.finishIf E.read .read
  s.finishIf E.write .write

/-- `finishEvent` under a condition: it finds a null scheduler, ends the registration where it is
    asked to, or runs into its assertion. -/
theorem finishIf_spec (hm : s.ctx.Matches) (b : Bool) (e : Event) :
    ((∃ t, s.finishIf b e = .error (.nullScheduler, t)) ∧ s.HasNullScheduler) ∨
    ((b = true → s.ctx.event.has e = true) ∧
      s.finishIf b e = .ok (s.finished (if b then .single e else .none))) ∨
    ((b = true ∧ s.ctx.event.has e = false) ∧ s.finishIf b e = .error (.notRegistered, s)) := by
  unfold finishIf
  cases b with
  | false => exact Or.inr (Or.inl ⟨fun h => absurd h (by decide), by simp⟩)
  | true =>
    -- the assertion of `triggerEvent` asks for the bit
    cases he : s.ctx.event.has e with
    | false => exact Or.inr (Or.inr ⟨⟨rfl, rfl⟩, finishEvent_of_not_registered he⟩)
    | true =>
      rcases finishEvent_of_registered hm he with hnull | hok
      · exact Or.inl hnull
      · exact Or.inr (Or.inl ⟨fun _ => rfl, hok⟩)

/-- Handing over some registrations leaves no registration that was not there. -/
theorem HasNullScheduler.of_finished {E : Events} (hE : E.Subset s.ctx.event)
    (h : (s.finished E).HasNullScheduler) : s.HasNullScheduler := by
  obtain ⟨x, hx, hnull⟩ := h
  refine ⟨x, ?_, hnull⟩
  have hmem : x ∈ (s.ctx.handovers s.ctx.event : Multiset Handover) := by
    rw [FdContext.handovers_released hE]
    exact Multiset.mem_add.mpr (Or.inr hx)
  exact hmem

/-- Triggering a set of events: without a scheduler the program ends; if all of them are
    registered they are finished; and otherwise an assertion fails after those before the
    first one that is not registered are finished. -/
theorem finishEvents_spec (hm : s.ctx.Matches) (E : Events) :
    ((∃ t, s.finishEvents E = .error (.nullScheduler, t)) ∧ s.HasNullScheduler) ∨
    (E.Subset s.ctx.event ∧ s.finishEvents E = .ok (s.finished E)) ∨
    (¬ E.Subset s.ctx.event ∧ ∃ E' : Events, E'.Subset s.ctx.event ∧
      s.finishEvents E = .error (.notRegistered, s.finished E')) := by
  obtain ⟨r, w⟩ := E
  unfold finishEvents
  have hfirst : (if r then Events.single .read else .none) = ⟨r, false⟩ := by cases r <;> rfl
  have hsecond : (if w then Events.single .write else .none) = ⟨false, w⟩ := by cases w <;> rfl
  rcases finishIf_spec hm r .read with ⟨⟨t, ht⟩, hnull⟩ | ⟨hr, hok⟩ | ⟨⟨hr, hclear⟩, herr⟩
  · exact Or.inl ⟨⟨t, by rw [ht]; rfl⟩, hnull⟩
  · rw [hfirst] at hok
    have hsub : Events.Subset ⟨r, false⟩ s.ctx.event := ⟨hr, fun h => absurd h (by simp)⟩
    -- ending READ leaves the WRITE bit as it was
    have hbit : (s.finished ⟨r, false⟩).ctx.event.has .write = s.ctx.event.has .write := by
      simp [finished, FdContext.released, Events.diff, Events.has]
    rw [hok]
    change ((∃ t, (s.finished ⟨r, false⟩).finishIf w .write = _) ∧ _) ∨
      (_ ∧ (s.finished ⟨r, false⟩).finishIf w .write = _) ∨
      (_ ∧ ∃ E' : Events, _ ∧ (s.finished ⟨r, false⟩).finishIf w .write = _)
    rcases finishIf_spec (s := s.finished ⟨r, false⟩) (hm.released _) w .write
      with ⟨ht, hnull⟩ | ⟨hw, hok'⟩ | ⟨⟨hw, hclear⟩, herr⟩
    · exact Or.inl ⟨ht, hnull.of_finished hsub⟩
    · rw [hbit] at hw
      rw [hsecond, finished_finished] at hok'
      exact Or.inr (Or.inl ⟨⟨hr, hw⟩, hok'⟩)
    · rw [hbit] at hclear
      refine Or.inr (Or.inr ⟨fun hall => ?_, ⟨r, false⟩, hsub, herr⟩)
      exact Bool.false_ne_true (hclear.symm.trans (hall.2 hw))
  · refine Or.inr (Or.inr ⟨fun hall => ?_, .none, Events.none_subset _, ?_⟩)
    · exact Bool.false_ne_true (hclear.symm.trans (hall.1 hr))
    · rw [herr, finished_none]
      rfl

/-! ### Sections that end registrations -/

/-- Everything a section that ends registrations can do: it ends the program for lack of a
    scheduler; or the registrations of a set of registered events have ended and, unless the
    section is that of `delEvent`, were handed over.  A section that returns `false` ends
    none, and only a dispatch can fail an assertion. -/
def EndsWith (s : Critical) (k : Ending) (r : Result (Option Bool × Critical)) : Prop :=
  ((∃ t, r = .error (.nullScheduler, t)) ∧ s.HasNullScheduler) ∨
  ∃ (E : Events) (returned : Option Bool) (fault : Option EventFault),
    E.Subset s.ctx.event ∧
    EventRun.outcome r = (⟨s.ctx.released E, s.waitting - E.bits,
      s.handed ++ if k = .delEvent then [] else s.ctx.handovers E⟩, returned, fault) ∧
    (returned = some false → E = .none) ∧
    (fault = none ∨ (fault = some .notRegistered ∧ k = .dispatch))

/-- A section that does nothing. -/
theorem EndsWith.of_nothing (s : Critical) (k : Ending) (returned : Option Bool) :
    s.EndsWith k (.ok (returned, s)) := by
  refine Or.inr ⟨.none, returned, none, Events.none_subset _, ?_, fun _ => rfl, Or.inl rfl⟩
  have hnone : s.ctx.handovers .none = [] := rfl
  have hbits : Events.none.bits = 0 := rfl
  simp [EventRun.outcome, hnone, hbits]

/-- `delEvent` ends one registration. -/
theorem delEvent_endsWith (he : Event) (epollCtl : Bool) :
    s.EndsWith .delEvent (EventRun.returning (s.delEvent he epollCtl)) := by
  unfold delEvent
  split
  · exact .of_nothing s _ _
  · rename_i hreg
    have hreg : s.ctx.event.has he = true := by simpa using hreg
    dsimp only
    split
    · exact .of_nothing s _ _
    -- the slot is emptied without being handed over
    · refine Or.inr ⟨.single he, some true, none, Events.single_subset hreg, ?_, by simp, Or.inl rfl⟩
      cases he <;>
        simp [EventRun.returning, EventRun.outcome, Except.map, decrement, setEvent,
          FdContext.resetContext, FdContext.setContext, FdContext.released, Events.single, Events.bits]

/-- `cancelEvent` ends one registration and hands it over. -/
theorem cancelEvent_endsWith (hm : s.ctx.Matches) (he : Event) (epollCtl : Bool) :
    s.EndsWith .cancelEvent (EventRun.returning (s.cancelEvent he epollCtl)) := by
  unfold cancelEvent
  split
  · exact .of_nothing s _ _
  · rename_i hreg
    have hreg : s.ctx.event.has he = true := by simpa using hreg
    split
    · exact .of_nothing s _ _
    -- the bit is set, so only a null scheduler is in the way
    · rcases finishEvent_of_registered hm hreg with ⟨⟨t, ht⟩, hnull⟩ | hok
      · exact Or.inl ⟨⟨t, by rw [ht]; rfl⟩, hnull⟩
      · refine Or.inr ⟨.single he, some true, none, Events.single_subset hreg, ?_, by simp, Or.inl rfl⟩
        rw [hok]
        rfl

/-- The second test of `cancelAll` reads the WRITE bit after READ was triggered, which has
    left it as it was. -/
theorem cancelAll_body (hm : s.ctx.Matches) (f : Critical → Result (Bool × Critical)) :
    (do
      let t ← s.finishIf s.ctx.event.read .read
      let t ← t.finishIf t.ctx.event.write .write
      f t) = (s.finishEvents s.ctx.event).bind f := by
  unfold finishEvents
  rcases finishIf_spec hm s.ctx.event.read .read with ⟨⟨t, ht⟩, -⟩ | ⟨-, hok⟩ | ⟨-, herr⟩
  · rw [ht]
    rfl
  -- what is done for reading leaves the bit for writing as it was
  · have hbit : (s.finished (if s.ctx.event.read then .single .read else .none)).ctx.event.write
        = s.ctx.event.write := by
      cases hr : s.ctx.event.read <;>
        simp [finished, FdContext.released, Events.diff, Events.single, Events.none]
    rw [hok]
    change ((s.finished _).finishIf (s.finished _).ctx.event.write .write).bind f = _
    rw [hbit]
    rfl
  · rw [herr]
    rfl

/-- `cancelAll` finishes the registered events, and its last assertion holds. -/
theorem cancelAll_endsWith (hm : s.ctx.Matches) (epollCtl : Bool) :
    s.EndsWith .cancelAll (EventRun.returning (s.cancelAll epollCtl)) := by
  unfold cancelAll
  split
  · exact .of_nothing s _ _
  · split
    · exact .of_nothing s _ _
    · rw [cancelAll_body hm]
      rcases finishEvents_spec hm s.ctx.event with ⟨⟨t, ht⟩, hnull⟩ | ⟨-, hok⟩ | ⟨hnot, -⟩
      · exact Or.inl ⟨⟨t, by rw [ht]; rfl⟩, hnull⟩
      -- all bits are taken away, as the last assertion of `cancelAll` says
      · have hempty : (s.finished s.ctx.event).ctx.event = .none := by
          simp [finished, FdContext.released, Events.diff, Events.none]
        refine Or.inr ⟨s.ctx.event, some true, none, Events.subset_refl _, ?_, by simp, Or.inl rfl⟩
        rw [hok]
        change EventRun.outcome (EventRun.returning (if _ then _ else _)) = _
        rw [if_pos hempty]
        rfl
      · exact absurd (Events.subset_refl _) hnot

/-- `idle` ends the registrations of its report. -/
theorem dispatch_endsWith (hm : s.ctx.Matches) (r : Report) (epollCtl : Bool) :
    s.EndsWith .dispatch ((s.dispatch r epollCtl).map (fun t => (none, t))) := by
  unfold dispatch
  dsimp only
  split
  · exact .of_nothing s _ _
  · split
    · exact .of_nothing s _ _
    · change s.EndsWith .dispatch ((s.finishEvents (r.realEvent s.ctx.event)).map _)
      rcases finishEvents_spec hm (r.realEvent s.ctx.event)
        with ⟨⟨t, ht⟩, hnull⟩ | ⟨hsub, hok⟩ | ⟨-, E', hsub, herr⟩
      · exact Or.inl ⟨⟨t, by rw [ht]; rfl⟩, hnull⟩
      · exact Or.inr ⟨_, none, none, hsub, by rw [hok]; rfl, by simp, Or.inl rfl⟩
      -- an event that is reported and not registered any more runs into the assertion, after the
      -- others
      · exact Or.inr ⟨E', none, some .notRegistered, hsub, by rw [herr]; rfl, by simp,
          Or.inr ⟨rfl, rfl⟩⟩

/-- The assertion of `triggerEvent` holds in a dispatch whose events are all registered, or
    all gone, or for which `epoll_ctl` fails. -/
theorem dispatch_of_registered (hm : s.ctx.Matches) {r : Report} {epollCtl : Bool}
    (h : epollCtl = true → s.ctx.event.inter (r.realEvent s.ctx.event) = .none ∨
      (r.realEvent s.ctx.event).Subset s.ctx.event) (t : Critical) :
    s.dispatch r epollCtl ≠ .error (.notRegistered, t) := by
  unfold dispatch
  dsimp only
  split
  · simp
  · rename_i hinter
    split
    · simp
    · rename_i hctl
      -- with `EPOLL_CTL` done the report is either of no event of the context or of its own
      have hsub := (h (by simpa using hctl)).resolve_left hinter
      change s.finishEvents (r.realEvent s.ctx.event) ≠ _
      rcases finishEvents_spec hm (r.realEvent s.ctx.event)
        with ⟨⟨t, ht⟩, -⟩ | ⟨-, hok⟩ | ⟨hnot, -⟩
      · rw [ht]
        simp
      · rw [hok]
        simp
      · exact absurd hsub hnot

/-! ### The section that adds a registration -/

/-- Everything `addEvent` can do: it returns `-1` and changes nothing; or the event was
    free and its slot now holds the registration `h`. -/
def AddsWith (s : Critical) (e : Event) (h : Handover) (r : Result (Option Bool × Critical)) :
    Prop :=
  EventRun.outcome r = (s, some false, none) ∨
  (s.ctx.event.has e = false ∧ ∃ (returned : Option Bool) (fault : Option EventFault),
    EventRun.outcome r = (⟨s.ctx.added e h, s.waitting + 1, s.handed⟩, returned, fault) ∧
    returned ≠ some false ∧ (fault = none ∨ fault = some .fiberNotExec))

/-- `addEvent` finds the slot of a free event empty, so its first assertion holds. -/
theorem addEvent_addsWith (hm : s.ctx.Matches) (e : Event) (caller : Caller) (cb : Option ℕ)
    (number : ℕ) (epollCtl : Bool) :
    s.AddsWith e (EventRun.registration number caller cb)
      (EventRun.returning (s.addEvent e caller cb number epollCtl)) := by
  unfold addEvent
  split
  · exact Or.inl rfl
  · rename_i hfree
    have hfree : s.ctx.event.has e = false := by simpa using hfree
    split
    · exact Or.inl rfl
    -- a bit that is clear has an empty slot, so the assertion on the slot holds
    · have hslot : ({ s.ctx with event := s.ctx.event.union (.single e) } : FdContext).getContext e
          = .empty := by
        rw [← (hm e).2 hfree]
        cases e <;> rfl
      refine Or.inr ⟨hfree, ?_⟩
      cases cb with
      | some f =>
        refine ⟨some true, none, ?_, by simp, Or.inl rfl⟩
        simp [setEvent, hslot, EventContext.empty, EventRun.returning, EventRun.outcome, Except.map,
          FdContext.added, EventRun.registration, EventContext.ofHandover]
      | none =>
        cases hexec : caller.isExec
        -- without a callback the caller has to be a fiber in `EXEC`
        · refine ⟨none, some .fiberNotExec, ?_, by simp, Or.inr rfl⟩
          simp [setEvent, hslot, EventContext.empty, EventRun.returning, EventRun.outcome, Except.map,
            FdContext.added, EventRun.registration, EventContext.ofHandover]
        · refine ⟨some true, none, ?_, by simp, Or.inl rfl⟩
          simp [setEvent, hslot, EventContext.empty, EventRun.returning, EventRun.outcome, Except.map,
            FdContext.added, EventRun.registration, EventContext.ofHandover]

end Critical

end LoNetfw.Scheduler
