import LoNetfw.Scheduler.EventSection
import Mathlib.Data.List.Range

namespace LoNetfw.Scheduler

open Basis

/-!
# `IOScheduler` — event accounting and delivery

The history of an interleaving balances: what was registered is what is live and what has
ended, and what was handed over is what has ended other than by `delEvent`.

* `EventRun.Inv` — the balance, the counter equal to the number of bits, and the contexts in
  order;
* `step_inv` — a step keeps it, or ends the program for lack of a scheduler;
* `event_accounting` — the counter, and the assertion of `triggerEvent`, when no report is
  stale in part;
* `exactly_once_delivery` — every registration is handed over at most once, and exactly as
  often as the way it ended says.
-/

namespace EventRun

variable {s s' : EventRun} {a : EventAction} {c : ℕ}

/-! ### The balance -/

structure Inv (s : EventRun) : Prop where
  slots : ∀ c < s.size, (s.contexts c).Matches
  count : s.waitting = s.bits
  /-- What was handed over is what ended other than by `delEvent`, in that order. -/
  handed : s.handed = (s.ended.filter (fun p => p.2 ≠ .delEvent)).map Prod.fst
  /-- What was registered is live or has ended. -/
  registered : (s.registered : Multiset Handover) = s.live + (s.ended.map Prod.fst : List Handover)
  numbered : s.registered.map Handover.registration = List.range s.registered.length
  fault : s.fault = none ∨ s.fault = some .notRegistered ∨ s.fault = some .fiberNotExec

/-- There are no contexts at first. -/
theorem inv_new : new.Inv where
  slots := fun c hc => absurd hc (Nat.not_lt_zero c)
  count := rfl
  handed := rfl
  registered := rfl
  numbered := rfl
  fault := Or.inl rfl

/-- The bits after a section that has cleared the bits of `E`. -/
theorem bits_released {E : Events} (hc : c < s.size) (hE : E.Subset (s.contexts c).event)
    {t : Critical} (ht : t.ctx = (s.contexts c).released E) :
    (s.store c t).bits + E.bits = s.bits := by
  have hstore : (s.store c t).bits + (s.contexts c).event.bits = s.bits + t.ctx.event.bits :=
    sum_range_update s.contexts (fun ctx => ctx.event.bits) hc t.ctx
  have hdiff := Events.bits_diff hE
  rw [ht] at hstore
  change _ = s.bits + ((s.contexts c).event.diff E).bits at hstore
  omega

/-- The live registrations after a section that has ended those of `E`. -/
theorem live_released {E : Events} (hc : c < s.size) (hE : E.Subset (s.contexts c).event)
    {t : Critical} (ht : t.ctx = (s.contexts c).released E) :
    s.live = (s.store c t).live + ((s.contexts c).handovers E : Multiset Handover) := by
  have hstore : (s.store c t).live + ((s.contexts c).handovers (s.contexts c).event : Multiset Handover)
      = s.live + (t.ctx.handovers t.ctx.event : Multiset Handover) :=
    sum_range_update s.contexts
      (fun ctx => (ctx.handovers ctx.event : Multiset Handover)) hc t.ctx
  rw [FdContext.handovers_released hE, ← ht, ← add_assoc] at hstore
  exact (add_right_cancel hstore).symm

/-- The bits and the live registrations after `addEvent` on a free event. -/
theorem bits_added {e : Event} {x : Handover} (hc : c < s.size)
    (hfree : (s.contexts c).event.has e = false) {t : Critical}
    (ht : t.ctx = (s.contexts c).added e x) : (s.store c t).bits = s.bits + 1 := by
  have hstore : (s.store c t).bits + (s.contexts c).event.bits = s.bits + t.ctx.event.bits :=
    sum_range_update s.contexts (fun ctx => ctx.event.bits) hc t.ctx
  have hone : t.ctx.event.bits = (s.contexts c).event.bits + 1 := by
    rw [ht]
    cases e <;> simp_all [FdContext.added, FdContext.setContext, Events.union, Events.single,
      Events.has, Events.bits]
    omega
  omega

/-- A registration is live from `addEvent` on. -/
theorem live_added {e : Event} {x : Handover} (hm : (s.contexts c).Matches) (hc : c < s.size)
    (hfree : (s.contexts c).event.has e = false) {t : Critical}
    (ht : t.ctx = (s.contexts c).added e x) : (s.store c t).live = s.live + {x} := by
  have hstore : (s.store c t).live + ((s.contexts c).handovers (s.contexts c).event : Multiset Handover)
      = s.live + (t.ctx.handovers t.ctx.event : Multiset Handover) :=
    sum_range_update s.contexts
      (fun ctx => (ctx.handovers ctx.event : Multiset Handover)) hc t.ctx
  rw [ht, FdContext.handovers_added hm hfree, ← add_assoc, add_right_comm] at hstore
  exact add_right_cancel hstore

/-- A section leaves slots and events in agreement. -/
theorem slots_store (h : ∀ c < s.size, (s.contexts c).Matches) {t : Critical}
    (ht : t.ctx.Matches) : ∀ i < s.size, ((s.store c t).contexts i).Matches := by
  intro i hi
  by_cases hic : i = c
  · subst hic
    simpa [store] using ht
  · simpa [store, hic] using h i hi

/-- The registrations of a context are live. -/
theorem mem_live (hc : c < s.size) {h : Handover}
    (hh : h ∈ (s.contexts c).handovers (s.contexts c).event) : h ∈ s.live := by
  unfold live
  rw [Multiset.mem_sum]
  exact ⟨c, Finset.mem_range.mpr hc, hh⟩

/-! ### One step -/

/-- The run has ended at a fault. -/
theorem step_of_fault {f : EventFault} (h : s.fault = some f) : step s a = none := by
  cases a <;> simp [step, h]

/-- A section that ends registrations keeps the invariant. -/
theorem runEnding_inv (h : s.Inv) (hc : c < s.size) {k : Ending}
    {r : Critical.Result (Option Bool × Critical)} {E : Events} {t : Critical}
    {returned : Option Bool} {fault : Option EventFault} (hE : E.Subset (s.contexts c).event)
    (hr : outcome r = (t, returned, fault))
    (ht : t = ⟨(s.contexts c).released E, s.waitting - E.bits,
      s.handed ++ if k = .delEvent then [] else (s.contexts c).handovers E⟩)
    (hfault : fault = none ∨ (fault = some .notRegistered ∧ k = .dispatch)) :
    (s.runEnding c k r).Inv := by
  have hctx : t.ctx = (s.contexts c).released E := by rw [ht]
  -- the bits that the section has cleared are those of `E`
  have hendings : endings k (s.contexts c) t.ctx =
      ((s.contexts c).handovers E).map (fun h => (h, k)) := by
    unfold endings
    rw [hctx]
    show ((s.contexts c).handovers ((s.contexts c).event.diff ((s.contexts c).event.diff E))).map _ = _
    rw [Events.diff_diff hE]
  unfold runEnding
  rw [hr]
  dsimp only
  rw [hendings]
  refine ⟨slots_store h.slots (hctx ▸ (h.slots c hc).released E), ?_, ?_, ?_, h.numbered, ?_⟩
  · have hbits := bits_released hc hE hctx
    have hcount := h.count
    have hwait : t.waitting = s.waitting - E.bits := by rw [ht]
    show t.waitting = ((s.store c t).bits : ℤ)
    omega
  · show t.handed = _
    rw [ht, h.handed, List.filter_append, List.map_append, List.filter_map, List.map_map]
    by_cases hk : k = .delEvent
    · subst hk
      simp [Function.comp_def]
    · simp [Function.comp_def, hk]
  · have hfst : (((s.contexts c).handovers E).map (fun h => (h, k))).map Prod.fst
        = (s.contexts c).handovers E := by simp [Function.comp_def]
    show (s.registered : Multiset Handover) = (s.store c t).live + _
    rw [h.registered, live_released hc hE hctx, List.map_append, hfst, ← Multiset.coe_add,
      add_assoc, add_comm (((s.contexts c).handovers E : List Handover) : Multiset Handover)]
  · rcases hfault with rfl | ⟨rfl, -⟩
    · exact Or.inl rfl
    · exact Or.inr (Or.inl rfl)

/-- A section of `addEvent` that succeeds keeps the invariant. -/
theorem runAdd_inv (h : s.Inv) (hc : c < s.size) {e : Event} {x : Handover}
    {r : Critical.Result (Option Bool × Critical)} {t : Critical} {returned : Option Bool}
    {fault : Option EventFault} (hfree : (s.contexts c).event.has e = false)
    (hx : x.registration = s.registered.length) (hr : outcome r = (t, returned, fault))
    (ht : t = ⟨(s.contexts c).added e x, s.waitting + 1, s.handed⟩)
    (hfault : fault = none ∨ fault = some .fiberNotExec) :
    (s.runAdd c e x r).Inv := by
  have hctx : t.ctx = (s.contexts c).added e x := by rw [ht]
  -- the bit was clear and is set now: one more registration is live
  have hset : t.ctx.event.has e = true := by
    rw [hctx]
    cases e <;> simp [FdContext.added, FdContext.setContext, Events.union, Events.single, Events.has]
  unfold runAdd
  rw [hr]
  dsimp only
  rw [hset, hfree]
  refine ⟨slots_store h.slots (hctx ▸ (h.slots c hc).added e x), ?_, ?_, ?_, ?_, ?_⟩
  · have hbits : (s.store c t).bits = s.bits + 1 := bits_added hc hfree hctx
    have hcount := h.count
    -- `m_waittingEventCnt` goes up with the bits
    have hwait : t.waitting = s.waitting + 1 := by rw [ht]
    show t.waitting = ((s.store c t).bits : ℤ)
    omega
  · show t.handed = _
    rw [ht]
    exact h.handed
  · show ((s.registered ++ [x] : List Handover) : Multiset Handover) = (s.store c t).live + _
    rw [← Multiset.coe_add, h.registered, live_added (h.slots c hc) hc hfree hctx]
    exact add_right_comm _ _ ({x} : Multiset Handover)
  · show (s.registered ++ [x]).map _ = List.range (s.registered ++ [x]).length
    rw [List.map_append, h.numbered, List.length_append, List.length_singleton, List.range_succ,
      List.map_singleton, hx]
  · rcases hfault with rfl | rfl
    · exact Or.inl rfl
    · exact Or.inr (Or.inr rfl)

/-- A section that changes nothing but the return value. -/
theorem Inv.of_same (h : s.Inv) (hcontexts : s'.contexts = s.contexts) (hsize : s'.size = s.size)
    (hwait : s'.waitting = s.waitting) (hhanded : s'.handed = s.handed)
    (hreg : s'.registered = s.registered) (hended : s'.ended = s.ended)
    (hfault : s'.fault = none) : s'.Inv := by
  have hbits : s'.bits = s.bits := by rw [bits, hcontexts, hsize, bits]
  have hlive : s'.live = s.live := by rw [live, hcontexts, hsize, live]
  refine ⟨?_, ?_, ?_, ?_, ?_, Or.inl hfault⟩
  · rw [hcontexts, hsize]
    exact h.slots
  · rw [hwait, hbits, h.count]
  · rw [hhanded, hended, h.handed]
  · rw [hreg, hlive, hended, h.registered]
  · rw [hreg, h.numbered]

/-- A new context has no bits and no registrations. -/
theorem newContext_inv (h : s.Inv) (hfault : s.fault = none) (fd : ℕ) :
    Inv { s with
      contexts := Function.update s.contexts s.size (.new fd), size := s.size + 1, returned := none } := by
  -- a new context has neither bits nor slots in use
  have hold : ∀ c < s.size, Function.update s.contexts s.size (.new fd) c = s.contexts c :=
    fun c hc => Function.update_of_ne (Nat.ne_of_lt hc) _ _
  refine ⟨fun c hc => ?_, ?_, h.handed, ?_, h.numbered, Or.inl hfault⟩
  · rcases Nat.lt_succ_iff_lt_or_eq.mp hc with hc | rfl
    · show (Function.update s.contexts s.size (.new fd) c).Matches
      rw [hold c hc]
      exact h.slots c hc
    · show (Function.update s.contexts s.size (.new fd) s.size).Matches
      rw [Function.update_self]
      exact FdContext.matches_new fd
  · have hbits := sum_range_extend s.contexts (fun ctx => ctx.event.bits) s.size (.new fd)
    exact h.count.trans (congrArg Nat.cast hbits.symm)
  · have hlive := sum_range_extend s.contexts
      (fun ctx => (ctx.handovers ctx.event : Multiset Handover)) s.size (.new fd)
    rw [show (FdContext.new fd).handovers (FdContext.new fd).event = [] from rfl,
      Multiset.coe_nil, add_zero] at hlive
    exact h.registered.trans (congrArg (· + _) hlive.symm)

/-- What a section that ends registrations leaves of an interleaving with the invariant. -/
theorem runEnding_of_endsWith (h : s.Inv) (hc : c < s.size) {k : Ending}
    {r : Critical.Result (Option Bool × Critical)} (hr : (s.critical c).EndsWith k r) :
    (s.runEnding c k r).fault = some .nullScheduler ∧ (∃ x ∈ s.registered, x.scheduler = none) ∨
    (s.runEnding c k r).Inv ∧
      ((s.runEnding c k r).returned = some false → (s.runEnding c k r).contexts = s.contexts) := by
  rcases hr with ⟨⟨t, rfl⟩, x, hx, hnull⟩ | ⟨E, returned, fault, hE, hout, hret, hfault⟩
  · refine Or.inl ⟨rfl, x, ?_, hnull⟩
    -- the null scheduler was registered with the event
    have hmem : x ∈ (s.registered : Multiset Handover) := by
      rw [h.registered]
      exact Multiset.mem_add.mpr (Or.inl (mem_live hc hx))
    exact hmem
  · refine Or.inr ⟨runEnding_inv h hc hE hout rfl hfault, fun hfalse => ?_⟩
    unfold runEnding at hfalse ⊢
    rw [hout] at hfalse ⊢
    rw [hret hfalse]
    show Function.update s.contexts c ((s.contexts c).released .none) = s.contexts
    rw [FdContext.released_none, Function.update_eq_self]

/-- **Step lemma.** A step ends the program because some registration has no scheduler, or
    keeps the invariant; and if it returns `-1` or `false` it leaves every context. -/
theorem step_inv (h : s.Inv) (hstep : step s a = some s') :
    (s'.fault = some .nullScheduler ∧ ∃ x ∈ s.registered, x.scheduler = none) ∨
    s'.Inv ∧ (s'.returned = some false → s'.contexts = s.contexts) := by
  cases a with
  | newContext fd =>
    simp only [step, Option.ite_none_right_eq_some, Option.some.injEq] at hstep
    obtain ⟨hfault, rfl⟩ := hstep
    exact Or.inr ⟨newContext_inv h hfault fd, fun hfalse => absurd hfalse (by simp)⟩
  | addEvent c e caller cb epollCtl =>
    simp only [step, Option.ite_none_right_eq_some, Option.some.injEq] at hstep
    obtain ⟨⟨hfault, hc⟩, rfl⟩ := hstep
    right
    rcases Critical.addEvent_addsWith (s := s.critical c) (h.slots c hc) e caller cb
      s.registered.length epollCtl with hout | ⟨hfree, returned, fault, hout, hret, hf⟩
    · -- `addEvent` returns `-1`
      have hsame : (s.store c (s.critical c)).contexts = s.contexts := Function.update_eq_self c _
      have hbit : ((s.critical c).ctx.event.has e && !(s.contexts c).event.has e) = false :=
        Bool.and_not_self _
      unfold runAdd
      rw [hout]
      dsimp only
      rw [hbit]
      exact ⟨h.of_same hsame rfl rfl rfl rfl rfl rfl, fun _ => hsame⟩
    · refine ⟨runAdd_inv h hc hfree rfl hout rfl hf, fun hfalse => ?_⟩
      unfold runAdd at hfalse
      rw [hout] at hfalse
      exact absurd hfalse hret
  | delEvent c e epollCtl =>
    simp only [step, Option.ite_none_right_eq_some, Option.some.injEq] at hstep
    obtain ⟨⟨-, hc⟩, rfl⟩ := hstep
    exact runEnding_of_endsWith h hc (Critical.delEvent_endsWith e epollCtl)
  | cancelEvent c e epollCtl =>
    simp only [step, Option.ite_none_right_eq_some, Option.some.injEq] at hstep
    obtain ⟨⟨-, hc⟩, rfl⟩ := hstep
    exact runEnding_of_endsWith h hc (Critical.cancelEvent_endsWith (h.slots c hc) e epollCtl)
  | cancelAll c epollCtl =>
    simp only [step, Option.ite_none_right_eq_some, Option.some.injEq] at hstep
    obtain ⟨⟨-, hc⟩, rfl⟩ := hstep
    exact runEnding_of_endsWith h hc (Critical.cancelAll_endsWith (h.slots c hc) epollCtl)
  -- `epoll_wait` only notes its report
  | epollWait r =>
    simp only [step, Option.ite_none_right_eq_some, Option.some.injEq] at hstep
    obtain ⟨⟨hfault, -⟩, rfl⟩ := hstep
    exact Or.inr ⟨h.of_same rfl rfl rfl rfl rfl rfl hfault, fun _ => rfl⟩
  | dispatch r epollCtl =>
    simp only [step, Option.ite_none_right_eq_some, Option.some.injEq] at hstep
    obtain ⟨⟨hfault, -, hc⟩, rfl⟩ := hstep
    -- the report is used up
    have hinv : Inv { s with reports := s.reports.erase r } :=
      h.of_same rfl rfl rfl rfl rfl rfl hfault
    exact runEnding_of_endsWith hinv hc (Critical.dispatch_endsWith (h.slots _ hc) r epollCtl)

/-! ### Event accounting -/

/-- The events taken from a report are all registered or all gone, or `epoll_ctl` fails. -/
def AllOrNone (r : Report) (event : Events) (epollCtl : Bool) : Prop :=
  epollCtl = true → event.inter (r.realEvent event) = .none ∨ (r.realEvent event).Subset event

instance (r : Report) (event : Events) (epollCtl : Bool) : Decidable (AllOrNone r event epollCtl) :=
  inferInstanceAs (Decidable (epollCtl = true →
    event.inter (r.realEvent event) = .none ∨ (r.realEvent event).Subset event))

/-- The condition on a step: a report is not stale in part when a thread gets the lock for
    it. -/
def NotStaleInPart (s : EventRun) : EventAction → Prop
  | .dispatch r epollCtl => AllOrNone r (s.contexts r.context).event epollCtl
  | _ => True

instance (s : EventRun) : (a : EventAction) → Decidable (s.NotStaleInPart a)
  | .dispatch r epollCtl => inferInstanceAs (Decidable (AllOrNone r (s.contexts r.context).event epollCtl))
  | .newContext _ | .addEvent _ _ _ _ _ | .delEvent _ _ _ | .cancelEvent _ _ _ | .cancelAll _ _
  | .epollWait _ => .isTrue trivial

/-- Only a report can be about events that are gone. -/
theorem not_notRegistered_of_endsWith {t : Critical} {k : Ending}
    {r : Critical.Result (Option Bool × Critical)} (h : t.EndsWith k r) (hk : k ≠ .dispatch) :
    (outcome r).2.2 ≠ some .notRegistered := by
  rcases h with ⟨⟨u, rfl⟩, -⟩ | ⟨E, returned, fault, -, hout, -, hfault⟩
  · simp [outcome]
  · rw [hout]
    rcases hfault with rfl | ⟨-, hdispatch⟩
    · simp
    · exact absurd hdispatch hk

/-- The assertion of `triggerEvent` does not fail in a step that meets the condition. -/
theorem step_not_notRegistered (h : s.Inv) (hC : s.NotStaleInPart a) (hstep : step s a = some s') :
    s'.fault ≠ some .notRegistered := by
  cases a with
  | newContext fd =>
    simp only [step, Option.ite_none_right_eq_some, Option.some.injEq] at hstep
    obtain ⟨hfault, rfl⟩ := hstep
    simp [hfault]
  -- only `idle`'s section can find its event gone, which `NotStaleInPart` rules out
  | addEvent c e caller cb epollCtl =>
    simp only [step, Option.ite_none_right_eq_some, Option.some.injEq] at hstep
    obtain ⟨⟨-, hc⟩, rfl⟩ := hstep
    show (outcome _).2.2 ≠ _
    rcases Critical.addEvent_addsWith (s := s.critical c) (h.slots c hc) e caller cb
      s.registered.length epollCtl with hout | ⟨-, returned, fault, hout, -, rfl | rfl⟩ <;>
      rw [hout] <;> simp
  | delEvent c e epollCtl =>
    simp only [step, Option.ite_none_right_eq_some, Option.some.injEq] at hstep
    obtain ⟨-, rfl⟩ := hstep
    exact not_notRegistered_of_endsWith (Critical.delEvent_endsWith (s := s.critical c) e epollCtl)
      (by decide)
  | cancelEvent c e epollCtl =>
    simp only [step, Option.ite_none_right_eq_some, Option.some.injEq] at hstep
    obtain ⟨⟨-, hc⟩, rfl⟩ := hstep
    exact not_notRegistered_of_endsWith
      (Critical.cancelEvent_endsWith (s := s.critical c) (h.slots c hc) e epollCtl) (by decide)
  | cancelAll c epollCtl =>
    simp only [step, Option.ite_none_right_eq_some, Option.some.injEq] at hstep
    obtain ⟨⟨-, hc⟩, rfl⟩ := hstep
    exact not_notRegistered_of_endsWith
      (Critical.cancelAll_endsWith (s := s.critical c) (h.slots c hc) epollCtl) (by decide)
  | epollWait r =>
    simp only [step, Option.ite_none_right_eq_some, Option.some.injEq] at hstep
    obtain ⟨⟨hfault, -⟩, rfl⟩ := hstep
    simp [hfault]
  | dispatch r epollCtl =>
    simp only [step, Option.ite_none_right_eq_some, Option.some.injEq] at hstep
    obtain ⟨⟨-, -, hc⟩, rfl⟩ := hstep
    have hne := Critical.dispatch_of_registered (s := s.critical r.context) (h.slots _ hc) hC
    show (outcome _).2.2 ≠ _
    cases hd : (s.critical r.context).dispatch r epollCtl with
    | ok t => simp [Except.map, outcome]
    | error p =>
      obtain ⟨f, t⟩ := p
      have hf : f ≠ .notRegistered := fun hf => hne t (by rw [hd, hf])
      simpa [Except.map, outcome] using hf

/-- **Event accounting.** In every interleaving in which no report is stale in part when it
    is dispatched, in every state reached, `m_waitting_events_count` is the number of READ
    and WRITE bits set over all contexts, it is not below zero, and the assertion of
    `triggerEvent` has not failed; unless the program has ended by calling `schedule()`
    through a null scheduler. -/
theorem event_accounting (as : List EventAction) (s : EventRun)
    (hrun : runFrom step new as = some s) (hC : Along step NotStaleInPart new as) :
    s.fault = some .nullScheduler ∨
      (s.waitting = s.bits ∧ 0 ≤ s.waitting ∧ s.fault ≠ some .notRegistered) := by
  -- the invariant holds until a null scheduler ends the program
  have hinv : s.fault = some .nullScheduler ∨ (s.Inv ∧ s.fault ≠ some .notRegistered) := by
    refine run_invariant (I := fun s => s.fault = some .nullScheduler ∨
      (s.Inv ∧ s.fault ≠ some .notRegistered)) ?_ (Or.inr ⟨inv_new, by simp [new]⟩) hC hrun
    rintro t a t' (hnull | ⟨ht, -⟩) hCa hstep
    · exact absurd hstep (by rw [step_of_fault hnull]; simp)
    · rcases step_inv ht hstep with ⟨hnull, -⟩ | ⟨hinv, -⟩
      · exact Or.inl hnull
      · exact Or.inr ⟨hinv, step_not_notRegistered ht hCa hstep⟩
  rcases hinv with hnull | ⟨hinv, hfault⟩
  · exact Or.inl hnull
  · have hcount := hinv.count
    exact Or.inr ⟨hcount, by omega, hfault⟩

/-- A read event that is registered, reported and dispatched. -/
theorem event_accounting_one_read :
    ∃ s, runFrom step new [.newContext 5, .addEvent 0 .read ⟨some 1, 2, true⟩ (some 7) true,
        .epollWait ⟨0, true, false, false, false⟩,
        .dispatch ⟨0, true, false, false, false⟩ true] = some s ∧
      s.handed = [⟨0, some 1, .cb 7⟩] ∧ s.waitting = s.bits := by
  obtain ⟨s, hrun, hhanded, hfault⟩ : ∃ s, runFrom step new
      [.newContext 5, .addEvent 0 .read ⟨some 1, 2, true⟩ (some 7) true,
        .epollWait ⟨0, true, false, false, false⟩,
        .dispatch ⟨0, true, false, false, false⟩ true] = some s ∧
      s.handed = [⟨0, some 1, .cb 7⟩] ∧ s.fault = none := ⟨_, rfl, by decide, rfl⟩
  rcases event_accounting _ s hrun (by decide) with hnull | ⟨hcount, -⟩
  · exact absurd (hfault.symm.trans hnull) (by decide)
  · exact ⟨s, hrun, hhanded, hcount⟩

/-- READ and WRITE are registered and both reported; READ is deleted before the report is
    dispatched, and `triggerEvent(READ)` fails its assertion. -/
theorem stale_report_fails_assertion :
    ¬ ∀ (as : List EventAction) (s : EventRun), runFrom step new as = some s →
      s.fault = some .nullScheduler ∨
      (s.waitting = s.bits ∧ 0 ≤ s.waitting ∧ s.fault ≠ some .notRegistered) := by
  intro h
  have hlast := h [.newContext 5, .addEvent 0 .read ⟨some 1, 2, true⟩ (some 7) true,
    .addEvent 0 .write ⟨some 1, 2, true⟩ (some 8) true, .epollWait ⟨0, true, true, false, false⟩,
    .delEvent 0 .read true, .dispatch ⟨0, true, true, false, false⟩ true] _ rfl
  rcases hlast with hnull | ⟨-, -, hfault⟩
  · exact absurd hnull (by decide)
  · exact hfault rfl

/-! ### Delivery -/

/-- How often the registration with a number was handed over. -/
def handedCount (s : EventRun) (r : ℕ) : ℕ := (s.handed.map Handover.registration).count r

/-- The registrations have different numbers, so a registration ends at most once. -/
theorem Inv.ended_nodup (h : s.Inv) : (s.ended.map (fun p => p.1.registration)).Nodup := by
  have hall : (s.registered.map Handover.registration).Nodup := by
    rw [h.numbered]
    exact List.nodup_range
  have hsplit : (s.registered.map Handover.registration : Multiset ℕ) =
      s.live.map Handover.registration + (s.ended.map (fun p => p.1.registration) : List ℕ) := by
    rw [← Multiset.map_coe, h.registered, Multiset.map_add, Multiset.map_coe, List.map_map]
    rfl
  have hcoe : ((s.registered.map Handover.registration : List ℕ) : Multiset ℕ).Nodup := hall
  rw [hsplit] at hcoe
  exact (Multiset.nodup_add.mp hcoe).2.1

/-- Handed over are the registrations that ended in another way than `delEvent`. -/
theorem Inv.handed_registrations (h : s.Inv) :
    s.handed.map Handover.registration =
      (s.ended.filter (fun p => p.2 ≠ .delEvent)).map (fun p => p.1.registration) := by
  rw [h.handed, List.map_map]
  rfl

/-- No registration is handed over twice. -/
theorem Inv.handedCount_le_one (h : s.Inv) (r : ℕ) : s.handedCount r ≤ 1 := by
  unfold handedCount
  rw [h.handed_registrations]
  refine List.nodup_iff_count_le_one.mp (List.Nodup.sublist ?_ h.ended_nodup) r
  exact List.Sublist.map _ List.filter_sublist

/-- A registration was handed over exactly if it ended, and not by `delEvent`. -/
theorem Inv.mem_handed_iff (h : s.Inv) (r : ℕ) :
    r ∈ s.handed.map Handover.registration ↔
      ∃ p ∈ s.ended, p.2 ≠ .delEvent ∧ p.1.registration = r := by
  rw [h.handed_registrations]
  simp only [List.mem_map, List.mem_filter, decide_eq_true_iff, and_assoc]

/-- A registration that has ended is handed over once, or never after `delEvent`. -/
theorem Inv.handedCount_of_ended (h : s.Inv) {p : Handover × Ending} (hp : p ∈ s.ended) :
    s.handedCount p.1.registration = if p.2 = .delEvent then 0 else 1 := by
  by_cases hk : p.2 = .delEvent
  · rw [if_pos hk]
    apply List.count_eq_zero_of_not_mem
    intro hmem
    obtain ⟨q, hq, hqk, hqr⟩ := (h.mem_handed_iff _).mp hmem
    -- no registration ends twice, so the other ending is this one
    have hqp : q = p := List.inj_on_of_nodup_map h.ended_nodup hq hp hqr
    exact hqk (hqp ▸ hk)
  · rw [if_neg hk]
    have hpos := List.count_pos_iff.mpr ((h.mem_handed_iff _).mpr ⟨p, hp, hk, rfl⟩)
    have hle := h.handedCount_le_one p.1.registration
    unfold handedCount at hle ⊢
    omega

/-- Nothing is handed over that was not registered. -/
theorem Inv.handed_subset (h : s.Inv) {x : Handover} (hx : x ∈ s.handed) : x ∈ s.registered := by
  rw [h.handed] at hx
  obtain ⟨p, hp, rfl⟩ := List.mem_map.mp hx
  have hmem : p.1 ∈ (s.registered : Multiset Handover) := by
    rw [h.registered]
    exact Multiset.mem_add.mpr (Or.inr (List.mem_map.mpr ⟨p, List.mem_of_mem_filter hp, rfl⟩))
  exact hmem

/-- `addEvent` is called on a thread that has a scheduler. -/
def HasScheduler (_ : EventRun) : EventAction → Prop
  | .addEvent _ _ caller _ _ => caller.scheduler.isSome
  | _ => True

/-- The registrations keep the scheduler of the thread that made them. -/
theorem step_scheduler (hs : ∀ x ∈ s.registered, x.scheduler ≠ none) (hC : s.HasScheduler a)
    (hstep : step s a = some s') : ∀ x ∈ s'.registered, x.scheduler ≠ none := by
  cases a with
  | addEvent c e caller cb epollCtl =>
    simp only [step, Option.ite_none_right_eq_some, Option.some.injEq] at hstep
    obtain ⟨-, rfl⟩ := hstep
    intro x hx
    unfold runAdd at hx
    dsimp only at hx
    -- a registration is new only if the bit was set by this call
    split at hx
    · rcases List.mem_append.mp hx with hx | hx
      · exact hs x hx
      · rw [List.mem_singleton.mp hx]
        exact Option.isSome_iff_ne_none.mp hC
    · exact hs x hx
  | _ =>
    simp only [step, Option.ite_none_right_eq_some, Option.some.injEq] at hstep
    obtain ⟨-, rfl⟩ := hstep
    exact hs

/-- **Exactly-once delivery.** In every interleaving in which `addEvent` is called on
    threads that have a scheduler, in every state reached: each registration was handed to
    `schedule()` at most once, what was handed over are registrations, and each one that has
    ended was handed over exactly once unless it was ended by `delEvent`, and then never;
    every registration is live or has ended; the slot of an event whose bit is clear is
    empty, and the assertion of `addEvent` that it is has not failed; and an operation that
    returns `-1` or `false` leaves every context as it was. -/
theorem exactly_once_delivery (as : List EventAction) (s : EventRun)
    (hrun : runFrom step new as = some s) (hC : Along step HasScheduler new as) :
    (∀ r, s.handedCount r ≤ 1) ∧
    (∀ x ∈ s.handed, x ∈ s.registered) ∧
    (∀ p ∈ s.ended, s.handedCount p.1.registration = if p.2 = .delEvent then 0 else 1) ∧
    (s.registered : Multiset Handover) = s.live + (s.ended.map Prod.fst : List Handover) ∧
    (∀ c < s.size, ∀ e, (s.contexts c).event.has e = false →
      (s.contexts c).getContext e = .empty) ∧
    s.fault ≠ some .slotInUse ∧
    (∀ a s', step s a = some s' → s'.returned = some false → s'.contexts = s.contexts) := by
  -- with schedulers that are not null the invariant holds to the end
  have hinv : s.Inv ∧ ∀ x ∈ s.registered, x.scheduler ≠ none := by
    refine run_invariant (I := fun s => s.Inv ∧ ∀ x ∈ s.registered, x.scheduler ≠ none) ?_
      ⟨inv_new, fun x hx => absurd hx (by simp [new])⟩ hC hrun
    rintro t a t' ⟨ht, hsch⟩ hCa hstep
    rcases step_inv ht hstep with ⟨-, x, hx, hnull⟩ | ⟨ht', -⟩
    · exact absurd hnull (hsch x hx)
    · exact ⟨ht', step_scheduler hsch hCa hstep⟩
  obtain ⟨h, hsch⟩ := hinv
  refine ⟨h.handedCount_le_one, fun x => h.handed_subset, fun p => h.handedCount_of_ended,
    h.registered, fun c hc e => (h.slots c hc e).2, ?_, fun a s' hstep hfalse => ?_⟩
  · rcases h.fault with hf | hf | hf <;> rw [hf] <;> simp
  · rcases step_inv h hstep with ⟨-, x, hx, hnull⟩ | ⟨-, hsame⟩
    · exact absurd hnull (hsch x hx)
    · exact hsame hfalse

/-- READ is dispatched, WRITE is deleted: one of the two registrations is handed over. -/
theorem exactly_once_delivery_two_events :
    ∃ s, runFrom step new [.newContext 5, .addEvent 0 .read ⟨some 1, 2, true⟩ none true,
        .addEvent 0 .write ⟨some 1, 2, true⟩ (some 8) true, .epollWait ⟨0, true, false, false, true⟩,
        .delEvent 0 .write true, .dispatch ⟨0, true, false, false, true⟩ true] = some s ∧
      s.ended = [(⟨1, some 1, .cb 8⟩, .delEvent), (⟨0, some 1, .fiber 2⟩, .dispatch)] ∧
      s.handedCount 0 = 1 ∧ s.handedCount 1 = 0 := by
  obtain ⟨s, hrun, hended⟩ : ∃ s, runFrom step new
      [.newContext 5, .addEvent 0 .read ⟨some 1, 2, true⟩ none true,
        .addEvent 0 .write ⟨some 1, 2, true⟩ (some 8) true, .epollWait ⟨0, true, false, false, true⟩,
        .delEvent 0 .write true, .dispatch ⟨0, true, false, false, true⟩ true] = some s ∧
      s.ended = [(⟨1, some 1, .cb 8⟩, .delEvent), (⟨0, some 1, .fiber 2⟩, .dispatch)] :=
    ⟨_, rfl, by decide⟩
  obtain ⟨-, -, hcount, -⟩ := exactly_once_delivery _ s hrun
    (along_of_forall _ (by simp [HasScheduler]))
  refine ⟨s, hrun, hended, ?_, ?_⟩
  · exact hcount (⟨0, some 1, .fiber 2⟩, .dispatch) (by rw [hended]; simp)
  · exact hcount (⟨1, some 1, .cb 8⟩, .delEvent) (by rw [hended]; simp)

end EventRun

end LoNetfw.Scheduler
