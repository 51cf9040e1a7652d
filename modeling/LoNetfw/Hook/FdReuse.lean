import LoNetfw.Hook.Io

namespace LoNetfw.Hook

open Basis
open Scheduler (Event)

/-!
# `io()` — a parked call and the reuse of its descriptor

`close` wakes the calls that are parked on the descriptor, forgets its `Fd` and closes it; a call
that is resumed tries its system call on the bare number again, and the kernel may have given
the number to another connection.

* `IoCall.mayPerform` — a call that has a system call to come;
* `IoRun.FreshNumber` — the condition on `socket` and `accept`: the number they return is not one
  that such a call holds;
* `IoRun.own_file_only` — along every interleaving in which they meet it, every call touches only
  the open file description it was made on, or returns `-1`.
-/

/-- A system call of this call may still come: one that was timed out returns after its wait. -/
def IoCall.mayPerform (c : IoCall) : Bool :=
  match c.pc with
  | .direct | .call | .sockopt => true
  | .arm | .addEvent | .yield | .parked | .cancelTimer | .test => !c.canceled
  | .giveUp | .returned => false

/-- A call that may perform when it is canceled may perform anyway. -/
theorem IoCall.mayPerform_of_canceled {c : IoCall}
    (h : { c with canceled := true }.mayPerform = true) : c.mayPerform = true := by
  unfold mayPerform at h ⊢
  cases hpc : c.pc <;> simp [hpc] at h ⊢

/-- The call has performed its system calls only on the open file description that it was made
    on, and what it returned is the result of one of them or `-1`. -/
structure IoCall.OwnFileOnly (c : IoCall) : Prop where
  touched : ∀ file ∈ c.touched, c.invokedOn = some file
  result : c.pc = .returned → c.minusOne = true ∨ ∃ file ∈ c.touched, c.invokedOn = some file

/-- A call that does not look at its descriptor in a step. -/
structure IoCall.Moved (c c' : IoCall) : Prop where
  fd : c'.fd = c.fd
  invokedOn : c'.invokedOn = c.invokedOn
  touched : c'.touched = c.touched
  mayPerform : c'.mayPerform = true → c.mayPerform = true
  result : c'.pc = .returned → c'.minusOne = true ∨ (c.pc = .returned ∧ c'.minusOne = c.minusOne)

/-- Nothing happens to the call. -/
theorem IoCall.Moved.refl (c : IoCall) : c.Moved c := ⟨rfl, rfl, rfl, id, fun h => Or.inr ⟨h, rfl⟩⟩

/-- Two such steps. -/
theorem IoCall.Moved.trans {c c' c'' : IoCall} (h : c.Moved c') (h' : c'.Moved c'') : c.Moved c'' where
  fd := h'.fd.trans h.fd
  invokedOn := h'.invokedOn.trans h.invokedOn
  touched := h'.touched.trans h.touched
  mayPerform := h.mayPerform ∘ h'.mayPerform
  result := by
    intro hpc
    rcases h'.result hpc with hminus | ⟨hret, hminus⟩
    · exact Or.inl hminus
    · rcases h.result hret with hminus' | ⟨hret', hminus'⟩
      · exact Or.inl (hminus.trans hminus')
      · exact Or.inr ⟨hret', hminus.trans hminus'⟩

/-- A call touches no file in such a step. -/
theorem IoCall.OwnFileOnly.moved {c c' : IoCall} (h : c.OwnFileOnly) (hm : c.Moved c') :
    c'.OwnFileOnly where
  touched := by
    rw [hm.touched, hm.invokedOn]
    exact h.touched
  result := by
    intro hpc
    rw [hm.touched, hm.invokedOn]
    rcases hm.result hpc with hminus | ⟨hret, hminus⟩
    · exact Or.inl hminus
    · rw [hminus]
      exact h.result hret

namespace IoRun

/-- The condition on `socket` and `accept`: no call that may still perform a system call holds
    the number they return. -/
def FreshNumber (s : IoRun) : IoAction → Prop
  | .openFile _ fd => ∀ i < s.count, (s.calls i).mayPerform = true → (s.calls i).fd ≠ fd
  | _ => True

/-- What holds of a call: it touched its own file only, and if a system call is to come its
    number is not another file. -/
structure FileInv (s : IoRun) (i : ℕ) : Prop where
  own : (s.calls i).OwnFileOnly
  still : (s.calls i).mayPerform = true → ∀ file, s.files (s.calls i).fd = some file →
    (s.calls i).invokedOn = some file

variable {s s' : IoRun} {a : IoAction}

/-- A call that has moved keeps its invariant, when no new file has its number. -/
theorem FileInv.moved {i : ℕ} (h : s.FileInv i) (hm : (s.calls i).Moved (s'.calls i))
    (hfiles : ∀ fd file, s'.files fd = some file → s.files fd = some file) : s'.FileInv i where
  own := h.own.moved hm
  still := by
    intro hmay file hfile
    rw [hm.fd] at hfile
    rw [hm.invokedOn]
    exact h.still (hm.mayPerform hmay) file (hfiles _ _ hfile)

/-- A step in which no call looks at its descriptor and no number is given out. -/
structure Moved (s s' : IoRun) : Prop where
  count : s'.count = s.count
  files : ∀ fd file, s'.files fd = some file → s.files fd = some file
  calls : ∀ i, (s.calls i).Moved (s'.calls i)

/-- All calls keep their files when the state moves. -/
theorem FileInv.of_moved (hs : ∀ i < s.count, s.FileInv i) (h : s.Moved s') :
    ∀ i < s'.count, s'.FileInv i := by
  intro i hi
  rw [h.count] at hi
  exact (hs i hi).moved (h.calls i) h.files

/-- A step that leaves calls and files. -/
theorem moved_of_eq (hcount : s'.count = s.count) (hfiles : s'.files = s.files)
    (hcalls : s'.calls = s.calls) : s.Moved s' where
  count := hcount
  files := by simp [hfiles]
  calls := by
    intro i
    rw [hcalls]
    exact .refl _

/-- A step of one call. -/
theorem moved_setCall {i : ℕ} {c : IoCall} (h : (s.calls i).Moved c) : s.Moved (s.setCall i c) where
  count := rfl
  files := fun _ _ h => h
  calls := by
    intro j
    by_cases hj : j = i
    · subst hj
      simpa [setCall] using h
    · simpa [setCall, hj] using .refl _

/-- Two steps after each other. -/
theorem Moved.trans {t u : IoRun} (h : s.Moved t) (h' : t.Moved u) : s.Moved u where
  count := h'.count.trans h.count
  files := fun fd file hfile => h.files fd file (h'.files fd file hfile)
  calls := fun i => (h.calls i).trans (h'.calls i)

/-- An event that is triggered wakes its call, which looks at nothing yet. -/
theorem moved_trigger (fd : ℕ) (event : Event) : s.Moved (s.trigger fd event) := by
  unfold trigger
  split
  · exact moved_of_eq rfl rfl rfl
  · next i _ =>
    refine (moved_setCall (i := i) (c := { s.calls i with woken := true }) ?_).trans
      (moved_of_eq rfl rfl rfl)
    exact ⟨rfl, rfl, rfl, id, fun hpc => Or.inr ⟨hpc, rfl⟩⟩

/-- The timers are not the business of the files. -/
theorem moved_setTimerPc (t : ℕ) (pc : TimerPc) : s.Moved (s.setTimerPc t pc) :=
  moved_of_eq rfl rfl rfl

/-- Cancelling a timer is not the business of the files. -/
theorem moved_cancelTimer (timer : Option ℕ) : s.Moved (s.cancelTimer timer) := by
  unfold cancelTimer
  cases timer with
  | none => exact moved_of_eq rfl rfl rfl
  | some t =>
    dsimp only
    split <;> exact moved_of_eq rfl rfl rfl

/-- `close` cancels the events of the number and gives it back. -/
theorem moved_closeStep {k : ℕ} {epollCtl : Bool} (h : s.closeStep k epollCtl = some s') :
    s.Moved s' := by
  obtain ⟨c, -, rfl⟩ := Option.map_eq_some_iff.mp h
  cases c.pc with
  | cancelAll =>
    refine Moved.trans (t := if epollCtl then (s.trigger c.fd .read).trigger c.fd .write else s)
      ?_ (moved_of_eq rfl rfl rfl)
    split
    · exact (moved_trigger _ _).trans (moved_trigger _ _)
    · exact moved_of_eq rfl rfl rfl
  | del => exact moved_of_eq rfl rfl rfl
  -- the file of one number goes
  | closeFile =>
    refine ⟨rfl, fun fd file hfile => ?_, fun i => .refl _⟩
    by_cases hfd : fd = c.fd
    · simp [hfd] at hfile
    · simpa [hfd] using hfile

/-- A step of a timer changes no more of a call than `canceled` and `woken`. -/
theorem moved_timerStep {t : ℕ} {epollCtl : Bool} (h : s.timerStep t epollCtl = some s') :
    s.Moved s' := by
  unfold timerStep at h
  cases hpc : (s.timers t).pc <;> simp only [hpc, Option.some.injEq, reduceCtorEq] at h
  case armed => subst h; exact moved_of_eq rfl rfl rfl
  case queued => subst h; exact moved_of_eq rfl rfl rfl
  -- the callback marks its call, which may then only give up
  case checked =>
    subst h
    refine (moved_setTimerPc t .marked).trans (moved_setCall ?_)
    refine ⟨rfl, rfl, rfl, IoCall.mayPerform_of_canceled, fun hpc => Or.inr ⟨hpc, rfl⟩⟩
  -- and then cancels the event
  case marked =>
    subst h
    split
    · exact moved_of_eq rfl rfl rfl
    · split
      · exact (moved_setTimerPc t .over).trans (moved_trigger _ _)
      · exact moved_of_eq rfl rfl rfl

/-- A call that performs adds no call. -/
theorem count_perform (i : ℕ) (pc : IoPc) : (s.perform i pc).count = s.count := by
  unfold perform
  dsimp only
  split <;> rfl

/-- A system call: the number is not another file. -/
theorem FileInv.perform (hs : ∀ i < s.count, s.FileInv i) {i : ℕ} (hi : i < s.count) {pc : IoPc}
    (hmay : (s.calls i).mayPerform = true) :
    ∀ j < (s.perform i pc).count, (s.perform i pc).FileInv j := by
  intro j hj
  rw [count_perform] at hj
  unfold IoRun.perform
  dsimp only
  split
  · next hclosed =>
    apply FileInv.of_moved hs (moved_setCall _) j hj
    exact ⟨rfl, rfl, rfl, fun _ => hmay, fun _ => Or.inl rfl⟩
  · next file hfile =>
    -- a call that may still perform finds its own file behind the number
    have hown := (hs i hi).still hmay file hfile
    by_cases hji : j = i
    · subst hji
      refine ⟨⟨?_, fun _ => Or.inr ⟨file, ?_, ?_⟩⟩, ?_⟩
      · simp only [setCall, Function.update_self, List.mem_append, List.mem_singleton]
        rintro f (hf | rfl)
        · exact (hs j hj).own.touched f hf
        · exact hown
      · simp [setCall]
      · simpa [setCall] using hown
      · intro _ f hf
        simp only [setCall, Function.update_self] at hf ⊢
        rw [hfile] at hf
        exact hf ▸ hown
    · refine (hs j hj).moved ?_ (fun _ _ h => h)
      simpa [setCall, hji] using .refl _

/-- A step of the call `i`. -/
theorem FileInv.ioStep (hs : ∀ i < s.count, s.FileInv i) {i : ℕ} {r : FunResult} {epollCtl : Bool}
    (hi : i < s.count) (h : s.ioStep i r epollCtl = some s') : ∀ j < s'.count, s'.FileInv j := by
  unfold IoRun.ioStep at h
  cases hpc : (s.calls i).pc <;> simp only [hpc, Option.some.injEq] at h
  case direct => subst h; exact FileInv.perform hs hi (by simp [IoCall.mayPerform, hpc])
  case call => subst h; exact FileInv.perform hs hi (by simp [IoCall.mayPerform, hpc])
  case arm =>
    subst h
    refine FileInv.of_moved hs ?_
    unfold IoRun.armTimer
    dsimp only
    split
    · refine (moved_setCall (i := i)
        (c := { s.calls i with pc := .addEvent, timer := some s.timerCount }) ?_).trans
        (moved_of_eq rfl rfl rfl)
      exact ⟨rfl, rfl, rfl, by simp [IoCall.mayPerform, hpc], by simp⟩
    · exact moved_setCall ⟨rfl, rfl, rfl, by simp [IoCall.mayPerform, hpc], by simp⟩
  case addEvent =>
    subst h
    refine FileInv.of_moved hs ?_
    unfold IoRun.addEvent
    dsimp only
    split
    · refine (moved_setCall (i := i) (c := { s.calls i with pc := .yield }) ?_).trans
        (moved_of_eq rfl rfl rfl)
      exact ⟨rfl, rfl, rfl, by simp [IoCall.mayPerform, hpc], by simp⟩
    · exact moved_setCall ⟨rfl, rfl, rfl, by simp [IoCall.mayPerform], by simp⟩
  case giveUp =>
    subst h
    refine FileInv.of_moved hs ((moved_cancelTimer _).trans (moved_setCall ?_))
    rw [calls_cancelTimer]
    exact ⟨rfl, rfl, rfl, by simp [IoCall.mayPerform], by simp⟩
  case yield =>
    subst h
    exact FileInv.of_moved hs
      (moved_setCall ⟨rfl, rfl, rfl, by simp [IoCall.mayPerform, hpc], by simp⟩)
  case parked =>
    split at h
    · cases h
      exact FileInv.of_moved hs
        (moved_setCall ⟨rfl, rfl, rfl, by simp [IoCall.mayPerform, hpc], by simp⟩)
    · cases h
  case cancelTimer =>
    subst h
    refine FileInv.of_moved hs ((moved_cancelTimer _).trans (moved_setCall ?_))
    rw [calls_cancelTimer]
    exact ⟨rfl, rfl, rfl, by simp [IoCall.mayPerform, hpc], by simp⟩
  case test =>
    subst h
    refine FileInv.of_moved hs (moved_setCall ?_)
    split
    · exact ⟨rfl, rfl, rfl, by simp [IoCall.mayPerform], by simp⟩
    · next hclear =>
      -- only here does a call turn back to its number
      split
      · exact ⟨rfl, rfl, rfl, by simp [IoCall.mayPerform, hpc, hclear], by simp⟩
      · exact ⟨rfl, rfl, rfl, by simp [IoCall.mayPerform, hpc, hclear], by simp⟩
  case sockopt => subst h; exact FileInv.perform hs hi (by simp [IoCall.mayPerform, hpc])
  case returned => cases h

/-- A new call is made on what its number is. -/
theorem FileInv.invoke (hs : ∀ i < s.count, s.FileInv i) (kind : CallKind) (hooked : Bool) (fd : ℕ)
    (event : Event) (ms : ℤ) :
    ∀ i < (s.invoke kind hooked fd event ms).count, (s.invoke kind hooked fd event ms).FileInv i := by
  intro i (hi : i < s.count + 1)
  -- the new call belongs to the file that is open now
  by_cases hnew : i = s.count
  · subst hnew
    refine ⟨⟨?_, ?_⟩, ?_⟩
    · simp [IoRun.invoke, setCall]
    · intro hpc
      exact Or.inl (by simpa [IoRun.invoke, setCall] using hpc)
    · intro _ file hfile
      simpa [IoRun.invoke, setCall] using hfile
  · have hold : i < s.count := Nat.lt_of_le_of_ne (Nat.le_of_lt_succ hi) hnew
    refine (hs i hold).moved ?_ (fun _ _ h => h)
    simpa [IoRun.invoke, setCall, hnew] using .refl _

/-- The kernel gives out a number that no call holds which may still perform a system call. -/
theorem FileInv.openFile (hs : ∀ i < s.count, s.FileInv i) {fd file : ℕ}
    (hfresh : ∀ i < s.count, (s.calls i).mayPerform = true → (s.calls i).fd ≠ fd)
    (hcount : s'.count = s.count) (hcalls : s'.calls = s.calls)
    (hfiles : s'.files = Function.update s.files fd (some file)) : ∀ i < s'.count, s'.FileInv i := by
  intro i hi
  rw [hcount] at hi
  refine ⟨hcalls ▸ (hs i hi).own, ?_⟩
  rw [hcalls, hfiles]
  intro hmay f hf
  rw [Function.update_of_ne (hfresh i hi hmay)] at hf
  exact (hs i hi).still hmay f hf

/-- **Step.** A step that meets the condition keeps every call to its own file. -/
theorem step_fileInv (hs : ∀ i < s.count, s.FileInv i) (hC : s.FreshNumber a)
    (h : step s a = some s') : ∀ i < s'.count, s'.FileInv i := by
  cases a with
  -- `FreshNumber` keeps the numbers that calls still use from being given out again
  | openFile hooked fd =>
    simp only [step, Option.ite_none_right_eq_some, Option.some.injEq] at h
    obtain ⟨-, rfl⟩ := h
    exact FileInv.openFile hs hC rfl rfl rfl
  | setTimeout fd event ms => cases h; exact FileInv.of_moved hs (moved_of_eq rfl rfl rfl)
  | close fd => cases h; exact FileInv.of_moved hs (moved_of_eq rfl rfl rfl)
  | closeStep k epollCtl => exact FileInv.of_moved hs (moved_closeStep h)
  | invoke kind hooked fd event ms => cases h; exact FileInv.invoke hs kind hooked fd event ms
  | io i r epollCtl =>
    simp only [step, Option.ite_none_right_eq_some] at h
    exact FileInv.ioStep hs h.1 h.2
  | timer t epollCtl =>
    simp only [step, Option.ite_none_right_eq_some] at h
    exact FileInv.of_moved hs (moved_timerStep h.2)
  | report fd event => cases h; exact FileInv.of_moved hs (moved_of_eq rfl rfl rfl)
  | dispatch k epollCtl =>
    obtain ⟨r, -, rfl⟩ := Option.map_eq_some_iff.mp h
    refine FileInv.of_moved hs (Moved.trans (t := if epollCtl then s.trigger r.1 r.2 else s) ?_
      (moved_of_eq rfl rfl rfl))
    split
    · exact moved_trigger _ _
    · exact moved_of_eq rfl rfl rfl

/-- **Own file only.** In every interleaving of hooked calls, timers, dispatches and closes in
    which `socket` and `accept` return no number that a call with a system call to come still
    holds, every call has performed its system calls only on the open file description it was
    made on, and what it returned is the result of one of them or `-1`. -/
theorem own_file_only (as : List IoAction) (s : IoRun) (hrun : runFrom step new as = some s)
    (hC : Along step FreshNumber new as) : ∀ i < s.count, (s.calls i).OwnFileOnly := by
  have hs : ∀ i < s.count, s.FileInv i := by
    refine run_invariant (I := fun s => ∀ i < s.count, s.FileInv i) (fun _ _ _ => step_fileInv) ?_
      hC hrun
    exact fun i hi => absurd hi (Nat.not_lt_zero i)
  exact fun i hi => (hs i hi).own

instance (s : IoRun) : (a : IoAction) → Decidable (s.FreshNumber a)
  | .openFile _ _ => inferInstanceAs (Decidable (∀ i < s.count, _ → _))
  | .io _ _ _ | .setTimeout _ _ _ | .close _ | .closeStep _ _ | .invoke _ _ _ _ _
  | .timer _ _ | .report _ _ | .dispatch _ _ => .isTrue trivial

/-- A `read` parks on descriptor 7, which another fiber closes; `as` is what happens before the
    `read` is resumed, and then it goes on to its system call. -/
def closedWhileParked (as : List IoAction) : List IoAction :=
  [.openFile true 7, .invoke .io true 7 .read 0, .io 0 .again true, .io 0 .done true,
    .io 0 .done true, .io 0 .done true, .close 7, .closeStep 0 true, .closeStep 0 true,
    .closeStep 0 true] ++ as ++
  [.io 0 .done true, .io 0 .done true, .io 0 .done true, .io 0 .done true]

/-- Another number is given out in between: the `read` returns `-1`. -/
theorem own_file_only_other_number :
    ∃ s, runFrom step new (closedWhileParked [.openFile true 8]) = some s ∧
      (s.calls 0).pc = .returned ∧ (s.calls 0).minusOne = true ∧ (s.calls 0).OwnFileOnly := by
  obtain ⟨s, hrun, hstate⟩ : ∃ s, runFrom step new (closedWhileParked [.openFile true 8]) = some s ∧
      (s.calls 0).pc = .returned ∧ (s.calls 0).minusOne = true ∧ 0 < s.count :=
    ⟨_, rfl, by decide, by decide, by decide⟩
  have hown := own_file_only _ s hrun (by decide) 0 hstate.2.2
  exact ⟨s, hrun, hstate.1, hstate.2.1, hown⟩

/-- The same number is given out again: the resumed `read` reads from the new connection. -/
theorem retry_on_reused_number :
    ∃ s, runFrom step new (closedWhileParked [.openFile true 7]) = some s ∧
      (s.calls 0).invokedOn = some 0 ∧ (s.calls 0).touched = [0, 1] ∧
      ¬ (s.calls 0).OwnFileOnly := by
  refine ⟨_, rfl, by decide, by decide, fun hown => ?_⟩
  exact absurd (hown.touched 1 (by decide)) (by decide)

end IoRun

end LoNetfw.Hook
