import LoNetfw.Hook.FdVector
import LoNetfw.Basis.StepSystem

namespace LoNetfw.Hook

open Basis

/-!
# `FdManager::get` — two creators of one `Fd`

`get(fd, true)` looks for the object under the read lock, and where there is none it creates one
under the write lock without another look.  Other calls may come between the two sections.

* `GetCall`, `FdRun.step` — calls of `get`, `del` and the objects that are returned;
* `FdRun.OneObject` — calls on a descriptor that return with no `del` in between return one object;
* `FdRun.FirstCreator` — the condition on a creation: no call on the descriptor has returned an
  object since the last `del`;
* `one_object_iff` — it holds in an interleaving exactly when every creation meets the condition;
* `settings_are_seen` — then what is set through one call is seen by the lookups after it.
-/

/-- A call of `get`: on which descriptor, and where it is. -/
structure GetCall where
  fd : ℤ
  /-- Between the two sections. -/
  creating : Bool
  /-- The object it has returned. -/
  returned : Option ℕ
  /-- The number of calls of `del(fd)` before it returned. -/
  epoch : ℕ
  deriving DecidableEq, Repr

inductive FdAction
  /-- The read-locked section of a new call. -/
  | get (fd : ℤ) (autoCreate : Bool)
  /-- The write-locked section of a call; `file` is what the constructor sees in the kernel. -/
  | create (call : ℕ) (file : Option Descriptor)
  | del (fd : ℤ)
  /-- A caller sets a flag or a timeout of the object its call has returned. -/
  | assign (call : ℕ) (value : Fd)
  deriving DecidableEq, Repr

structure FdRun where
  fds : FdVector
  /-- The objects. -/
  objects : ℕ → Fd
  calls : List GetCall
  /-- The calls of `del` so far. -/
  dels : ℤ → ℕ

namespace FdRun

def new : FdRun := ⟨.new, fun _ => (Fd.init none).1, [], fun _ => 0⟩

/-- A call of `get` begins, and may have returned. -/
def note (s : FdRun) (fd : ℤ) : Option (Option ℕ) → FdRun
  | some found => { s with calls := s.calls ++ [⟨fd, false, found, s.dels fd⟩] }
  | none => { s with calls := s.calls ++ [⟨fd, true, none, s.dels fd⟩] }

/-- One step.  A descriptor is an `int`; after an access out of bounds there are no more steps. -/
def step (s : FdRun) : FdAction → Option FdRun
  | .get fd autoCreate =>
    if -2 ^ 31 ≤ fd ∧ fd < 2 ^ 31 then
      match s.fds.readSection fd autoCreate with
      | .ok found => some (s.note fd found)
      | .error _ => none
    else none
  | .create i file =>
    match s.calls[i]? with
    | none => none
    | some call =>
      if call.creating then
        -- the test for an object is not made again
        match s.fds.createSection call.fd with
        | .ok (fds, obj) => some { s with
            fds := fds
            objects := Function.update s.objects obj (Fd.init file).1
            calls := s.calls.set i ⟨call.fd, false, some obj, s.dels call.fd⟩ }
        | .error _ => none
      else none
  | .del fd =>
    if -2 ^ 31 ≤ fd ∧ fd < 2 ^ 31 then
      match s.fds.del fd with
      | .ok fds => some { s with fds := fds, dels := Function.update s.dels fd (s.dels fd + 1) }
      | .error _ => none
    else none
  | .assign i value =>
    match (s.calls[i]?).bind GetCall.returned with
    | some obj => some { s with objects := Function.update s.objects obj value }
    | none => none

/-- Calls on one descriptor that have returned objects with no `del` in between have returned the
    same one. -/
def OneObject (s : FdRun) : Prop :=
  ∀ c ∈ s.calls, ∀ c' ∈ s.calls, c.fd = c'.fd → c.epoch = c'.epoch →
    ∀ o o', c.returned = some o → c'.returned = some o' → o = o'

/-- The condition on a creation: no call on the descriptor has returned an object since the last
    `del`. -/
def FirstCreator (s : FdRun) : FdAction → Prop
  | .create i _ => ∀ call ∈ s.calls[i]?,
    ∀ c ∈ s.calls, c.fd = call.fd → c.epoch = s.dels call.fd → c.returned = none
  | _ => True

instance decidableFirstCreator (s : FdRun) : (a : FdAction) → Decidable (s.FirstCreator a)
  | .create _ _ => inferInstanceAs (Decidable (∀ call ∈ _, _))
  | .get _ _ | .del _ | .assign _ _ => .isTrue trivial

/-- What holds in every interleaving. -/
structure Reached (s : FdRun) : Prop where
  wf : s.fds.Wf
  range : ∀ c ∈ s.calls, -2 ^ 31 ≤ c.fd ∧ c.fd < 2 ^ 31
  creating : ∀ c ∈ s.calls, c.creating = true → c.returned = none
  epoch : ∀ c ∈ s.calls, c.epoch ≤ s.dels c.fd
  fresh : ∀ c ∈ s.calls, ∀ o, c.returned = some o → o < s.fds.created
  slots : ∀ fd o, s.fds.slot fd = some o → o < s.fds.created

/-- What holds when every creation meets the condition: the table has the object that was returned
    since the last `del`. -/
structure Inv (s : FdRun) : Prop extends s.Reached where
  one : s.OneObject
  kept : ∀ c ∈ s.calls, c.epoch = s.dels c.fd → ∀ o, c.returned = some o →
    0 ≤ c.fd ∧ s.fds.slot c.fd.toNat = some o

/-! ### What a step does -/

variable {s s' : FdRun} {a : FdAction}

/-- The first section of `get`: it ends with what it finds, or goes on to create. -/
theorem step_get {fd : ℤ} {autoCreate : Bool} (h : step s (.get fd autoCreate) = some s') :
    (-2 ^ 31 ≤ fd ∧ fd < 2 ^ 31) ∧
      ∃ found, s.fds.readSection fd autoCreate = .ok found ∧ s' = s.note fd found := by
  obtain ⟨hrange, h⟩ := Option.ite_none_right_eq_some.mp h
  cases hread : s.fds.readSection fd autoCreate with
  | error f =>
    rw [hread] at h
    cases h
  | ok found =>
    rw [hread] at h
    exact ⟨hrange, found, rfl, (Option.some.inj h).symm⟩

/-- The second section: a new object is stored, whatever is there by now. -/
theorem step_create {i : ℕ} {file : Option Descriptor} (h : step s (.create i file) = some s') :
    ∃ call v obj, s.calls[i]? = some call ∧ call.creating = true ∧
      s.fds.createSection call.fd = .ok (v, obj) ∧
      s' = { s with
        fds := v
        objects := Function.update s.objects obj (Fd.init file).1
        calls := s.calls.set i ⟨call.fd, false, some obj, s.dels call.fd⟩ } := by
  cases hcall : s.calls[i]? with
  | none =>
    simp only [step, hcall] at h
    cases h
  | some call =>
    simp only [step, hcall] at h
    obtain ⟨hcreating, h⟩ := Option.ite_none_right_eq_some.mp h
    -- the section faults only on a number that the vector does not reach
    cases hcreate : s.fds.createSection call.fd with
    | error f =>
      rw [hcreate] at h
      cases h
    | ok r =>
      rw [hcreate] at h
      exact ⟨call, r.1, r.2, rfl, hcreating, hcreate, (Option.some.inj h).symm⟩

/-- `del` empties the slot and begins a new epoch of the number. -/
theorem step_del {fd : ℤ} (h : step s (.del fd) = some s') :
    ∃ v, s.fds.del fd = .ok v ∧
      s' = { s with fds := v, dels := Function.update s.dels fd (s.dels fd + 1) } := by
  obtain ⟨-, h⟩ := Option.ite_none_right_eq_some.mp h
  cases hdel : s.fds.del fd with
  | error f =>
    rw [hdel] at h
    cases h
  | ok v =>
    rw [hdel] at h
    exact ⟨v, rfl, (Option.some.inj h).symm⟩

/-- What others store in an object changes no slot. -/
theorem step_assign {i : ℕ} {value : Fd} (h : step s (.assign i value) = some s') :
    ∃ obj, s' = { s with objects := Function.update s.objects obj value } := by
  cases hobj : (s.calls[i]?).bind GetCall.returned with
  | none =>
    simp only [step, hobj] at h
    cases h
  | some obj =>
    simp only [step, hobj] at h
    exact ⟨obj, (Option.some.inj h).symm⟩

/-! ### A call that begins or returns -/

/-- The calls after a step that adds or completes the call `c₀`. -/
def Adds (s s' : FdRun) (c₀ : GetCall) : Prop :=
  s'.dels = s.dels ∧ ∀ c ∈ s'.calls, c = c₀ ∨ c ∈ s.calls

/-- A first section adds a call. -/
theorem adds_note (s : FdRun) (fd : ℤ) (found : Option (Option ℕ)) :
    Adds s (s.note fd found) ⟨fd, found.isNone, found.join, s.dels fd⟩ := by
  cases found with
  | none => exact ⟨rfl, fun c hc => (List.mem_append.mp hc).symm.imp List.mem_singleton.mp id⟩
  | some found => exact ⟨rfl, fun c hc => (List.mem_append.mp hc).symm.imp List.mem_singleton.mp id⟩

variable {k : GetCall}

/-- What a call that is added has to show for the facts about the table. -/
theorem Reached.adds (h : s.Reached) (hadds : Adds s s' k) (hwf : s'.fds.Wf)
    (hcreated : s.fds.created ≤ s'.fds.created)
    (hslots : ∀ fd o, s'.fds.slot fd = some o → o < s'.fds.created)
    (hrange : -2 ^ 31 ≤ k.fd ∧ k.fd < 2 ^ 31)
    (hcreating : k.creating = true → k.returned = none) (hepoch : k.epoch = s.dels k.fd)
    (hfresh : ∀ o, k.returned = some o → o < s'.fds.created) : s'.Reached := by
  obtain ⟨hdels, hcalls⟩ := hadds
  -- every clause is asked of the call that is added or of an older one
  refine ⟨hwf, ?_, ?_, ?_, ?_, hslots⟩
  · intro c hc
    rcases hcalls c hc with rfl | hc
    · exact hrange
    · exact h.range c hc
  · intro c hc
    rcases hcalls c hc with rfl | hc
    · exact hcreating
    · exact h.creating c hc
  · intro c hc
    rw [hdels]
    rcases hcalls c hc with rfl | hc
    · exact hepoch.le
    · exact h.epoch c hc
  · intro c hc o ho
    rcases hcalls c hc with rfl | hc
    · exact hfresh o ho
    · exact (h.fresh c hc o ho).trans_le hcreated

/-- What a call that is added has to show for `OneObject`. -/
theorem OneObject.adds (h : s.OneObject) (hadds : Adds s s' k)
    (hone : ∀ c ∈ s.calls, c.fd = k.fd → c.epoch = k.epoch →
      ∀ o o', c.returned = some o → k.returned = some o' → o = o') : s'.OneObject := by
  obtain ⟨-, hcalls⟩ := hadds
  intro c hc c' hc' hfd hepoch o o' ho ho'
  rcases hcalls c hc with rfl | hc
  · rcases hcalls c' hc' with rfl | hc'
    · exact Option.some.inj (ho.symm.trans ho')
    · exact (hone c' hc' hfd.symm hepoch.symm o' o ho' ho).symm
  · rcases hcalls c' hc' with rfl | hc'
    · exact hone c hc hfd hepoch o o' ho ho'
    · exact h c hc c' hc' hfd hepoch o o' ho ho'

/-! ### Invariants -/

/-- What a first section finds is in its slot. -/
theorem found_lt (h : s.Reached) {fd : ℤ} {autoCreate : Bool} {found : Option (Option ℕ)} {o : ℕ}
    (hread : s.fds.readSection fd autoCreate = .ok found) (ho : found.join = some o) :
    (0 ≤ fd ∧ s.fds.slot fd.toNat = some o) ∧ o < s.fds.created := by
  obtain rfl := Option.join_eq_some_iff.mp ho
  have hfound := FdVector.readSection_found hread
  exact ⟨hfound, h.slots _ o hfound.2⟩

/-- Each step keeps the facts about the table. -/
theorem step_reached (h : s.Reached) (hstep : step s a = some s') : s'.Reached := by
  cases a with
  | get fd autoCreate =>
    obtain ⟨hrange, found, hread, rfl⟩ := step_get hstep
    have hfds : (s.note fd found).fds = s.fds := by cases found <;> rfl
    refine h.adds (adds_note s fd found) (hfds ▸ h.wf) (hfds ▸ le_refl _) (hfds ▸ h.slots) hrange ?_
      rfl ?_
    · intro hnone
      rw [Option.isNone_iff_eq_none.mp hnone]
      rfl
    · rw [hfds]
      exact fun o ho => (found_lt h hread ho).2
  -- the call that was creating returns the new object
  | create i file =>
    obtain ⟨call, v, obj, hcall, -, hcreate, rfl⟩ := step_create hstep
    have hmem : call ∈ s.calls := List.mem_of_getElem? hcall
    obtain ⟨hpos, rfl, rfl⟩ := FdVector.createSection_ok h.wf (h.range call hmem) hcreate
    have hlt := (h.range call hmem).2
    refine h.adds (k := ⟨call.fd, false, some s.fds.created, s.dels call.fd⟩)
      ⟨rfl, fun c hc => (List.mem_or_eq_of_mem_set hc).symm⟩
      (FdVector.wf_stored h.wf (by omega)) (Nat.le_succ _) ?_ (h.range call hmem)
      (fun hc => absurd hc Bool.false_ne_true) rfl ?_
    · intro fd o ho
      show o < s.fds.created + 1
      by_cases hfd : fd = call.fd.toNat
      · subst hfd
        rw [FdVector.slot_stored_self h.wf] at ho
        rw [← Option.some.inj ho]
        exact Nat.lt_succ_self _
      · rw [FdVector.slot_stored_of_ne h.wf hfd] at ho
        exact (h.slots fd o ho).trans (Nat.lt_succ_self _)
    · intro o ho
      rw [← Option.some.inj ho]
      exact Nat.lt_succ_self _
  | del fd =>
    obtain ⟨v, hdel, rfl⟩ := step_del hstep
    -- a deletion empties one slot at most
    have hv : v.Wf ∧ v.created = s.fds.created ∧
        ∀ g o, v.slot g = some o → s.fds.slot g = some o := by
      rcases FdVector.del_ok hdel with rfl | ⟨-, rfl⟩
      · exact ⟨h.wf, rfl, fun _ _ ho => ho⟩
      · refine ⟨⟨h.wf.two_le, h.wf.lt, h.wf.mSize⟩, rfl, fun g o ho => ?_⟩
        by_cases hg : g = fd.toNat
        · subst hg
          rw [FdVector.slot_erased_self] at ho
          cases ho
        · rwa [FdVector.slot_erased_of_ne hg] at ho
    obtain ⟨hwf, hcreated, hslots⟩ := hv
    refine ⟨hwf, h.range, h.creating, ?_, ?_, ?_⟩
    · intro c hc
      -- the number has one more deletion behind it
      have hle := h.epoch c hc
      show c.epoch ≤ Function.update s.dels fd (s.dels fd + 1) c.fd
      by_cases hfd : c.fd = fd
      · rw [hfd, Function.update_self]
        rw [hfd] at hle
        omega
      · rw [Function.update_of_ne hfd]
        exact hle
    · intro c hc o ho
      show o < v.created
      rw [hcreated]
      exact h.fresh c hc o ho
    · intro g o ho
      show o < v.created
      rw [hcreated]
      exact h.slots g o (hslots g o ho)
  | assign i value =>
    obtain ⟨obj, rfl⟩ := step_assign hstep
    exact ⟨h.wf, h.range, h.creating, h.epoch, h.fresh, h.slots⟩

/-- A creation that is the first one since the last `del`, and any other step, keeps the
    invariant. -/
theorem step_inv (h : s.Inv) (hC : s.FirstCreator a) (hstep : step s a = some s') : s'.Inv := by
  have hreached := step_reached h.toReached hstep
  cases a with
  | get fd autoCreate =>
    obtain ⟨hrange, found, hread, rfl⟩ := step_get hstep
    have hadds := adds_note s fd found
    have hfds : (s.note fd found).fds = s.fds := by cases found <;> rfl
    refine { hreached with one := ?_, kept := ?_ }
    · -- what is found is what the table has, as is what was returned before
      refine h.one.adds hadds ?_
      intro c hc hfd hepoch o o' ho ho'
      dsimp only at hfd hepoch ho'
      have hkept := (h.kept c hc (by rw [hfd]; exact hepoch) o ho).2
      have hfound := (found_lt h.toReached hread ho').1.2
      rw [hfd] at hkept
      exact Option.some.inj (hkept.symm.trans hfound)
    · intro c hc hepoch o ho
      rw [hfds]
      rw [hadds.1] at hepoch
      rcases hadds.2 c hc with rfl | hc
      · exact (found_lt h.toReached hread ho).1
      · exact h.kept c hc hepoch o ho
  | create i file =>
    obtain ⟨call, v, obj, hcall, -, hcreate, rfl⟩ := step_create hstep
    have hmem : call ∈ s.calls := List.mem_of_getElem? hcall
    obtain ⟨hpos, rfl, rfl⟩ := FdVector.createSection_ok h.wf (h.range call hmem) hcreate
    have hfirst := hC call hcall
    have hcalls : ∀ c ∈ s.calls.set i ⟨call.fd, false, some s.fds.created, s.dels call.fd⟩,
        c = ⟨call.fd, false, some s.fds.created, s.dels call.fd⟩ ∨ c ∈ s.calls :=
      fun c hc => (List.mem_or_eq_of_mem_set hc).symm
    refine { hreached with one := ?_, kept := ?_ }
    · refine h.one.adds ⟨rfl, hcalls⟩ ?_
      intro c hc hfd hepoch o o' ho ho'
      -- no other call has returned an object
      exact absurd (ho.symm.trans (hfirst c hc hfd hepoch)) (Option.some_ne_none o)
    · intro c hc hepoch o ho
      rcases hcalls c hc with rfl | hc
      · obtain rfl := Option.some.inj ho
        exact ⟨hpos, FdVector.slot_stored_self h.wf⟩
      · obtain ⟨hpos', hslot⟩ := h.kept c hc hepoch o ho
        refine ⟨hpos', ?_⟩
        have hne : c.fd.toNat ≠ call.fd.toNat := by
          intro heq
          have hfd : c.fd = call.fd := by omega
          have hnone := hfirst c hc hfd (by rw [← hfd]; exact hepoch)
          exact absurd (ho.symm.trans hnone) (Option.some_ne_none o)
        exact (FdVector.slot_stored_of_ne h.wf hne).trans hslot
  | del fd =>
    obtain ⟨v, hdel, rfl⟩ := step_del hstep
    refine { hreached with one := h.one, kept := ?_ }
    intro c hc hepoch o ho
    have hepoch : c.epoch = Function.update s.dels fd (s.dels fd + 1) c.fd := hepoch
    have hne : c.fd ≠ fd := by
      -- a call before this `del` has a smaller number of them
      rintro rfl
      rw [Function.update_self] at hepoch
      have := h.epoch c hc
      omega
    rw [Function.update_of_ne hne] at hepoch
    obtain ⟨hpos, hslot⟩ := h.kept c hc hepoch o ho
    refine ⟨hpos, ?_⟩
    rcases FdVector.del_ok hdel with rfl | ⟨hpos', rfl⟩
    · exact hslot
    · exact (FdVector.slot_erased_of_ne (by omega)).trans hslot
  | assign i value =>
    obtain ⟨obj, rfl⟩ := step_assign hstep
    exact { hreached with one := h.one, kept := h.kept }

/-- The calls that have returned an object keep it. -/
theorem one_of_one (hsub : ∀ c ∈ s.calls, c.returned.isSome → c ∈ s'.calls) (h : s'.OneObject) :
    s.OneObject := by
  intro c hc c' hc' hfd hepoch o o' ho ho'
  exact h c (hsub c hc (ho ▸ rfl)) c' (hsub c' hc' (ho' ▸ rfl)) hfd hepoch o o' ho ho'

/-- A step can only lead to one object by meeting the condition. -/
theorem firstCreator_of_one (h : s.Reached) (hstep : step s a = some s') (hone : s'.OneObject) :
    s.OneObject ∧ s.FirstCreator a := by
  cases a with
  | get fd autoCreate =>
    obtain ⟨-, found, -, rfl⟩ := step_get hstep
    refine ⟨one_of_one (fun c hc _ => ?_) hone, trivial⟩
    cases found <;> exact List.mem_append_left _ hc
  | create i file =>
    obtain ⟨call, v, obj, hcall, hcreating, hcreate, rfl⟩ := step_create hstep
    have hmem : call ∈ s.calls := List.mem_of_getElem? hcall
    obtain ⟨-, rfl, rfl⟩ := FdVector.createSection_ok h.wf (h.range call hmem) hcreate
    have hlt : i < s.calls.length := (List.getElem?_eq_some_iff.mp hcall).1
    have hsub : ∀ c ∈ s.calls, c.returned.isSome →
        c ∈ s.calls.set i ⟨call.fd, false, some s.fds.created, s.dels call.fd⟩ := by
      intro c hc hsome
      obtain ⟨j, hj⟩ := List.mem_iff_getElem?.mp hc
      -- the call itself has not returned yet
      have hne : i ≠ j := by
        rintro rfl
        obtain rfl : call = c := Option.some.inj (hcall.symm.trans hj)
        rw [h.creating call hmem hcreating] at hsome
        exact absurd hsome Bool.false_ne_true
      refine List.mem_iff_getElem?.mpr ⟨j, ?_⟩
      rw [List.getElem?_set_ne hne]
      exact hj
    refine ⟨one_of_one hsub hone, ?_⟩
    intro call' hcall' c hc hfd hepoch
    obtain rfl : call = call' := Option.some.inj (hcall.symm.trans hcall')
    by_contra hne
    obtain ⟨o, ho⟩ := Option.ne_none_iff_exists'.mp hne
    have heq := hone c (hsub c hc (ho ▸ rfl)) _ (List.mem_set hlt _) hfd hepoch o _ ho rfl
    have hfresh := h.fresh c hc o ho
    omega
  | del fd =>
    obtain ⟨v, -, rfl⟩ := step_del hstep
    exact ⟨hone, trivial⟩
  | assign i value =>
    obtain ⟨obj, rfl⟩ := step_assign hstep
    exact ⟨hone, trivial⟩

/-! ### Runs -/

/-- The facts about the table hold of the manager as it is constructed. -/
theorem reached_new : new.Reached where
  wf := FdVector.wf_new
  range := fun _ hc => absurd hc List.not_mem_nil
  creating := fun _ hc => absurd hc List.not_mem_nil
  epoch := fun _ hc => absurd hc List.not_mem_nil
  fresh := fun _ hc => absurd hc List.not_mem_nil
  slots := by
    intro fd o ho
    have hnone : new.fds.slot fd = none := ite_self none
    exact absurd (hnone.symm.trans ho).symm (Option.some_ne_none o)

/-- The invariant holds of the manager as it is constructed. -/
theorem inv_new : new.Inv where
  toReached := reached_new
  one := fun _ hc => absurd hc List.not_mem_nil
  kept := fun _ hc => absurd hc List.not_mem_nil

/-- **One object per descriptor, exactly.**  In an interleaving of calls of `get` and `del` on any
    descriptors, calls on one descriptor that return with no `del` in between return one object,
    exactly when no creation comes after another call on the descriptor has returned an object. -/
theorem one_object_iff (as : List FdAction) (s : FdRun) (hrun : runFrom step new as = some s) :
    OneObject s ↔ Along step FirstCreator new as := by
  constructor
  · intro hone
    exact (along_of_run (I := Reached) (P := OneObject) (fun _ _ _ => step_reached)
      (fun _ _ _ => firstCreator_of_one) reached_new hrun hone).2
  · intro hC
    exact (run_invariant (I := Inv) (fun _ _ _ => step_inv) inv_new hC hrun).one

/-- Two calls one after the other. -/
theorem one_object_iff_twice :
    ∃ s, runFrom step new [.get 5 true, .create 0 none, .get 5 true] = some s ∧ OneObject s :=
  ⟨_, rfl, (one_object_iff [.get 5 true, .create 0 none, .get 5 true] _ rfl).mpr (by decide)⟩

/-- Two calls that both look before one of them has created its object. -/
theorem two_objects :
    ¬ ∀ (as : List FdAction) (s : FdRun), runFrom step new as = some s → OneObject s := by
  intro h
  have hone := h [.get 5 true, .get 5 true, .create 0 none, .create 1 none] _ rfl
  have heq := hone ⟨5, false, some 0, 0⟩ (by decide) ⟨5, false, some 1, 0⟩ (by decide) rfl rfl
    0 1 rfl rfl
  exact absurd heq (by decide)

/-! ### The settings of an object -/

/-- In such an interleaving a later lookup sees what is set through a call that has returned since
    the last `del`, as long as the size of the vector fits an `int`. -/
theorem settings_are_seen {as : List FdAction} {s : FdRun} (hC : Along step FirstCreator new as)
    (hrun : runFrom step new as = some s) (hsize : s.fds.size < 2 ^ 31) {c : GetCall}
    (hc : c ∈ s.calls) (hepoch : c.epoch = s.dels c.fd) {o : ℕ} (ho : c.returned = some o) :
    (s.fds.abs s.objects).find c.fd.toNat = some (s.objects o) := by
  have hinv := run_invariant (I := Inv) (fun _ _ _ => step_inv) inv_new hC hrun
  have hslot := (hinv.kept c hc hepoch o ho).2
  obtain ⟨found, hread, hfind⟩ := @FdVector.find_abs s.fds c.fd.toNat hinv.wf hsize s.objects
  rw [FdVector.readSection_eq hinv.wf hsize, Bool.not_false, Bool.or_true, if_pos rfl] at hread
  obtain rfl := Option.some.inj (Except.ok.inj hread)
  rw [hfind, hslot]
  rfl

/-- A timeout is set through the call that has created the object, after another lookup. -/
theorem settings_are_seen_twice :
    ∃ s, runFrom step new [.get 5 true, .create 0 none, .get 5 false,
        .assign 1 ⟨true, true, true, false, false, 1500, -1⟩] = some s ∧
      (s.fds.abs s.objects).find 5 = some ⟨true, true, true, false, false, 1500, -1⟩ := by
  refine ⟨_, rfl, ?_⟩
  exact @settings_are_seen [.get 5 true, .create 0 none, .get 5 false,
    .assign 1 ⟨true, true, true, false, false, 1500, -1⟩] _ (by decide) rfl (by decide)
    ⟨5, false, some 0, 0⟩ (by decide) rfl 0 rfl

end FdRun

end LoNetfw.Hook
