import LoNetfw.Hook.FdVector
import LoNetfw.Scheduler.FdTable

namespace LoNetfw.Hook

open Basis
open Scheduler (FdTable)

/-!
# Tables indexed by a descriptor

The vector of `FdManager` and the table of contexts of `IOScheduler` are indexed by any `int` that a
caller passes, the `-1` of an unopened or closed `Socket` included.  Every lookup tests the
descriptor against the size from one side only, and the sizes are compared as `int`.

* `addLookup`, `findLookup` — the lookups of `addEvent`, and of `delEvent`, `cancelEvent` and
  `cancelAll`;
* `Tables.step` — a call on either table; the registry of what `get(fd, true)` has created goes
  along;
* `Tables.Sound` — no access was out of bounds, and `get(fd, false)` returns what the registry has;
* `descriptor_tables_iff` — it holds all along a run exactly when every call meets `InBounds`;
* `sound_of_descriptors` — a condition on the descriptors alone.
-/

/-! ### The table of contexts -/

/-- The lookup of `addEvent`: the table after it and the context. -/
def addLookup (t : FdTable) (fd : ℤ) : Except IndexFault (FdTable × Option ℕ) :=
  if t.intSize > fd then do
    let i ← index t.size fd
    return (t, t.get i)
  else if fd < 0 then .error .negativeSize
  else do
    let grown := t.contextResize (FdTable.grownSize fd.toNat)
    let i ← index grown.size fd
    return (grown, grown.get i)

/-- The lookup of `delEvent`, `cancelEvent` and `cancelAll`. -/
def findLookup (t : FdTable) (fd : ℤ) : Except IndexFault (Option ℕ) :=
  if t.intSize ≤ fd then .ok none
  else do
    let i ← index t.size fd
    return t.get i

/-- The size as an `int` is never above the size. -/
theorem intSize_le_size (t : FdTable) : t.intSize ≤ t.size := by
  unfold FdTable.intSize
  split <;> omega

/-- For a descriptor that is not negative the lookup is the one of `TableRun`. -/
theorem findLookup_natCast (t : FdTable) (fd : ℕ) :
    findLookup t fd = .ok (if t.intSize ≤ fd then none else t.get fd) := by
  have hle := intSize_le_size t
  unfold findLookup
  split
  · rfl
  · rw [index_natCast (by omega)]
    rfl

/-- A negative descriptor passes the comparison with the size and is used as an index. -/
theorem findLookup_neg {t : FdTable} {fd : ℤ} (hfd : fd < 0) (hsize : fd < t.intSize) :
    findLookup t fd = .error (.outOfBounds fd) := by
  unfold findLookup
  rw [if_neg (Int.not_le_of_gt hsize), index_neg _ hfd]
  rfl

/-- The condition on `addEvent`: the descriptor is below the size, or large enough for
    `fd * 1.5` to be above it. -/
theorem addLookup_ok {t : FdTable} {fd : ℕ} (h : fd < t.intSize ∨ 2 ≤ fd) :
    addLookup t fd = .ok (if t.intSize > fd then (t, t.get fd)
      else (t.contextResize (FdTable.grownSize fd),
        (t.contextResize (FdTable.grownSize fd)).get fd)) := by
  have hle := intSize_le_size t
  unfold addLookup
  by_cases hlt : t.intSize > fd
  · rw [if_pos hlt, if_pos hlt, index_natCast (by omega)]
    rfl
  -- the resize makes room from 2 on
  · have hgrown : fd < (t.contextResize (FdTable.grownSize fd)).size := by
      rw [FdTable.size_contextResize, FdTable.grownSize]
      omega
    rw [if_neg hlt, if_neg hlt, if_neg (by omega), Int.toNat_natCast]
    dsimp only
    rw [index_natCast hgrown]
    rfl

/-- `addEvent` faults on the same numbers, and on those below 2 for which the table does not
    grow enough. -/
theorem addLookup_error {t : FdTable} {fd : ℤ} (h : fd < 0 ∨ (t.intSize ≤ fd ∧ fd < 2)) :
    ∃ f, addLookup t fd = .error f := by
  unfold addLookup
  by_cases hneg : fd < 0
  · by_cases hlt : t.intSize > fd
    · rw [if_pos hlt, index_neg _ hneg]
      exact ⟨_, rfl⟩
    · rw [if_neg hlt, if_pos hneg]
      exact ⟨_, rfl⟩
  · obtain ⟨hle, htwo⟩ := h.resolve_left hneg
    rw [if_neg (Int.not_lt_of_ge hle), if_neg hneg]
    dsimp only
    -- 0 and 1 are not below one and a half times themselves
    have hsize : (t.contextResize (FdTable.grownSize fd.toNat)).size ≤ fd := by
      rw [FdTable.size_contextResize, FdTable.grownSize]
      omega
    rw [index_of_le hsize]
    exact ⟨_, rfl⟩

/-! ### Runs -/

/-- A call with the descriptor it passes. -/
inductive TableCall
  | get (fd : ℤ) (autoCreate : Bool)
  | del (fd : ℤ)
  | addEvent (fd : ℤ)
  | delEvent (fd : ℤ)
  | cancelEvent (fd : ℤ)
  | cancelAll (fd : ℤ)
  deriving DecidableEq, Repr

def TableCall.fd : TableCall → ℤ
  | .get fd _ | .del fd | .addEvent fd | .delEvent fd | .cancelEvent fd | .cancelAll fd => fd

structure Tables where
  fds : FdVector
  contexts : FdTable
  /-- What `get(fd, true)` has returned since the last `del(fd)`: the first object. -/
  registered : ℤ → Option ℕ
  /-- The first access that was out of bounds. -/
  fault : Option IndexFault

namespace Tables

def new : Tables := ⟨.new, .new, fun _ => none, none⟩

/-- A call of `get(fd, true)` has returned `obj`. -/
def register (registered : ℤ → Option ℕ) (fd : ℤ) (obj : Option ℕ) : ℤ → Option ℕ :=
  if (registered fd).isSome then registered else Function.update registered fd obj

/-- One call. -/
def call (s : Tables) : TableCall → Except IndexFault Tables
  | .get fd autoCreate => do
    let (fds, obj) ← s.fds.get fd autoCreate
    return { s with
      fds := fds
      registered := if autoCreate then register s.registered fd obj else s.registered }
  | .del fd => do
    let fds ← s.fds.del fd
    return { s with fds := fds, registered := Function.update s.registered fd none }
  | .addEvent fd => do
    let (contexts, _) ← addLookup s.contexts fd
    return { s with contexts := contexts }
  | .delEvent fd | .cancelEvent fd | .cancelAll fd => do
    let _ ← findLookup s.contexts fd
    return s

/-- A call as a step; the descriptor is an `int`, and nothing follows undefined behaviour. -/
def step (s : Tables) (c : TableCall) : Option Tables :=
  if s.fault = none ∧ -2 ^ 31 ≤ c.fd ∧ c.fd < 2 ^ 31 then
    match s.call c with
    | .ok s' => some s'
    | .error f => some { s with fault := some f }
  else none

/-- Every access so far was in bounds, and `get(fd, false)` returns what is registered. -/
def Sound (s : Tables) : Prop :=
  s.fault = none ∧ ∀ fd : ℕ, fd < 2 ^ 31 → s.fds.get fd false = .ok (s.fds, s.registered fd)

/-- The condition on a call: its descriptor is not negative, unless the call looks up a context and
    finds the descriptor beyond the `int`; the vector stays below `2 ^ 31` entries, and the table is
    not shrunk to the descriptor itself. -/
def InBounds (s : Tables) : TableCall → Prop
  | .get fd autoCreate => 0 ≤ fd ∧ (autoCreate = true → fd < s.fds.size ∨ fd * 3 / 2 < 2 ^ 31)
  | .del fd => 0 ≤ fd
  | .addEvent fd => 0 ≤ fd ∧ (fd < s.contexts.intSize ∨ 2 ≤ fd)
  | .delEvent fd | .cancelEvent fd | .cancelAll fd => 0 ≤ fd ∨ s.contexts.intSize ≤ fd

/-- What holds along a run that meets the condition. -/
structure Inv (s : Tables) : Prop where
  fault : s.fault = none
  wf : s.fds.Wf
  small : s.fds.size < 2 ^ 31
  slot : ∀ fd : ℕ, s.fds.slot fd = s.registered fd

variable {s s' : Tables} {c : TableCall}

/-- A step whose call is in bounds. -/
theorem step_of_ok {t : Tables} (hcall : s.call c = .ok t) (h : step s c = some s') : s' = t := by
  unfold step at h
  rw [hcall] at h
  exact (Option.some.inj (Option.ite_none_right_eq_some.mp h).2).symm

/-- A step whose call is not. -/
theorem not_sound_of_error {f : IndexFault} (hcall : s.call c = .error f) (h : step s c = some s') :
    ¬ s'.Sound := by
  unfold step at h
  rw [hcall] at h
  obtain rfl := Option.some.inj (Option.ite_none_right_eq_some.mp h).2
  exact fun hs => absurd hs.1 (Option.some_ne_none f)

/-- The descriptors of calls are `int`s. -/
theorem step_range (h : step s c = some s') : -2 ^ 31 ≤ c.fd ∧ c.fd < 2 ^ 31 :=
  (Option.ite_none_right_eq_some.mp h).1.2

/-! ### What each call keeps -/

/-- Tables that keep the invariant are free of faults. -/
theorem Inv.sound (h : s.Inv) : s.Sound := by
  refine ⟨h.fault, fun fd _ => ?_⟩
  rw [FdVector.get_false h.wf h.small, h.slot]

/-- A look-up of a descriptor that is not negative stays in the table and changes nothing. -/
theorem Inv.call_find (h : s.Inv) (fd : ℕ) : s.call (.get fd false) = .ok s := by
  show (s.fds.get fd false >>= _) = _
  rw [FdVector.get_false h.wf h.small]
  rfl

/-- `get(fd, true)` of an object that is there. -/
theorem Inv.call_get_some (h : s.Inv) {fd : ℕ} (hfd : fd < 2 ^ 31)
    (hslot : (s.fds.slot fd).isSome = true) : s.call (.get fd true) = .ok s := by
  have hregister : register s.registered fd (s.fds.slot fd) = s.registered := by
    unfold register
    rw [← h.slot, if_pos hslot]
  show (s.fds.get fd true >>= _) = _
  rw [FdVector.get_true h.wf h.small hfd, if_pos hslot]
  show Except.ok { s with registered := register s.registered fd (s.fds.slot fd) } = _
  rw [hregister]

/-- `get(fd, true)` that creates the object. -/
theorem Inv.call_get_none (h : s.Inv) {fd : ℕ} (hfd : fd < 2 ^ 31)
    (hslot : ¬ (s.fds.slot fd).isSome = true) :
    s.call (.get fd true) = .ok { s with
      fds := s.fds.stored fd
      registered := Function.update s.registered fd (some s.fds.created) } := by
  -- the registration follows the slot
  have hregister : register s.registered fd (some s.fds.created) =
      Function.update s.registered fd (some s.fds.created) := by
    unfold register
    rw [← h.slot, if_neg hslot]
  show (s.fds.get fd true >>= _) = _
  rw [FdVector.get_true h.wf h.small hfd, if_neg hslot]
  show Except.ok { s with
    fds := s.fds.stored fd, registered := register s.registered fd (some s.fds.created) } = _
  rw [hregister]

/-- The registry after a change of one entry, which the vector makes, too. -/
theorem slot_update {v : FdVector} {registered : ℤ → Option ℕ} {fd : ℕ} {obj : Option ℕ}
    (hself : v.slot fd = obj) (hne : ∀ g ≠ fd, v.slot g = registered g) (g : ℕ) :
    v.slot g = Function.update registered fd obj g := by
  by_cases hg : g = fd
  · rw [hg, Function.update_self]
    exact hself
  · have hcast : (g : ℤ) ≠ fd := fun h => hg (Int.ofNat_inj.mp h)
    rw [Function.update_of_ne hcast]
    exact hne g hg

/-- `get` keeps the invariant when the vector stays below `2 ^ 31` entries. -/
theorem Inv.get (h : s.Inv) {fd : ℕ} (hfd : fd < 2 ^ 31) {autoCreate : Bool}
    (hsize : autoCreate = true → fd < s.fds.size ∨ fd * 3 / 2 < 2 ^ 31) :
    ∃ t, s.call (.get fd autoCreate) = .ok t ∧ t.Inv ∧ t.contexts = s.contexts := by
  cases autoCreate with
  | false => exact ⟨s, h.call_find fd, h, rfl⟩
  | true =>
    by_cases hslot : (s.fds.slot fd).isSome = true
    · exact ⟨s, h.call_get_some hfd hslot, h, rfl⟩
    -- an object is made, and the vector stays below 2³¹ entries
    · refine ⟨_, h.call_get_none hfd hslot, ⟨h.fault, FdVector.wf_stored h.wf hfd, ?_, ?_⟩, rfl⟩
      · have hsmall := h.small
        have hfits := hsize rfl
        show (s.fds.stored fd).size < 2 ^ 31
        rw [FdVector.size_stored]
        split <;> omega
      · apply slot_update (FdVector.slot_stored_self h.wf)
        intro g hg
        rw [FdVector.slot_stored_of_ne h.wf hg]
        exact h.slot g

/-- A deletion stays in the table and leaves the contexts alone. -/
theorem Inv.del (h : s.Inv) (fd : ℕ) :
    ∃ t, s.call (.del fd) = .ok t ∧ t.Inv ∧ t.contexts = s.contexts := by
  refine ⟨{ s with
    fds := if s.fds.size ≤ fd then s.fds else s.fds.erased fd
    registered := Function.update s.registered fd none }, ?_, ?_, rfl⟩
  · show (s.fds.del fd >>= _) = _
    rw [FdVector.del_eq h.wf h.small]
    rfl
  · by_cases hfd : s.fds.size ≤ fd
    · -- beyond the vector nothing is registered
      have hnone : s.fds.slot fd = none := if_neg (Nat.not_lt_of_le hfd)
      rw [if_pos hfd]
      exact ⟨h.fault, h.wf, h.small, slot_update hnone fun g _ => h.slot g⟩
    · rw [if_neg hfd]
      -- inside the vector the slot is emptied
      refine ⟨h.fault, ⟨h.wf.two_le, h.wf.lt, h.wf.mSize⟩, h.small, ?_⟩
      apply slot_update FdVector.slot_erased_self
      intro g hg
      rw [FdVector.slot_erased_of_ne hg]
      exact h.slot g

/-- `addEvent` leaves the vector and its registry; the table of contexts is as large as it was, or
    as the descriptor asks for. -/
theorem Inv.addEvent (h : s.Inv) {fd : ℕ} (hC : fd < s.contexts.intSize ∨ 2 ≤ fd) :
    ∃ t, s.call (.addEvent fd) = .ok t ∧ t.Inv ∧ (t.contexts = s.contexts ∨
      (s.contexts.intSize ≤ fd ∧ t.contexts.size = FdTable.grownSize fd)) := by
  refine ⟨{ s with contexts := if s.contexts.intSize > fd then s.contexts
    else s.contexts.contextResize (FdTable.grownSize fd) }, ?_,
    ⟨h.fault, h.wf, h.small, h.slot⟩, ?_⟩
  · show (addLookup s.contexts fd >>= _) = _
    rw [addLookup_ok hC]
    -- either the table is large enough, or it is resized
    by_cases hlt : s.contexts.intSize > fd
    · rw [if_pos hlt, if_pos hlt]
      rfl
    · rw [if_neg hlt, if_neg hlt]
      rfl
  · dsimp only
    by_cases hlt : s.contexts.intSize > fd
    · exact Or.inl (if_pos hlt)
    · rw [if_neg hlt]
      exact Or.inr ⟨Int.not_lt.mp hlt, FdTable.size_contextResize _ _⟩

/-- The calls of `IOScheduler` that only look up change nothing. -/
theorem call_find_ok {fd : ℤ} {obj : Option ℕ} (h : findLookup s.contexts fd = .ok obj)
    (hc : c = .delEvent fd ∨ c = .cancelEvent fd ∨ c = .cancelAll fd) : s.call c = .ok s := by
  have hbind : (findLookup s.contexts fd >>= fun _ => Except.ok s) = .ok s := by
    rw [h]
    rfl
  rcases hc with rfl | rfl | rfl <;> exact hbind

/-- The calls of `IOScheduler` fault with their look-up. -/
theorem call_find_error {fd : ℤ} {f : IndexFault} (h : findLookup s.contexts fd = .error f)
    (hc : c = .delEvent fd ∨ c = .cancelEvent fd ∨ c = .cancelAll fd) : s.call c = .error f := by
  have hbind : (findLookup s.contexts fd >>= fun _ => Except.ok s) = .error f := by
    rw [h]
    rfl
  rcases hc with rfl | rfl | rfl <;> exact hbind

/-- A call that meets the condition keeps the invariant, and only `addEvent` changes the size of the
    table of contexts. -/
theorem Inv.call_ok (h : s.Inv) (hC : s.InBounds c) (hlt : c.fd < 2 ^ 31) :
    ∃ t, s.call c = .ok t ∧ t.Inv ∧ (t.contexts = s.contexts ∨
      (s.contexts.intSize ≤ c.fd ∧ t.contexts.size = FdTable.grownSize c.fd.toNat)) := by
  -- the calls that only look up are good on any number that is not negative, and past the table
  have hfind : ∀ fd : ℤ, (c = .delEvent fd ∨ c = .cancelEvent fd ∨ c = .cancelAll fd) →
      (0 ≤ fd ∨ s.contexts.intSize ≤ fd) → s.call c = .ok s := by
    intro fd hc hbounds
    rcases hbounds with hpos | hle
    · obtain ⟨n, rfl⟩ := Int.eq_ofNat_of_zero_le hpos
      exact call_find_ok (findLookup_natCast s.contexts n) hc
    · exact call_find_ok (if_pos hle) hc
  cases c with
  | get fd autoCreate =>
    obtain ⟨n, rfl⟩ := Int.eq_ofNat_of_zero_le hC.1
    have hsize : autoCreate = true → n < s.fds.size ∨ n * 3 / 2 < 2 ^ 31 := by
      intro hcreate
      have := hC.2 hcreate
      omega
    obtain ⟨t, hcall, ht, hcontexts⟩ := h.get (Int.ofNat_lt.mp hlt) hsize
    exact ⟨t, hcall, ht, Or.inl hcontexts⟩
  | del fd =>
    obtain ⟨n, rfl⟩ := Int.eq_ofNat_of_zero_le hC
    obtain ⟨t, hcall, ht, hcontexts⟩ := h.del n
    exact ⟨t, hcall, ht, Or.inl hcontexts⟩
  | addEvent fd =>
    obtain ⟨n, rfl⟩ := Int.eq_ofNat_of_zero_le hC.1
    exact @Inv.addEvent s h n (by have := hC.2; omega)
  | delEvent fd => exact ⟨s, hfind fd (Or.inl rfl) hC, h, Or.inl rfl⟩
  | cancelEvent fd => exact ⟨s, hfind fd (Or.inr (Or.inl rfl)) hC, h, Or.inl rfl⟩
  | cancelAll fd => exact ⟨s, hfind fd (Or.inr (Or.inr rfl)) hC, h, Or.inl rfl⟩

/-- A call that stays in bounds keeps the invariant. -/
theorem step_inv (h : s.Inv) (hC : s.InBounds c) (hstep : step s c = some s') : s'.Inv := by
  obtain ⟨t, hcall, ht, -⟩ := h.call_ok hC (step_range hstep).2
  rw [step_of_ok hcall hstep]
  exact ht

/-! ### Calls that do not meet the condition -/

/-- With a negative descriptor `get` and `del` leave the vector. -/
theorem Inv.call_neg (h : s.Inv) {fd : ℤ} (hfd : fd < 0)
    (hc : (∃ autoCreate, c = .get fd autoCreate) ∨ c = .del fd) : ∃ f, s.call c = .error f := by
  -- a negative number is below `m_size`, so the test lets it through
  have hsize : fd < s.fds.mSize := by
    rw [h.wf.mSize_of_lt h.small]
    omega
  rcases hc with ⟨autoCreate, rfl⟩ | rfl
  · refine ⟨.outOfBounds fd, ?_⟩
    show ((s.fds.readSection fd autoCreate >>= _) >>= _) = _
    rw [FdVector.readSection_neg hfd hsize]
    rfl
  · refine ⟨.outOfBounds fd, ?_⟩
    show (s.fds.del fd >>= _) = _
    rw [FdVector.del_neg hfd hsize]
    rfl

/-- When the vector grows to `2 ^ 31` entries, the new object is not found again. -/
theorem Inv.not_sound_of_large (h : s.Inv) {fd : ℕ} (hfd : fd < 2 ^ 31) (hsize : s.fds.size ≤ fd)
    (hlarge : 2 ^ 31 ≤ fd * 3 / 2) (hstep : step s (.get fd true) = some s') : ¬ s'.Sound := by
  have hslot : s.fds.slot fd = none := if_neg (Nat.not_lt_of_le hsize)
  rw [step_of_ok (h.call_get_none hfd (by rw [hslot]; exact Bool.false_ne_true)) hstep]
  rintro ⟨-, hfound⟩
  have hget := hfound fd hfd
  dsimp only at hget
  have hle : 2 ^ 31 ≤ (s.fds.stored fd).size := by
    rw [FdVector.size_stored, if_pos hsize]
    exact hlarge
  rw [FdVector.get_false_of_le (FdVector.wf_stored h.wf hfd) hle, Function.update_self] at hget
  exact absurd (Prod.mk.inj (Except.ok.inj hget)).2.symm (Option.some_ne_none _)

/-- A call after which all is sound has met the condition. -/
theorem inBounds_of_sound (h : s.Inv) (hstep : step s c = some s') (hs' : s'.Sound) :
    s.InBounds c := by
  obtain ⟨-, hlt⟩ := step_range hstep
  -- a negative number that is below the table's size faults
  have hfind : ∀ fd : ℤ, (c = .delEvent fd ∨ c = .cancelEvent fd ∨ c = .cancelAll fd) →
      0 ≤ fd ∨ s.contexts.intSize ≤ fd := by
    intro fd hc
    by_contra hnot
    rw [not_or] at hnot
    have hlookup := @findLookup_neg s.contexts fd (by omega) (by omega)
    exact not_sound_of_error (call_find_error hlookup hc) hstep hs'
  -- and `FdManager` faults on all of them
  have hpos : ∀ fd : ℤ, (∃ autoCreate, c = .get fd autoCreate) ∨ c = .del fd → 0 ≤ fd := by
    intro fd hc
    by_contra hneg
    obtain ⟨f, hf⟩ := h.call_neg (Int.lt_of_not_ge hneg) hc
    exact not_sound_of_error hf hstep hs'
  cases c with
  | get fd autoCreate =>
    have hfd := hpos fd (Or.inl ⟨_, rfl⟩)
    refine ⟨hfd, ?_⟩
    rintro rfl
    obtain ⟨n, rfl⟩ := Int.eq_ofNat_of_zero_le hfd
    by_contra hnot
    rw [not_or] at hnot
    exact h.not_sound_of_large (Int.ofNat_lt.mp hlt) (by omega) (by omega) hstep hs'
  | del fd => exact hpos fd (Or.inr rfl)
  | addEvent fd =>
    by_contra hnot
    -- `addEvent` faults on a negative number, and where the resize is too small
    have hbad : fd < 0 ∨ (s.contexts.intSize ≤ fd ∧ fd < 2) := by
      have hnot : ¬ (0 ≤ fd ∧ (fd < s.contexts.intSize ∨ 2 ≤ fd)) := hnot
      omega
    obtain ⟨f, hf⟩ := addLookup_error hbad
    have hcall : s.call (.addEvent fd) = .error f := by
      show (addLookup s.contexts fd >>= _) = _
      rw [hf]
      rfl
    exact not_sound_of_error hcall hstep hs'
  | delEvent fd => exact hfind fd (Or.inl rfl)
  | cancelEvent fd => exact hfind fd (Or.inr (Or.inl rfl))
  | cancelAll fd => exact hfind fd (Or.inr (Or.inr rfl))

/-! ### Runs -/

/-- The tables as they are constructed. -/
theorem inv_new : new.Inv where
  fault := rfl
  wf := FdVector.wf_new
  small := by decide
  slot := by
    intro fd
    show (if fd < 64 then none else none) = none
    exact ite_self _

/-- **Bounds of the descriptor tables, exactly.**  In a run of calls on any descriptors, every
    access is in bounds and `get(fd, false)` returns what the last `get(fd, true)` without a
    `del(fd)` behind it has created, exactly when every call meets the condition. -/
theorem descriptor_tables_iff (cs : List TableCall) (s : Tables)
    (hrun : runFrom step new cs = some s) :
    Always step Sound new cs ↔ Along step InBounds new cs :=
  always_iff_along_of_stronger (J := Inv) (fun _ h => h.sound) (fun _ _ _ => inBounds_of_sound)
    (fun _ _ _ => step_inv) inv_new hrun

/-! ### Descriptors that are never a problem -/

/-- The descriptor is not negative, and `fd * 1.5` fits an `int`. -/
def InRange (c : TableCall) : Prop := 0 ≤ c.fd ∧ c.fd * 3 / 2 < 2 ^ 31

/-- With such descriptors the table of contexts keeps a size that fits an `int`. -/
structure ContextsFit (s : Tables) : Prop where
  le : 32 ≤ s.contexts.size
  lt : s.contexts.size < 2 ^ 31

/-- A table whose size fits an `int` is compared as it is. -/
theorem ContextsFit.intSize (h : s.ContextsFit) : s.contexts.intSize = s.contexts.size :=
  FdTable.intSize_of_lt h.lt

/-- Then every descriptor of the range is in bounds. -/
theorem inBounds_of_inRange (h : s.ContextsFit) (hc : InRange c) : s.InBounds c := by
  obtain ⟨hpos, hlt⟩ := hc
  have hle := h.le
  have hsize := h.intSize
  cases c with
  | get fd autoCreate => exact ⟨hpos, fun _ => Or.inr hlt⟩
  | del fd => exact hpos
  | addEvent fd =>
    -- the first table has 32 entries, and it never shrinks below 2
    refine ⟨hpos, ?_⟩
    rw [hsize]
    omega
  | delEvent fd => exact Or.inl hpos
  | cancelEvent fd => exact Or.inl hpos
  | cancelAll fd => exact Or.inl hpos

/-- The table of contexts goes on to fit after every step. -/
theorem step_contextsFit (h : s.Inv) (hs : s.ContextsFit) (hc : InRange c)
    (hstep : step s c = some s') : s'.ContextsFit := by
  obtain ⟨t, hcall, -, hcontexts⟩ := h.call_ok (inBounds_of_inRange hs hc) (step_range hstep).2
  rw [step_of_ok hcall hstep]
  rcases hcontexts with heq | ⟨hle, hsize⟩
  · exact ⟨heq ▸ hs.le, heq ▸ hs.lt⟩
  · have h32 := hs.le
    have hlt := hc.2
    rw [hs.intSize] at hle
    rw [FdTable.grownSize] at hsize
    constructor <;> omega

/-- **Bounds of the descriptor tables.**  In a run of calls on descriptors that are not negative and
    stay below `2 ^ 31` when multiplied by 1.5, all is sound. -/
theorem sound_of_descriptors {cs : List TableCall} {s : Tables} (hcs : ∀ c ∈ cs, InRange c)
    (hrun : runFrom step new cs = some s) : Always step Sound new cs := by
  have halong : Along step (fun _ c => InRange c) new cs :=
    along_of_forall new fun c hc _ => hcs c hc
  have hnew : new.Inv ∧ new.ContextsFit := ⟨inv_new, by decide, by decide⟩
  refine (always_iff_along_of_stronger (J := Inv) (C := InBounds) (fun _ h => h.sound)
    (fun _ _ _ => inBounds_of_sound) (fun _ _ _ => step_inv) inv_new hrun).mpr ?_
  refine halong.imp_of_inv (I := fun s => s.Inv ∧ s.ContextsFit) ?_ ?_ hnew
  · rintro s c s' ⟨hi, hs⟩ hc hstep
    exact ⟨step_inv hi (inBounds_of_inRange hs hc) hstep, step_contextsFit hi hs hc hstep⟩
  · rintro s c ⟨-, hs⟩ hc
    exact inBounds_of_inRange hs hc

/-- Two descriptors, one of them beyond both tables. -/
theorem sound_of_descriptors_two :
    Always step Sound new [.get 40 true, .get 70 true, .addEvent 70, .del 70, .cancelAll 40] :=
  sound_of_descriptors (by simp [InRange, TableCall.fd]) rfl

instance decidableInBounds (s : Tables) : (c : TableCall) → Decidable (s.InBounds c)
  | .get _ _ => inferInstanceAs (Decidable (_ ∧ _))
  | .del _ => inferInstanceAs (Decidable (_ ≤ _))
  | .addEvent _ => inferInstanceAs (Decidable (_ ∧ _))
  | .delEvent _ | .cancelEvent _ | .cancelAll _ => inferInstanceAs (Decidable (_ ∨ _))

/-- Two descriptors, one of them beyond the table of contexts. -/
theorem descriptor_tables_iff_two :
    Always step Sound new [.get 40 true, .get 7 true, .addEvent 40, .del 7, .cancelAll 40] :=
  (descriptor_tables_iff _ _ rfl).mpr (by decide)

/-- `getSendTimeout()` of a `Socket` that was never opened. -/
theorem unopened_socket_out_of_bounds :
    ¬ ∀ (cs : List TableCall) (s : Tables), runFrom step new cs = some s →
      Always step Sound new cs := by
  intro h
  have hall := h [.get (-1) false] _ rfl
  exact absurd (hall.2 _ rfl).1 (by decide)

end Tables

end LoNetfw.Hook
