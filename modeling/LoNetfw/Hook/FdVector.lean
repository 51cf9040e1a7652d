import LoNetfw.Hook.FdManager
import LoNetfw.Scheduler.IdleTimeout

namespace LoNetfw.Hook

open Scheduler (toInt)

/-!
# `FdManager` — the vector and its index

`FdManager` as the code keeps it: a vector of pointers, and its size once more as an `int`.  A
descriptor is any `int`; it is compared with the `int` under the read lock, with the `size_t` under
the write lock, and then it is the index.  `get` is two critical sections, one under each lock.

* `index` — the test that the language leaves out;
* `FdVector.readSection`, `createSection`, `get`, `del` — the operations, with that test;
* `FdVector.Wf` — the vector has two entries at least, and `m_size` is its size as an `int`;
* `readSection_eq`, `createSection_eq`, `del_eq` — each operation while the size fits an `int`;
* `find_abs` — the manager the other modules use is this one.
-/

/-- Undefined behaviour of an access to a vector. -/
inductive IndexFault
  | outOfBounds (index : ℤ)
  /-- A negative number of entries: the conversion of a `double` to `size_t`. -/
  | negativeSize
  deriving DecidableEq, Repr

/-- The position that `v[i]` accesses in a vector of `size` entries. -/
def index (size : ℕ) (i : ℤ) : Except IndexFault ℕ :=
  if 0 ≤ i ∧ i < size then .ok i.toNat else .error (.outOfBounds i)

/-- An index below the size is good. -/
theorem index_natCast {size i : ℕ} (h : i < size) : index size i = .ok i :=
  if_pos ⟨Int.natCast_nonneg i, Int.ofNat_lt.mpr h⟩

/-- An index below zero is out of bounds. -/
theorem index_neg {i : ℤ} (size : ℕ) (h : i < 0) : index size i = .error (.outOfBounds i) :=
  if_neg fun hi => absurd hi.1 (Int.not_le_of_gt h)

/-- An index from the size on is out of bounds. -/
theorem index_of_le {size : ℕ} {i : ℤ} (h : (size : ℤ) ≤ i) :
    index size i = .error (.outOfBounds i) :=
  if_neg fun hi => absurd hi.2 (Int.not_lt_of_ge h)

/-- `m_fds` and `m_size`.  An `Fd` object is a number; they are created one after the other. -/
structure FdVector where
  fds : ℕ → Option ℕ
  /-- `m_fds.size()`. -/
  size : ℕ
  mSize : ℤ
  created : ℕ

namespace FdVector

/-- `FdManager(64)`. -/
def new : FdVector := ⟨fun _ => none, 64, 64, 0⟩

/-- `m_fds.resize(n)`, and `m_size` after it. -/
def resize (v : FdVector) (n : ℕ) : FdVector :=
  { v with fds := fun g => if g < v.size then v.fds g else none, size := n, mSize := toInt n }

/-- The read-locked section of `get`: what it returns, or nothing if it goes on to create an
    object. -/
def readSection (v : FdVector) (fd : ℤ) (autoCreate : Bool) :
    Except IndexFault (Option (Option ℕ)) :=
  if v.mSize ≤ fd then .ok (if autoCreate then none else some none)
  else do
    let i ← index v.size fd
    return if (v.fds i).isSome || !autoCreate then some (v.fds i) else none

/-- The vector before the assignment: `fd >= m_fds.size()` is a comparison of `size_t`. -/
def grow (v : FdVector) (fd : ℤ) : Except IndexFault FdVector :=
  if (v.size : ℤ) ≤ fd % 2 ^ 64 then
    if fd < 0 then .error .negativeSize else .ok (v.resize (fd.toNat * 3 / 2))
  else .ok v

/-- The write-locked section of `get`: the vector and the new object. -/
def createSection (v : FdVector) (fd : ℤ) : Except IndexFault (FdVector × ℕ) := do
  let grown ← v.grow fd
  let i ← index grown.size fd
  return (
    { grown with
      fds := Function.update grown.fds i (some v.created)
      created := v.created + 1 },
    v.created)

/-- `get(fd, auto_create)` with nothing in between. -/
def get (v : FdVector) (fd : ℤ) (autoCreate : Bool) : Except IndexFault (FdVector × Option ℕ) := do
  match ← v.readSection fd autoCreate with
  | some found => return (v, found)
  | none =>
    let (v', obj) ← v.createSection fd
    return (v', some obj)

/-- `del(fd)`. -/
def del (v : FdVector) (fd : ℤ) : Except IndexFault FdVector :=
  if v.mSize ≤ fd then .ok v
  else do
    let i ← index v.size fd
    return { v with fds := Function.update v.fds i none }

/-! ### While the size fits an `int` -/

/-- What every vector the manager reaches is like. -/
structure Wf (v : FdVector) : Prop where
  two_le : 2 ≤ v.size
  lt : v.size < 2 ^ 32
  mSize : v.mSize = toInt v.size

/-- The entry of a descriptor; none beyond the vector. -/
def slot (v : FdVector) (fd : ℕ) : Option ℕ := if fd < v.size then v.fds fd else none

variable {v v' : FdVector} {fd g obj : ℕ}

/-- The vector as it is constructed. -/
theorem wf_new : new.Wf := ⟨by decide, by decide, rfl⟩

/-- A size that fits an `int` is kept. -/
theorem toInt_of_lt {n : ℕ} (h : n < 2 ^ 31) : toInt n = n := by
  unfold toInt
  rw [Nat.mod_eq_of_lt (by omega), if_pos h]

/-- A size that does not fit an `int` becomes negative. -/
theorem toInt_of_le {n : ℕ} (h : 2 ^ 31 ≤ n) (h' : n < 2 ^ 32) : toInt n < 0 := by
  unfold toInt
  rw [Nat.mod_eq_of_lt h', if_neg (by omega)]
  omega

/-- `m_size` is the size of a vector that fits an `int`. -/
theorem Wf.mSize_of_lt (h : v.Wf) (hsize : v.size < 2 ^ 31) : v.mSize = v.size := by
  rw [h.mSize, toInt_of_lt hsize]

/-- `m_size` is negative for a vector that does not fit an `int`. -/
theorem Wf.mSize_of_le (h : v.Wf) (hsize : 2 ^ 31 ≤ v.size) : v.mSize < 0 := by
  rw [h.mSize]
  exact toInt_of_le hsize h.lt

/-- The first section of `get` on a vector whose size fits. -/
theorem readSection_eq (h : v.Wf) (hsize : v.size < 2 ^ 31) (autoCreate : Bool) :
    v.readSection fd autoCreate =
      .ok (if (v.slot fd).isSome || !autoCreate then some (v.slot fd) else none) := by
  unfold readSection slot
  rw [h.mSize_of_lt hsize]
  by_cases hfd : fd < v.size
  · rw [if_neg (by omega), index_natCast hfd, if_pos hfd]
    rfl
  · rw [if_pos (by omega), if_neg hfd]
    cases autoCreate <;> rfl

/-- `get(fd)` finds nothing once the size has become negative. -/
theorem readSection_of_le (h : v.Wf) (hsize : 2 ^ 31 ≤ v.size) (autoCreate : Bool) :
    v.readSection fd autoCreate = .ok (if autoCreate then none else some none) := by
  have hneg := h.mSize_of_le hsize
  unfold readSection
  rw [if_pos (by omega)]

/-- The vector has an entry for the descriptor before the assignment. -/
theorem grow_eq (hfd : fd < 2 ^ 31) :
    v.grow fd = .ok (if v.size ≤ fd then v.resize (fd * 3 / 2) else v) := by
  unfold grow
  rw [Int.emod_eq_of_lt (by omega) (by omega)]
  by_cases hle : v.size ≤ fd
  · rw [if_pos (by omega), if_neg (by omega), if_pos hle, Int.toNat_natCast]
  · rw [if_neg (by omega), if_neg hle]

/-- The vector after an object has been stored. -/
def stored (v : FdVector) (fd : ℕ) : FdVector :=
  let grown := if v.size ≤ fd then v.resize (fd * 3 / 2) else v
  { grown with fds := Function.update grown.fds fd (some v.created), created := v.created + 1 }

/-- The size after the second section. -/
theorem size_stored : (v.stored fd).size = if v.size ≤ fd then fd * 3 / 2 else v.size := by
  unfold stored
  split <;> rfl

/-- It is enough for the number. -/
theorem lt_size_stored (h : v.Wf) : v.size ≤ (v.stored fd).size ∧ fd < (v.stored fd).size := by
  have htwo := h.two_le
  rw [size_stored]
  split <;> omega

/-- The second section stores a new object. -/
theorem createSection_eq (h : v.Wf) (hfd : fd < 2 ^ 31) :
    v.createSection fd = .ok (v.stored fd, v.created) := by
  have hindex : index (if v.size ≤ fd then v.resize (fd * 3 / 2) else v).size fd = .ok fd :=
    index_natCast (lt_size_stored h).2
  unfold createSection
  rw [grow_eq hfd]
  show (index (if v.size ≤ fd then v.resize (fd * 3 / 2) else v).size fd >>= _) = _
  rw [hindex]
  rfl

/-- It leaves a vector with all of its slots. -/
theorem wf_stored (h : v.Wf) (hfd : fd < 2 ^ 31) : (v.stored fd).Wf := by
  have htwo := h.two_le
  have hlt := h.lt
  refine ⟨?_, ?_, ?_⟩
  · exact htwo.trans (lt_size_stored h).1
  · rw [size_stored]
    split <;> omega
  · unfold stored
    split
    · rfl
    · exact h.mSize

/-- The slot of a store has the new object. -/
theorem slot_stored_self (h : v.Wf) : (v.stored fd).slot fd = some v.created := by
  unfold slot
  rw [if_pos (lt_size_stored h).2]
  exact Function.update_self ..

/-- and the others are as they were. -/
theorem slot_stored_of_ne (h : v.Wf) (hne : g ≠ fd) : (v.stored fd).slot g = v.slot g := by
  have hle := (@lt_size_stored v fd h).1
  have hupdate : (v.stored fd).fds g = (if v.size ≤ fd then v.resize (fd * 3 / 2) else v).fds g :=
    Function.update_of_ne hne ..
  unfold slot
  rw [hupdate]
  by_cases hg : g < v.size
  · rw [if_pos (by omega), if_pos hg]
    split
    · exact if_pos hg
    · rfl
  · rw [if_neg hg]
    -- a slot that is new is empty
    by_cases hgrown : v.size ≤ fd
    · rw [if_pos hgrown]
      show (if g < (v.stored fd).size then (if g < v.size then v.fds g else none) else none) = none
      rw [if_neg hg, ite_self]
    · have hsize : (v.stored fd).size = v.size := by rw [size_stored, if_neg hgrown]
      rw [hsize, if_neg hg]

/-- The vector after an entry has been reset. -/
def erased (v : FdVector) (fd : ℕ) : FdVector := { v with fds := Function.update v.fds fd none }

/-- `del` on a vector whose size fits. -/
theorem del_eq (h : v.Wf) (hsize : v.size < 2 ^ 31) :
    v.del fd = .ok (if v.size ≤ fd then v else v.erased fd) := by
  have hm := h.mSize_of_lt hsize
  unfold del
  by_cases hfd : v.size ≤ fd
  · rw [if_pos (by omega), if_pos hfd]
  · rw [if_neg (by omega), if_neg hfd, index_natCast (by omega)]
    rfl

/-- The slot of a deletion is empty. -/
theorem slot_erased_self : (v.erased fd).slot fd = none := by
  show (if fd < v.size then Function.update v.fds fd none fd else none) = none
  rw [Function.update_self, ite_self]

/-- and the others are as they were. -/
theorem slot_erased_of_ne (hne : g ≠ fd) : (v.erased fd).slot g = v.slot g := by
  show (if g < v.size then Function.update v.fds fd none g else none) = v.slot g
  rw [Function.update_of_ne hne]
  rfl

/-- `get(fd)`. -/
theorem get_false (h : v.Wf) (hsize : v.size < 2 ^ 31) : v.get fd false = .ok (v, v.slot fd) := by
  unfold get
  rw [readSection_eq h hsize, Bool.not_false, Bool.or_true]
  rfl

/-- `get(fd, true)`: an object that is there is returned as it is. -/
theorem get_true (h : v.Wf) (hsize : v.size < 2 ^ 31) (hfd : fd < 2 ^ 31) :
    v.get fd true =
      .ok (if (v.slot fd).isSome then (v, v.slot fd) else (v.stored fd, some v.created)) := by
  unfold get
  rw [readSection_eq h hsize, Bool.not_true, Bool.or_false]
  by_cases hslot : (v.slot fd).isSome
  · rw [if_pos hslot, if_pos hslot]
    rfl
  · rw [if_neg hslot, if_neg hslot]
    show (v.createSection fd >>= _) = _
    rw [createSection_eq h hfd]
    rfl

/-- Once the size has become negative it finds nothing. -/
theorem get_false_of_le (h : v.Wf) (hsize : 2 ^ 31 ≤ v.size) : v.get fd false = .ok (v, none) := by
  unfold get
  rw [readSection_of_le h hsize]
  rfl

/-! ### Negative descriptors -/

/-- A negative descriptor that is not beyond `m_size` is an index. -/
theorem readSection_neg {fd : ℤ} (hfd : fd < 0) (hsize : fd < v.mSize) (autoCreate : Bool) :
    v.readSection fd autoCreate = .error (.outOfBounds fd) := by
  unfold readSection
  rw [if_neg (Int.not_le_of_gt hsize), index_neg _ hfd]
  rfl

/-- A negative number passes the comparison. -/
theorem del_neg {fd : ℤ} (hfd : fd < 0) (hsize : fd < v.mSize) :
    v.del fd = .error (.outOfBounds fd) := by
  unfold del
  rw [if_neg (Int.not_le_of_gt hsize), index_neg _ hfd]
  rfl

/-! ### What any section that returns has done -/

/-- An object that is found is the one of the entry. -/
theorem readSection_found {fd : ℤ} {autoCreate : Bool}
    (h : v.readSection fd autoCreate = .ok (some (some obj))) :
    0 ≤ fd ∧ v.slot fd.toNat = some obj := by
  unfold readSection at h
  split at h
  · cases autoCreate <;> cases h
  -- an object that is found is in a slot of the vector
  · by_cases hindex : 0 ≤ fd ∧ fd < v.size
    · rw [index, if_pos hindex] at h
      have hfound :
          (if (v.fds fd.toNat).isSome || !autoCreate then some (v.fds fd.toNat) else none) =
          some (some obj) := Except.ok.inj h
      refine ⟨hindex.1, ?_⟩
      unfold slot
      rw [if_pos (by omega)]
      exact Option.some.inj (Option.ite_none_right_eq_some.mp hfound).2
    · rw [index, if_neg hindex] at h
      cases h

/-- An object is created for a descriptor that is not negative. -/
theorem createSection_ok {fd : ℤ} (h : v.Wf) (hfd : -2 ^ 31 ≤ fd ∧ fd < 2 ^ 31)
    (hcreate : v.createSection fd = .ok (v', obj)) :
    0 ≤ fd ∧ v' = v.stored fd.toNat ∧ obj = v.created := by
  by_cases hneg : fd < 0
  · -- as a `size_t` it is beyond every vector
    have hlarge : (v.size : ℤ) ≤ fd % 2 ^ 64 := by
      have := h.lt
      omega
    rw [createSection, grow, if_pos hlarge, if_pos hneg] at hcreate
    cases hcreate
  · obtain ⟨n, rfl⟩ := Int.eq_ofNat_of_zero_le (Int.not_lt.mp hneg)
    rw [createSection_eq h (by omega), Except.ok.injEq, Prod.mk.injEq] at hcreate
    exact ⟨Int.natCast_nonneg n, hcreate.1.symm, hcreate.2.symm⟩

/-- `del` resets the entry of the descriptor, or nothing. -/
theorem del_ok {fd : ℤ} (hdel : v.del fd = .ok v') :
    v' = v ∨ (0 ≤ fd ∧ v' = v.erased fd.toNat) := by
  unfold del at hdel
  split at hdel
  · exact Or.inl (Except.ok.inj hdel).symm
  · by_cases hindex : 0 ≤ fd ∧ fd < v.size
    · rw [index, if_pos hindex] at hdel
      exact Or.inr ⟨hindex.1, (Except.ok.inj hdel).symm⟩
    · rw [index, if_neg hindex] at hdel
      cases hdel

/-! ### The manager of `FdManager.lean` -/

/-- The manager with the objects themselves in its table. -/
def abs (v : FdVector) (heap : ℕ → Fd) : FdManager := ⟨v.size, fun g => (v.fds g).map heap⟩

/-- While the size fits an `int`, `get(fd)` is the lookup of that manager. -/
theorem find_abs (h : v.Wf) (hsize : v.size < 2 ^ 31) (heap : ℕ → Fd) :
    ∃ found, v.readSection fd false = .ok (some found) ∧ (v.abs heap).find fd = found.map heap := by
  refine ⟨v.slot fd, ?_, ?_⟩
  · rw [readSection_eq h hsize, Bool.not_false, Bool.or_true]
    rfl
  · unfold FdManager.find abs slot
    by_cases hfd : fd < v.size
    · rw [if_neg (Nat.not_le_of_lt hfd), if_pos hfd]
    · rw [if_pos (Nat.le_of_not_lt hfd), if_neg hfd]
      rfl

end FdVector

end LoNetfw.Hook
