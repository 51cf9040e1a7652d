import LoNetfw.Scheduler.FdContext
import Mathlib.Logic.Function.Basic

namespace LoNetfw.Hook

open Scheduler (Event)

/-!
# `Fd` and `FdManager` — what the hooks know about a descriptor

The hooked calls keep an `Fd` for every descriptor that `socket` or `accept` returned on a
hooked thread.  Its constructor asks the kernel what the descriptor is and makes a socket
non-blocking there; what the user asked for is kept apart, in `userNonBlock`.

* `Descriptor` — what the kernel keeps of an open descriptor;
* `Fd.init` — the constructor, with its effect on the kernel;
* `FdManager.find`, `getCreate`, `del` — the table of `Fd`s, indexed by descriptor;
* `find_getCreate_of_ne`, `find_del_of_ne` — frame lemmas: they touch one descriptor only.
-/

/-- An open descriptor in the kernel. -/
structure Descriptor where
  /-- `S_ISSOCK` of the mode that `fstat` returns. -/
  isSocket : Bool
  /-- `O_NONBLOCK` in the status flags. -/
  nonblock : Bool
  deriving DecidableEq, Repr

structure Fd where
  isInit : Bool
  isSocket : Bool
  sysNonBlock : Bool
  userNonBlock : Bool
  isClosed : Bool
  recvTimeout : ℤ
  sendTimeout : ℤ
  deriving DecidableEq, Repr

namespace Fd

/-- The constructor's `init()` (Linux) on what the kernel has for the number: `none` when
    `fstat` fails. -/
def init : Option Descriptor → Fd × Option Descriptor
  | none => (⟨false, false, false, false, true, -1, -1⟩, none)
  | some file =>
    if file.isSocket then
      (⟨true, true, true, false, false, -1, -1⟩, some { file with nonblock := true })
    else (⟨true, false, false, false, false, -1, -1⟩, some file)

def setUserNonBlock (e : Fd) (v : Bool) : Fd := { e with userNonBlock := v }

def getTimeout (e : Fd) : Event → ℤ
  | .read => e.recvTimeout
  | .write => e.sendTimeout

def setTimeout (e : Fd) (event : Event) (ms : ℤ) : Fd :=
  match event with
  | .read => { e with recvTimeout := ms }
  | .write => { e with sendTimeout := ms }

/-- The test of `fcntl` and `ioctl`: `isSocket()` and not `isClose()`. -/
def isOpenSocket (e : Fd) : Bool := e.isSocket && !e.isClosed

/-- A socket whose kernel flag the hooks keep set. -/
def managed (e : Fd) : Bool := e.isSocket && e.sysNonBlock

/-- What the constructor leaves, and nothing changes later: a socket is open and its kernel
    flag is kept. -/
def FromInit (e : Fd) : Prop := e.isSocket = true → e.sysNonBlock = true ∧ e.isClosed = false

/-- The constructor leaves an object as `init` does. -/
theorem fromInit_init (file : Option Descriptor) : (init file).1.FromInit := by
  unfold FromInit init
  grind

/-- The mode of the user is not part of it. -/
theorem FromInit.setUserNonBlock {e : Fd} (h : e.FromInit) (v : Bool) :
    (e.setUserNonBlock v).FromInit := h

end Fd

structure FdManager where
  /-- `m_size`, the size of the vector `m_fds`. -/
  size : ℕ
  fds : ℕ → Option Fd

namespace FdManager

/-- `FdManager(64)`. -/
def new : FdManager := ⟨64, fun _ => none⟩

/-- `get(fd)` without `auto_create`. -/
def find (m : FdManager) (fd : ℕ) : Option Fd := if m.size ≤ fd then none else m.fds fd

/-- `m_fds.resize(size)`: the new entries are null. -/
def resize (m : FdManager) (size : ℕ) : FdManager :=
  ⟨size, fun g => if g < m.size then m.fds g else none⟩

/-- The growth of the vector before `m_fds[fd]` is assigned. -/
def grow (m : FdManager) (fd : ℕ) : FdManager :=
  if m.size ≤ fd then m.resize (fd * 3 / 2) else m

/-- The assignment `m_fds[fd] = e`. -/
def store (m : FdManager) (fd : ℕ) (e : Option Fd) : FdManager :=
  { m with fds := Function.update m.fds fd e }

/-- `get(fd, true)` on what the kernel has for the number: an `Fd` that is in the table is
    returned as it is. -/
def getCreate (m : FdManager) (file : Option Descriptor) (fd : ℕ) :
    FdManager × Option Descriptor :=
  match m.find fd with
  | some _ => (m, file)
  | none => ((m.grow fd).store fd (some (Fd.init file).1), (Fd.init file).2)

def del (m : FdManager) (fd : ℕ) : FdManager := if m.size ≤ fd then m else m.store fd none

variable {m : FdManager} {fd g : ℕ}

/-- A new table is empty. -/
theorem find_new : new.find fd = none := by
  unfold find
  split <;> rfl

/-- A store leaves the other slots alone. -/
theorem find_store_of_ne (e : Option Fd) (h : g ≠ fd) : (m.store fd e).find g = m.find g := by
  simp [find, store, Function.update_of_ne h]

/-- A store fills its slot. -/
theorem find_store_self (e : Option Fd) (h : fd < m.size) : (m.store fd e).find fd = e := by
  simp [find, store, Nat.not_le.mpr h]

/-- The vector has two entries or more, so that `fd * 1.5` is beyond `fd`. -/
theorem size_grow (hsize : 2 ≤ m.size) : m.size ≤ (m.grow fd).size ∧ fd < (m.grow fd).size := by
  unfold grow
  split
  · simp only [resize]
    omega
  · omega

/-- A table that grows keeps its slots. -/
theorem find_grow (hsize : 2 ≤ m.size) : (m.grow fd).find g = m.find g := by
  have hle : m.size ≤ (m.grow fd).size := (size_grow hsize).1
  unfold grow at hle ⊢
  unfold find
  grind [resize]

/-- The table does not get smaller than 2 slots. -/
theorem size_getCreate (hsize : 2 ≤ m.size) (file : Option Descriptor) :
    2 ≤ (m.getCreate file fd).1.size := by
  unfold getCreate
  cases m.find fd with
  | some _ => exact hsize
  | none => exact Nat.le_trans hsize (size_grow hsize).1

/-- `get` with creation leaves the other slots. -/
theorem find_getCreate_of_ne (hsize : 2 ≤ m.size) (file : Option Descriptor) (h : g ≠ fd) :
    (m.getCreate file fd).1.find g = m.find g := by
  unfold getCreate
  cases m.find fd with
  | some _ => rfl
  | none => exact (find_store_of_ne _ h).trans (find_grow hsize)

/-- What `get(fd, true)` finds or creates. -/
theorem find_getCreate_self (hsize : 2 ≤ m.size) (file : Option Descriptor) :
    (m.getCreate file fd).1.find fd = some ((m.find fd).getD (Fd.init file).1) := by
  unfold getCreate
  cases hfind : m.find fd with
  | some e => exact hfind
  | none => exact find_store_self _ (size_grow hsize).2

/-- A new object makes its socket non-blocking; an old one does nothing to the file. -/
theorem getCreate_file (file : Option Descriptor) :
    (m.getCreate file fd).2 = if (m.find fd).isSome then file else (Fd.init file).2 := by
  unfold getCreate
  cases m.find fd <;> rfl

/-- `del` does not shrink the table. -/
theorem size_del : (m.del fd).size = m.size := by
  unfold del
  split <;> rfl

/-- `del` leaves the other slots alone. -/
theorem find_del_of_ne (h : g ≠ fd) : (m.del fd).find g = m.find g := by
  unfold del
  split
  · rfl
  · exact find_store_of_ne _ h

/-- `del` empties its slot. -/
theorem find_del_self : (m.del fd).find fd = none := by
  unfold del
  split
  · next h => exact if_pos h
  · next h => exact find_store_self _ (Nat.not_le.mp h)

end FdManager

end LoNetfw.Hook
