import LoNetfw.Hook.FdManager
import LoNetfw.Basis.StepSystem

namespace LoNetfw.Hook

open Basis

/-!
# Hooked calls — the kernel's `O_NONBLOCK` of managed sockets

`io()` relies on the kernel flag of the sockets it calls: a call on a blocking socket blocks
the worker.  The flag is set when the `Fd` is created and rewritten by `fcntl(F_SETFL)`; here
the calls that can change it, or the table, run in any order on any descriptors.

* `CallRun.step` — `socket`, `accept`, `fcntl(F_SETFL)`, `ioctl(FIONBIO)` and `close` (Linux),
  on hooked threads and others, with the descriptor numbers the kernel chose;
* `CallRun.NonBlocking` — every open socket whose `Fd` is managed has the flag;
* `nonBlocking_iff` — it holds along a run exactly if `FIONBIO` never clears the flag of such
  a socket and no new blocking socket gets a number whose `Fd` is still in the table.
-/

/-- The bit `O_NONBLOCK`. -/
def oNonblock : BitVec 32 := 2048

/-- The status flags contain `O_NONBLOCK`. -/
def hasNonblock (flags : BitVec 32) : Bool := flags &&& oNonblock != 0

inductive HookedCall
  /-- `socket()` with or without `SOCK_NONBLOCK`; the kernel returns `fd`, or fails. -/
  | socket (hooked nonblock : Bool) (fd : Option ℕ)
  /-- `accept()`, when it returns. -/
  | accept (hooked : Bool) (sockfd : ℕ) (fd : Option ℕ)
  | fcntlSetfl (fd : ℕ) (flags : BitVec 32)
  | ioctlFionbio (fd : ℕ) (value : ℤ)
  | close (hooked : Bool) (fd : ℕ)
  deriving DecidableEq, Repr

structure CallRun where
  /-- The open descriptors. -/
  files : ℕ → Option Descriptor
  manager : FdManager

namespace CallRun

/-- The kernel with some descriptors open before the first hooked call. -/
def new (files : ℕ → Option Descriptor) : CallRun := ⟨files, .new⟩

/-- The kernel changes the flag of an open descriptor. -/
def setNonblock (s : CallRun) (fd : ℕ) (v : Bool) : CallRun :=
  { s with
    files := Function.update s.files fd
      ((s.files fd).map (fun file => { file with nonblock := v })) }

/-- The kernel opens a socket under the number `fd`. -/
def openSocket (s : CallRun) (fd : ℕ) (nonblock : Bool) : CallRun :=
  { s with files := Function.update s.files fd (some ⟨true, nonblock⟩) }

/-- `FDMGR.get(fd, true)`. -/
def getCreate (s : CallRun) (fd : ℕ) : CallRun :=
  let r := s.manager.getCreate (s.files fd) fd
  ⟨Function.update s.files fd r.2, r.1⟩

/-- `fd_obj` of `fcntl` and `ioctl`: the `Fd` of an open socket, if there is one. -/
def socketObj (s : CallRun) (fd : ℕ) : Option Fd := (s.manager.find fd).filter Fd.isOpenSocket

/-- `fd_obj->setUserNonBlock(v)`, where there is an `fd_obj`. -/
def setUser (s : CallRun) (fd : ℕ) (v : Bool) : CallRun :=
  match s.socketObj fd with
  | none => s
  | some e => { s with manager := s.manager.store fd (some (e.setUserNonBlock v)) }

/-- `close_f(fd)`, after `FDMGR.del(fd)` if there is something to delete. -/
def closeFile (s : CallRun) (del : Bool) (fd : ℕ) : CallRun :=
  ⟨Function.update s.files fd none, if del then s.manager.del fd else s.manager⟩

def isOpenSocket (s : CallRun) (fd : ℕ) : Bool := (s.files fd).any Descriptor.isSocket

/-- The flags that `fcntl(F_SETFL)` passes on. -/
def rewrittenFlags (e : Fd) (flags : BitVec 32) : BitVec 32 :=
  if e.sysNonBlock then flags ||| oNonblock else flags &&& ~~~oNonblock

def step (s : CallRun) : HookedCall → Option CallRun
  | .socket hooked nonblock (some fd) =>
    if (s.files fd).isNone then
      let opened := s.openSocket fd nonblock
      -- `CHECK_HOOK` returns before the `Fd` is made
      some (if hooked then opened.getCreate fd else opened)
    else none
  | .socket _ _ none => some s
  | .accept _ sockfd (some fd) =>
    if s.isOpenSocket sockfd ∧ (s.files fd).isNone then
      -- no `CHECK_HOOK` here; an accepted socket does not inherit the flag
      some ((s.openSocket fd false).getCreate fd)
    else none
  | .accept _ _ none => some s
  | .fcntlSetfl fd flags =>
    let passed := (s.socketObj fd).elim flags (rewrittenFlags · flags)
    some ((s.setUser fd (hasNonblock flags)).setNonblock fd (hasNonblock passed))
  | .ioctlFionbio fd value =>
    -- the user's value is recorded, and passed on as it is
    some ((s.setUser fd (value != 0)).setNonblock fd (value != 0))
  | .close hooked fd => some (s.closeFile (hooked && (s.manager.find fd).isSome) fd)

/-- The number has an `Fd` that is a socket with `getSysNonBlock()`. -/
def managed (s : CallRun) (fd : ℕ) : Bool := (s.manager.find fd).any Fd.managed

/-- One descriptor: an open socket with a managed `Fd` has `O_NONBLOCK`. -/
def NonBlockingAt (s : CallRun) (fd : ℕ) : Prop :=
  ∀ file, s.files fd = some file → file.isSocket = true → s.managed fd = true →
    file.nonblock = true

def NonBlocking (s : CallRun) : Prop := ∀ fd, s.NonBlockingAt fd

/-- The condition on a call: `FIONBIO` with `0` is not used on an open socket with a managed
    `Fd`, and the number of a new blocking socket has no managed `Fd` left in the table. -/
def KeepsFlag (s : CallRun) : HookedCall → Prop
  | .socket _ nonblock (some fd) => s.managed fd = true → nonblock = true
  | .accept _ _ (some fd) => s.managed fd = false
  | .ioctlFionbio fd value => s.isOpenSocket fd = true → s.managed fd = true → value ≠ 0
  | _ => True

instance (s : CallRun) : (a : HookedCall) → Decidable (s.KeepsFlag a)
  | .socket _ _ (some _) => inferInstanceAs (Decidable (_ → _))
  | .accept _ _ (some _) => inferInstanceAs (Decidable (_ = _))
  | .ioctlFionbio _ _ => inferInstanceAs (Decidable (_ → _ → _))
  | .socket _ _ none | .accept _ _ none | .fcntlSetfl _ _ | .close _ _ => .isTrue trivial

/-- A hooked `read` or `write` of this descriptor passes through the retry loop of `io()`. -/
def PassesIo (s : CallRun) (fd : ℕ) : Prop :=
  ∃ e, s.manager.find fd = some e ∧ e.isClosed = false ∧ e.isSocket = true ∧ e.userNonBlock = false

/-- A system call on this descriptor can block the thread. -/
def Blocking (s : CallRun) (fd : ℕ) : Prop :=
  ∃ file, s.files fd = some file ∧ file.isSocket = true ∧ file.nonblock = false

variable {s s' : CallRun} {a : HookedCall} {fd g : ℕ}

/-! ### One descriptor -/

/-- What the kernel and the table have for a number. -/
def view (s : CallRun) (fd : ℕ) : Option Descriptor × Option Fd := (s.files fd, s.manager.find fd)

/-- The descriptor a call works on; for a call that failed it does not matter. -/
def target : HookedCall → ℕ
  | .socket _ _ fd | .accept _ _ fd => fd.getD 0
  | .fcntlSetfl fd _ | .ioctlFionbio fd _ | .close _ fd => fd

/-- The `Fd`s are as the constructor left them, and the table has two entries or more. -/
structure TableOk (s : CallRun) : Prop where
  size : 2 ≤ s.manager.size
  fromInit : ∀ fd, ∀ e ∈ s.manager.find fd, e.FromInit

/-- The table as it is constructed. -/
theorem tableOk_new (files : ℕ → Option Descriptor) : (new files).TableOk where
  size := (by decide : 2 ≤ 64)
  fromInit := by
    intro fd e he
    have hnone : (new files).manager.find fd = none := FdManager.find_new
    exact absurd he (by simp [hnone])

/-- What is found is in the table. -/
theorem lt_size_of_find {e : Fd} (h : s.manager.find fd = some e) : fd < s.manager.size := by
  unfold FdManager.find at h
  grind

/-- Setting the flag of one file changes the view of its number. -/
theorem view_setNonblock (v : Bool) : (s.setNonblock fd v).view g =
    if g = fd then ((s.files fd).map (fun file => { file with nonblock := v }), s.manager.find fd)
    else s.view g := by
  split
  · next h => subst h; simp [view, setNonblock]
  · next h => simp [view, setNonblock, h]

/-- Opening a file changes the view of its number. -/
theorem view_openSocket (nonblock : Bool) : (s.openSocket fd nonblock).view g =
    if g = fd then (some ⟨true, nonblock⟩, s.manager.find fd) else s.view g := by
  split
  · next h => subst h; simp [view, openSocket]
  · next h => simp [view, openSocket, h]

/-- A new socket with the `Fd` that `get(fd, true)` finds or makes for it. -/
theorem view_register (hsize : 2 ≤ s.manager.size) (nonblock : Bool) :
    ((s.openSocket fd nonblock).getCreate fd).view g =
      if g = fd then
        (some ⟨true, nonblock || (s.manager.find fd).isNone⟩,
          some ((s.manager.find fd).getD (Fd.init (some ⟨true, nonblock⟩)).1))
      else s.view g := by
  -- an object that is there already stays, and its file is not touched
  by_cases hg : g = fd
  · subst hg
    rw [if_pos rfl]
    simp only [view, getCreate, Function.update_self, FdManager.getCreate_file]
    refine Prod.ext ?_ ?_
    · cases hfind : s.manager.find g <;> simp [openSocket, hfind, Fd.init]
    · exact (FdManager.find_getCreate_self hsize _).trans (by simp [openSocket])
  · rw [if_neg hg]
    simp only [view, getCreate, Function.update_of_ne hg]
    refine Prod.ext ?_ ?_
    · simp [openSocket, hg]
    · exact FdManager.find_getCreate_of_ne hsize _ hg

/-- The `Fd` after `setUser`. -/
def withUser (e : Option Fd) (v : Bool) : Option Fd :=
  e.map (fun e => if e.isOpenSocket then e.setUserNonBlock v else e)

/-- Setting the mode of an object changes that object. -/
theorem find_setUser_self (v : Bool) :
    (s.setUser fd v).manager.find fd = withUser (s.manager.find fd) v := by
  unfold setUser withUser socketObj
  cases hfind : s.manager.find fd with
  | none => exact hfind
  | some e =>
    rw [Option.filter_some, Option.map_some]
    by_cases hopen : e.isOpenSocket = true
    · rw [if_pos hopen, if_pos hopen]
      exact FdManager.find_store_self _ (lt_size_of_find hfind)
    · rw [if_neg hopen, if_neg hopen]
      exact hfind

/-- Setting the mode of an object leaves the other numbers alone. -/
theorem view_setUser_of_ne (v : Bool) (h : g ≠ fd) : (s.setUser fd v).view g = s.view g := by
  unfold setUser
  split
  · rfl
  · exact Prod.ext rfl (FdManager.find_store_of_ne _ h)

/-- Setting the mode of an object leaves the files alone. -/
theorem files_setUser (v : Bool) : (s.setUser fd v).files = s.files := by
  unfold setUser
  split <;> rfl

/-- Setting both modes changes the view of the number. -/
theorem view_setMode (user v : Bool) : ((s.setUser fd user).setNonblock fd v).view g =
    if g = fd then
      ((s.files fd).map (fun file => { file with nonblock := v }), withUser (s.manager.find fd) user)
    else s.view g := by
  rw [view_setNonblock, files_setUser, find_setUser_self]
  split
  · rfl
  · next hg => exact view_setUser_of_ne user hg

/-- Setting the mode of an object does not grow the table. -/
theorem size_setUser (v : Bool) : (s.setUser fd v).manager.size = s.manager.size := by
  unfold setUser
  split <;> rfl

/-- Closing a file empties the view of its number. -/
theorem view_closeFile (del : Bool) : (s.closeFile del fd).view g =
    if g = fd then (none, if del then none else s.manager.find fd) else s.view g := by
  by_cases hg : g = fd
  · subst hg
    cases del <;> simp [view, closeFile, FdManager.find_del_self]
  · cases del <;> simp [view, closeFile, FdManager.find_del_of_ne hg, hg]

/-- What a call makes of its descriptor. -/
def effect : HookedCall → Option Descriptor × Option Fd → Option Descriptor × Option Fd
  | .socket hooked nonblock (some _), (_, e) =>
    if hooked then
      (some ⟨true, nonblock || e.isNone⟩, some (e.getD (Fd.init (some ⟨true, nonblock⟩)).1))
    else (some ⟨true, nonblock⟩, e)
  | .accept _ _ (some _), (_, e) =>
    (some ⟨true, e.isNone⟩, some (e.getD (Fd.init (some ⟨true, false⟩)).1))
  | .fcntlSetfl _ flags, (file, e) =>
    let passed := (e.filter Fd.isOpenSocket).elim flags (rewrittenFlags · flags)
    (file.map (fun file => { file with nonblock := hasNonblock passed }),
      withUser e (hasNonblock flags))
  | .ioctlFionbio _ value, (file, e) =>
    (file.map (fun file => { file with nonblock := value != 0 }), withUser e (value != 0))
  | .close hooked _, (_, e) => (none, if hooked then none else e)
  | .socket _ _ none, v | .accept _ _ none, v => v

/-- **Step.** A call changes its descriptor by `effect`, and nothing about the others. -/
theorem step_view (hs : s.TableOk) (h : step s a = some s') :
    2 ≤ s'.manager.size ∧
      ∀ g, s'.view g = if g = target a then effect a (s.view (target a)) else s.view g := by
  cases a with
  | socket hooked nonblock fd =>
    cases fd with
    | none => cases h; exact ⟨hs.size, fun g => (ite_eq_right_iff.mpr (fun hg => by rw [hg]; rfl)).symm⟩
    | some fd =>
      simp only [step, Option.ite_none_right_eq_some, Option.some.injEq] at h
      obtain ⟨-, rfl⟩ := h
      -- without the hook the number gets a file and no object
      cases hooked
      · exact ⟨hs.size, fun g => view_openSocket nonblock⟩
      · exact ⟨FdManager.size_getCreate hs.size _, fun g => view_register hs.size nonblock⟩
  | accept hooked sockfd fd =>
    cases fd with
    | none => cases h; exact ⟨hs.size, fun g => (ite_eq_right_iff.mpr (fun hg => by rw [hg]; rfl)).symm⟩
    | some fd =>
      simp only [step, Option.ite_none_right_eq_some, Option.some.injEq] at h
      obtain ⟨-, rfl⟩ := h
      exact ⟨FdManager.size_getCreate hs.size _, fun g => view_register hs.size false⟩
  | fcntlSetfl fd flags =>
    cases h
    exact ⟨(size_setUser _).symm ▸ hs.size, fun g => view_setMode _ _⟩
  | ioctlFionbio fd value =>
    cases h
    exact ⟨(size_setUser _).symm ▸ hs.size, fun g => view_setMode _ _⟩
  | close hooked fd =>
    cases h
    refine ⟨?_, fun g => ?_⟩
    · simp only [closeFile]
      split
      · rw [FdManager.size_del]
        exact hs.size
      · exact hs.size
    · rw [view_closeFile]
      cases hfind : s.manager.find fd <;> simp [target, effect, view, hfind]

/-! ### The flag along a run -/

/-- `NonBlockingAt` on what the kernel and the table have for the number. -/
def FlagOk (v : Option Descriptor × Option Fd) : Prop :=
  ∀ file, v.1 = some file → file.isSocket = true → v.2.any Fd.managed = true → file.nonblock = true

/-- The claim for one number is about its file and its object only. -/
theorem nonBlockingAt_iff : s.NonBlockingAt fd ↔ FlagOk (s.view fd) := Iff.rfl

/-- For an open file: a managed socket has the flag. -/
theorem flagOk_some (file : Descriptor) (e : Option Fd) : FlagOk (some file, e) ↔
    (file.isSocket = true → e.any Fd.managed = true → file.nonblock = true) := by
  unfold FlagOk
  grind

/-- The mode of the user does not decide whether an object is managed. -/
theorem any_managed_withUser (e : Option Fd) (v : Bool) :
    (withUser e v).any Fd.managed = e.any Fd.managed := by
  cases e with
  | none => rfl
  | some e =>
    simp only [withUser, Option.map_some, Option.any_some]
    split <;> rfl

/-- The flag is there when it has been added. -/
theorem hasNonblock_or (flags : BitVec 32) : hasNonblock (flags ||| oNonblock) = true := by
  have h : (flags ||| oNonblock) &&& oNonblock = oNonblock := by
    ext i
    simp only [BitVec.getElem_and, BitVec.getElem_or]
    cases oNonblock[i] <;> simp
  simp only [hasNonblock, h]
  decide

/-- `fcntl(F_SETFL)` passes the flag on for every managed `Fd`. -/
theorem hasNonblock_passed {e : Option Fd} (he : ∀ x ∈ e, x.FromInit)
    (hman : e.any Fd.managed = true) (flags : BitVec 32) :
    hasNonblock ((e.filter Fd.isOpenSocket).elim flags (rewrittenFlags · flags)) = true := by
  cases e with
  | none => cases hman
  | some e =>
    simp only [Option.any_some, Fd.managed, Bool.and_eq_true] at hman
    have hopen : e.isOpenSocket = true := by simp [Fd.isOpenSocket, hman.1, (he e rfl hman.1).2]
    rw [Option.filter_some, if_pos hopen]
    simp only [Option.elim_some, rewrittenFlags, hman.2, ↓reduceIte, hasNonblock_or]

/-- Calls leave objects as `init` made them, but for the mode of the user. -/
theorem effect_fromInit {v : Option Descriptor × Option Fd} (hv : ∀ e ∈ v.2, e.FromInit)
    (a : HookedCall) : ∀ e ∈ (effect a v).2, e.FromInit := by
  -- an object is the one that was there, or fresh from `init`
  have hgetD (file : Option Descriptor) : ∀ e ∈ some (v.2.getD (Fd.init file).1), e.FromInit := by
    intro e he
    cases hv2 : v.2 with
    | none =>
      simp only [hv2, Option.getD_none, Option.mem_some_iff] at he
      exact he ▸ Fd.fromInit_init file
    | some x =>
      simp only [hv2, Option.getD_some, Option.mem_some_iff] at he
      exact he ▸ hv x hv2
  have huser (b : Bool) : ∀ e ∈ withUser v.2 b, e.FromInit := by
    intro e he
    obtain ⟨x, hx, rfl⟩ := Option.map_eq_some_iff.mp he
    split
    · exact (hv x hx).setUserNonBlock b
    · exact hv x hx
  cases a with
  | socket hooked nonblock fd =>
    cases fd with
    | none => exact hv
    | some fd =>
      cases hooked
      · exact hv
      · exact hgetD _
  | accept hooked sockfd fd =>
    cases fd with
    | none => exact hv
    | some fd => exact hgetD _
  | fcntlSetfl fd flags => exact huser _
  | ioctlFionbio fd value => exact huser _
  | close hooked fd =>
    cases hooked
    · exact hv
    · intro e he
      cases he

/-- Each call keeps the table in order. -/
theorem step_tableOk (hs : s.TableOk) (h : step s a = some s') : s'.TableOk := by
  obtain ⟨hsize, hview⟩ := step_view hs h
  refine ⟨hsize, fun g => ?_⟩
  show ∀ e ∈ (s'.view g).2, e.FromInit
  rw [hview g]
  split
  · exact effect_fromInit (hs.fromInit _) a
  · exact hs.fromInit g

/-- The condition on a call in terms of its descriptor. -/
theorem flagOk_effect_iff (hs : s.TableOk) (hP : s.NonBlocking) :
    FlagOk (effect a (s.view (target a))) ↔ s.KeepsFlag a := by
  cases a with
  | socket hooked nonblock fd =>
    cases fd with
    | none => exact iff_of_true (hP _) trivial
    | some fd =>
      cases hooked
      · exact (flagOk_some ..).trans (by simp [KeepsFlag, managed, target])
      · refine (flagOk_some ..).trans ?_
        cases hfind : s.manager.find fd <;> simp [KeepsFlag, managed, target, hfind]
  | accept hooked sockfd fd =>
    cases fd with
    | none => exact iff_of_true (hP _) trivial
    | some fd =>
      refine (flagOk_some ..).trans ?_
      cases hfind : s.manager.find fd <;> simp [KeepsFlag, managed, target, hfind]
  | fcntlSetfl fd flags =>
    refine iff_of_true ?_ trivial
    intro file hfile hsock hman
    simp only [effect, target, any_managed_withUser] at hfile hman
    -- `F_SETFL` adds the flag where `sysNonBlock` is set
    obtain ⟨old, -, rfl⟩ := Option.map_eq_some_iff.mp hfile
    exact hasNonblock_passed (hs.fromInit fd) hman flags
  -- `FIONBIO` hands the user's value to the kernel, managed or not
  | ioctlFionbio fd value =>
    simp only [effect, target, KeepsFlag, isOpenSocket, managed]
    cases hfile : s.files fd <;> simp [FlagOk, view, hfile, any_managed_withUser]
  | close hooked fd =>
    exact iff_of_true (fun file hfile => by cases hfile) trivial

/-- **Step.** A call keeps the flags exactly if it meets the condition. -/
theorem step_nonBlocking_iff (hs : s.TableOk) (hP : s.NonBlocking) (h : step s a = some s') :
    s'.NonBlocking ↔ s.KeepsFlag a := by
  rw [← flagOk_effect_iff hs hP]
  obtain ⟨-, hview⟩ := step_view hs h
  constructor
  · intro hP'
    have htarget := hP' (target a)
    rwa [nonBlockingAt_iff, hview, if_pos rfl] at htarget
  · intro htarget g
    rw [nonBlockingAt_iff, hview]
    split
    · exact htarget
    · exact hP g

/-- A call that `io` takes over does not block in the kernel. -/
theorem not_blocking_of_passesIo (hs : s.TableOk) (hP : s.NonBlocking) (hio : s.PassesIo fd) :
    ¬ s.Blocking fd := by
  rintro ⟨file, hfile, hsock, hblock⟩
  obtain ⟨e, he, -, hesock, -⟩ := hio
  have hman : s.managed fd = true := by
    simp [managed, he, Fd.managed, hesock, (hs.fromInit fd e he hesock).1]
  have hnon := hP fd file hfile hsock hman
  rw [hblock] at hnon
  cases hnon

/-- Nothing is managed at first. -/
theorem nonBlocking_new (files : ℕ → Option Descriptor) : (new files).NonBlocking := by
  intro fd file _ _ hman
  have hnone : (new files).manager.find fd = none := FdManager.find_new
  simp [managed, hnone] at hman

/-- **Managed sockets stay non-blocking.** From a kernel with any descriptors open and an empty
    table, for every sequence of calls on hooked and other threads: in all states reached along
    it every open socket with a managed `Fd` has `O_NONBLOCK`, exactly if `ioctl(FIONBIO)` with
    `0` is never called on one of them and no `socket` or `accept` returns a blocking socket
    under a number whose managed `Fd` is still in the table.  A call that passes through `io()`
    does not block then. -/
theorem nonBlocking_iff (files : ℕ → Option Descriptor) (as : List HookedCall) (s : CallRun)
    (hrun : runFrom step (new files) as = some s) :
    (Always step NonBlocking (new files) as ↔ Along step KeepsFlag (new files) as) ∧
    (Along step KeepsFlag (new files) as → ∀ fd, s.PassesIo fd → ¬ s.Blocking fd) := by
  refine ⟨always_iff_along (fun _ _ _ => step_tableOk) (fun _ _ _ => step_nonBlocking_iff)
    (tableOk_new files) (nonBlocking_new files) hrun, fun hC fd hio => ?_⟩
  obtain ⟨hs, hP⟩ : s.TableOk ∧ s.NonBlocking := by
    refine run_invariant (I := fun s => s.TableOk ∧ s.NonBlocking) ?_
      ⟨tableOk_new files, nonBlocking_new files⟩ hC hrun
    rintro t a t' ⟨ht, hPt⟩ hCa h
    exact ⟨step_tableOk ht h, (step_nonBlocking_iff ht hPt h).mpr hCa⟩
  exact not_blocking_of_passesIo hs hP hio

/-- A socket that the user made blocking by `fcntl` keeps the flag, also under a number that
    was closed on a hooked thread before. -/
theorem nonBlocking_iff_reused_number :
    Always step NonBlocking (new fun _ => none)
      [.socket true false (some 5), .fcntlSetfl 5 0, .close true 5, .socket true false (some 6),
        .accept true 6 (some 5), .ioctlFionbio 5 1] := by
  obtain ⟨s, hrun⟩ : ∃ s, runFrom step (new fun _ => none)
      [.socket true false (some 5), .fcntlSetfl 5 0, .close true 5, .socket true false (some 6),
        .accept true 6 (some 5), .ioctlFionbio 5 1] = some s := ⟨_, rfl⟩
  exact (nonBlocking_iff _ _ s hrun).1.mpr (by decide)

/-- `FIONBIO` with `0` clears the flag of a managed socket; and after a `close` on a thread that
    is not hooked, the next socket with the number finds the old `Fd` and stays blocking. -/
theorem fionbio_clears_flag :
    (∃ s, runFrom step (new fun _ => none)
        [.socket true false (some 5), .ioctlFionbio 5 0] = some s ∧ ¬ s.NonBlocking) ∧
    (∃ s, runFrom step (new fun _ => none)
        [.socket true false (some 5), .close false 5, .socket true false (some 5)] = some s ∧
      ¬ s.NonBlocking) := by
  refine ⟨⟨_, rfl, fun hP => ?_⟩, ⟨_, rfl, fun hP => ?_⟩⟩
  · exact absurd (hP 5 ⟨true, false⟩ (by decide) (by decide) (by decide)) (by decide)
  · exact absurd (hP 5 ⟨true, false⟩ (by decide) (by decide) (by decide)) (by decide)

end CallRun

end LoNetfw.Hook
