import LoNetfw.Hook.NonBlock

namespace LoNetfw.Hook

open Basis

/-!
# Hooked calls — the user's view of `O_NONBLOCK`

The kernel flag of a managed socket is the hooks' own; the mode the user has asked for is in its
`Fd`, and `fcntl(F_GETFL)` reports that one among the status flags of the kernel.  The mode is
stored by `fcntl(F_SETFL)` and `ioctl(FIONBIO)`, before the call is passed on, and not by
`socket()`.

* `StatusRun.step` — the calls on sockets of hooked threads (Linux), with all status flags of the
  kernel and the mode that a successful call has chosen last;
* `StatusRun.fcntlGetfl` — what `F_GETFL` reports;
* `StatusRun.UserView` — it reports the mode chosen last, and else the flags of the kernel;
* `user_view_iff` — that holds all along a run exactly when no socket is created non-blocking, and
  a call that fails has asked for the mode that is chosen already;
* `step_toCallRun` — the run is one of `CallRun`, which keeps the kernel's `O_NONBLOCK` only.
-/

/-- `O_RDWR`, the access mode of a socket. -/
def oRdwr : BitVec 32 := 2

/-- The flags that the kernel changes for `F_SETFL`: `O_APPEND`, `O_NONBLOCK`, `O_ASYNC`, `O_DIRECT`
    and `O_NOATIME`. -/
def setflMask : BitVec 32 := 0x46c00

/-- The status flags after the kernel's `F_SETFL`. -/
def setfl (cur flags : BitVec 32) : BitVec 32 := (flags &&& setflMask) ||| (cur &&& ~~~setflMask)

/-- The status flags after `Fd::init()` of a new socket. -/
def initFlags (flags : BitVec 32) : BitVec 32 :=
  if hasNonblock flags then flags else setfl flags (flags ||| oNonblock)

/-- The status flags after the kernel's `FIONBIO`. -/
def fionbio (cur : BitVec 32) (nonblock : Bool) : BitVec 32 :=
  if nonblock then cur ||| oNonblock else cur &&& ~~~oNonblock

inductive StatusCall
  /-- `socket()` with or without `SOCK_NONBLOCK`; the kernel returns `fd`, or fails. -/
  | socket (nonblock : Bool) (fd : Option ℕ)
  /-- `fcntl(F_SETFL)`, and whether the kernel accepts it. -/
  | fcntlSetfl (fd : ℕ) (flags : BitVec 32) (ok : Bool)
  | fcntlGetfl (fd : ℕ)
  /-- `ioctl(FIONBIO)`, and whether the kernel accepts it. -/
  | ioctlFionbio (fd : ℕ) (value : ℤ) (ok : Bool)
  deriving DecidableEq, Repr

structure StatusRun where
  /-- The status flags of the open sockets. -/
  flags : ℕ → Option (BitVec 32)
  manager : FdManager
  /-- The mode that the last successful call has chosen: non-blocking or not. -/
  chosen : ℕ → Bool

namespace StatusRun

def new : StatusRun := ⟨fun _ => none, .new, fun _ => false⟩

/-- What `CallRun` keeps of the sockets. -/
def toCallRun (s : StatusRun) : CallRun :=
  ⟨fun fd => (s.flags fd).map fun flags => ⟨true, hasNonblock flags⟩, s.manager⟩

/-- The status flags of a new socket. -/
def openFlags (nonblock : Bool) : BitVec 32 := if nonblock then oRdwr ||| oNonblock else oRdwr

/-- One call; `fcntl` and `ioctl` work on an open socket. -/
def step (s : StatusRun) : StatusCall → Option StatusRun
  | .socket nonblock (some fd) =>
    if s.flags fd = none then
      let opened := openFlags nonblock
      let found := s.manager.find fd
      some {
        flags := Function.update s.flags fd
          (some (if found.isSome then opened else initFlags opened))
        manager := (s.manager.getCreate (some ⟨true, hasNonblock opened⟩) fd).1
        chosen := Function.update s.chosen fd nonblock }
    else none
  | .socket _ none => some s
  | .fcntlSetfl fd flags ok =>
    match s.flags fd with
    | none => none
    | some cur =>
      let passed := (s.toCallRun.socketObj fd).elim flags (CallRun.rewrittenFlags · flags)
      some {
        flags := if ok then Function.update s.flags fd (some (setfl cur passed)) else s.flags
        -- the mode is stored whatever the kernel says
        manager := (s.toCallRun.setUser fd (hasNonblock flags)).manager
        chosen := if ok then Function.update s.chosen fd (hasNonblock flags) else s.chosen }
  | .fcntlGetfl fd => if (s.flags fd).isSome then some s else none
  | .ioctlFionbio fd value ok =>
    match s.flags fd with
    | none => none
    | some cur =>
      some {
        flags :=
          if ok then Function.update s.flags fd (some (fionbio cur (value != 0))) else s.flags
        manager := (s.toCallRun.setUser fd (value != 0)).manager
        chosen := if ok then Function.update s.chosen fd (value != 0) else s.chosen }

/-- What `fcntl(F_GETFL)` returns for an open socket. -/
def fcntlGetfl (s : StatusRun) (fd : ℕ) : Option (BitVec 32) :=
  (s.flags fd).map fun arg =>
    match s.toCallRun.socketObj fd with
    | none => arg
    | some e => if e.userNonBlock then arg ||| oNonblock else arg &&& ~~~oNonblock

/-- `F_GETFL` reports the mode chosen last, and the flags of the kernel. -/
def UserView (s : StatusRun) : Prop :=
  ∀ fd cur, s.flags fd = some cur → ∃ arg, s.fcntlGetfl fd = some arg ∧
    hasNonblock arg = s.chosen fd ∧ arg &&& ~~~oNonblock = cur &&& ~~~oNonblock

/-- The condition on a call: a new socket is created blocking, and a call that fails has asked for
    the mode that is chosen already. -/
def KeepsView (s : StatusRun) : StatusCall → Prop
  | .socket nonblock (some _) => nonblock = false
  | .fcntlSetfl fd flags false => hasNonblock flags = s.chosen fd
  | .ioctlFionbio fd value false => (value != 0) = s.chosen fd
  | .socket _ none | .fcntlSetfl _ _ true | .fcntlGetfl _ | .ioctlFionbio _ _ true => True

instance decidableKeepsView (s : StatusRun) : (c : StatusCall) → Decidable (s.KeepsView c)
  | .socket _ (some _) => inferInstanceAs (Decidable (_ = _))
  | .fcntlSetfl _ _ false => inferInstanceAs (Decidable (_ = _))
  | .ioctlFionbio _ _ false => inferInstanceAs (Decidable (_ = _))
  | .socket _ none | .fcntlSetfl _ _ true | .fcntlGetfl _ | .ioctlFionbio _ _ true =>
    .isTrue trivial

/-! ### The flags -/

/-- The flag is gone when it has been taken away. -/
theorem hasNonblock_and_not (flags : BitVec 32) : hasNonblock (flags &&& ~~~oNonblock) = false := by
  have h : flags &&& ~~~oNonblock &&& oNonblock = 0 := by
    rw [BitVec.and_assoc, BitVec.not_and_self]
    exact BitVec.and_zero
  unfold hasNonblock
  rw [h]
  rfl

/-- Adding the flag and taking it away is taking it away. -/
theorem or_and_not (flags : BitVec 32) :
    (flags ||| oNonblock) &&& ~~~oNonblock = flags &&& ~~~oNonblock := by
  ext i
  simp only [BitVec.getElem_and, BitVec.getElem_or, BitVec.getElem_not]
  cases flags[i] <;> cases oNonblock[i] <;> rfl

/-- Taking the flag away twice is taking it away. -/
theorem and_not_and_not (flags : BitVec 32) :
    flags &&& ~~~oNonblock &&& ~~~oNonblock = flags &&& ~~~oNonblock := by
  rw [BitVec.and_assoc, BitVec.and_self]

/-- What the hooks report has the user's mode and the other flags of the kernel. -/
theorem reported (arg : BitVec 32) (user : Bool) :
    hasNonblock (fionbio arg user) = user ∧
      fionbio arg user &&& ~~~oNonblock = arg &&& ~~~oNonblock := by
  unfold fionbio
  cases user with
  | true => exact ⟨CallRun.hasNonblock_or arg, or_and_not arg⟩
  | false => exact ⟨hasNonblock_and_not arg, and_not_and_not arg⟩

/-! ### The mode in the `Fd` -/

/-- The user's mode in the `Fd` of a descriptor. -/
def user (s : StatusRun) (fd : ℕ) : Bool := (s.manager.find fd).any Fd.userNonBlock

/-- The open sockets are those with an `Fd`, and that one is an open socket. -/
structure Reached (s : StatusRun) : Prop where
  size : 2 ≤ s.manager.size
  closed : ∀ fd, s.flags fd = none → s.manager.find fd = none
  obj : ∀ fd cur, s.flags fd = some cur → ∃ e, s.manager.find fd = some e ∧ e.isOpenSocket = true

variable {s s' : StatusRun} {c : StatusCall} {fd : ℕ}

/-- `F_GETFL` shows the flags of the kernel with the mode of the user. -/
theorem fcntlGetfl_eq (h : s.Reached) {cur : BitVec 32} (hcur : s.flags fd = some cur) :
    s.fcntlGetfl fd = some (fionbio cur (s.user fd)) := by
  obtain ⟨e, he, hopen⟩ := h.obj fd cur hcur
  have hobj : s.toCallRun.socketObj fd = some e := by
    show (s.manager.find fd).filter Fd.isOpenSocket = some e
    rw [he, Option.filter_some, if_pos hopen]
  have huser : s.user fd = e.userNonBlock := by
    unfold user
    rw [he, Option.any_some]
  unfold fcntlGetfl fionbio
  rw [hcur, Option.map_some, hobj, huser]

/-- The report is right when the `Fd` has the mode chosen last. -/
theorem userView_iff (h : s.Reached) :
    s.UserView ↔ ∀ fd cur, s.flags fd = some cur → s.user fd = s.chosen fd := by
  refine forall_congr' fun fd => forall_congr' fun cur => forall_congr' fun hcur => ?_
  obtain ⟨hmode, hflags⟩ := reported cur (s.user fd)
  rw [fcntlGetfl_eq h hcur]
  constructor
  · rintro ⟨arg, harg, hchosen, -⟩
    rw [← Option.some.inj harg, hmode] at hchosen
    exact hchosen
  · intro huser
    exact ⟨_, rfl, hmode.trans huser, hflags⟩

/-! ### What a call stores -/

/-- The mode that a call stores in the `Fd`. -/
def stores : StatusCall → Option (ℕ × Bool)
  | .socket _ (some fd) => some (fd, false)
  | .fcntlSetfl fd flags _ => some (fd, hasNonblock flags)
  | .ioctlFionbio fd value _ => some (fd, value != 0)
  | .socket _ none | .fcntlGetfl _ => none

/-- The mode that a call chooses, if it succeeds. -/
def chooses : StatusCall → Option (ℕ × Bool)
  | .socket nonblock (some fd) => some (fd, nonblock)
  | .fcntlSetfl fd flags true => some (fd, hasNonblock flags)
  | .ioctlFionbio fd value true => some (fd, value != 0)
  | .socket _ none | .fcntlSetfl _ _ false | .fcntlGetfl _ | .ioctlFionbio _ _ false => none

/-- A table of modes after one of them is assigned. -/
def assign (modes : ℕ → Bool) : Option (ℕ × Bool) → ℕ → Bool
  | none => modes
  | some (fd, v) => Function.update modes fd v

/-- The mode that is assigned is that of its number. -/
theorem assign_self (modes : ℕ → Bool) (fd : ℕ) (v : Bool) : assign modes (some (fd, v)) fd = v :=
  Function.update_self ..

/-- An assignment leaves the other modes alone. -/
theorem assign_of_ne (modes : ℕ → Bool) {m : Option (ℕ × Bool)} {g : ℕ}
    (h : ∀ v, m ≠ some (g, v)) : assign modes m g = modes g := by
  cases m with
  | none => exact rfl
  | some x =>
    apply Function.update_of_ne
    rintro rfl
    exact h x.2 rfl

/-- A call that chooses a mode stores one, for the same socket. -/
theorem exists_stores_of_chooses {c : StatusCall} {g : ℕ} {v : Bool}
    (h : chooses c = some (g, v)) : ∃ v', stores c = some (g, v') := by
  cases c with
  -- a new socket's object starts with blocking mode, whatever was asked for
  | socket nonblock fd =>
    cases fd with
    | none => cases h
    | some fd =>
      obtain ⟨rfl, -⟩ := Prod.mk.inj (Option.some.inj h)
      exact ⟨false, rfl⟩
  | fcntlSetfl fd flags ok =>
    cases ok with
    | false => cases h
    | true => exact ⟨v, h⟩
  | fcntlGetfl fd => cases h
  | ioctlFionbio fd value ok =>
    cases ok with
    | false => cases h
    | true => exact ⟨v, h⟩

/-- What a step does to the open sockets and to the two modes of each. -/
structure Moves (s s' : StatusRun) (c : StatusCall) : Prop where
  reached : s'.Reached
  user : s'.user = assign s.user (stores c)
  chosen : s'.chosen = assign s.chosen (chooses c)
  opened : ∀ g, (s'.flags g).isSome → (s.flags g).isSome ∨ ∃ nonblock, c = .socket nonblock (some g)
  target : ∀ g v, stores c = some (g, v) → (s'.flags g).isSome

/-- A change of the flags of an open socket opens none. -/
theorem isSome_update {cur : BitVec 32} (hcur : s.flags fd = some cur) (new : BitVec 32) (g : ℕ) :
    (Function.update s.flags fd (some new) g).isSome ↔ (s.flags g).isSome := by
  by_cases hg : g = fd
  · subst hg
    rw [Function.update_self, hcur]
    exact Iff.rfl
  · rw [Function.update_of_ne hg]

/-- A mode is stored for an open socket. -/
theorem moves_setUser (h : s.Reached) {cur : BitVec 32} (hcur : s.flags fd = some cur) (v : Bool)
    (hstores : stores c = some (fd, v))
    (hs' : s'.manager = (s.toCallRun.setUser fd v).manager)
    (hflags : ∀ g, (s'.flags g).isSome ↔ (s.flags g).isSome)
    (hchosen : s'.chosen = assign s.chosen (chooses c)) : Moves s s' c := by
  obtain ⟨e, he, hopen⟩ := h.obj fd cur hcur
  -- the object of the number takes the mode, and the others stay
  have hself : s'.manager.find fd = some (e.setUserNonBlock v) := by
    have := @CallRun.find_setUser_self s.toCallRun fd v
    rw [hs', this]
    show CallRun.withUser (s.manager.find fd) v = _
    rw [he, CallRun.withUser, Option.map_some, if_pos hopen]
  have hother : ∀ g ≠ fd, s'.manager.find g = s.manager.find g := by
    intro g hg
    rw [hs']
    exact congrArg Prod.snd (CallRun.view_setUser_of_ne (s := s.toCallRun) v hg)
  refine ⟨⟨?_, ?_, ?_⟩, ?_, hchosen, fun g hg => Or.inl ((hflags g).mp hg), ?_⟩
  · rw [hs', CallRun.size_setUser]
    exact h.size
  · intro g hg
    have hnone : s.flags g = none := by
      rw [← Option.not_isSome_iff_eq_none, ← hflags g, hg]
      exact Bool.false_ne_true
    rw [hother g (by rintro rfl; rw [hcur] at hnone; cases hnone)]
    exact h.closed g hnone
  · intro g cur' hcur'
    by_cases hg : g = fd
    · subst hg
      exact ⟨_, hself, hopen⟩
    · obtain ⟨cur₀, hcur₀⟩ := Option.isSome_iff_exists.mp ((hflags g).mp (hcur' ▸ rfl))
      rw [hother g hg]
      exact h.obj g cur₀ hcur₀
  · rw [hstores]
    funext g
    show (s'.manager.find g).any _ = Function.update s.user fd v g
    by_cases hg : g = fd
    · subst hg
      rw [hself, Function.update_self]
      rfl
    · rw [hother g hg, Function.update_of_ne hg]
      rfl
  · intro g v' hg
    rw [hstores] at hg
    obtain ⟨rfl, -⟩ := Prod.mk.inj (Option.some.inj hg)
    exact (hflags fd).mpr (hcur ▸ rfl)

/-- A socket is opened under a number that has no `Fd`. -/
theorem moves_socket (h : s.Reached) {nonblock : Bool} (hfree : s.flags fd = none)
    (hstep : step s (.socket nonblock (some fd)) = some s') :
    Moves s s' (.socket nonblock (some fd)) := by
  have hnone := h.closed fd hfree
  obtain ⟨-, hstep⟩ := Option.ite_none_right_eq_some.mp hstep
  obtain rfl := Option.some.inj hstep
  -- the number was free, so the object is a new one
  have hself := @FdManager.find_getCreate_self s.manager fd h.size
    (some ⟨true, hasNonblock (openFlags nonblock)⟩)
  rw [hnone, Option.getD_none] at hself
  have hother : ∀ g ≠ fd,
      (s.manager.getCreate (some ⟨true, hasNonblock (openFlags nonblock)⟩) fd).1.find g =
        s.manager.find g :=
    fun g hg => FdManager.find_getCreate_of_ne h.size _ hg
  have hflags : ∀ g, (Function.update s.flags fd (some (if (s.manager.find fd).isSome then
      openFlags nonblock else initFlags (openFlags nonblock))) g).isSome ↔
        g = fd ∨ (s.flags g).isSome := by
    intro g
    by_cases hg : g = fd
    · subst hg
      rw [Function.update_self]
      exact iff_of_true rfl (Or.inl rfl)
    · rw [Function.update_of_ne hg]
      exact (or_iff_right hg).symm
  refine ⟨⟨?_, ?_, ?_⟩, ?_, rfl, ?_, ?_⟩
  · exact FdManager.size_getCreate h.size _
  · intro g hg
    have hg' : ¬(g = fd ∨ (s.flags g).isSome) := by
      rw [← hflags g]
      exact Option.not_isSome_iff_eq_none.mpr hg
    rw [not_or] at hg'
    exact (hother g hg'.1).trans (h.closed g (Option.not_isSome_iff_eq_none.mp hg'.2))
  · intro g cur hcur
    by_cases hg : g = fd
    · subst hg
      exact ⟨_, hself, rfl⟩
    · obtain ⟨cur₀, hcur₀⟩ := Option.isSome_iff_exists.mp
        (((hflags g).mp (Option.isSome_iff_exists.mpr ⟨cur, hcur⟩)).resolve_left hg)
      obtain ⟨e, he, hopen⟩ := h.obj g cur₀ hcur₀
      exact ⟨e, (hother g hg).trans he, hopen⟩
  · funext g
    show (FdManager.find _ g).any _ = Function.update s.user fd false g
    by_cases hg : g = fd
    · subst hg
      rw [Function.update_self]
      exact (congrArg (Option.any Fd.userNonBlock) hself).trans rfl
    · rw [Function.update_of_ne hg]
      exact congrArg (Option.any Fd.userNonBlock) (hother g hg)
  · intro g hg
    rcases (hflags g).mp hg with rfl | hg
    · exact Or.inr ⟨nonblock, rfl⟩
    · exact Or.inl hg
  · intro g v hg
    obtain ⟨rfl, -⟩ := Prod.mk.inj (Option.some.inj hg)
    exact (hflags fd).mpr (Or.inl rfl)

/-- A call that changes nothing. -/
theorem Moves.refl (h : s.Reached) (hstores : stores c = none) (hchooses : chooses c = none) :
    Moves s s c where
  reached := h
  user := by rw [hstores, assign]
  chosen := by rw [hchooses, assign]
  opened := fun _ hg => Or.inl hg
  target := fun g v hg => absurd (hstores.symm.trans hg).symm (Option.some_ne_none _)

/-- **Step.** What every call does to the sockets and their modes. -/
theorem step_moves (h : s.Reached) (hstep : step s c = some s') : Moves s s' c := by
  cases c with
  | socket nonblock fd =>
    cases fd with
    | none =>
      obtain rfl := Option.some.inj hstep
      exact .refl h rfl rfl
    | some fd => exact moves_socket h (Option.ite_none_right_eq_some.mp hstep).1 hstep
  | fcntlSetfl fd flags ok =>
    cases hcur : s.flags fd with
    | none =>
      simp only [step, hcur] at hstep
      cases hstep
    | some cur =>
      simp only [step, hcur] at hstep
      obtain rfl := Option.some.inj hstep
      refine moves_setUser h hcur _ rfl rfl (fun g => ?_) ?_
      · cases ok with
        | false => exact Iff.rfl
        | true => exact isSome_update hcur _ g
      · cases ok <;> rfl
  -- `F_GETFL` changes nothing
  | fcntlGetfl fd =>
    obtain ⟨-, hstep⟩ := Option.ite_none_right_eq_some.mp hstep
    obtain rfl := Option.some.inj hstep
    exact .refl h rfl rfl
  | ioctlFionbio fd value ok =>
    cases hcur : s.flags fd with
    | none =>
      simp only [step, hcur] at hstep
      cases hstep
    | some cur =>
      simp only [step, hcur] at hstep
      obtain rfl := Option.some.inj hstep
      refine moves_setUser h hcur _ rfl rfl (fun g => ?_) ?_
      · cases ok with
        | false => exact Iff.rfl
        | true => exact isSome_update hcur _ g
      · cases ok <;> rfl

/-! ### Runs -/

/-- The mode that a call stores in an object, against the one of a table. -/
theorem stored_iff {fd : ℕ} {mode : Bool} {table : ℕ → Bool} :
    mode = table fd ↔ ∀ g v, some (fd, mode) = some (g, v) → v = table g := by
  constructor
  · rintro hmode g v hg
    obtain ⟨rfl, rfl⟩ := Prod.mk.inj (Option.some.inj hg)
    exact hmode
  · exact fun hall => hall fd mode rfl

/-- The condition says that a call stores the mode that is chosen after it. -/
theorem keepsView_iff (hm : Moves s s' c) :
    s.KeepsView c ↔ ∀ g v, stores c = some (g, v) → v = s'.chosen g := by
  rw [hm.chosen]
  cases c with
  | socket nonblock fd =>
    cases fd with
    | none => exact iff_of_true trivial fun g v hg => absurd hg.symm (Option.some_ne_none _)
    | some fd =>
      show nonblock = false ↔ _
      constructor
      · rintro rfl g v hg
        obtain ⟨rfl, rfl⟩ := Prod.mk.inj (Option.some.inj hg)
        exact (assign_self s.chosen fd false).symm
      · intro hall
        exact (assign_self s.chosen fd nonblock).symm.trans (hall fd false rfl).symm
  | fcntlSetfl fd flags ok =>
    cases ok with
    -- a call that the kernel refuses still stores the mode
    | false =>
      show hasNonblock flags = s.chosen fd ↔ _
      exact stored_iff
    | true =>
      apply iff_of_true trivial
      exact stored_iff.mp (assign_self s.chosen fd _).symm
  | fcntlGetfl fd => exact iff_of_true trivial fun g v hg => absurd hg.symm (Option.some_ne_none _)
  | ioctlFionbio fd value ok =>
    cases ok with
    | false =>
      show (value != 0) = s.chosen fd ↔ _
      exact stored_iff
    | true =>
      apply iff_of_true trivial
      exact stored_iff.mp (assign_self s.chosen fd _).symm

/-- Nothing is open at first. -/
theorem reached_new : new.Reached where
  size := (by decide : 2 ≤ 64)
  closed := fun _ _ => FdManager.find_new
  obj := fun _ _ hcur => absurd hcur.symm (Option.some_ne_none _)

/-- **Step.** From a state with the user's view, a call keeps it exactly under the condition. -/
theorem step_userView_iff (h : s.Reached) (hview : s.UserView) (hstep : step s c = some s') :
    s'.UserView ↔ s.KeepsView c := by
  have hm := step_moves h hstep
  rw [userView_iff h] at hview
  rw [userView_iff hm.reached, keepsView_iff hm]
  have hagree : ∀ g, (s.flags g).isSome → s.user g = s.chosen g := by
    intro g hg
    obtain ⟨cur, hcur⟩ := Option.isSome_iff_exists.mp hg
    exact hview g cur hcur
  constructor
  · intro hall g v hg
    obtain ⟨cur, hcur⟩ := Option.isSome_iff_exists.mp (hm.target g v hg)
    rw [← hall g cur hcur, hm.user, hg, assign_self]
  · intro hall g cur hcur
    by_cases hstores : ∃ v, stores c = some (g, v)
    · obtain ⟨v, hg⟩ := hstores
      rw [hm.user, hg, assign_self]
      exact hall g v hg
    -- a socket whose mode the call does not store was open before, and its mode is not chosen
    · have hs : (s.flags g).isSome := by
        rcases hm.opened g (Option.isSome_iff_exists.mpr ⟨cur, hcur⟩) with hs | ⟨nonblock, rfl⟩
        · exact hs
        · exact absurd ⟨false, rfl⟩ hstores
      have hchooses : ¬∃ v, chooses c = some (g, v) :=
        fun ⟨_, hv⟩ => hstores (exists_stores_of_chooses hv)
      rw [hm.user, hm.chosen, assign_of_ne _ (not_exists.mp hstores),
        assign_of_ne _ (not_exists.mp hchooses)]
      exact hagree g hs

/-! ### The kernel's flag -/

/-- The call as one of `CallRun`, where the kernel accepts it. -/
def toHooked : StatusCall → Option HookedCall
  | .socket nonblock fd => some (.socket true nonblock fd)
  | .fcntlSetfl fd flags true => some (.fcntlSetfl fd flags)
  | .ioctlFionbio fd value true => some (.ioctlFionbio fd value)
  | .fcntlSetfl _ _ false | .fcntlGetfl _ | .ioctlFionbio _ _ false => none

/-- A socket is created with the flag that was asked for. -/
theorem hasNonblock_openFlags (nonblock : Bool) : hasNonblock (openFlags nonblock) = nonblock := by
  cases nonblock <;> decide

/-- `F_SETFL` gives a file the `O_NONBLOCK` that it is passed. -/
theorem hasNonblock_setfl (cur flags : BitVec 32) :
    hasNonblock (setfl cur flags) = hasNonblock flags := by
  have hmask : setflMask &&& oNonblock = oNonblock := by decide
  have hnot : ~~~setflMask &&& oNonblock = 0 := by decide
  have h : setfl cur flags &&& oNonblock = flags &&& oNonblock := by
    unfold setfl
    have hcur : cur &&& 0 = 0 := BitVec.and_zero
    rw [BitVec.and_comm, BitVec.and_or_distrib_left, BitVec.and_comm, BitVec.and_assoc, hmask,
      BitVec.and_comm oNonblock, BitVec.and_assoc, hnot, hcur]
    exact BitVec.or_zero
  unfold hasNonblock
  rw [h]

/-- `init` adds the flag. -/
theorem hasNonblock_initFlags (flags : BitVec 32) : hasNonblock (initFlags flags) = true := by
  unfold initFlags
  split
  · assumption
  · rw [hasNonblock_setfl]
    exact CallRun.hasNonblock_or flags

/-- The kernel's flag of a new socket, with and without an `Fd` under its number. -/
theorem getCreate_socket (m : FdManager) (fd : ℕ) (nonblock : Bool) :
    (m.getCreate (some ⟨true, nonblock⟩) fd).2 = some ⟨true, hasNonblock
      (if (m.find fd).isSome then openFlags nonblock else initFlags (openFlags nonblock))⟩ := by
  unfold FdManager.getCreate
  cases m.find fd with
  | none =>
    show (Fd.init (some ⟨true, nonblock⟩)).2 = some ⟨true, hasNonblock (initFlags _)⟩
    rw [hasNonblock_initFlags, Fd.init, if_pos rfl]
  | some e =>
    show some _ = some (Descriptor.mk true (hasNonblock (openFlags nonblock)))
    rw [hasNonblock_openFlags]

/-- The files of `CallRun` after the flags of a descriptor change. -/
theorem files_update (flags : ℕ → Option (BitVec 32)) (fd : ℕ) (new : BitVec 32) :
    (fun g => (Function.update flags fd (some new) g).map
      fun flags => (⟨true, hasNonblock flags⟩ : Descriptor)) =
        Function.update (fun g => (flags g).map fun flags => ⟨true, hasNonblock flags⟩) fd
          (some ⟨true, hasNonblock new⟩) :=
  Function.comp_update (Option.map fun flags => (⟨true, hasNonblock flags⟩ : Descriptor)) flags fd
    (some new)

/-- The flag of an open socket in `CallRun`, after the user's mode is stored. -/
theorem setNonblock_toCallRun {cur : BitVec 32} (hcur : s.flags fd = some cur) (user v : Bool) :
    (s.toCallRun.setUser fd user).setNonblock fd v =
      ⟨Function.update s.toCallRun.files fd (some ⟨true, v⟩),
        (s.toCallRun.setUser fd user).manager⟩ := by
  have hfile : s.toCallRun.files fd = some ⟨true, hasNonblock cur⟩ := by
    show (s.flags fd).map _ = _
    rw [hcur, Option.map_some]
  unfold CallRun.setNonblock
  rw [CallRun.files_setUser, hfile, Option.map_some]

/-- **Simulation.** A call that the kernel accepts is one of `CallRun`. -/
theorem step_toCallRun {a : HookedCall} (hstep : step s c = some s') (ha : toHooked c = some a) :
    s.toCallRun.step a = some s'.toCallRun := by
  cases c with
  | socket nonblock fd =>
    obtain rfl := Option.some.inj ha
    cases fd with
    | none =>
      obtain rfl := Option.some.inj hstep
      exact rfl
    | some fd =>
      obtain ⟨hfree, hstep⟩ := Option.ite_none_right_eq_some.mp hstep
      obtain rfl := Option.some.inj hstep
      -- the number is free in both models
      have hnone : (s.toCallRun.files fd).isNone = true := by
        show ((s.flags fd).map _).isNone = true
        rw [hfree]
        rfl
      have hopened : (s.toCallRun.openSocket fd nonblock).files fd = some ⟨true, nonblock⟩ :=
        Function.update_self ..
      show (if (s.toCallRun.files fd).isNone then _ else none) = _
      rw [if_pos hnone]
      refine congrArg some (congrArg₂ CallRun.mk ?_ ?_)
      · rw [hopened, files_update, ← getCreate_socket]
        exact Function.update_idem ..
      · rw [hopened, hasNonblock_openFlags]
        rfl
  | fcntlSetfl fd flags ok =>
    cases ok with
    | false => cases ha
    | true =>
      obtain rfl := Option.some.inj ha
      cases hcur : s.flags fd with
      | none =>
        simp only [step, hcur] at hstep
        cases hstep
      | some cur =>
        simp only [step, hcur, if_true] at hstep
        obtain rfl := Option.some.inj hstep
        refine congrArg some ((setNonblock_toCallRun hcur _ _).trans (congrArg₂ CallRun.mk ?_ rfl))
        rw [files_update, hasNonblock_setfl]
        rfl
  | fcntlGetfl fd => cases ha
  | ioctlFionbio fd value ok =>
    cases ok with
    | false => cases ha
    | true =>
      obtain rfl := Option.some.inj ha
      cases hcur : s.flags fd with
      | none =>
        simp only [step, hcur] at hstep
        cases hstep
      | some cur =>
        simp only [step, hcur, if_true] at hstep
        obtain rfl := Option.some.inj hstep
        refine congrArg some ((setNonblock_toCallRun hcur _ _).trans (congrArg₂ CallRun.mk ?_ rfl))
        rw [files_update, (reported cur _).1]
        rfl

end StatusRun

/-- `F_GETFL` reports the mode chosen last and the flags of the kernel all along a run exactly when
    no socket is created with `SOCK_NONBLOCK`, and a call that fails asks for the mode that is
    chosen already. -/
theorem user_view_iff (cs : List StatusCall) (s : StatusRun)
    (hrun : runFrom StatusRun.step .new cs = some s) :
    Always StatusRun.step StatusRun.UserView .new cs ↔
      Along StatusRun.step StatusRun.KeepsView .new cs := by
  refine always_iff_along (I := StatusRun.Reached) (fun s c s' h hstep => ?_)
    (fun s c s' h hview hstep => ?_) StatusRun.reached_new ?_ hrun
  · exact (StatusRun.step_moves h hstep).reached
  · exact StatusRun.step_userView_iff h hview hstep
  · exact fun fd cur hcur => absurd hcur.symm (Option.some_ne_none _)

/-- A socket is made non-blocking and blocking again by both calls, and a rejected `F_SETFL` asks
    for the mode it has. -/
theorem user_view_iff_both_calls :
    Always StatusRun.step StatusRun.UserView .new
      [.socket false (some 5), .ioctlFionbio 5 1 true, .fcntlSetfl 5 0x4800 false,
        .fcntlSetfl 5 2 true, .fcntlGetfl 5] := by
  obtain ⟨s, hrun⟩ : ∃ s, runFrom StatusRun.step .new
      [.socket false (some 5), .ioctlFionbio 5 1 true, .fcntlSetfl 5 0x4800 false,
        .fcntlSetfl 5 2 true, .fcntlGetfl 5] = some s := ⟨_, rfl⟩
  exact (user_view_iff _ s hrun).mpr (by decide)

/-- A socket created with `SOCK_NONBLOCK` is reported as blocking. -/
theorem nonblock_creation_hidden :
    ∃ s, runFrom StatusRun.step .new [.socket true (some 5), .fcntlGetfl 5] = some s ∧
      s.chosen 5 = true ∧ s.fcntlGetfl 5 = some oRdwr ∧ ¬s.UserView := by
  refine ⟨_, rfl, by decide, by decide, fun hview => ?_⟩
  obtain ⟨arg, harg, hmode, -⟩ := hview 5 (oRdwr ||| oNonblock) (by decide)
  obtain rfl : oRdwr = arg := Option.some.inj (Eq.trans (by decide) harg)
  exact absurd hmode (by decide)

end LoNetfw.Hook
