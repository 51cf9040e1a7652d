import LoNetfw.Basis.StepSystem
import Mathlib.Data.List.Basic
import Mathlib.Algebra.Ring.Nat
import Mathlib.Algebra.Ring.Int.Defs

namespace LoNetfw.Scheduler

open Basis

/-!
# `IOScheduler` — the table of contexts

`m_fd_contexts` holds a pointer to a context for each descriptor below its size.  `addEvent`
tests the size under the read lock and, when the descriptor is not below it, resizes the
table to `fd * 1.5` under the write lock; between the two it holds no lock.

* `FdTable.contextResize` — the resize and the loop that creates the missing contexts;
* `TableRun.step` — the lookups of concurrent calls, test and resize being separate steps;
* `Grows` — the condition on a step: a resize does not find the table larger than the size
  it asks for, and the size of the table fits an `int`;
* `fd_contexts_stable_iff` — the table keeps its size and its contexts exactly when every
  step meets that condition.
-/

/-! ### The table -/

structure FdTable where
  /-- `m_fd_contexts`: the number of the context each pointer points to. -/
  contexts : List (Option ℕ)
  /-- The number of contexts created so far. -/
  created : ℕ

namespace FdTable

/-- `std::vector::resize` on a vector of pointers. -/
def resize (l : List (Option ℕ)) (size : ℕ) : List (Option ℕ) :=
  l.take size ++ List.replicate (size - l.length) none

/-- The loop of `contextResize`: a context is created for each null pointer. -/
def fill : List (Option ℕ) → ℕ → List (Option ℕ) × ℕ
  | [], created => ([], created)
  | none :: l, created =>
    let (l', created') := fill l (created + 1)
    (some created :: l', created')
  | some c :: l, created =>
    let (l', created') := fill l created
    (some c :: l', created')

/-- `contextResize(size)`. -/
def contextResize (t : FdTable) (size : ℕ) : FdTable :=
  let (contexts, created) := fill (resize t.contexts size) t.created
  ⟨contexts, created⟩

/-- The table that the constructor of `IOScheduler` creates. -/
def new : FdTable := contextResize ⟨[], 0⟩ 32

def size (t : FdTable) : ℕ := t.contexts.length

/-- `(int)m_fd_contexts.size()`. -/
def intSize (t : FdTable) : ℤ :=
  if t.size % 2 ^ 32 < 2 ^ 31 then (t.size % 2 ^ 32 : ℕ) else (t.size % 2 ^ 32 : ℕ) - 2 ^ 32

/-- `m_fd_contexts[fd]`. -/
def get (t : FdTable) (fd : ℕ) : Option ℕ := t.contexts[fd]?.join

/-- The size that `addEvent` asks for: `fd * 1.5`, converted to `size_t`. -/
def grownSize (fd : ℕ) : ℕ := fd * 3 / 2

/-- The loop adds no slots. -/
theorem length_fill (l : List (Option ℕ)) (created : ℕ) : (fill l created).1.length = l.length := by
  fun_induction fill l created <;> simp_all

/-- The loop leaves the pointers that are not null. -/
theorem fill_some {l : List (Option ℕ)} {created fd c : ℕ} (h : l[fd]? = some (some c)) :
    (fill l created).1[fd]? = some (some c) := by
  fun_induction fill l created generalizing fd with
  | case1 => simp at h
  | case2 l created l' created' heq ih =>
    cases fd with
    | zero => simp at h
    | succ fd => simpa [heq] using ih (by simpa using h)
  | case3 d l created l' created' heq ih =>
    cases fd with
    | zero => simpa using h
    | succ fd => simpa [heq] using ih (by simpa using h)

/-- A vector has the size it is resized to. -/
theorem length_resize (l : List (Option ℕ)) (size : ℕ) : (resize l size).length = size := by
  simp [resize]
  omega

/-- The table has the size it is resized to. -/
theorem size_contextResize (t : FdTable) (size : ℕ) : (t.contextResize size).size = size := by
  show (fill _ _).1.length = size
  rw [length_fill, length_resize]

/-- A size that fits an `int` is kept. -/
theorem intSize_of_lt {t : FdTable} (h : t.size < 2 ^ 31) : t.intSize = t.size := by
  unfold intSize
  rw [Nat.mod_eq_of_lt (by omega), if_pos h]

/-- The size of a table that is too large for an `int` is a negative number. -/
theorem intSize_neg {t : FdTable} (h : 2 ^ 31 ≤ t.size) (h' : t.size < 2 ^ 32) : t.intSize < 0 := by
  unfold intSize
  rw [Nat.mod_eq_of_lt h', if_neg (by omega)]
  omega

/-- A context that is found is in the table. -/
theorem lt_size_of_get {t : FdTable} {fd c : ℕ} (h : t.get fd = some c) : fd < t.size :=
  (List.getElem?_eq_some_iff.mp (Option.join_eq_some_iff.mp h)).1

/-- A resize that does not shrink the table keeps its contexts. -/
theorem get_contextResize {t : FdTable} {size fd c : ℕ} (hsize : t.size ≤ size)
    (h : t.get fd = some c) : (t.contextResize size).get fd = some c := by
  have hc : t.contexts[fd]? = some (some c) := Option.join_eq_some_iff.mp h
  have hlt : fd < t.contexts.length := lt_size_of_get h
  have hres : (resize t.contexts size)[fd]? = some (some c) := by
    unfold resize
    rw [List.take_of_length_le hsize, List.getElem?_append_left hlt, hc]
  show ((fill _ _).1[fd]?).join = some c
  rw [fill_some hres]
  rfl

end FdTable

/-! ### Lookups of concurrent calls -/

/-- A call that has looked up the context of a descriptor; `none` when it found the
    descriptor beyond the table and returned. -/
structure Lookup where
  fd : ℕ
  isAdd : Bool
  context : Option ℕ
  deriving DecidableEq, Repr

inductive TableAction
  /-- `addEvent` tests the size under the read lock. -/
  | addTest (fd : ℕ)
  /-- An `addEvent` that found the table too small resizes it under the write lock. -/
  | addResize (fd : ℕ)
  /-- `delEvent`, `cancelEvent` or `cancelAll`. -/
  | find (fd : ℕ)
  deriving DecidableEq, Repr

structure TableRun where
  table : FdTable
  /-- The calls of `addEvent` between the test and the resize. -/
  growing : List ℕ
  /-- The lookups so far. -/
  lookups : List Lookup
  /-- The size of the table after each step. -/
  sizes : List ℕ

namespace TableRun

def new : TableRun := ⟨.new, [], [], [FdTable.new.size]⟩

/-- A call has looked up a context; the size is noted. -/
def note (s : TableRun) (l : Lookup) : TableRun :=
  { s with lookups := s.lookups ++ [l], sizes := s.sizes ++ [s.table.size] }

/-- One step.  A descriptor is a non-negative `int`. -/
def step (s : TableRun) : TableAction → Option TableRun
  | .addTest fd =>
    if fd < 2 ^ 31 then
      some (if s.table.intSize > fd then s.note ⟨fd, true, s.table.get fd⟩
        else { s with growing := fd :: s.growing })
    else none
  | .addResize fd =>
    if fd ∈ s.growing then
      -- the size is not tested again under the write lock
      let table := s.table.contextResize (FdTable.grownSize fd)
      some ({ s with table := table, growing := s.growing.erase fd }.note ⟨fd, true, table.get fd⟩)
    else none
  | .find fd =>
    if fd < 2 ^ 31 then
      -- `if ((int)m_fd_contexts.size() <= fd)`: the call returns
      some (s.note ⟨fd, false, if s.table.intSize ≤ fd then none else s.table.get fd⟩)
    else none

/-- Some `addEvent` has obtained the context of a descriptor. -/
def Obtained (s : TableRun) (fd : ℕ) : Prop := ∃ l ∈ s.lookups, l.isAdd ∧ l.context.isSome ∧ l.fd = fd

/-- The size of the table has never decreased, and after an `addEvent` has obtained the
    context of a descriptor every call on that descriptor has found the same context. -/
def Stable (s : TableRun) : Prop :=
  s.sizes.Pairwise (· ≤ ·) ∧
  s.lookups.Pairwise (fun l l' => l.isAdd → l.context.isSome → l'.fd = l.fd → l'.context = l.context)

/-- The condition on a step: a resize asks for no less than the size of the table, and the
    descriptor of a lookup is new or the size fits an `int`. -/
def Grows (s : TableRun) : TableAction → Prop
  | .addTest _ => True
  | .addResize fd => s.table.size ≤ FdTable.grownSize fd
  | .find fd => s.table.size < 2 ^ 31 ∨ ¬ s.Obtained fd

variable {s s' : TableRun} {a : TableAction}

/-! ### Sufficiency -/

/-- The facts about every interleaving. -/
structure Reached (s : TableRun) : Prop where
  last : s.sizes.getLast? = some s.table.size
  growing : ∀ fd ∈ s.growing, fd < 2 ^ 31
  small : s.table.size < 2 ^ 32

/-- The invariant of an interleaving that meets the condition: the table still has what was
    obtained from it. -/
structure Inv (s : TableRun) : Prop where
  stable : s.Stable
  sizes : ∀ n ∈ s.sizes, n ≤ s.table.size
  kept : ∀ l ∈ s.lookups, l.isAdd → ∀ c, l.context = some c → s.table.get l.fd = some c

/-- The table of the constructor. -/
theorem reached_new : new.Reached where
  last := rfl
  growing := fun fd h => absurd h (by simp [new])
  small := by decide

/-- Each step keeps these facts. -/
theorem step_reached (h : s.Reached) (hstep : step s a = some s') : s'.Reached := by
  cases a with
  | addTest fd =>
    simp only [step, Option.ite_none_right_eq_some, Option.some.injEq] at hstep
    obtain ⟨hfd, rfl⟩ := hstep
    split
    · exact ⟨by simp [note], h.growing, h.small⟩
    · refine ⟨h.last, fun fd' hfd' => ?_, h.small⟩
      rcases List.mem_cons.mp hfd' with rfl | hfd'
      · exact hfd
      · exact h.growing fd' hfd'
  | addResize fd =>
    simp only [step, Option.ite_none_right_eq_some, Option.some.injEq] at hstep
    obtain ⟨hfd, rfl⟩ := hstep
    refine ⟨by simp [note], fun fd' hfd' => h.growing fd' (List.mem_of_mem_erase hfd'), ?_⟩
    -- a call that waits for the write lock has found its number too large
    have hlt := h.growing fd hfd
    show (s.table.contextResize _).size < 2 ^ 32
    rw [FdTable.size_contextResize, FdTable.grownSize]
    omega
  | find fd =>
    simp only [step, Option.ite_none_right_eq_some, Option.some.injEq] at hstep
    obtain ⟨-, rfl⟩ := hstep
    exact ⟨by simp [note], h.growing, h.small⟩

/-- A lookup of a call that finds what was obtained before keeps the invariant. -/
theorem Inv.note (h : s.Inv) {l : Lookup}
    (hsame : ∀ l₀ ∈ s.lookups, l₀.isAdd → l₀.context.isSome → l.fd = l₀.fd → l.context = l₀.context)
    (hkept : l.isAdd → ∀ c, l.context = some c → s.table.get l.fd = some c) : (s.note l).Inv := by
  refine ⟨⟨?_, ?_⟩, fun n hn => ?_, fun l₀ hl₀ => ?_⟩
  -- the new look-up and the new size stand behind the old ones
  · refine List.pairwise_append.mpr ⟨h.stable.1, by simp, fun n hn n' hn' => ?_⟩
    rw [List.mem_singleton.mp hn']
    exact h.sizes n hn
  · refine List.pairwise_append.mpr ⟨h.stable.2, by simp, fun l₀ hl₀ l' hl' => ?_⟩
    rw [List.mem_singleton.mp hl']
    exact hsame l₀ hl₀
  · rcases List.mem_append.mp hn with hn | hn
    · exact h.sizes n hn
    · rw [List.mem_singleton.mp hn]
      exact Nat.le_refl _
  · rcases List.mem_append.mp hl₀ with hl₀ | hl₀
    · exact h.kept l₀ hl₀
    · rw [List.mem_singleton.mp hl₀]
      exact hkept

/-- A resize that does not shrink the table keeps the invariant. -/
theorem Inv.contextResize (h : s.Inv) {n : ℕ} (hn : s.table.size ≤ n) (growing : List ℕ) :
    Inv { s with table := s.table.contextResize n, growing := growing } := by
  refine ⟨h.stable, fun k hk => ?_, fun l hl hadd c hc => ?_⟩
  · show k ≤ (s.table.contextResize n).size
    rw [FdTable.size_contextResize]
    exact Nat.le_trans (h.sizes k hk) hn
  · exact FdTable.get_contextResize hn (h.kept l hl hadd c hc)

/-- What was obtained for a descriptor is in the table. -/
theorem Inv.context_eq (h : s.Inv) {l₀ : Lookup} (hl₀ : l₀ ∈ s.lookups) (hadd : l₀.isAdd)
    (hsome : l₀.context.isSome) : s.table.get l₀.fd = l₀.context := by
  obtain ⟨c, hc⟩ := Option.isSome_iff_exists.mp hsome
  rw [hc]
  exact h.kept l₀ hl₀ hadd c hc

/-- A step that meets the condition keeps what was obtained. -/
theorem step_inv (h : s.Inv) (hC : s.Grows a) (hstep : step s a = some s') : s'.Inv := by
  cases a with
  | addTest fd =>
    simp only [step, Option.ite_none_right_eq_some, Option.some.injEq] at hstep
    obtain ⟨-, rfl⟩ := hstep
    split
    · refine h.note (fun l₀ hl₀ hadd hsome hfd => ?_) (fun _ c hc => hc)
      have heq := h.context_eq hl₀ hadd hsome
      rw [← hfd] at heq
      exact heq
    · exact ⟨h.stable, h.sizes, h.kept⟩
  | addResize fd =>
    simp only [step, Option.ite_none_right_eq_some, Option.some.injEq] at hstep
    obtain ⟨-, rfl⟩ := hstep
    have hgrown := h.contextResize hC (s.growing.erase fd)
    refine hgrown.note (fun l₀ hl₀ hadd hsome hfd => ?_) (fun _ c hc => hc)
    have heq := hgrown.context_eq hl₀ hadd hsome
    rw [← hfd] at heq
    exact heq
  | find fd =>
    simp only [step, Option.ite_none_right_eq_some, Option.some.injEq] at hstep
    obtain ⟨-, rfl⟩ := hstep
    refine h.note (fun l₀ hl₀ hadd hsome hfd => ?_) (fun hadd => absurd hadd (by simp))
    -- the descriptor was obtained, so the size fits and the test finds it below
    have hsmall : s.table.size < 2 ^ 31 :=
      hC.resolve_right (fun hnot => hnot ⟨l₀, hl₀, hadd, hsome, hfd.symm⟩)
    have heq := h.context_eq hl₀ hadd hsome
    rw [← hfd] at heq
    obtain ⟨c, hc⟩ := Option.isSome_iff_exists.mp hsome
    have hlt := FdTable.lt_size_of_get (heq.trans hc)
    show (if s.table.intSize ≤ fd then none else s.table.get fd) = l₀.context
    dsimp only at hlt heq
    rw [if_neg (by rw [FdTable.intSize_of_lt hsmall]; omega), heq]

/-! ### Necessity -/

/-- A step can only end in a stable state by meeting the condition. -/
theorem grows_of_stable (h : s.Reached) (hstep : step s a = some s') (hP : s'.Stable) :
    s.Stable ∧ s.Grows a := by
  cases a with
  | addTest fd =>
    simp only [step, Option.ite_none_right_eq_some, Option.some.injEq] at hstep
    obtain ⟨-, rfl⟩ := hstep
    refine ⟨?_, trivial⟩
    split at hP
    · exact ⟨(List.pairwise_append.mp hP.1).1, (List.pairwise_append.mp hP.2).1⟩
    · exact hP
  | addResize fd =>
    simp only [step, Option.ite_none_right_eq_some, Option.some.injEq] at hstep
    obtain ⟨-, rfl⟩ := hstep
    obtain ⟨hsizes, -, hle⟩ := List.pairwise_append.mp hP.1
    refine ⟨⟨hsizes, (List.pairwise_append.mp hP.2).1⟩, ?_⟩
    -- the last size noted is the table's, so the next may not be smaller
    have hmem : s.table.size ∈ s.sizes := List.mem_of_getLast? h.last
    have hlast := hle _ hmem _ (List.mem_singleton.mpr rfl)
    change s.table.size ≤ (s.table.contextResize _).size at hlast
    rw [FdTable.size_contextResize] at hlast
    exact hlast
  | find fd =>
    simp only [step, Option.ite_none_right_eq_some, Option.some.injEq] at hstep
    obtain ⟨-, rfl⟩ := hstep
    obtain ⟨hlookups, -, hsame⟩ := List.pairwise_append.mp hP.2
    refine ⟨⟨(List.pairwise_append.mp hP.1).1, hlookups⟩, ?_⟩
    by_cases hsmall : s.table.size < 2 ^ 31
    · exact Or.inl hsmall
    · -- the test compares with a negative number, so the call finds nothing
      have hneg := FdTable.intSize_neg (t := s.table) (by omega) h.small
      right
      rintro ⟨l₀, hl₀, hadd, hsome, hfd⟩
      have heq := hsame l₀ hl₀ _ (List.mem_singleton.mpr rfl) hadd hsome hfd.symm
      rw [if_pos (by omega)] at heq
      rw [← heq] at hsome
      exact absurd hsome (by simp)

/-- Nothing has been looked up at first. -/
theorem inv_new : new.Inv where
  stable := ⟨List.pairwise_singleton _ _, List.Pairwise.nil⟩
  sizes := fun n hn => by
    rw [List.mem_singleton.mp hn]
    exact Nat.le_refl _
  kept := fun l hl => absurd hl (by simp [new])

/-- **Stability of the contexts, exactly.** In an interleaving of calls on any descriptors,
    the size of the table never decreases and, once an `addEvent` has obtained the context
    of a descriptor, every later call on the descriptor finds the same context, exactly when
    every step meets the condition. -/
theorem fd_contexts_stable_iff (as : List TableAction) (s : TableRun)
    (hrun : runFrom step new as = some s) :
    (s.sizes.Pairwise (· ≤ ·) ∧
      s.lookups.Pairwise
        (fun l l' => l.isAdd → l.context.isSome → l'.fd = l.fd → l'.context = l.context)) ↔
    Along step Grows new as := by
  constructor
  · intro hP
    exact (along_of_run (I := Reached) (P := Stable) (fun _ _ _ => step_reached)
      (fun _ _ _ => grows_of_stable) reached_new hrun hP).2
  · intro hC
    exact (run_invariant (I := Inv) (fun _ _ _ => step_inv) inv_new hC hrun).stable

/-- An `addEvent` beyond the table, and a `delEvent` of the same descriptor. -/
theorem fd_contexts_stable_iff_one_resize :
    Along step Grows new [.addTest 40, .addResize 40, .find 40] := by
  refine (fd_contexts_stable_iff _ _ rfl).mp ⟨?_, ?_⟩
  · decide
  · decide

/-- Two threads find the table too small, for the descriptors 50 and 33.  The first resizes
    it to 75 and obtains a context; the second resizes it to 49, and the context is lost. -/
theorem second_resize_shrinks_table :
    ¬ ∀ (as : List TableAction) (s : TableRun), runFrom step new as = some s →
      s.sizes.Pairwise (· ≤ ·) ∧
      s.lookups.Pairwise
        (fun l l' => l.isAdd → l.context.isSome → l'.fd = l.fd → l'.context = l.context) := by
  intro h
  have hsizes := (h [.addTest 50, .addTest 33, .addResize 50, .addResize 33, .find 50] _ rfl).1
  exact absurd hsizes (by decide)

end TableRun

end LoNetfw.Scheduler
