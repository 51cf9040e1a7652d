import Mathlib.Data.List.Basic
import Mathlib.Order.Lattice

namespace Basis

/-!
# Ordered sets — a sorted list under a comparator

An ordered set of a C++ library is a sequence without equivalent elements, sorted by a
comparator `lt`; a search compares with `lt` only.  Where the keys live outside the set and
can change, the comparator is a parameter of each operation, so that an operation under a
changed comparator can be stated.

* `setInsert`, `setFind` — insertion and search by the comparator;
* `setInsert_sorted` — insertion keeps the order;
* `mem_setInsert` — insertion of an element comparable with all others adds exactly that element;
* `setFind_of_mem` — a search for a member finds it;
* `SetSorted.of_mem_dropWhile`, `filter_of_append` — a property of lower members splits the set in
  two, and each part is what a filter keeps;
* `find?_setInsert` — a search by a property after an insertion;
* `foldl_setInsert` — filling an empty set with the members of a set in order gives that set;
* `keyLt`, `setFind_keyLt_eq_some`, `setFind_keyLt_eq_none` — sets ordered by a key: a search finds
  the member with the key of what is searched for.
-/

variable {α : Type*}

/-- `insert`: an element equivalent to one in the set is not added. -/
def setInsert (lt : α → α → Bool) (x : α) : List α → List α
  | [] => [x]
  | y :: ys =>
    if lt y x then y :: setInsert lt x ys
    else if lt x y then x :: y :: ys
    else y :: ys

/-- `find`: the element equivalent to `k`, or `none` for the end. -/
def setFind (lt : α → α → Bool) (k : α) : List α → Option α
  | [] => none
  | y :: ys => if lt y k then setFind lt k ys else if lt k y then none else some y

/-- The order of a set: every element is below all later ones. -/
def SetSorted (lt : α → α → Bool) (l : List α) : Prop := l.Pairwise (fun x y => lt x y = true)

variable {lt lt' : α → α → Bool} {x : α} {l : List α}

/-- Insertion adds the element, when nothing in the set is equivalent to it. -/
theorem mem_setInsert (hx : ∀ y ∈ l, lt y x = true ∨ lt x y = true) {z : α} :
    z ∈ setInsert lt x l ↔ z = x ∨ z ∈ l := by
  induction l with
  | nil => simp [setInsert]
  | cons y ys ih =>
    have ih' := ih (fun w hw => hx w (List.mem_cons_of_mem y hw))
    rw [setInsert]
    by_cases hyx : lt y x = true
    · rw [if_pos hyx, List.mem_cons, ih', List.mem_cons]
      tauto
    · have hxy : lt x y = true := (hx y (by simp)).resolve_left hyx
      rw [if_neg hyx, if_pos hxy, List.mem_cons]

/-- Insertion adds the one element at most. -/
theorem mem_of_mem_setInsert {z : α} (h : z ∈ setInsert lt x l) : z = x ∨ z ∈ l := by
  induction l with
  | nil => exact .inl (List.mem_singleton.mp h)
  | cons y ys ih =>
    rw [setInsert] at h
    split at h
    · rcases List.mem_cons.mp h with rfl | h
      · exact .inr List.mem_cons_self
      · exact (ih h).imp_right (List.mem_cons_of_mem y)
    · split at h
      · exact List.mem_cons.mp h
      · exact .inr h

/-- Insertion keeps the order. -/
theorem setInsert_sorted (htrans : ∀ a b c, lt a b = true → lt b c = true → lt a c = true)
    (hl : SetSorted lt l) (x : α) : SetSorted lt (setInsert lt x l) := by
  induction l with
  | nil => exact List.pairwise_singleton _ _
  | cons y ys ih =>
    obtain ⟨hy, hys⟩ := List.pairwise_cons.mp hl
    rw [setInsert]
    by_cases hyx : lt y x = true
    -- the head stays, and the element goes behind it
    · rw [if_pos hyx]
      refine List.pairwise_cons.mpr ⟨fun z hz => ?_, ih hys⟩
      rcases mem_of_mem_setInsert hz with rfl | hz
      · exact hyx
      · exact hy z hz
    · rw [if_neg hyx]
      by_cases hxy : lt x y = true
      · rw [if_pos hxy]
        refine List.pairwise_cons.mpr ⟨fun z hz => ?_, hl⟩
        rcases List.mem_cons.mp hz with rfl | hz
        · exact hxy
        · exact htrans x y z hxy (hy z hz)
      · -- an equivalent element is there already
        rw [if_neg hxy]
        exact hl

/-- A search for a member finds it. -/
theorem setFind_of_mem (hirr : ∀ a, lt a a = false) (hl : SetSorted lt l) (hx : x ∈ l) :
    setFind lt x l = some x := by
  induction l with
  | nil => exact absurd hx (by simp)
  | cons y ys ih =>
    obtain ⟨hy, hys⟩ := List.pairwise_cons.mp hl
    rw [setFind]
    rcases List.mem_cons.mp hx with rfl | hx
    · simp [hirr]
    · rw [if_pos (hy x hx), ih hys hx]

/-- A sorted set has no element twice. -/
theorem SetSorted.nodup (hirr : ∀ a, lt a a = false) (hl : SetSorted lt l) : l.Nodup :=
  hl.imp (fun {a b} hab heq => by
    subst heq
    rw [hirr a] at hab
    exact absurd hab (by decide))

/-- The order depends only on the comparisons of members. -/
theorem SetSorted.congr (hl : SetSorted lt l)
    (h : ∀ a ∈ l, ∀ b ∈ l, lt a b = true → lt' a b = true) : SetSorted lt' l :=
  List.Pairwise.imp_of_mem (fun ha hb hab => h _ ha _ hb hab) hl

/-- A property that passes from a member to the ones below it holds on a prefix of the set:
    nothing behind the first member without it has it. -/
theorem SetSorted.of_mem_dropWhile {p : α → Bool} (hl : SetSorted lt l)
    (hp : ∀ a ∈ l, ∀ b ∈ l, lt a b = true → p b = true → p a = true) (hx : x ∈ l.dropWhile p) :
    p x = false := by
  induction l with
  | nil => exact absurd hx List.not_mem_nil
  | cons y ys ih =>
    obtain ⟨hy, hys⟩ := List.pairwise_cons.mp hl
    by_cases hpy : p y = true
    · rw [List.dropWhile_cons_of_pos hpy] at hx
      apply ih hys _ hx
      intro a ha b hb
      exact hp a (List.mem_cons_of_mem y ha) b (List.mem_cons_of_mem y hb)
    · -- `y` is the first without the property, and below all that follow
      rw [List.dropWhile_cons_of_neg hpy] at hx
      rw [← Bool.not_eq_true]
      intro hpx
      rcases List.mem_cons.mp hx with rfl | hx
      · exact hpy hpx
      · exact hpy (hp y List.mem_cons_self x (List.mem_cons_of_mem y hx) (hy x hx) hpx)

/-- Where a property splits a list in two, each part is what its filter keeps. -/
theorem filter_of_append {p : α → Bool} {a b : List α} (ha : ∀ x ∈ a, p x = true)
    (hb : ∀ x ∈ b, p x = false) :
    (a ++ b).filter p = a ∧ ((a ++ b).filter fun x => !p x) = b := by
  have hnota : ∀ x ∈ a, ¬ (!p x) = true := by
    intro x hx
    simp [ha x hx]
  have hnotb : ∀ x ∈ b, ¬ p x = true := by
    intro x hx
    simp [hb x hx]
  rw [List.filter_append, List.filter_append]
  constructor
  · rw [List.filter_eq_self.mpr ha, List.filter_eq_nil_iff.mpr hnotb, List.append_nil]
  · rw [List.filter_eq_nil_iff.mpr hnota, List.filter_eq_self.mpr (fun x hx => by simp [hb x hx]),
      List.nil_append]

/-- An element above all others becomes the last. -/
theorem setInsert_of_forall_lt (h : ∀ y ∈ l, lt y x = true) : setInsert lt x l = l ++ [x] := by
  induction l with
  | nil => rfl
  | cons y ys ih =>
    rw [setInsert, if_pos (h y List.mem_cons_self), ih fun z hz => h z (List.mem_cons_of_mem y hz)]
    rfl

/-- Insertion leaves what else may be looked for. -/
theorem find?_setInsert_of_not {p : α → Bool} (hp : ¬ p x = true) :
    (setInsert lt x l).find? p = l.find? p := by
  induction l with
  | nil => exact List.find?_cons_of_neg hp
  | cons y ys ih =>
    rw [setInsert]
    split
    · rw [List.find?_cons, List.find?_cons, ih]
    · split
      · exact List.find?_cons_of_neg hp
      · rfl

/-- An element that is comparable with all others is found by a property that is its own. -/
theorem find?_setInsert {p : α → Bool} (hx : ∀ y ∈ l, lt y x = true ∨ lt x y = true)
    (hp : p x = true) (hl : ∀ y ∈ l, ¬ p y = true) : (setInsert lt x l).find? p = some x := by
  induction l with
  | nil => exact List.find?_cons_of_pos hp
  | cons y ys ih =>
    have hys := ih (fun z hz => hx z (List.mem_cons_of_mem y hz))
      fun z hz => hl z (List.mem_cons_of_mem y hz)
    rw [setInsert]
    split
    · rw [List.find?_cons_of_neg (hl y List.mem_cons_self), hys]
    · next hyx =>
      rw [if_pos ((hx y List.mem_cons_self).resolve_left hyx), List.find?_cons_of_pos hp]

/-- Nothing else gets into a set that is filled from a list. -/
theorem mem_of_mem_foldl_setInsert {s : List α} {z : α}
    (h : z ∈ l.foldl (fun s x => setInsert lt x s) s) : z ∈ s ∨ z ∈ l := by
  induction l generalizing s with
  | nil => exact .inl h
  | cons x xs ih =>
    rcases ih h with h | h
    · rcases mem_of_mem_setInsert h with rfl | h
      · exact .inr List.mem_cons_self
      · exact .inl h
    · exact .inr (List.mem_cons_of_mem x h)

/-- The members of a set, inserted one by one in their order, give the set. -/
theorem foldl_setInsert (hl : SetSorted lt l) : l.foldl (fun s x => setInsert lt x s) [] = l := by
  have haux : ∀ s, SetSorted lt (s ++ l) → l.foldl (fun s x => setInsert lt x s) s = s ++ l := by
    clear hl
    induction l with
    | nil => exact fun s _ => (List.append_nil s).symm
    | cons x xs ih =>
      intro s hs
      have hx : ∀ y ∈ s, lt y x = true :=
        fun y hy => (List.pairwise_append.mp hs).2.2 y hy x List.mem_cons_self
      rw [List.foldl_cons, setInsert_of_forall_lt hx, ih _ (by rwa [← List.append_cons]),
        ← List.append_cons]
  exact haux [] hl

/-! ### Sets ordered by a key -/

section Key

variable {κ : Type*} [LinearOrder κ] (key : α → κ)

/-- The comparator of a set whose elements are ordered by a key. -/
def keyLt (a b : α) : Bool := decide (key a < key b)

variable {key}

@[simp] theorem keyLt_iff {a b : α} : keyLt key a b = true ↔ key a < key b := decide_eq_true_iff

/-- An order by keys is transitive. -/
theorem keyLt_trans (a b c : α) (hab : keyLt key a b = true) (hbc : keyLt key b c = true) :
    keyLt key a c = true := by
  rw [keyLt_iff] at *
  exact lt_trans hab hbc

/-- `setFind` gives the element of the key. -/
theorem setFind_keyLt_eq_some {k y : α} (hl : SetSorted (keyLt key) l) :
    setFind (keyLt key) k l = some y ↔ y ∈ l ∧ key y = key k := by
  induction l with
  | nil => exact iff_of_false nofun fun h => absurd h.1 List.not_mem_nil
  | cons z zs ih =>
    obtain ⟨hz, hzs⟩ := List.pairwise_cons.mp hl
    rw [setFind, List.mem_cons]
    -- the search goes on below the key, and ends at it or above
    rcases lt_trichotomy (key z) (key k) with hlt | heq | hgt
    · rw [if_pos (keyLt_iff.mpr hlt), ih hzs]
      refine and_congr_left fun hy => (or_iff_right ?_).symm
      rintro rfl
      exact hlt.ne hy
    · have hzk : ¬ keyLt key z k = true := by rw [keyLt_iff, heq]; exact lt_irrefl _
      have hkz : ¬ keyLt key k z = true := by rw [keyLt_iff, heq]; exact lt_irrefl _
      rw [if_neg hzk, if_neg hkz, Option.some.injEq]
      constructor
      · rintro rfl
        exact ⟨.inl rfl, heq⟩
      · rintro ⟨rfl | hy, hk⟩
        · rfl
        · exact absurd (keyLt_iff.mp (hz y hy)) (by rw [heq, hk]; exact lt_irrefl _)
    · have hzk : ¬ keyLt key z k = true := by rw [keyLt_iff]; exact lt_asymm hgt
      rw [if_neg hzk, if_pos (keyLt_iff.mpr hgt)]
      refine iff_of_false nofun ?_
      rintro ⟨rfl | hy, hk⟩
      · exact hgt.ne hk.symm
      · have hky : key k < key y := hgt.trans (keyLt_iff.mp (hz y hy))
        exact hky.ne hk.symm

/-- `setFind` fails when no element has it. -/
theorem setFind_keyLt_eq_none {k : α} (hl : SetSorted (keyLt key) l) :
    setFind (keyLt key) k l = none ↔ ∀ y ∈ l, key y ≠ key k := by
  rw [Option.eq_none_iff_forall_ne_some]
  refine forall_congr' fun y => ?_
  rw [ne_eq, setFind_keyLt_eq_some hl, not_and]

end Key

end Basis
