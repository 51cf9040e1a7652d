import Mathlib.Data.List.TakeWhile
import Mathlib.Order.Lattice

namespace Basis

/-!
# Multimaps — lists sorted by a key

A multimap of a C++ library keeps elements with equal keys in the order in which they were
inserted.

* `Multimap.insert` — insertion behind the elements with the same key;
* `Multimap.equalRange` — the elements between the lower and the upper bound of a key;
* `equalRange_insert` — insertion adds an element at the end of its range, and changes no other.
-/

variable {α κ : Type*} [LinearOrder κ]

/-- A list sorted by `key`. -/
structure Multimap (key : α → κ) where
  items : List α
  sorted : items.Pairwise fun x y => key x ≤ key y

namespace Multimap

variable (key : α → κ)

/-- Insertion at the upper bound of the element's key. -/
def insertItem (x : α) : List α → List α
  | [] => [x]
  | y :: ys => if key x < key y then x :: y :: ys else y :: insertItem x ys

variable {key}

/-- Insertion adds the one item. -/
theorem mem_insertItem {x z : α} {l : List α} (h : z ∈ insertItem key x l) : z = x ∨ z ∈ l := by
  induction l with
  | nil => exact Or.inl (List.mem_singleton.mp h)
  | cons y ys ih =>
    unfold insertItem at h
    split at h
    · exact List.mem_cons.mp h
    · rcases List.mem_cons.mp h with rfl | h
      · exact Or.inr List.mem_cons_self
      · exact (ih h).imp_right (List.mem_cons_of_mem y)

/-- Insertion keeps the order of the keys. -/
theorem insertItem_sorted (x : α) {l : List α} (h : l.Pairwise fun x y => key x ≤ key y) :
    (insertItem key x l).Pairwise fun x y => key x ≤ key y := by
  induction l with
  | nil => exact List.pairwise_singleton _ x
  | cons y ys ih =>
    obtain ⟨hy, hys⟩ := List.pairwise_cons.mp h
    unfold insertItem
    split
    · next hlt =>
      refine List.pairwise_cons.mpr ⟨fun z hz => ?_, h⟩
      rcases List.mem_cons.mp hz with rfl | hz
      · exact hlt.le
      · exact hlt.le.trans (hy z hz)
    -- equal keys stay in the order they came
    · next hge =>
      refine List.pairwise_cons.mpr ⟨fun z hz => ?_, ih hys⟩
      rcases mem_insertItem hz with rfl | hz
      · exact not_lt.mp hge
      · exact hy z hz

/-- `insert`. -/
def insert (x : α) (m : Multimap key) : Multimap key :=
  ⟨insertItem key x m.items, insertItem_sorted x m.sorted⟩

def empty : Multimap key := ⟨[], List.Pairwise.nil⟩

/-- `equal_range`: from the lower bound of the key to the upper bound. -/
def equalRange (k : κ) (m : Multimap key) : List α :=
  (m.items.dropWhile fun x => key x < k).takeWhile fun x => ¬ k < key x

/-- The range of a key is what has that key. -/
theorem equalRange_eq_filter (k : κ) (m : Multimap key) :
    m.equalRange k = m.items.filter fun x => key x = k := by
  obtain ⟨l, hl⟩ := m
  unfold equalRange
  dsimp only
  induction l with
  | nil => rfl
  | cons x xs ih =>
    obtain ⟨hx, hxs⟩ := List.pairwise_cons.mp hl
    by_cases hlt : key x < k
    · rw [List.dropWhile_cons, if_pos (decide_eq_true hlt), ih hxs,
        List.filter_cons_of_neg (by simpa using hlt.ne)]
    · rw [List.dropWhile_cons_of_neg (by simpa using hlt)]
      by_cases heq : key x = k
      · -- nothing behind is below the key any more
        have hdrop : xs.dropWhile (fun y => key y < k) = xs := by
          cases xs with
          | nil => rfl
          | cons y ys =>
            apply List.dropWhile_cons_of_neg
            have := hx y List.mem_cons_self
            simpa [← heq] using this
        have ih' := ih hxs
        rw [hdrop] at ih'
        rw [List.takeWhile_cons_of_pos (by simp [heq]), ih', List.filter_cons,
          if_pos (decide_eq_true heq)]
      -- the first key is above, and so are all others
      · have hgt : k < key x := lt_of_le_of_ne (not_lt.mp hlt) (Ne.symm heq)
        have hnone : ∀ y ∈ x :: xs, ¬ decide (key y = k) = true := by
          intro y hy hyk
          have hyk := of_decide_eq_true hyk
          rcases List.mem_cons.mp hy with rfl | hy
          · exact heq hyk
          · exact absurd (hx y hy) (not_le.mpr (hyk ▸ hgt))
        rw [List.takeWhile_cons_of_neg (by simpa using hgt), List.filter_eq_nil_iff.mpr hnone]

/-- An element is added at the end of those with its key. -/
theorem filter_insertItem (x : α) (k : κ) {l : List α} (h : l.Pairwise fun x y => key x ≤ key y) :
    (insertItem key x l).filter (fun y => key y = k) =
      l.filter (fun y => key y = k) ++ [x].filter fun y => key y = k := by
  induction l with
  | nil => rfl
  | cons y ys ih =>
    obtain ⟨hy, hys⟩ := List.pairwise_cons.mp h
    unfold insertItem
    split
    -- the item goes before the first larger key, so nothing of its key is behind it
    · next hlt =>
      by_cases hk : key x = k
      · have hnone : (y :: ys).filter (fun z => key z = k) = [] := by
          rw [List.filter_eq_nil_iff]
          intro z hz hzk
          have hzk := of_decide_eq_true hzk
          rcases List.mem_cons.mp hz with rfl | hz
          · exact absurd (hk.trans hzk.symm) hlt.ne
          · exact absurd (hlt.trans_le (hy z hz)) (by rw [hk, hzk]; exact lt_irrefl k)
        rw [List.filter_cons, hnone, List.nil_append, List.filter_cons, List.filter_nil]
      · have hneg : ¬ decide (key x = k) = true := fun h => hk (of_decide_eq_true h)
        have hone : [x].filter (fun y => key y = k) = [] := by
          rw [List.filter_cons, if_neg hneg, List.filter_nil]
        rw [List.filter_cons, if_neg hneg, hone, List.append_nil]
    · have ih' := ih hys
      generalize (fun y => decide (key y = k)) = p at ih' ⊢
      by_cases hp : p y = true
      · rw [List.filter_cons_of_pos hp, List.filter_cons_of_pos hp, ih', List.cons_append]
      · rw [List.filter_cons_of_neg hp, List.filter_cons_of_neg hp, ih']

/-- **Step.** Insertion adds an element at the end of its range. -/
theorem equalRange_insert (x : α) (k : κ) (m : Multimap key) :
    (m.insert x).equalRange k = m.equalRange k ++ [x].filter fun y => key y = k := by
  rw [equalRange_eq_filter, equalRange_eq_filter]
  exact filter_insertItem x k m.sorted

end Multimap

end Basis
