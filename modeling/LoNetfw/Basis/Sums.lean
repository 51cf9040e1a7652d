import Mathlib.Algebra.BigOperators.Group.Finset.Basic
import Mathlib.Logic.Function.Basic

namespace Basis

/-!
# Sums over a numbered family

A store of numbered objects is a function and the number of objects created.  What is
counted over all objects is a sum over the first numbers, in any commutative monoid: of
numbers, or of multisets.

* `sum_range_update`, `sum_range_congr_except` — one object is replaced;
* `sum_range_extend` — one object is created.
-/

/-- A sum over the first `n` values of a function after one of them is replaced. -/
theorem sum_range_update {M β : Type*} [AddCommMonoid M] (f : ℕ → β) (g : β → M) {n c : ℕ}
    (hc : c < n) (v : β) :
    ∑ i ∈ Finset.range n, g (Function.update f c v i) + g (f c) =
      ∑ i ∈ Finset.range n, g (f i) + g v := by
  have hmem := Finset.mem_range.mpr hc
  have hrest : ∑ i ∈ (Finset.range n).erase c, g (Function.update f c v i) =
      ∑ i ∈ (Finset.range n).erase c, g (f i) :=
    Finset.sum_congr rfl (fun i hi => by
      rw [Function.update_of_ne (Finset.ne_of_mem_erase hi)])
  rw [← Finset.add_sum_erase _ _ hmem, ← Finset.add_sum_erase _ (fun i => g (f i)) hmem, hrest,
    Function.update_self, add_right_comm, add_comm (g v), add_right_comm]

/-- Two families that agree but for one number. -/
theorem sum_range_congr_except {M : Type*} [AddCommMonoid M] {f g : ℕ → M} {n c : ℕ} (hc : c < n)
    (h : ∀ i, i ≠ c → g i = f i) :
    ∑ i ∈ Finset.range n, g i + f c = ∑ i ∈ Finset.range n, f i + g c := by
  have hg : g = Function.update f c (g c) := by
    funext i
    by_cases hi : i = c
    · rw [hi, Function.update_self]
    · rw [Function.update_of_ne hi, h i hi]
  rw [hg, Function.update_self]
  exact sum_range_update f id hc (g c)

/-- A sum over the first `n` values of a function and one more. -/
theorem sum_range_extend {M β : Type*} [AddCommMonoid M] (f : ℕ → β) (g : β → M) (n : ℕ) (v : β) :
    ∑ i ∈ Finset.range (n + 1), g (Function.update f n v i) = ∑ i ∈ Finset.range n, g (f i) + g v := by
  rw [Finset.sum_range_succ, Function.update_self]
  congr 1
  apply Finset.sum_congr rfl
  intro i hi
  rw [Function.update_of_ne (Nat.ne_of_lt (Finset.mem_range.mp hi))]

end Basis
