import Mathlib.Data.Nat.Bitwise
import Mathlib.Data.BitVec

namespace Basis

/-!
# Prefix masks — the words of a subnet

The words of width `w` whose `p` highest bits agree form a subnet; the mask of those bits picks
the part they share, and its complement the part in which they differ.

* `prefixMask`, `getLsbD_prefixMask` — the mask, and its bits;
* `not_prefixMask` — the complement as a number;
* `and_le_self`, `self_le_or` — a subnet lies between its first and its last word;
* `and_not_eq_and_iff` — the two parts of a word agree only if it is zero.
-/

/-- The word of width `w` whose `p` highest bits are set. -/
def prefixMask (w p : ℕ) : BitVec w := BitVec.allOnes w <<< (w - p)

variable {w p : ℕ}

/-- The bits of the mask are the upper `p`. -/
theorem getLsbD_prefixMask {i : ℕ} (hi : i < w) :
    (prefixMask w p).getLsbD i = decide (w - p ≤ i) := by
  unfold prefixMask
  rw [BitVec.getLsbD_shiftLeft, BitVec.getLsbD_allOnes, decide_eq_true hi, Bool.true_and]
  by_cases hip : i < w - p
  · rw [decide_eq_true hip, decide_eq_false (Nat.not_le_of_lt hip)]
    rfl
  · rw [decide_eq_false hip, decide_eq_true (Nat.le_of_not_lt hip), decide_eq_true (by omega)]
    rfl

/-- The complement is one below a power of two. -/
theorem not_prefixMask (w p : ℕ) : ~~~prefixMask w p = BitVec.ofNat w (2 ^ (w - p) - 1) := by
  apply BitVec.eq_of_getLsbD_eq
  intro i hi
  rw [BitVec.getLsbD_not, getLsbD_prefixMask hi, BitVec.getLsbD_ofNat,
    Nat.testBit_two_pow_sub_one, ← decide_not]
  congr 2
  exact propext Nat.not_le

/-- A prefix of the full length is all ones. -/
@[simp] theorem prefixMask_self (w : ℕ) : prefixMask w w = BitVec.allOnes w := by
  unfold prefixMask
  rw [Nat.sub_self, BitVec.shiftLeft_zero]

/-- The lowest bit is not in a mask that leaves a bit out. -/
theorem one_and_prefixMask (h : p < w) : 1#w &&& prefixMask w p = 0#w := by
  apply BitVec.eq_of_getLsbD_eq
  intro i hi
  rw [BitVec.getLsbD_and, getLsbD_prefixMask hi, BitVec.getLsbD_one, BitVec.getLsbD_zero]
  by_cases hzero : i = 0
  · rw [decide_eq_false (by omega : ¬ w - p ≤ i), Bool.and_false]
  · simp [hzero]

/-- The masked part of a word is not above it. -/
theorem and_le_self (a m : BitVec w) : a &&& m ≤ a := by
  rw [BitVec.le_def, BitVec.toNat_and]
  exact Nat.and_le_left

/-- A word is not above what sets more bits of it. -/
theorem self_le_or (a m : BitVec w) : a ≤ a ||| m := by
  rw [BitVec.le_def, BitVec.toNat_or]
  exact Nat.left_le_or

/-- A word without bits in a mask has all of them outside of it. -/
theorem and_not_of_and_eq_zero {a m : BitVec w} (h : a &&& m = 0#w) : a &&& ~~~m = a := by
  ext i hi
  have hbit := congrArg (fun x : BitVec w => x[i]) h
  simp only [BitVec.getElem_and, BitVec.getElem_zero] at hbit
  simp only [BitVec.getElem_and, BitVec.getElem_not]
  revert hbit
  cases a[i] <;> cases m[i] <;> simp

/-- The parts of a word inside and outside of a mask have no bit in common. -/
theorem and_not_eq_and_iff {a m : BitVec w} : a &&& ~~~m = a &&& m ↔ a = 0#w := by
  constructor
  · intro h
    ext i hi
    have hbit := congrArg (fun x : BitVec w => x[i]) h
    simp only [BitVec.getElem_not, BitVec.getElem_and] at hbit
    rw [BitVec.getElem_zero]
    revert hbit
    cases a[i] <;> cases m[i] <;> simp
  · rintro rfl
    rw [BitVec.zero_and, BitVec.zero_and]

end Basis
