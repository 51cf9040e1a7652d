import LoNetfw.Basis.PrefixMask
import Mathlib.Algebra.BigOperators.Fin
import Mathlib.Data.Nat.Factorization.Basic

namespace Basis

/-!
# The bits that are set

`ones x` is the set of places of the bits of `x`.

* `ones_and_pred` — `x & (x - 1)` drops one place, the lowest;
* `card_ones_prefixMask` — a prefix mask has as many places as its prefix is long;
* `card_ones_eq_sum` — the places of a word are counted byte by byte.
-/

variable {w : ℕ}

/-- The places of the bits that are set. -/
def ones (x : BitVec w) : Finset ℕ := {i ∈ Finset.range w | x.getLsbD i = true}

/-- The members of `ones` are the positions of the set bits. -/
theorem mem_ones {x : BitVec w} {i : ℕ} : i ∈ ones x ↔ x.getLsbD i = true := by
  unfold ones
  rw [Finset.mem_filter, Finset.mem_range]
  exact ⟨fun h => h.2, fun h => ⟨BitVec.lt_of_getLsbD h, h⟩⟩

/-- Zero has no bit set. -/
theorem ones_zero : ones (0 : BitVec w) = ∅ := by
  apply Finset.eq_empty_of_forall_notMem
  intro i hi
  exact absurd (mem_ones.mp hi) (by simp)

/-! ### The lowest bit -/

/-- `n & (n - 1)` has the bits of `n` but the lowest. -/
theorem testBit_and_pred {n : ℕ} (hn : n ≠ 0) : ∃ k, n.testBit k = true ∧
    ∀ i, (n &&& (n - 1)).testBit i = (n.testBit i && decide (i ≠ k)) := by
  obtain ⟨k, m, ⟨q, rfl⟩, rfl⟩ := Nat.exists_eq_two_pow_mul_odd hn
  have hpos := Nat.two_pow_pos k
  -- below the lowest bit there are ones in the predecessor, and above it the two agree
  have hpred : 2 ^ k * (2 * q + 1) - 1 = 2 ^ k * (2 * q) + (2 ^ k - 1) := by
    rw [Nat.mul_succ]
    omega
  have hbit : ∀ i, (2 ^ k * (2 * q + 1)).testBit i =
      (decide (k ≤ i) && (2 * q + 1).testBit (i - k)) := fun i => Nat.testBit_two_pow_mul
  have hbitPred : ∀ i, (2 ^ k * (2 * q + 1) - 1).testBit i =
      if i < k then (2 ^ k - 1).testBit i else (2 * q).testBit (i - k) := by
    intro i
    rw [hpred]
    exact Nat.testBit_two_pow_mul_add (2 * q) (by omega) i
  refine ⟨k, ?_, fun i => ?_⟩
  · rw [hbit, Nat.sub_self, decide_eq_true le_rfl, Bool.true_and, Nat.testBit_zero]
    simp
  · rw [Nat.testBit_and, hbitPred, hbit]
    rcases Nat.lt_trichotomy i k with hlt | rfl | hgt
    · rw [decide_eq_false (Nat.not_le.mpr hlt)]
      rfl
    · rw [if_neg (Nat.lt_irrefl i), Nat.sub_self, Nat.testBit_zero, Nat.testBit_zero]
      simp
    · obtain ⟨j, hj⟩ := Nat.exists_eq_add_of_lt hgt
      have hsub : i - k = j + 1 := by omega
      rw [if_neg (Nat.not_lt.mpr hgt.le), hsub, Nat.testBit_succ, Nat.testBit_succ,
        Nat.mul_add_div (by decide), Nat.mul_div_cancel_left q (by decide)]
      simp [hgt.ne', hgt.le]

/-- A word that is not zero does not wrap when one is taken away. -/
theorem toNat_sub_one {x : BitVec w} (h : x ≠ 0) : (x - 1).toNat = x.toNat - 1 := by
  have hpos : 0 < x.toNat := Nat.pos_of_ne_zero fun h0 => h (BitVec.eq_of_toNat_eq h0)
  have hw : w ≠ 0 := by
    rintro rfl
    exact h (BitVec.eq_of_toNat_eq (by omega))
  have hone : (1 : BitVec w).toNat = 1 := BitVec.toNat_one (Nat.pos_of_ne_zero hw)
  rw [BitVec.toNat_sub_of_le, hone]
  rw [BitVec.le_def, hone]
  exact hpos

/-- Clearing the lowest bit drops one place. -/
theorem ones_and_pred {x : BitVec w} (h : x ≠ 0) :
    ∃ k ∈ ones x, ones (x &&& (x - 1)) = (ones x).erase k := by
  have hn : x.toNat ≠ 0 := fun h0 => h (BitVec.eq_of_toNat_eq h0)
  obtain ⟨k, hk, hbits⟩ := testBit_and_pred hn
  refine ⟨k, mem_ones.mpr hk, ?_⟩
  ext i
  have hbit : (x &&& (x - 1)).getLsbD i = (x.toNat &&& (x.toNat - 1)).testBit i := by
    rw [← toNat_sub_one h, ← BitVec.toNat_and]
    rfl
  rw [Finset.mem_erase, mem_ones, mem_ones, hbit, hbits, Bool.and_eq_true, decide_eq_true_eq]
  exact and_comm

/-- Clearing the lowest set bit makes a word smaller. -/
theorem and_pred_lt {x : BitVec w} (h : x ≠ 0) : (x &&& (x - 1)).toNat < x.toNat := by
  have hpos : 0 < x.toNat := Nat.pos_of_ne_zero fun h0 => h (BitVec.eq_of_toNat_eq h0)
  rw [BitVec.toNat_and, toNat_sub_one h]
  have : x.toNat &&& (x.toNat - 1) ≤ x.toNat - 1 := Nat.and_le_right
  omega

/-! ### Counting -/

/-- A prefix mask has as many places as its prefix is long. -/
theorem card_ones_prefixMask {p : ℕ} (h : p ≤ w) : (ones (prefixMask w p)).card = p := by
  have heq : ones (prefixMask w p) = Finset.Ico (w - p) w := by
    ext i
    unfold ones
    rw [Finset.mem_filter, Finset.mem_range, Finset.mem_Ico]
    constructor
    · rintro ⟨hi, hbit⟩
      rw [getLsbD_prefixMask hi] at hbit
      exact ⟨of_decide_eq_true hbit, hi⟩
    · rintro ⟨hle, hi⟩
      rw [getLsbD_prefixMask hi]
      exact ⟨hi, decide_eq_true hle⟩
  rw [heq, Nat.card_Ico]
  omega

/-- The places of a word of `n` bytes are counted byte by byte. -/
theorem card_ones_eq_sum {n : ℕ} {x : BitVec (8 * n)} {byte : Fin n → BitVec 8}
    (h : ∀ (j : Fin n) (k : ℕ), k < 8 → (byte j).getLsbD k = x.getLsbD (8 * j + k)) :
    (ones x).card = ∑ j, (ones (byte j)).card := by
  have hlt : ∀ i ∈ ones x, i / 8 ∈ Finset.range n := by
    intro i hi
    have := BitVec.lt_of_getLsbD (mem_ones.mp hi)
    rw [Finset.mem_range]
    omega
  -- the places of a byte are those of the word with the same quotient
  have hbyte : ∀ j : Fin n, {i ∈ ones x | i / 8 = (j : ℕ)}.card = (ones (byte j)).card := by
    intro j
    symm
    apply Finset.card_bij fun k _ => 8 * (j : ℕ) + k
    · intro k hk
      have hk8 := BitVec.lt_of_getLsbD (mem_ones.mp hk)
      rw [Finset.mem_filter, mem_ones, ← h j k hk8]
      exact ⟨mem_ones.mp hk, by omega⟩
    · intro k _ k' _ heq
      exact Nat.add_left_cancel heq
    · intro i hi
      obtain ⟨hi, hdiv⟩ := Finset.mem_filter.mp hi
      have hsum : 8 * (j : ℕ) + i % 8 = i := by omega
      refine ⟨i % 8, ?_, hsum⟩
      rw [mem_ones, h j _ (Nat.mod_lt i (by decide)), hsum]
      exact mem_ones.mp hi
  rw [Finset.card_eq_sum_card_fiberwise hlt, ← Fin.sum_univ_eq_sum_range
    fun j => {i ∈ ones x | i / 8 = j}.card]
  exact Finset.sum_congr rfl fun j _ => hbyte j

end Basis
