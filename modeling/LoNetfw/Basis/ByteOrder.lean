import LoNetfw.Basis.Bytes
import Mathlib.Data.List.Lex

namespace Basis

/-!
# The order of byte strings

* `memcmp` — the comparison of two ranges of `n` bytes;
* `memcmp_lt_iff`, `memcmp_eq_iff` — with the lengths it decides the lexicographic order and
  equality;
* `lt_append_iff` — strings are ordered by their first parts of one length, then by the rest;
* `lt_iff_ofLE` — the big-endian bytes of numbers are ordered as the numbers are.
-/

/-- The sign of `memcmp(a, b, n)`. -/
def memcmp : ℕ → List UInt8 → List UInt8 → Ordering
  | n + 1, a :: as, b :: bs =>
    if a < b then .lt else if b < a then .gt else memcmp n as bs
  | _, _, _ => .eq

/-- The bytes as numbers, for the lexicographic order. -/
def byteKey (w : List UInt8) : List ℕ := w.map UInt8.toNat

/-- Two bytes are comparable. -/
theorem lt_trichotomy_byte (a b : UInt8) : a < b ∨ a = b ∨ b < a := by
  rw [UInt8.lt_iff_toNat_lt, UInt8.lt_iff_toNat_lt, ← UInt8.toNat_inj]
  exact Nat.lt_trichotomy a.toNat b.toNat

/-- The order of two words is that of their first bytes, or of the rests behind equal ones. -/
theorem byteKey_cons_lt_iff {a b : UInt8} {u v : List UInt8} :
    byteKey (a :: u) < byteKey (b :: v) ↔ a < b ∨ a = b ∧ byteKey u < byteKey v := by
  unfold byteKey
  rw [List.map_cons, List.map_cons, List.cons_lt_cons_iff, UInt8.lt_iff_toNat_lt,
    UInt8.toNat_inj]

/-- The key determines the word. -/
theorem byteKey_inj {u v : List UInt8} : byteKey u = byteKey v ↔ u = v := by
  constructor
  · exact fun h => List.map_injective_iff.mpr (fun _ _ => UInt8.toNat_inj.mp) h
  · exact congrArg byteKey

/-! ### Ranges -/

/-- `memcmp` looks at no byte behind its length. -/
theorem memcmp_take {n i j : ℕ} (hi : n ≤ i) (hj : n ≤ j) (u v : List UInt8) :
    memcmp n (u.take i) (v.take j) = memcmp n u v := by
  induction n generalizing i j u v with
  | zero => simp [memcmp]
  | succ n ih =>
    obtain ⟨i, rfl⟩ := Nat.exists_eq_add_of_le' hi
    obtain ⟨j, rfl⟩ := Nat.exists_eq_add_of_le' hj
    cases u with
    | nil => simp [memcmp]
    | cons a u =>
      cases v with
      | nil => simp [memcmp]
      | cons b v =>
        rw [← Nat.add_assoc, ← Nat.add_assoc, List.take_succ_cons, List.take_succ_cons, memcmp,
          memcmp, ih (Nat.le_add_left n i) (Nat.le_add_left n j)]

/-- The common length first, then the lengths: the lexicographic order. -/
theorem memcmp_lt_iff (u v : List UInt8) :
    memcmp (min u.length v.length) u v = .lt ∨
        memcmp (min u.length v.length) u v = .eq ∧ u.length < v.length ↔
      byteKey u < byteKey v := by
  induction u generalizing v with
  | nil => cases v <;> simp [memcmp, byteKey]
  | cons a u ih =>
    cases v with
    | nil => simp [memcmp, byteKey]
    | cons b v =>
      rw [List.length_cons, List.length_cons, Nat.succ_min_succ, memcmp, byteKey_cons_lt_iff,
        ← ih v, Nat.succ_lt_succ_iff]
      rcases lt_trichotomy_byte a b with hlt | rfl | hgt
      · simp [hlt]
      · simp
      · simp [hgt, UInt8.lt_asymm hgt, (UInt8.ne_of_lt hgt).symm]

/-- On words of its length `memcmp` finds equality. -/
theorem memcmp_eq_iff {u v : List UInt8} (h : u.length = v.length) :
    memcmp u.length u v = .eq ↔ u = v := by
  induction u generalizing v with
  | nil =>
    rw [List.length_eq_zero_iff.mp h.symm]
    exact iff_of_true rfl rfl
  | cons a u ih =>
    cases v with
    | nil => exact absurd h (by simp)
    | cons b v =>
      have htail := ih (Nat.succ.inj h)
      rw [List.length_cons, memcmp, List.cons.injEq]
      rcases lt_trichotomy_byte a b with hlt | rfl | hgt
      · simp [hlt, UInt8.ne_of_lt hlt]
      · simp [htail]
      · simp [hgt, UInt8.lt_asymm hgt, (UInt8.ne_of_lt hgt).symm]

/-! ### Parts and numbers -/

/-- Strings are ordered by their first parts, if these have one length, then by the rest. -/
theorem lt_append_iff {u v : List UInt8} (h : u.length = v.length) (x y : List UInt8) :
    byteKey (u ++ x) < byteKey (v ++ y) ↔
      byteKey u < byteKey v ∨ u = v ∧ byteKey x < byteKey y := by
  induction u generalizing v with
  | nil =>
    rw [List.length_eq_zero_iff.mp h.symm]
    simp [byteKey]
  | cons a u ih =>
    cases v with
    | nil => exact absurd h (by simp)
    | cons b v =>
      rw [List.cons_append, List.cons_append, byteKey_cons_lt_iff, byteKey_cons_lt_iff,
        ih (Nat.succ.inj h), List.cons.injEq]
      tauto

/-- Big-endian bytes are ordered as the numbers are. -/
theorem lt_iff_ofLE {u v : List UInt8} (h : u.length = v.length) :
    byteKey u < byteKey v ↔ ofLE u.reverse < ofLE v.reverse := by
  -- a byte added at the high end
  have happ : ∀ (a : UInt8) (w : List UInt8),
      ofLE (w ++ [a]) = ofLE w + 256 ^ w.length * a.toNat := by
    intro a w
    induction w with
    | nil => simp [ofLE]
    | cons b w ih =>
      rw [List.cons_append, ofLE, ofLE, ih, List.length_cons, pow_succ]
      ring
  -- from the first byte on, the one that weighs the most
  induction u generalizing v with
  | nil =>
    rw [List.length_eq_zero_iff.mp h.symm]
    simp [byteKey]
  | cons a u ih =>
    cases v with
    | nil => exact absurd h (by simp)
    | cons b v =>
      have htail : u.length = v.length := Nat.succ.inj h
      have hu := ofLE_lt u.reverse
      have hv := ofLE_lt v.reverse
      rw [List.length_reverse] at hu hv
      refine (byteKey_cons_lt_iff.trans
        (or_congr_right (and_congr_right fun _ => ih htail))).trans ?_
      rw [List.reverse_cons, List.reverse_cons, happ, happ, List.length_reverse,
        List.length_reverse, UInt8.lt_iff_toNat_lt, ← UInt8.toNat_inj]
      rw [htail] at hu ⊢
      rcases Nat.lt_trichotomy a.toNat b.toNat with hlt | heq | hgt
      · -- the first byte weighs more than all others together
        have hmul := Nat.mul_le_mul_left (256 ^ v.length) (Nat.succ_le_of_lt hlt)
        rw [Nat.mul_succ] at hmul
        exact iff_of_true (Or.inl hlt) (by omega)
      · rw [heq]
        omega
      · have hmul := Nat.mul_le_mul_left (256 ^ v.length) (Nat.succ_le_of_lt hgt)
        rw [Nat.mul_succ] at hmul
        exact iff_of_false (by omega) (by omega)

end Basis
