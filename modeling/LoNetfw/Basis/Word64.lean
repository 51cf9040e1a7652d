import Mathlib.Algebra.Ring.Nat

namespace Basis

/-!
# Unsigned 64-bit arithmetic on natural numbers

A `size_t` or `uint64_t` is a natural number below `2 ^ 64`; only the operations that can
leave that range need a definition of their own.
-/

/-- Subtraction: wraps below zero. -/
def wsub (a b : ℕ) : ℕ := if b ≤ a then a - b else 2 ^ 64 + a - b

/-- Addition: wraps at `2 ^ 64`. -/
def wadd (a b : ℕ) : ℕ := (a + b) % 2 ^ 64

/-- Without a borrow the subtraction is the usual one. -/
theorem wsub_of_le {a b : ℕ} (h : b ≤ a) : wsub a b = a - b := if_pos h

/-- With a borrow it wraps. -/
theorem wsub_of_lt {a b : ℕ} (h : a < b) : wsub a b = 2 ^ 64 + a - b :=
  if_neg (Nat.not_le_of_lt h)

/-- A sum is the integer sum exactly when it fits. -/
theorem wadd_eq_add_iff {a b : ℕ} : wadd a b = a + b ↔ a + b < 2 ^ 64 :=
  Nat.mod_eq_iff_lt (by decide)

/-- Subtraction takes an addition back, also one that wrapped. -/
theorem wsub_wadd {a b : ℕ} (ha : a < 2 ^ 64) (hb : b < 2 ^ 64) : wsub (wadd a b) b = a := by
  unfold wsub wadd
  split <;> omega

end Basis
