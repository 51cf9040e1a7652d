import LoNetfw.Basis.Binary32
import Mathlib.Algebra.Order.Floor.Semifield

namespace Basis

/-!
# Bit patterns — their values, and patterns that are their own value

The rational value of a bit pattern of a binary interchange format, with `ebits` exponent bits and
`mbits` bits of significand below the leading one.

* `truncIeee_of_value` — the conversion to an unsigned integer truncates the value;
* `pattern_eq_zero`, `floor_eq_pattern_iff` — a pattern that, read as an integer, is its own
  truncated value is zero, unless one of a few linear equations has a solution.
-/

/-- The exponent field of the pattern `x`. -/
def fieldIeee (ebits mbits x : ℕ) : ℕ := x / 2 ^ mbits % 2 ^ ebits

/-- The significand; that of a subnormal number has no leading one. -/
def significandIeee (ebits mbits x : ℕ) : ℕ :=
  if fieldIeee ebits mbits x = 0 then x % 2 ^ mbits else 2 ^ mbits + x % 2 ^ mbits

/-- The exponent of the unit in the last place, as an offset of the exponent field. -/
def unitIeee (ebits mbits : ℕ) : ℕ := 2 ^ (ebits - 1) - 1 + mbits

/-- The absolute value of a finite pattern. -/
def magnitudeIeee (ebits mbits x : ℕ) : ℚ :=
  significandIeee ebits mbits x * 2 ^ (((max (fieldIeee ebits mbits x) 1 : ℕ) : ℤ) - unitIeee ebits mbits)

/-- The value of a pattern; infinities and NaNs have none. -/
def valueIeee (ebits mbits x : ℕ) : Option ℚ :=
  if fieldIeee ebits mbits x = 2 ^ ebits - 1 then none
  else if x / 2 ^ (mbits + ebits) % 2 = 1 then some (-magnitudeIeee ebits mbits x)
  else some (magnitudeIeee ebits mbits x)

variable {ebits mbits x : ℕ} {v : ℚ}

/-! ### Truncation -/

/-- A scaled integer, truncated. -/
theorem floor_mul_zpow (a e u : ℕ) :
    ⌊(a : ℚ) * 2 ^ ((e : ℤ) - u)⌋₊ = if u ≤ e then a * 2 ^ (e - u) else a / 2 ^ (u - e) := by
  split_ifs with hle
  · have hexp : (e : ℤ) - u = ((e - u : ℕ) : ℤ) := by omega
    rw [hexp, zpow_natCast]
    exact_mod_cast Nat.floor_natCast (R := ℚ) (a * 2 ^ (e - u))
  · have hexp : (e : ℤ) - u = -((u - e : ℕ) : ℤ) := by omega
    rw [hexp, zpow_neg, zpow_natCast, ← div_eq_mul_inv]
    exact_mod_cast Nat.floor_div_eq_div (K := ℚ) a (2 ^ (u - e))

/-- Truncation in terms of the magnitude: it fails on infinities, on what is no number, and below
    `-1`. -/
theorem truncIeee_eq (ebits mbits x : ℕ) :
    truncIeee ebits mbits x =
      if fieldIeee ebits mbits x = 2 ^ ebits - 1 then none
      else if x / 2 ^ (mbits + ebits) % 2 = 1 ∧ ⌊magnitudeIeee ebits mbits x⌋₊ ≠ 0 then none
      else some ⌊magnitudeIeee ebits mbits x⌋₊ := by
  rw [magnitudeIeee, floor_mul_zpow]
  rfl

/-- A magnitude has no sign. -/
theorem magnitudeIeee_nonneg (ebits mbits x : ℕ) : 0 ≤ magnitudeIeee ebits mbits x := by
  have hpow : (0 : ℚ) ≤ 2 ^ (((max (fieldIeee ebits mbits x) 1 : ℕ) : ℤ) - unitIeee ebits mbits) :=
    zpow_nonneg (by decide) _
  exact mul_nonneg (Nat.cast_nonneg _) hpow

/-- A non-negative value is the magnitude, also behind a minus sign. -/
theorem magnitude_of_value (h : valueIeee ebits mbits x = some v) (hv : 0 ≤ v) :
    fieldIeee ebits mbits x ≠ 2 ^ ebits - 1 ∧ magnitudeIeee ebits mbits x = v ∧
      (x / 2 ^ (mbits + ebits) % 2 = 1 → v = 0) := by
  rw [valueIeee] at h
  have hmag := magnitudeIeee_nonneg ebits mbits x
  split_ifs at h with hexp hsign
  · have hneg : -magnitudeIeee ebits mbits x = v := Option.some.inj h
    have hzero : v = 0 := by linarith
    exact ⟨hexp, by linarith, fun _ => hzero⟩
  · exact ⟨hexp, Option.some.inj h, fun hneg => absurd hneg hsign⟩

/-- **Truncation.**  A non-negative value is truncated. -/
theorem truncIeee_of_value (h : valueIeee ebits mbits x = some v) (hv : 0 ≤ v) :
    truncIeee ebits mbits x = some ⌊v⌋₊ := by
  obtain ⟨hexp, hmag, hneg⟩ := magnitude_of_value h hv
  have hsign : ¬ (x / 2 ^ (mbits + ebits) % 2 = 1 ∧ ⌊v⌋₊ ≠ 0) := by
    rintro ⟨hone, hne⟩
    rw [hneg hone, Nat.floor_zero] at hne
    exact hne rfl
  rw [truncIeee_eq, if_neg hexp, hmag, if_neg hsign]

/-- All bits zero. -/
theorem valueIeee_zero (hebits : 1 ≤ ebits) (mbits : ℕ) : valueIeee ebits mbits 0 = some 0 := by
  have hfield : fieldIeee ebits mbits 0 = 0 := by simp [fieldIeee]
  have hsig : significandIeee ebits mbits 0 = 0 := by simp [significandIeee, hfield]
  have hpow : 2 ^ 1 ≤ 2 ^ ebits := Nat.pow_le_pow_right (by decide) hebits
  rw [valueIeee, hfield, if_neg (by omega), Nat.zero_div, if_neg (by decide), magnitudeIeee, hsig,
    Nat.cast_zero, zero_mul]

/-! ### Patterns that are their own value -/

/-- **Fixed points.**  In a format of `w` bits, a pattern of a value below `2 ^ w` that is its own
    truncated value is zero, when no integer of `mbits` bits solves the equations for the exponents
    above the unit. -/
theorem pattern_eq_zero {w : ℕ} (hw : w = mbits + ebits + 1) (hunit : 2 ≤ unitIeee ebits mbits)
    (hnone : ∀ k m, mbits + k < w → m < 2 ^ mbits →
      (2 ^ mbits + m) * 2 ^ k ≠ (unitIeee ebits mbits + k) * 2 ^ mbits + m)
    (h : valueIeee ebits mbits x = some v) (hv : 0 ≤ v) (hlt : v < 2 ^ w) (hx : ⌊v⌋₊ = x) :
    x = 0 := by
  obtain ⟨-, hmag, hneg⟩ := magnitude_of_value h hv
  by_cases hsign : x / 2 ^ (mbits + ebits) % 2 = 1
  · rw [← hx, hneg hsign, Nat.floor_zero]
  · -- without a sign, the exponent field is all above the significand
    have hxw : x < 2 ^ w := by
      rw [← hx, Nat.floor_lt hv]
      exact_mod_cast hlt
    have hhigh : x / 2 ^ (mbits + ebits) < 2 := by
      rw [Nat.div_lt_iff_lt_mul (Nat.two_pow_pos _), ← pow_succ', ← hw]
      exact hxw
    have hbound : x < 2 ^ mbits * 2 ^ ebits := by
      have hzero : x / 2 ^ (mbits + ebits) = 0 := by
        generalize x / 2 ^ (mbits + ebits) = top at hhigh hsign
        omega
      rw [← pow_add]
      exact (Nat.div_eq_zero_iff_lt (Nat.two_pow_pos _)).mp hzero
    have hfield : fieldIeee ebits mbits x = x / 2 ^ mbits :=
      Nat.mod_eq_of_lt (Nat.div_lt_of_lt_mul hbound)
    have hsplit : fieldIeee ebits mbits x * 2 ^ mbits + x % 2 ^ mbits = x := by
      rw [hfield, Nat.mul_comm]
      exact Nat.div_add_mod x (2 ^ mbits)
    have hm := Nat.mod_lt x (Nat.two_pow_pos mbits)
    have hfloor := hx
    rw [← hmag, magnitudeIeee, floor_mul_zpow] at hfloor
    split_ifs at hfloor with hle
    · -- the value is an integer multiple of the significand
      obtain ⟨k, hk⟩ : ∃ k, fieldIeee ebits mbits x = unitIeee ebits mbits + k :=
        ⟨fieldIeee ebits mbits x - unitIeee ebits mbits, by omega⟩
      have hsig : significandIeee ebits mbits x = 2 ^ mbits + x % 2 ^ mbits := if_neg (by omega)
      have hshift : max (fieldIeee ebits mbits x) 1 - unitIeee ebits mbits = k := by omega
      rw [hsig, hshift] at hfloor
      have hkw : mbits + k < w := by
        by_contra hge
        have hpow : 2 ^ w ≤ 2 ^ mbits * 2 ^ k := by
          rw [← pow_add]
          exact Nat.pow_le_pow_right (by decide) (by omega)
        have hmul : 2 ^ mbits * 2 ^ k ≤ (2 ^ mbits + x % 2 ^ mbits) * 2 ^ k :=
          Nat.mul_le_mul_right _ (Nat.le_add_right _ _)
        omega
      rw [hk] at hsplit
      exact absurd (hfloor.trans hsplit.symm) (hnone k _ hkw hm)
    · -- the value is at most half the significand, so the exponent field is zero
      have hsig : significandIeee ebits mbits x < 2 * 2 ^ mbits := by
        rw [significandIeee]
        split_ifs <;> omega
      have hpow : 2 ^ 1 ≤ 2 ^ (unitIeee ebits mbits - max (fieldIeee ebits mbits x) 1) :=
        Nat.pow_le_pow_right (by decide) (by omega)
      have hhalf : x ≤ significandIeee ebits mbits x / 2 := by
        calc x = significandIeee ebits mbits x
              / 2 ^ (unitIeee ebits mbits - max (fieldIeee ebits mbits x) 1) := hfloor.symm
          _ ≤ significandIeee ebits mbits x / 2 ^ 1 := Nat.div_le_div_left hpow (by decide)
      have hzero : fieldIeee ebits mbits x = 0 := by
        rw [hfield, Nat.div_eq_of_lt (by omega)]
      have hsmall : significandIeee ebits mbits x = x % 2 ^ mbits := if_pos hzero
      have hle := Nat.mod_le x (2 ^ mbits)
      omega

/-- In such a format the pattern of zero is the only one that is its own truncated value. -/
theorem floor_eq_pattern_iff {w : ℕ} (hw : w = mbits + ebits + 1) (hebits : 1 ≤ ebits)
    (hunit : 2 ≤ unitIeee ebits mbits)
    (hnone : ∀ k m, mbits + k < w → m < 2 ^ mbits →
      (2 ^ mbits + m) * 2 ^ k ≠ (unitIeee ebits mbits + k) * 2 ^ mbits + m)
    (h : valueIeee ebits mbits x = some v) (hv : 0 ≤ v) (hlt : v < 2 ^ w) : ⌊v⌋₊ = x ↔ x = 0 := by
  constructor
  · exact pattern_eq_zero hw hunit hnone h hv hlt
  · rintro rfl
    obtain rfl := Option.some.inj ((valueIeee_zero hebits mbits).symm.trans h)
    exact Nat.floor_zero

end Basis
