import Mathlib.Data.Rat.Floor
import Mathlib.Data.Int.Log
import Mathlib.Tactic.Linarith
import Mathlib.Tactic.Positivity
import Mathlib.Tactic.FieldSimp

namespace Basis

/-!
# Binary floating point — binary32 arithmetic and bit patterns

Rounding of an exact positive rational to a binary floating-point number with a 24-bit
significand, round to nearest with ties to even, inside the normal range (no overflow, no
subnormal result).  A conversion or a division in that format is the exact operation
followed by `round32`.

* `round32_natCast` — integers below `2 ^ 24` are representable;
* `round32_le_natCast` — rounding does not cross a representable integer from below;
* `sub_le_round32` — the relative error downwards is at most `2 ^ (-24)`;
* `ceil_div32` — hence the ceiling of a rounded quotient `s / n` with `s < 2 ^ 24` is
  the exact ceiling, for every positive integer `n`;
* `lt_round32_iff` — what is rounded above a bound, by the midpoint after it; rounding is
  monotone (`round32_mono`);
* `truncIeee` — the integer part of the value of a bit pattern.
-/

/-- The integer nearest to `x`, the even one when two are equally near. -/
def roundEven (x : ℚ) : ℤ :=
  if x - ⌊x⌋ < 1 / 2 then ⌊x⌋
  else if 1 / 2 < x - ⌊x⌋ then ⌊x⌋ + 1
  else ⌊x⌋ + ⌊x⌋ % 2

/-- The distance between neighbouring 24-bit significands at the magnitude of `x`. -/
def ulp32 (x : ℚ) : ℚ := (2 : ℚ) ^ (Int.log 2 x - 23)

/-- `x` rounded to a 24-bit significand, ties to even. -/
def round32 (x : ℚ) : ℚ := roundEven (x / ulp32 x) * ulp32 x

/-! ### Rounding to an integer -/

/-- Rounding does not pass an integer above. -/
theorem roundEven_le_of_le {x : ℚ} {k : ℤ} (h : x ≤ k) : roundEven x ≤ k := by
  have hfl : ⌊x⌋ ≤ k := by
    have := Int.floor_le x
    exact_mod_cast this.trans h
  rcases eq_or_lt_of_le hfl with heq | hlt
  · -- `⌊x⌋ = k` forces `x = k`, so the fractional part is zero.
    have hx : x - ⌊x⌋ < 1 / 2 := by
      rw [heq]
      linarith
    rw [roundEven, if_pos hx]
    exact hfl
  · have hmod : ⌊x⌋ % 2 ≤ 1 := by omega
    unfold roundEven
    split_ifs <;> omega

/-- Rounding goes down by a half at most. -/
theorem sub_half_le_roundEven (x : ℚ) : x - 1 / 2 ≤ roundEven x := by
  have hhi := Int.lt_floor_add_one x
  have hmod : (0 : ℚ) ≤ ((⌊x⌋ % 2 : ℤ) : ℚ) := by
    exact_mod_cast Int.emod_nonneg ⌊x⌋ (by decide : (2 : ℤ) ≠ 0)
  unfold roundEven
  split_ifs <;> push_cast <;> linarith

/-- Integers are not rounded. -/
theorem roundEven_intCast (k : ℤ) : roundEven (k : ℚ) = k := by
  simp [roundEven]

/-- What lies above an integer after rounding: the midpoint itself only if the integer is odd. -/
theorem lt_roundEven_iff (x : ℚ) (k : ℤ) :
    k < roundEven x ↔ (k : ℚ) + 1 / 2 < x ∨ (x = k + 1 / 2 ∧ k % 2 = 1) := by
  have hlo := Int.floor_le x
  have hhi := Int.lt_floor_add_one x
  have hcast : ∀ a b : ℤ, a < b ↔ (a : ℚ) + 1 ≤ b := fun a b => by exact_mod_cast Int.lt_iff_add_one_le
  have hle : ∀ a b : ℤ, (a : ℚ) < b + 1 → a ≤ b := fun a b h => by
    exact_mod_cast Int.lt_add_one_iff.mp (by exact_mod_cast h)
  unfold roundEven
  split_ifs with hbelow habove
  · -- rounded down
    constructor
    · intro hk
      have := (hcast _ _).mp hk
      exact .inl (by linarith)
    · rintro (hk | ⟨hk, -⟩)
      · exact_mod_cast (show (k : ℚ) < ⌊x⌋ by linarith)
      · exact_mod_cast (show (k : ℚ) < ⌊x⌋ by linarith)
  · -- rounded up
    constructor
    · intro hk
      have : (k : ℚ) ≤ ⌊x⌋ := by exact_mod_cast Int.lt_add_one_iff.mp hk
      exact .inl (by linarith)
    · rintro (hk | ⟨hk, -⟩)
      · exact Int.lt_add_one_iff.mpr (hle _ _ (by linarith))
      · exact Int.lt_add_one_iff.mpr (hle _ _ (by linarith))
  · -- a tie
    have htie : x = ⌊x⌋ + 1 / 2 := by linarith
    constructor
    · intro hk
      rcases lt_or_ge k ⌊x⌋ with hlt | hge
      · have : (k : ℚ) < ⌊x⌋ := by exact_mod_cast hlt
        exact .inl (by linarith)
      · have heq : k = ⌊x⌋ := by omega
        exact .inr ⟨by rw [heq]; exact htie, by omega⟩
    · rintro (hk | ⟨hk, hodd⟩)
      · have hlt : k < ⌊x⌋ := by exact_mod_cast (show (k : ℚ) < ⌊x⌋ by linarith)
        omega
      · have heq : k = ⌊x⌋ := by exact_mod_cast (show (k : ℚ) = ⌊x⌋ by linarith)
        omega

/-! ### Rounding to a 24-bit significand -/

/-- The step of the format is positive. -/
theorem ulp32_pos (x : ℚ) : 0 < ulp32 x := zpow_pos (by norm_num) _

/-- The spacing at `x` is at most `x / 2 ^ 23`. -/
theorem ulp32_le {x : ℚ} (hx : 0 < x) : ulp32 x ≤ x / 2 ^ 23 := by
  have hlog : ((2 : ℕ) : ℚ) ^ Int.log 2 x ≤ x := Int.zpow_log_le_self (by decide) hx
  rw [ulp32, zpow_sub₀ (by norm_num : (2 : ℚ) ≠ 0)]
  have h23 : (2 : ℚ) ^ (23 : ℤ) = 2 ^ 23 := by norm_num
  rw [h23]
  exact div_le_div_of_nonneg_right (by exact_mod_cast hlog) (by positivity)

/-- Rounding loses at most half a spacing, a `2 ^ (-24)` part of the value. -/
theorem sub_le_round32 {x : ℚ} (hx : 0 < x) : x - x / 2 ^ 24 ≤ round32 x := by
  have hu := ulp32_pos x
  have hround : x / ulp32 x - 1 / 2 ≤ roundEven (x / ulp32 x) := sub_half_le_roundEven _
  have hmul : (x / ulp32 x - 1 / 2) * ulp32 x ≤ round32 x :=
    mul_le_mul_of_nonneg_right hround hu.le
  have hexp : (x / ulp32 x - 1 / 2) * ulp32 x = x - ulp32 x / 2 := by
    field_simp
  have hule := ulp32_le hx
  have hhalf : x / 2 ^ 24 = x / 2 ^ 23 / 2 := by
    rw [div_div]
    norm_num
  rw [hexp] at hmul
  linarith

/-- A positive number stays positive. -/
theorem round32_pos {x : ℚ} (hx : 0 < x) : 0 < round32 x := by
  have h := sub_le_round32 hx
  have : x / 2 ^ 24 < x := div_lt_self hx (by norm_num)
  linarith

/-- Below `2 ^ 24` the spacing divides every integer. -/
theorem exists_natCast_div_ulp32 {x : ℚ} (hx : 0 < x) (hlt : x < 2 ^ 24) (k : ℕ) :
    ∃ j : ℤ, (k : ℚ) / ulp32 x = j := by
  have hlog : Int.log 2 x < 24 := by
    rw [← Int.lt_zpow_iff_log_lt (by decide) hx]
    exact_mod_cast hlt
  obtain ⟨d, hd⟩ : ∃ d : ℕ, Int.log 2 x - 23 = -(d : ℤ) := ⟨(23 - Int.log 2 x).toNat, by omega⟩
  refine ⟨(k : ℤ) * 2 ^ d, ?_⟩
  rw [ulp32, hd, zpow_neg, zpow_natCast, div_inv_eq_mul]
  push_cast
  ring

/-- Rounding does not cross an integer from below, as long as it stays below `2 ^ 24`. -/
theorem round32_le_natCast {x : ℚ} {k : ℕ} (hx : 0 < x) (hlt : x < 2 ^ 24) (h : x ≤ k) :
    round32 x ≤ k := by
  have hu := ulp32_pos x
  obtain ⟨j, hj⟩ := exists_natCast_div_ulp32 hx hlt k
  have hle : x / ulp32 x ≤ j := by
    rw [← hj]
    exact div_le_div_of_nonneg_right h hu.le
  have hround : (roundEven (x / ulp32 x) : ℚ) ≤ j := by exact_mod_cast roundEven_le_of_le hle
  calc round32 x ≤ j * ulp32 x := mul_le_mul_of_nonneg_right hround hu.le
    _ = k := by rw [← hj]; field_simp

/-- Integers below `2 ^ 24` are representable. -/
theorem round32_natCast {k : ℕ} (hpos : 0 < k) (hlt : k < 2 ^ 24) : round32 (k : ℚ) = k := by
  have hx : (0 : ℚ) < k := by exact_mod_cast hpos
  have hu := ulp32_pos (k : ℚ)
  obtain ⟨j, hj⟩ := exists_natCast_div_ulp32 hx (by exact_mod_cast hlt) k
  rw [round32, hj, roundEven_intCast, ← hj]
  field_simp

/-! ### Rounding above a bound -/

/-- In steps a number is `2 ^ 23` at least. -/
theorem le_div_ulp32 {x : ℚ} (hx : 0 < x) : 2 ^ 23 ≤ x / ulp32 x := by
  rw [le_div_iff₀ (ulp32_pos x)]
  have h := ulp32_le hx
  rw [le_div_iff₀ (by norm_num)] at h
  linarith

/-- The step against the binade it belongs to. -/
theorem ulp32_mul_pow (x : ℚ) : ulp32 x * 2 ^ 23 = 2 ^ Int.log 2 x := by
  have h : (2 : ℚ) ^ (23 : ℕ) = 2 ^ (23 : ℤ) := rfl
  rw [ulp32, h, ← zpow_add₀ (by norm_num), Int.sub_add_cancel]

/-- In steps a number is below `2 ^ 24`. -/
theorem div_ulp32_lt (x : ℚ) : x / ulp32 x < 2 ^ 24 := by
  rw [div_lt_iff₀ (ulp32_pos x)]
  have hlog : x < ((2 : ℕ) : ℚ) ^ (Int.log 2 x + 1) := Int.lt_zpow_succ_log_self (by decide) x
  rw [Nat.cast_ofNat, zpow_add_one₀ (by norm_num), ← ulp32_mul_pow] at hlog
  linarith

/-- The spacing at least doubles from one power of two to the next. -/
theorem ulp32_mul_le_of_log_lt {x y : ℚ} (h : Int.log 2 x < Int.log 2 y) :
    ulp32 x * 2 ^ 24 ≤ ulp32 y * 2 ^ 23 := by
  rw [ulp32_mul_pow y, pow_succ, ← mul_assoc, ulp32_mul_pow x, ← zpow_add_one₀ (by norm_num)]
  exact zpow_le_zpow_right₀ (by norm_num) h

/-- `x` is above the midpoint between the last 24-bit significand up to `y` and the next one, or is
    this midpoint and the next significand is the even one. -/
def AboveMidpoint (x y : ℚ) : Prop :=
  (⌊y / ulp32 y⌋ + 1 / 2) * ulp32 y < x ∨
    (x = (⌊y / ulp32 y⌋ + 1 / 2) * ulp32 y ∧ ⌊y / ulp32 y⌋ % 2 = 1)

/-- **Rounding above a bound.** -/
theorem lt_round32_iff {x y : ℚ} (hx : 0 < x) (hy : 0 < y) :
    y < round32 x ↔ AboveMidpoint x y := by
  have hu := ulp32_pos y
  have hu' := ulp32_pos x
  have hfloor := (le_div_iff₀ hu).mp (Int.floor_le (y / ulp32 y))
  have hlow : (2 : ℚ) ^ 23 ≤ ⌊y / ulp32 y⌋ := by
    exact_mod_cast Int.le_floor.mpr (by exact_mod_cast le_div_ulp32 hy)
  have hhigh : (⌊y / ulp32 y⌋ : ℚ) + 1 ≤ 2 ^ 24 := by
    exact_mod_cast Int.floor_lt.mpr (by exact_mod_cast div_ulp32_lt y)
  rcases lt_trichotomy (Int.log 2 x) (Int.log 2 y) with hlt | heq | hgt
  · -- `x` is below the power of two at or under `y`, and so is what it is rounded to
    have hscale := ulp32_mul_le_of_log_lt hlt
    have hround : (roundEven (x / ulp32 x) : ℚ) ≤ 2 ^ 24 := by
      have hle := roundEven_le_of_le (x := x / ulp32 x) (k := 16777216) (by
        have := div_ulp32_lt x
        push_cast
        linarith)
      exact_mod_cast hle
    have hle : round32 x ≤ y := by
      calc round32 x ≤ 2 ^ 24 * ulp32 x := mul_le_mul_of_nonneg_right hround hu'.le
        _ ≤ ulp32 y * 2 ^ 23 := by linarith
        _ ≤ y := by nlinarith
    have hx' := (div_lt_iff₀ hu').mp (div_ulp32_lt x)
    have hmid : x < (⌊y / ulp32 y⌋ + 1 / 2) * ulp32 y := by nlinarith
    refine iff_of_false (not_lt.mpr hle) ?_
    rintro (habove | ⟨heq, -⟩)
    · exact lt_asymm hmid habove
    · exact hmid.ne heq
  -- both in one binade: the midpoint rule of the same unit
  · have hsame : ulp32 x = ulp32 y := by rw [ulp32, heq, ulp32]
    rw [round32, hsame, ← div_lt_iff₀ hu, ← Int.floor_lt, lt_roundEven_iff, AboveMidpoint,
      lt_div_iff₀ hu, div_eq_iff hu.ne']
  · -- and here both are at or above the next power of two
    have hscale := ulp32_mul_le_of_log_lt hgt
    have hround : (2 : ℚ) ^ 23 ≤ roundEven (x / ulp32 x) := by
      have hhalf := sub_half_le_roundEven (x / ulp32 x)
      have hx' := le_div_ulp32 hx
      have hlt : (2 ^ 23 - 1 : ℤ) < roundEven (x / ulp32 x) := by
        have : (2 : ℚ) ^ 23 - 1 < roundEven (x / ulp32 x) := by linarith
        exact_mod_cast this
      exact_mod_cast Int.sub_one_lt_iff.mp hlt
    have hge : 2 ^ 23 * ulp32 x ≤ round32 x := mul_le_mul_of_nonneg_right hround hu'.le
    have hx' := (le_div_iff₀ hu').mp (le_div_ulp32 hx)
    have hy' := (div_lt_iff₀ hu).mp (div_ulp32_lt y)
    refine iff_of_true (by linarith) (.inl ?_)
    nlinarith

/-- A larger number is above the midpoint too. -/
theorem AboveMidpoint.mono {x x' y : ℚ} (h : AboveMidpoint x y) (hle : x ≤ x') :
    AboveMidpoint x' y := by
  rcases h with hlt | ⟨heq, hodd⟩
  · exact .inl (lt_of_lt_of_le hlt hle)
  · rcases eq_or_lt_of_le hle with rfl | hlt
    · exact .inr ⟨heq, hodd⟩
    · exact .inl (by rwa [← heq])

/-- Rounding is monotone. -/
theorem round32_mono {x y : ℚ} (hx : 0 < x) (hle : x ≤ y) : round32 x ≤ round32 y := by
  have hy := hx.trans_le hle
  by_contra hlt
  rw [not_le, lt_round32_iff hx (round32_pos hy)] at hlt
  -- what is above the midpoint after `round32 y` cannot be at most `y`
  exact lt_irrefl _ ((lt_round32_iff hy (round32_pos hy)).mpr (hlt.mono hle))

/-! ### The ceiling of a rounded quotient -/

/-- The quotient of two naturals computed in binary32: both operands are converted, and
    the exact quotient of the converted values is rounded. -/
def div32 (s n : ℕ) : ℚ := round32 (round32 s / round32 n)

/-- The rounded quotient by a smaller divisor keeps its ceiling: the exact quotient exceeds the
    integer below it by at least `1 / n`, more than the rounding loses. -/
theorem ceil_round32_div {s n : ℕ} (hpos : 0 < s) (hs : s < 2 ^ 24) (hn : 0 < n) :
    ⌈round32 (s / n)⌉₊ = (s + n - 1) / n := by
  have hsq : (0 : ℚ) < s := by exact_mod_cast hpos
  have hslt : (s : ℚ) < 2 ^ 24 := by exact_mod_cast hs
  have hnq : (1 : ℚ) ≤ n := by exact_mod_cast hn
  have hx : (0 : ℚ) < s / n := by positivity
  have hxlt : (s / n : ℚ) < 2 ^ 24 := lt_of_le_of_lt (div_le_self hsq.le hnq) hslt
  -- the exact ceiling, with `k` its predecessor
  obtain ⟨k, hk⟩ : ∃ k, (s + n - 1) / n = k + 1 :=
    ⟨(s - 1) / n, by rw [show s + n - 1 = s - 1 + n by omega, Nat.add_div_right _ hn]⟩
  have hdiv := Nat.div_add_mod (s + n - 1) n
  have hmod := Nat.mod_lt (s + n - 1) hn
  rw [hk] at hdiv
  have hup : s ≤ n * (k + 1) := by omega
  have hlow : n * k + 1 ≤ s := by rw [Nat.mul_add] at hdiv; omega
  have hupq : (s : ℚ) ≤ n * (k + 1) := by exact_mod_cast hup
  have hlowq : (n : ℚ) * k + 1 ≤ s := by exact_mod_cast hlow
  rw [hk, Nat.ceil_eq_iff (by omega)]
  constructor
  · have hround := sub_le_round32 hx
    -- what rounding down loses is less than what the division leaves over
    have hloss : (s / n : ℚ) / 2 ^ 24 < 1 / n := by
      rw [div_div, div_lt_div_iff₀ (by positivity) (by positivity)]
      nlinarith
    have hquot : (k : ℚ) + 1 / n ≤ s / n := by
      rw [le_div_iff₀ (by positivity)]
      field_simp
      linarith
    simp only [Nat.add_sub_cancel]
    linarith
  -- rounding up stops at an integer below 2²⁴
  · apply round32_le_natCast hx hxlt
    rw [div_le_iff₀ (by positivity)]
    push_cast
    linarith

/-- A rounded quotient in `(0, 1]` stays there. -/
theorem ceil_round32_of_le_one {x : ℚ} (hx : 0 < x) (hone : x ≤ 1) : ⌈round32 x⌉₊ = 1 := by
  rw [Nat.ceil_eq_iff (by decide)]
  have hlt : x < 2 ^ 24 := lt_of_le_of_lt hone (by norm_num)
  exact ⟨by simpa using round32_pos hx, round32_le_natCast hx hlt (by simpa using hone)⟩

/-- A dividend up to the divisor needs one unit, whatever the sizes. -/
theorem ceil_div32_of_le {s n : ℕ} (hpos : 0 < s) (hle : s ≤ n) : ⌈div32 s n⌉₊ = 1 := by
  have hsq : (0 : ℚ) < s := by exact_mod_cast hpos
  have hround := round32_mono hsq (show (s : ℚ) ≤ n by exact_mod_cast hle)
  have hs := round32_pos hsq
  have hn := hs.trans_le hround
  apply ceil_round32_of_le_one (by positivity)
  rwa [div_le_one hn]

/-- **Exact ceiling.** For a dividend below `2 ^ 24` the ceiling of the binary32 quotient
    is the ceiling of the exact quotient, whatever the divisor. -/
theorem ceil_div32 {s n : ℕ} (hpos : 0 < s) (hs : s < 2 ^ 24) (hn : 0 < n) :
    ⌈div32 s n⌉₊ = (s + n - 1) / n := by
  rcases lt_or_ge n (2 ^ 24) with hlt | hge
  · rw [div32, round32_natCast hpos hs, round32_natCast hn hlt]
    exact ceil_round32_div hpos hs hn
  · -- a divisor above every dividend
    rw [ceil_div32_of_le hpos (by omega), show s + n - 1 = s - 1 + n by omega,
      Nat.add_div_right _ hn, Nat.div_eq_of_lt (by omega)]

/-- The ceiling of the binary32 quotient against a bound, for all operands. -/
theorem lt_ceil_div32_iff {s n k : ℕ} (hs : 0 < s) (hn : 0 < n) (hk : 0 < k) :
    k < ⌈div32 s n⌉₊ ↔ AboveMidpoint (round32 s / round32 n) k := by
  have hsq : (0 : ℚ) < s := by exact_mod_cast hs
  have hnq : (0 : ℚ) < n := by exact_mod_cast hn
  have hkq : (0 : ℚ) < k := by exact_mod_cast hk
  rw [Nat.lt_ceil, div32, lt_round32_iff (div_pos (round32_pos hsq) (round32_pos hnq)) hkq]

/-! ### Bit patterns

A binary interchange format has one sign bit, `ebits` exponent bits and `mbits` bits of
significand below the leading one.  A conversion to an unsigned integer type truncates the
value; it has no result for infinities, for NaNs and for values of `-1` or below.
-/

/-- The value of the pattern `x`, truncated towards zero. -/
def truncIeee (ebits mbits x : ℕ) : Option ℕ :=
  let m := x % 2 ^ mbits
  let e := x / 2 ^ mbits % 2 ^ ebits
  let negative := x / 2 ^ (mbits + ebits) % 2 = 1
  -- a subnormal has no leading one and the exponent of the smallest normal number
  let significand := if e = 0 then m else 2 ^ mbits + m
  let exponent := max e 1
  let unit := 2 ^ (ebits - 1) - 1 + mbits
  let trunc := if unit ≤ exponent then significand * 2 ^ (exponent - unit)
    else significand / 2 ^ (unit - exponent)
  if e = 2 ^ ebits - 1 then none
  else if negative ∧ trunc ≠ 0 then none
  else some trunc

-- the pattern of `2.5f`
example : truncIeee 8 23 0x40200000 = some 2 := by decide

end Basis
