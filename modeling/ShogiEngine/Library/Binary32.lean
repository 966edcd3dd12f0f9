import Mathlib.Data.Int.Log
import Mathlib.Data.Rat.Floor
import Mathlib.Tactic.Linarith

/-!
# Single precision

The values of the single precision format as rational numbers, and rounding to the nearest of them
with ties to even. There is no bound above: what overflows is not rounded to infinity.

## Main definitions

- `Binary32.f32`: rounding to single precision
- `Binary32.f64`: rounding to double precision

## Main results

- `Binary32.abs_f32_sub_le`: how far rounding goes
- `Binary32.half_le_f32`, `Binary32.f32_le`: rounding of positive numbers
- `Binary32.ulp_eq`: the spacing of the values in a given binade
-/

namespace Binary32

/-- The nearest integer, the even one between two. -/
def roundEven (x : ℚ) : ℤ :=
  if x - ⌊x⌋ < 1 / 2 then ⌊x⌋
  else if 1 / 2 < x - ⌊x⌋ then ⌊x⌋ + 1
  else if ⌊x⌋ % 2 = 0 then ⌊x⌋
  else ⌊x⌋ + 1

/-- The distance of neighbouring values: 24 bits of precision, and no bit below the 149th place. -/
def ulp (x : ℚ) : ℚ := 2 ^ max (Int.log 2 |x| - 23) (-149)

/-- Rounding to single precision. -/
def f32 (x : ℚ) : ℚ := roundEven (x / ulp x) * ulp x

/-- The distance of neighbouring values of double precision. -/
def ulp64 (x : ℚ) : ℚ := 2 ^ max (Int.log 2 |x| - 52) (-1074)

/-- Rounding to double precision. -/
def f64 (x : ℚ) : ℚ := roundEven (x / ulp64 x) * ulp64 x

variable {x : ℚ} {e : ℤ}

theorem abs_roundEven_sub_le (x : ℚ) : |(roundEven x : ℚ) - x| ≤ 1 / 2 := by
  have h1 := Int.floor_le x
  have h2 := Int.lt_floor_add_one x
  rw [abs_le, roundEven]
  split_ifs
  all_goals push_cast; constructor <;> linarith

theorem ulp_pos (x : ℚ) : 0 < ulp x := zpow_pos (by norm_num) _

/-- Rounding goes half a unit in the last place at most. -/
theorem abs_f32_sub_le_ulp (x : ℚ) : |f32 x - x| ≤ ulp x / 2 := by
  have hpos := ulp_pos x
  have hx : f32 x - x = (roundEven (x / ulp x) - x / ulp x) * ulp x := by
    rw [f32, sub_mul, div_mul_cancel₀ x hpos.ne']
  have hround := mul_le_mul_of_nonneg_right (abs_roundEven_sub_le (x / ulp x)) hpos.le
  rw [hx, abs_mul, abs_of_pos hpos]
  linarith

/-- Below `2 ^ e` rounding goes at most `2 ^ (e - 25)`. -/
theorem abs_f32_sub_le (h : |x| < 2 ^ e) (he : -125 ≤ e) : |f32 x - x| ≤ 2 ^ (e - 25) := by
  by_cases hx : x = 0
  · subst hx
    rw [f32, zero_div, show roundEven 0 = 0 by simp [roundEven], Int.cast_zero, zero_mul, sub_zero,
      abs_zero]
    exact (zpow_pos (by norm_num) _).le
  have hlog : Int.log 2 |x| < e := by
    rw [← Int.lt_zpow_iff_log_lt (by norm_num) (abs_pos.mpr hx)]
    exact_mod_cast h
  have hulp : ulp x ≤ 2 ^ (e - 24) := zpow_le_zpow_right₀ (by norm_num) (by omega)
  have hhalf : (2 : ℚ) ^ (e - 24) = 2 ^ (e - 25) * 2 := by
    rw [← zpow_add_one₀ (by norm_num)]
    congr 1
    omega
  have hround := abs_f32_sub_le_ulp x
  rw [hhalf] at hulp
  linarith

/-- The unit in the last place between `2 ^ e` and `2 ^ (e + 1)`. -/
theorem ulp_eq (hlo : 2 ^ e ≤ |x|) (hhi : |x| < 2 ^ (e + 1)) (he : -126 ≤ e) :
    ulp x = 2 ^ (e - 23) := by
  have hpos : 0 < |x| := lt_of_lt_of_le (zpow_pos (by norm_num) _) hlo
  have h1 : e ≤ Int.log 2 |x| := by
    rw [← Int.zpow_le_iff_le_log (by norm_num) hpos]
    exact_mod_cast hlo
  have h2 : Int.log 2 |x| < e + 1 := by
    rw [← Int.lt_zpow_iff_log_lt (by norm_num) hpos]
    exact_mod_cast hhi
  rw [ulp, show max (Int.log 2 |x| - 23) (-149) = e - 23 by omega]

theorem roundEven_nonneg (hx : 0 ≤ x) : 0 ≤ roundEven x := by
  have hfloor : 0 ≤ ⌊x⌋ := Int.floor_nonneg.mpr hx
  rw [roundEven]
  split_ifs <;> omega

theorem f32_nonneg (hx : 0 ≤ x) : 0 ≤ f32 x := by
  have hround : (0 : ℚ) ≤ roundEven (x / ulp x) := by
    exact_mod_cast roundEven_nonneg (div_nonneg hx (ulp_pos x).le)
  exact mul_nonneg hround (ulp_pos x).le

/-- Numbers that are not tiny keep at least half of their size. -/
theorem half_le_f32 (hx : 2 ^ (-149 : ℤ) ≤ x) : x / 2 ≤ f32 x := by
  have hpos : 0 < x := lt_of_lt_of_le (zpow_pos (by norm_num) _) hx
  have hlog : (2 : ℚ) ^ Int.log 2 |x| ≤ x := by
    rw [abs_of_pos hpos]
    exact_mod_cast Int.zpow_log_le_self (by norm_num) hpos
  have hulp : ulp x ≤ x := by
    rcases max_choice (Int.log 2 |x| - 23) (-149) with h | h
    · rw [ulp, h]
      exact (zpow_le_zpow_right₀ (by norm_num) (by omega)).trans hlog
    · rw [ulp, h]
      exact hx
  have hround := abs_le.mp (abs_f32_sub_le_ulp x)
  linarith [hround.1]

/-- A bound of the rounded number. -/
theorem f32_le (hx : 0 ≤ x) : f32 x ≤ x + x / 2 ^ 23 + 1 := by
  have hulp : ulp x ≤ x / 2 ^ 23 + 1 := by
    rcases hx.eq_or_lt with rfl | hpos
    · rw [ulp, abs_zero, Int.log_zero_right]
      norm_num
    · have hlog : (2 : ℚ) ^ Int.log 2 |x| ≤ x := by
        rw [abs_of_pos hpos]
        exact_mod_cast Int.zpow_log_le_self (by norm_num) hpos
      rcases max_choice (Int.log 2 |x| - 23) (-149) with h | h
      · rw [ulp, h, zpow_sub₀ (by norm_num)]
        have hdiv : (2 : ℚ) ^ Int.log 2 |x| / 2 ^ (23 : ℤ) ≤ x / 2 ^ (23 : ℤ) := by
          gcongr
        have hcast : (2 : ℚ) ^ (23 : ℤ) = 2 ^ 23 := by norm_num
        rw [hcast] at hdiv ⊢
        linarith
      · rw [ulp, h]
        have hdiv : 0 ≤ x / 2 ^ 23 := by positivity
        have hone : (2 : ℚ) ^ (-149 : ℤ) ≤ 1 := zpow_le_one_of_nonpos₀ (by norm_num) (by norm_num)
        linarith
  have hround := abs_le.mp (abs_f32_sub_le_ulp x)
  have hulpos := ulp_pos x
  linarith [hround.2]

end Binary32
