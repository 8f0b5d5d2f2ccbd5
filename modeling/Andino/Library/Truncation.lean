import Mathlib.Algebra.Order.Floor.Ring

/-!
# Truncation toward zero

The conversion of a number to an integer that C and C++ use: the digits behind the point
go. It treats both signs alike, and truncating twice, with an integer division in between, is
truncating once. A truncating division takes less than its divisor from a whole number.
-/
namespace Truncation

variable {K : Type} [Field K] [LinearOrder K] [IsStrictOrderedRing K] [FloorRing K]

def truncate (x : K) : Int := if 0 ≤ x then ⌊x⌋ else ⌈x⌉

omit [IsStrictOrderedRing K] in
theorem truncate_of_nonneg {x : K} (h : 0 ≤ x) : truncate x = ⌊x⌋ := if_pos h

omit [IsStrictOrderedRing K] in
theorem truncate_of_neg {x : K} (h : x < 0) : truncate x = ⌈x⌉ := if_neg (not_le_of_gt h)

theorem truncate_neg (x : K) : truncate (-x) = -truncate x := by
  rcases lt_trichotomy x 0 with h | rfl | h
  · rw [truncate_of_neg h, truncate_of_nonneg (neg_nonneg.mpr (le_of_lt h)), Int.floor_neg]
  · simp [truncate]
  · rw [truncate_of_nonneg (le_of_lt h), truncate_of_neg (neg_lt_zero.mpr h), Int.ceil_neg]

omit [FloorRing K] in
/-- What holds of the positive numbers and passes to the negated ones holds of all. -/
theorem sign_cases {P : K → Prop} (hpos : ∀ x, 0 ≤ x → P x) (hneg : ∀ x, 0 ≤ x → P x → P (-x))
    (x : K) : P x := by
  rcases le_total 0 x with h | h
  · exact hpos x h
  · have h' : 0 ≤ -x := neg_nonneg.mpr h
    rw [← neg_neg x]
    exact hneg (-x) h' (hpos (-x) h')

/-- The absolute value is rounded down. -/
theorem abs_truncate (x : K) : |truncate x| = ⌊|x|⌋ := by
  induction x using sign_cases with
  | hpos x h => rw [truncate_of_nonneg h, abs_of_nonneg h, abs_of_nonneg (Int.floor_nonneg.mpr h)]
  | hneg x _ ih => rw [truncate_neg, abs_neg, abs_neg, ih]

/-- Truncating the quotient is the truncating division of the truncated number. -/
theorem truncate_div (x : K) {n : Int} (hn : 0 < n) : truncate (x / n) = (truncate x).tdiv n := by
  have hn' : (0 : K) < n := Int.cast_pos.mpr hn
  induction x using sign_cases with
  | hpos x h =>
    rw [truncate_of_nonneg h, truncate_of_nonneg (div_nonneg h (le_of_lt hn')),
      Int.floor_div_cast_of_nonneg (le_of_lt hn),
      Int.tdiv_eq_ediv_of_nonneg (Int.floor_nonneg.mpr h)]
  | hneg x _ ih => rw [neg_div, truncate_neg, truncate_neg, Int.neg_tdiv, ih]

/-- Dividing a whole number and multiplying it again does not increase it. -/
theorem abs_mul_tdiv_le (v n : Int) : |n * v.tdiv n| ≤ |v| := by
  rw [Int.abs_eq_natAbs, Int.abs_eq_natAbs, Int.natAbs_mul, Int.natAbs_tdiv]
  exact_mod_cast Nat.mul_div_le v.natAbs n.natAbs

theorem abs_sub_mul_tdiv_lt (v : Int) {n : Int} (hn : 0 < n) : |v - n * v.tdiv n| < n := by
  have hlt := Int.tmod_lt_of_pos v hn
  have hgt := Int.lt_tmod_of_pos v hn
  have hsum := Int.mul_tdiv_add_tmod v n
  rw [abs_lt]
  omega

end Truncation
