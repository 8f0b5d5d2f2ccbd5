import Mathlib.Data.Int.Log
import Mathlib.Tactic.Linarith
import Andino.Library.Truncation

/-!
# Rounding to double precision

The double next to a number, ties to the even one, with 53 significant bits and subnormals
below them; no number is too large. Rounding never crosses a double, so it keeps a number
between its whole neighbours and a power of two below it.
-/
namespace Binary64

open Truncation

variable {K : Type} [Field K] [LinearOrder K] [IsStrictOrderedRing K] [FloorRing K]

def nearestEven (x : K) : Int :=
  if x - ⌊x⌋ < ⌊x⌋ + 1 - x then ⌊x⌋
  else if ⌊x⌋ + 1 - x < x - ⌊x⌋ then ⌊x⌋ + 1
  else if ⌊x⌋ % 2 = 0 then ⌊x⌋
  else ⌊x⌋ + 1

/-- The exponent of the last bit. -/
def exponent (x : K) : Int := max (Int.log 2 |x| - 52) (-1074)

/-- The value of the last bit. -/
def quantum (x : K) : K := ((2 : Nat) : K) ^ exponent x

def nearest (x : K) : K := nearestEven (x / quantum x) * quantum x

omit [IsStrictOrderedRing K] in
theorem floor_le_nearestEven (x : K) : ⌊x⌋ ≤ nearestEven x := by
  unfold nearestEven
  split_ifs <;> omega

theorem nearestEven_le_ceil (x : K) : nearestEven x ≤ ⌈x⌉ := by
  by_cases h : x - ⌊x⌋ < ⌊x⌋ + 1 - x
  · rw [nearestEven, if_pos h]
    exact Int.floor_le_ceil x
  · have hfloor : (⌊x⌋ : K) < x := by linarith
    have hceil : ⌊x⌋ < ⌈x⌉ := Int.lt_ceil.mpr hfloor
    unfold nearestEven
    split_ifs <;> omega

/-- A multiple of a power of two is one of the last bit, unless the power is below it. -/
theorem multiple {x : K} (n : Int) {e : Int} (h : exponent x ≤ e) :
    ∃ m : Int, (n : K) * 2 ^ e = m * quantum x := by
  obtain ⟨k, rfl⟩ := Int.le.dest h
  refine ⟨n * 2 ^ k, ?_⟩
  rw [zpow_add₀ (ne_of_gt two_pos), zpow_natCast, mul_comm ((2 : K) ^ exponent x), ← mul_assoc, quantum]
  push_cast
  rfl

theorem quantum_pos (x : K) : 0 < quantum x := zpow_pos (by norm_num) _

theorem le_nearest {x : K} {n e : Int} (he : exponent x ≤ e) (h : (n : K) * 2 ^ e ≤ x) :
    (n : K) * 2 ^ e ≤ nearest x := by
  have hpos := quantum_pos x
  obtain ⟨m, hm⟩ := multiple n he
  rw [hm, ← le_div_iff₀ hpos] at h
  have hmul : m ≤ nearestEven (x / quantum x) :=
    (Int.le_floor.mpr h).trans (floor_le_nearestEven _)
  rw [hm]
  exact mul_le_mul_of_nonneg_right (Int.cast_le.mpr hmul) (le_of_lt hpos)

theorem nearest_le {x : K} {n e : Int} (he : exponent x ≤ e) (h : x ≤ (n : K) * 2 ^ e) :
    nearest x ≤ (n : K) * 2 ^ e := by
  have hpos := quantum_pos x
  obtain ⟨m, hm⟩ := multiple n he
  rw [hm, ← div_le_iff₀ hpos] at h
  have hmul : nearestEven (x / quantum x) ≤ m :=
    (nearestEven_le_ceil _).trans (Int.ceil_le.mpr h)
  rw [hm]
  exact mul_le_mul_of_nonneg_right (Int.cast_le.mpr hmul) (le_of_lt hpos)

/-- A power of two bounds the double if it bounds the number. -/
theorem zpow_le_abs_nearest {x : K} {e : Int} (he : -1022 ≤ e) (h : 2 ^ e ≤ |x|) :
    2 ^ e ≤ |nearest x| := by
  have hx : 0 < |x| := (zpow_pos two_pos e).trans_le h
  have hlog : e ≤ Int.log 2 |x| := (Int.zpow_le_iff_le_log (by decide) hx).mp (by exact_mod_cast h)
  have hself : (2 : K) ^ Int.log 2 |x| ≤ |x| := by
    exact_mod_cast Int.zpow_log_le_self (by decide) hx
  have hexp : exponent x ≤ Int.log 2 |x| := max_le (by omega) (by omega)
  refine (zpow_le_zpow_right₀ one_le_two hlog).trans ?_
  rcases le_total 0 x with h0 | h0
  · rw [abs_of_nonneg h0] at hself hexp ⊢
    have hle := le_nearest (n := 1) hexp (by rwa [Int.cast_one, one_mul])
    rw [Int.cast_one, one_mul] at hle
    exact hle.trans (le_abs_self _)
  · rw [abs_of_nonpos h0] at hself hexp ⊢
    have hle := nearest_le (x := x) (n := -1) hexp
      (by rw [Int.cast_neg, Int.cast_one, neg_one_mul]; exact le_neg_of_le_neg hself)
    rw [Int.cast_neg, Int.cast_one, neg_one_mul] at hle
    exact (le_neg_of_le_neg hle).trans (neg_le_abs _)

/-- Below `2 ^ 53` the last bit is at most one. -/
theorem exponent_nonpos {x : K} (h : |x| < 2 ^ 53) : exponent x ≤ 0 := by
  rcases eq_or_lt_of_le (abs_nonneg x) with hx | hx
  · rw [exponent, ← hx, Int.log_zero_right]
    decide
  · have hlog : Int.log 2 |x| < 53 := (Int.lt_zpow_iff_log_lt (by decide) hx).mp (by exact_mod_cast h)
    exact max_le (by omega) (by decide)

theorem floor_le_nearest {x : K} (h : |x| < 2 ^ 53) : (⌊x⌋ : K) ≤ nearest x := by
  have hle := le_nearest (n := ⌊x⌋) (exponent_nonpos h) (by simpa using Int.floor_le x)
  simpa using hle

theorem nearest_le_ceil {x : K} (h : |x| < 2 ^ 53) : nearest x ≤ (⌈x⌉ : K) := by
  have hle := nearest_le (n := ⌈x⌉) (exponent_nonpos h) (by simpa using Int.le_ceil x)
  simpa using hle

/-- What rounding and truncation together do to a number. -/
theorem abs_sub_truncate_nearest_lt {x : K} (h : |x| < 2 ^ 53) :
    |x - truncate (nearest x)| < 1 := by
  have hbounds : ⌊x⌋ ≤ truncate (nearest x) ∧ truncate (nearest x) ≤ ⌈x⌉ := by
    rcases le_or_gt 0 (nearest x) with h0 | h0
    · rw [truncate_of_nonneg h0]
      refine ⟨Int.le_floor.mpr (floor_le_nearest h), ?_⟩
      exact_mod_cast (Int.floor_le _).trans (nearest_le_ceil h)
    · rw [truncate_of_neg h0]
      refine ⟨?_, Int.ceil_le.mpr (nearest_le_ceil h)⟩
      exact_mod_cast (floor_le_nearest h).trans (Int.le_ceil _)
  have hfloor : (⌊x⌋ : K) ≤ truncate (nearest x) := Int.cast_le.mpr hbounds.1
  have hceil : (truncate (nearest x) : K) ≤ ⌈x⌉ := Int.cast_le.mpr hbounds.2
  rw [abs_lt]
  constructor
  · linarith [Int.ceil_lt_add_one x]
  · linarith [Int.lt_floor_add_one x]

/-- A small integer comes from a small number only. -/
theorem abs_lt_of_truncate_nearest {x : K} (h : |truncate (nearest x)| < 2 ^ 53) :
    |x| < 2 ^ 53 := by
  by_contra hx
  have hle : (2 : K) ^ (53 : Int) ≤ |nearest x| :=
    zpow_le_abs_nearest (by decide) (by exact_mod_cast not_lt.mp hx)
  have hfloor : (2 ^ 53 : Int) ≤ |truncate (nearest x)| := by
    rw [abs_truncate]
    exact Int.le_floor.mpr (by exact_mod_cast hle)
  omega

end Binary64
