import Mathlib.Data.Int.ModEq

/-!
# Two's complement conversions and C integer arithmetic

A C program fixes neither the width of its integers nor what a division by zero
leaves behind. `Target` keeps exactly what the language promises: both types
hold every value of their minimal width, and a quotient with a nonzero divisor
truncates toward zero. `avr` and `exact` are two instances: the 16/32-bit boards
with wrapping conversions, and arithmetic over the mathematical integers.
-/
namespace CArith

/-- The signed values of `w` bits. -/
def Fits (w : Nat) (x : Int) : Prop := -2 ^ (w - 1) ≤ x ∧ x < 2 ^ (w - 1)

instance (w : Nat) (x : Int) : Decidable (Fits w x) := inferInstanceAs (Decidable (_ ∧ _))

/-- Conversion to a signed type of `w` bits, keeping the low bits. -/
def wrap (w : Nat) (x : Int) : Int := x.bmod (2 ^ w)

theorem fits_sixteen (x : Int) : Fits 16 x ↔ -32768 ≤ x ∧ x ≤ 32767 := by
  unfold Fits
  omega

theorem fits_thirtyTwo (x : Int) : Fits 32 x ↔ -2147483648 ≤ x ∧ x ≤ 2147483647 := by
  unfold Fits
  omega

/-- Every signed width is a power of two split evenly around zero. -/
theorem two_pow_width (w : Nat) (hw : 0 < w) : ((2 ^ w : Nat) : Int) = 2 * 2 ^ (w - 1) := by
  obtain ⟨v, rfl⟩ := Nat.exists_eq_succ_of_ne_zero (by omega : w ≠ 0)
  push_cast
  rw [Nat.succ_eq_add_one, pow_succ, mul_comm]

theorem wrap_fits (w : Nat) (hw : 0 < w) (x : Int) : Fits w (wrap w x) := by
  have hp := two_pow_width w hw
  have hpos : 0 < 2 ^ w := Nat.two_pow_pos w
  have hlo := Int.le_bmod (x := x) hpos
  have hhi := Int.bmod_lt (x := x) hpos
  unfold Fits wrap
  omega

theorem wrap_of_fits (w : Nat) (hw : 0 < w) (x : Int) (h : Fits w x) : wrap w x = x := by
  have hp := two_pow_width w hw
  obtain ⟨hlo, hhi⟩ := h
  exact Int.bmod_eq_of_le (by omega) (by omega)

/-- Two integers keep the same low bits exactly if they are congruent. -/
theorem wrap_eq_wrap_iff (w : Nat) (x y : Int) :
    wrap w x = wrap w y ↔ Int.ModEq (2 ^ w) x y := by
  have hcast : ((2 ^ w : Nat) : Int) = 2 ^ w := by push_cast; rfl
  rw [wrap, wrap, Int.bmod_eq_bmod_iff_bmod_sub_eq_zero, ← Int.dvd_iff_bmod_eq_zero, hcast,
    Int.modEq_comm, Int.modEq_iff_dvd]

theorem wrap_modEq (w : Nat) (x : Int) : Int.ModEq (2 ^ w) (wrap w x) x :=
  (wrap_eq_wrap_iff w _ _).mp Int.bmod_bmod

theorem modEq_sixteen {x y : Int} (h : Int.ModEq (2 ^ 32) x y) : Int.ModEq (2 ^ 16) x y :=
  h.of_dvd (by decide)

/-- A narrower conversion forgets a wider one. -/
theorem wrap_wrap_of_le {v w : Nat} (h : v ≤ w) (x : Int) : wrap v (wrap w x) = wrap v x :=
  Int.bmod_bmod_of_dvd (Nat.pow_dvd_pow 2 h)

/-- The smallest value is its own negation. -/
theorem wrap_lowest (w : Nat) (hw : 0 < w) : wrap w (2 ^ (w - 1)) = -2 ^ (w - 1) := by
  have hp := two_pow_width w hw
  have hpos : (0 : Int) < 2 ^ (w - 1) := Int.pow_pos (by decide)
  have hmod : wrap w (2 ^ (w - 1)) = wrap w (-2 ^ (w - 1)) := by
    rw [wrap_eq_wrap_iff, Int.modEq_iff_dvd]
    exact ⟨-1, by push_cast at hp; omega⟩
  rw [hmod, wrap_of_fits w hw _ ⟨le_refl _, by omega⟩]

/-- What a C++ implementation promises about `int`, `long` and integer division. -/
structure Target where
  int : Int → Int
  long : Int → Int
  quot : Int → Int → Int
  int_of_fits : ∀ x, Fits 16 x → int x = x
  long_of_fits : ∀ x, Fits 32 x → long x = x
  quot_of_ne_zero : ∀ a b, b ≠ 0 → quot a b = a.tdiv b

/-- 16-bit `int`, 32-bit `long`, wrapping conversions. What the division routine
returns for a zero divisor is left to `zeroQuot`. -/
def avr (zeroQuot : Int → Int) : Target where
  int := wrap 16
  long := wrap 32
  quot a b := if b = 0 then zeroQuot a else a.tdiv b
  int_of_fits x h := wrap_of_fits 16 (by decide) x h
  long_of_fits x h := wrap_of_fits 32 (by decide) x h
  quot_of_ne_zero a b h := by simp [h]

/-- Integers without a width. -/
def exact : Target where
  int := id
  long := id
  quot := Int.tdiv
  int_of_fits _ _ := rfl
  long_of_fits _ _ := rfl
  quot_of_ne_zero _ _ _ := rfl

theorem avr_long_fits (zeroQuot : Int → Int) (x : Int) : Fits 32 ((avr zeroQuot).long x) :=
  wrap_fits 32 (by decide) x

end CArith
