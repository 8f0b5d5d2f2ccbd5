import Mathlib.Algebra.Order.Group.OrderIso
import Mathlib.Algebra.Order.Group.Defs
import Mathlib.Order.Interval.Set.Defs

/-!
# Saturation

A value limited from above and from below, with the comparisons in the order in which
controllers usually make them. What a controller relies on: the result is within the
limits, it follows the value as far as they let it, and symmetric limits treat both
signs alike.
-/
namespace Saturation

section Order

variable {α : Type} [LinearOrder α] {lo hi x y : α}

def saturate (lo hi x : α) : α := if hi ≤ x then hi else if x ≤ lo then lo else x

theorem saturate_of_le (h : hi ≤ x) : saturate lo hi x = hi := if_pos h

theorem saturate_of_ge (hmax : ¬ hi ≤ x) (hmin : x ≤ lo) : saturate lo hi x = lo :=
  (if_neg hmax).trans (if_pos hmin)

theorem saturate_of_between (hmax : ¬ hi ≤ x) (hmin : ¬ x ≤ lo) : saturate lo hi x = x :=
  (if_neg hmax).trans (if_neg hmin)

theorem saturate_mem (h : lo ≤ hi) (x : α) : saturate lo hi x ∈ Set.Icc lo hi := by
  by_cases hmax : hi ≤ x
  · rw [saturate_of_le hmax]
    exact ⟨h, le_refl hi⟩
  · by_cases hmin : x ≤ lo
    · rw [saturate_of_ge hmax hmin]
      exact ⟨le_refl lo, h⟩
    · rw [saturate_of_between hmax hmin]
      exact ⟨le_of_not_ge hmin, le_of_not_ge hmax⟩

/-- A value within the limits is kept. -/
theorem saturate_of_mem (h : y ∈ Set.Icc lo hi) : saturate lo hi y = y := by
  obtain ⟨hmin, hmax⟩ := h
  by_cases hle : hi ≤ y
  · rw [saturate_of_le hle]
    exact le_antisymm hle hmax
  · by_cases hge : y ≤ lo
    · rw [saturate_of_ge hle hge]
      exact le_antisymm hmin hge
    · exact saturate_of_between hle hge

/-- Above a value within the limits, the result is above it too, up to the limit. -/
theorem lt_saturate (h : y ∈ Set.Icc lo hi) (hxy : y < x) (hne : y ≠ hi) :
    y < saturate lo hi x := by
  by_cases hmax : hi ≤ x
  · rw [saturate_of_le hmax]
    exact lt_of_le_of_ne h.2 hne
  · have hmin : ¬ x ≤ lo := not_le_of_gt (lt_of_le_of_lt h.1 hxy)
    rw [saturate_of_between hmax hmin]
    exact hxy

theorem saturate_lt (h : y ∈ Set.Icc lo hi) (hxy : x < y) (hne : y ≠ lo) :
    saturate lo hi x < y := by
  have hmax : ¬ hi ≤ x := not_le_of_gt (lt_of_lt_of_le hxy h.2)
  by_cases hmin : x ≤ lo
  · rw [saturate_of_ge hmax hmin]
    exact lt_of_le_of_ne h.1 (Ne.symm hne)
  · rw [saturate_of_between hmax hmin]
    exact hxy

/-- A value within the limits results from itself, and a limit from all that is beyond. -/
theorem saturate_eq_iff (h : y ∈ Set.Icc lo hi) :
    saturate lo hi x = y ↔ x = y ∨ (y < x ∧ y = hi) ∨ (x < y ∧ y = lo) := by
  constructor
  · intro heq
    rcases lt_trichotomy x y with hlt | rfl | hgt
    · right
      right
      refine ⟨hlt, ?_⟩
      by_contra hne
      exact absurd heq (ne_of_lt (saturate_lt h hlt hne))
    · exact .inl rfl
    · right
      left
      refine ⟨hgt, ?_⟩
      by_contra hne
      exact absurd heq (ne_of_gt (lt_saturate h hgt hne))
  · rintro (rfl | ⟨hlt, rfl⟩ | ⟨hlt, rfl⟩)
    · exact saturate_of_mem h
    · exact saturate_of_le (le_of_lt hlt)
    · exact saturate_of_ge (not_le_of_gt (lt_of_lt_of_le hlt h.2)) (le_of_lt hlt)

end Order

section Group

variable {α : Type} [AddCommGroup α] [LinearOrder α] [IsOrderedAddMonoid α] {b x : α}

/-- Symmetric limits treat both signs alike. -/
theorem saturate_neg (h : 0 ≤ b) (x : α) : saturate (-b) b (-x) = -saturate (-b) b x := by
  have hb : -b ≤ b := le_trans (neg_nonpos.mpr h) h
  by_cases hmax : b ≤ x
  · rw [saturate_of_le hmax, saturate_eq_iff ⟨le_refl _, hb⟩]
    rcases eq_or_lt_of_le hmax with heq | hlt
    · exact .inl (congrArg Neg.neg heq.symm)
    · exact .inr (.inr ⟨neg_lt_neg hlt, rfl⟩)
  · by_cases hmin : x ≤ -b
    · rw [saturate_of_ge hmax hmin, neg_neg]
      exact saturate_of_le (le_neg.mpr hmin)
    · rw [saturate_of_between hmax hmin]
      exact saturate_of_mem ⟨neg_le_neg (le_of_not_ge hmax), neg_le.mpr (le_of_not_ge hmin)⟩

end Group

end Saturation
