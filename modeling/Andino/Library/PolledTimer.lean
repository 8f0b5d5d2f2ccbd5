import Mathlib.Data.Nat.Basic

/-!
# Polled timers

A task that is due once more than `P` has passed since it last ran, by a clock that wraps
around and is only read now and then. The clock is read twice, once for the check and once
for what the timer keeps. What carries the results is that the timer stands for a true time
which the last check has left behind by at most `P`, so that the wrapped difference is the
true one as long as the gaps between checks are short against the period of the clock.
-/

/-- A clock that wraps around: differences below the modulus are read off as they are. -/
structure WrappingClock (κ : Type) where
  modulus : Nat
  read : Nat → κ
  elapsed : κ → κ → Nat
  elapsed_read : ∀ {a b : Nat}, a ≤ b → b < a + modulus → elapsed (read b) (read a) = b - a

namespace PolledTimer

/-- The time of a check and the time that the timer keeps if it is due. -/
structure Poll where
  check : Nat
  store : Nat
  deriving DecidableEq, Repr

variable {κ : Type} (clock : WrappingClock κ) (P : Nat)

/-- The polls at which the task runs. -/
def fires (last : κ) : List Poll → List Poll
  | [] => []
  | p :: ps =>
    if clock.elapsed (clock.read p.check) last > P then p :: fires (clock.read p.store) ps
    else fires last ps

/-- From `now` on, with the last check made at `prev`: the clock never runs backwards, checks
are at most `G` apart and the second reading is at most `L` behind the first. -/
def Spaced (G L prev now : Nat) : List Poll → Prop
  | [] => True
  | p :: ps =>
    now ≤ p.check ∧ p.check ≤ p.store ∧ p.check ≤ prev + G ∧ p.store ≤ p.check + L ∧
      Spaced G L p.check p.store ps

instance decidableSpaced (G L : Nat) : ∀ prev now ps, Decidable (Spaced G L prev now ps)
  | _, _, [] => isTrue trivial
  | _, _, p :: ps =>
    have := decidableSpaced G L p.check p.store ps
    inferInstanceAs (Decidable (_ ∧ _ ∧ _ ∧ _ ∧ _))

/-- Each run comes more than `P` and at most `P + G` after the time kept by the one before. -/
def Paced (G start : Nat) : List Poll → Prop
  | [] => True
  | p :: ps => start + P < p.check ∧ p.check ≤ start + P + G ∧ Paced G p.store ps

/-- The time behind the last poll. -/
def finish (now : Nat) : List Poll → Nat
  | [] => now
  | p :: ps => finish p.store ps

variable {P} {G L : Nat}

/-- What a poll finds, if the timer stands for `start`. -/
theorem elapsed_poll {prev now start : Nat} {p : Poll} {ps : List Poll}
    (h : Spaced G L prev now (p :: ps)) (hs : start ≤ now) (hprev : prev ≤ start + P)
    (hwrap : P + G < clock.modulus) :
    clock.elapsed (clock.read p.check) (clock.read start) = p.check - start := by
  obtain ⟨hnow, -, hgap, -⟩ := h
  exact clock.elapsed_read (Nat.le_trans hs hnow) (by omega)

theorem paced_fires {prev now start : Nat} {ps : List Poll} (h : Spaced G L prev now ps)
    (hs : start ≤ now) (hprev : prev ≤ start + P) (hwrap : P + G < clock.modulus) :
    Paced P G start (fires clock P (clock.read start) ps) := by
  induction ps generalizing prev now start with
  | nil => trivial
  | cons p ps ih =>
    have helapsed := elapsed_poll clock h hs hprev hwrap
    obtain ⟨hnow, hstore, hgap, -, hrest⟩ := h
    rw [fires, helapsed]
    split
    case isTrue hdue => exact ⟨by omega, by omega, ih hrest (Nat.le_refl _) (by omega)⟩
    case isFalse hdue => exact ih hrest (by omega) (by omega)

/-- How often the task runs in a given time. -/
theorem finish_bounds {prev now start : Nat} {ps : List Poll} (h : Spaced G L prev now ps)
    (hs : start ≤ now) (hprev : prev ≤ start + P) (hnow : now ≤ prev + L)
    (hwrap : P + G < clock.modulus) :
    start + (P + 1) * (fires clock P (clock.read start) ps).length ≤ finish now ps ∧
      finish now ps ≤
        start + (P + G + L) * (fires clock P (clock.read start) ps).length + P + L := by
  induction ps generalizing prev now start with
  | nil =>
    simp only [fires, finish, List.length_nil, Nat.mul_zero, Nat.add_zero]
    omega
  | cons p ps ih =>
    have helapsed := elapsed_poll clock h hs hprev hwrap
    obtain ⟨hle, hstore, hgap, hlag, hrest⟩ := h
    rw [fires, helapsed, finish]
    split
    case isTrue hdue =>
      have hih := ih hrest (Nat.le_refl p.store) (by omega) hlag
      rw [List.length_cons, Nat.mul_succ, Nat.mul_succ]
      omega
    case isFalse hdue => exact ih hrest (by omega) (by omega) hlag

end PolledTimer
