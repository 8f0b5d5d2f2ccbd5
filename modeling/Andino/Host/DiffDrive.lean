import Mathlib
import Andino.Host.MotorDriver

/-!
# The hardware interface

`DiffDriveAndino::read` stores the two counts of the motor driver in the wheels
and derives positions and velocities from them. The count of a wheel is an
`unsigned int`, so a negative count is stored `2 ^ 32` too high. Angles and times
are elements of an ordered field, and nothing is rounded.
-/
namespace AndinoBase

open CArith CString Decimal

variable {K : Type} [Field K]

structure Wheel (K : Type) where
  enc : UInt32
  pos : K
  vel : K
  radsPerTick : K

namespace Wheel

/-- A wheel after `Setup`. -/
def setup (radsPerTick : K) : Wheel K := ⟨0, 0, 0, radsPerTick⟩

/-- Conversion of `int` to `unsigned int`. -/
def toUnsigned (x : Int) : UInt32 := UInt32.ofNat (x % 2 ^ 32).toNat

def angle (w : Wheel K) : K := (w.enc.toNat : K) * w.radsPerTick

/-- The statements of `read` about one wheel. -/
def update (w : Wheel K) (count : Int) (deltaSecs : K) : Wheel K :=
  let w := { w with enc := toUnsigned count }
  let posPrev := w.pos
  let w := { w with pos := w.angle }
  { w with vel := (w.pos - posPrev) / deltaSecs }

end Wheel

inductive ReturnType where
  | ok | error
  deriving DecidableEq, Repr

structure DiffDrive (K : Type) where
  leftWheel : Wheel K
  rightWheel : Wheel K

namespace DiffDrive

def setup (radsPerTick : K) : DiffDrive K := ⟨.setup radsPerTick, .setup radsPerTick⟩

/-- `read`, with what `ReadEncoderValues` returns; `none` if the port is not open. -/
def read (d : DiffDrive K) (encoders : Option (Int × Int)) (deltaSecs : K) :
    ReturnType × DiffDrive K :=
  match encoders with
  | none => (.error, d)
  | some (left, right) =>
    (.ok, ⟨d.leftWheel.update left deltaSecs, d.rightWheel.update right deltaSecs⟩)

end DiffDrive

/-! ## Odometry -/

section Odometry

variable [LinearOrder K] [IsStrictOrderedRing K]

/-- The unsigned count is the signed one exactly when that is not negative. -/
theorem toUnsigned_toNat_eq_iff (x : HostInt) :
    ((Wheel.toUnsigned x).toNat : Int) = x ↔ 0 ≤ x.1 := by
  have h := (fits_thirtyTwo _).mp x.2
  rw [Wheel.toUnsigned, UInt32.toNat_ofNat']
  omega

/-- What one `read` of the motor driver returns, and the time since the last one. -/
structure Reading (K : Type) [Field K] [LinearOrder K] where
  left : HostInt
  right : HostInt
  period : K
  period_pos : 0 < period

/-- Position and velocity as the signed counts ask for. -/
def Wheel.Signed (w : Wheel K) (radsPerTick : K) (prev count : Int) (period : K) : Prop :=
  w.pos = count * radsPerTick ∧ w.vel * period = (count - prev) * radsPerTick

namespace DiffDrive

/-- Both wheels are as the signed counts ask for after every read. -/
def SignedOdometry (radsPerTick : K) (d : DiffDrive K) (prev : Int × Int) :
    List (Reading K) → Prop
  | [] => True
  | x :: xs =>
    let d' := (d.read (some (x.left, x.right)) x.period).2
    d'.leftWheel.Signed radsPerTick prev.1 x.left x.period ∧
      d'.rightWheel.Signed radsPerTick prev.2 x.right x.period ∧
      SignedOdometry radsPerTick d' (x.left, x.right) xs

/-- The sums of `vel_ * period` over a sequence of reads. -/
def travelled (d : DiffDrive K) : List (Reading K) → K × K
  | [] => (0, 0)
  | x :: xs =>
    let d' := (d.read (some (x.left, x.right)) x.period).2
    let rest := travelled d' xs
    (d'.leftWheel.vel * x.period + rest.1, d'.rightWheel.vel * x.period + rest.2)

/-- The last counts of a sequence of reads. -/
def lastCounts (prev : Int × Int) (xs : List (Reading K)) : Int × Int :=
  xs.foldl (fun _ x => (x.left.1, x.right.1)) prev

end DiffDrive

/-- A wheel that stands at its previous signed position takes the signed step
exactly when the new count is not negative. -/
theorem Wheel.signed_update_iff (w : Wheel K) (prev : Int) (count : HostInt) (period : K)
    (hr : 0 < w.radsPerTick) (hp : 0 < period) (hpos : w.pos = prev * w.radsPerTick) :
    (w.update count period).Signed w.radsPerTick prev count period ↔ 0 ≤ count.1 := by
  have hcast : (((Wheel.toUnsigned count).toNat : Int) : K) = ((Wheel.toUnsigned count).toNat : K) :=
    Int.cast_natCast _
  constructor
  · intro h
    have hmul : ((Wheel.toUnsigned count).toNat : K) * w.radsPerTick = (count.1 : K) * w.radsPerTick :=
      h.1
    have heq := mul_right_cancel₀ (ne_of_gt hr) hmul
    rw [← hcast] at heq
    exact (toUnsigned_toNat_eq_iff count).mp (Int.cast_injective heq)
  · intro hn
    have heq : ((Wheel.toUnsigned count).toNat : K) = count.1 := by
      rw [← hcast, (toUnsigned_toNat_eq_iff count).mpr hn]
    have hangle : (w.update count period).pos = count * w.radsPerTick := by
      change ((Wheel.toUnsigned count).toNat : K) * w.radsPerTick = _
      rw [heq]
    refine ⟨hangle, ?_⟩
    change ((w.update count period).pos - w.pos) / period * period = _
    rw [div_mul_cancel₀ _ (ne_of_gt hp), hangle, hpos]
    ring

namespace DiffDrive

/-- From wheels at their signed positions, odometry is signed exactly as long as
no count is negative. -/
theorem signedOdometry_iff (radsPerTick : K) (hr : 0 < radsPerTick) (d : DiffDrive K)
    (prev : Int × Int) (hl : d.leftWheel.radsPerTick = radsPerTick)
    (hrr : d.rightWheel.radsPerTick = radsPerTick) (hpl : d.leftWheel.pos = prev.1 * radsPerTick)
    (hpr : d.rightWheel.pos = prev.2 * radsPerTick) (xs : List (Reading K)) :
    d.SignedOdometry radsPerTick prev xs ↔ ∀ x ∈ xs, 0 ≤ x.left.1 ∧ 0 ≤ x.right.1 := by
  induction xs generalizing d prev with
  | nil => simp [SignedOdometry]
  | cons x xs ih =>
    subst hl
    have hleft := Wheel.signed_update_iff d.leftWheel prev.1 x.left x.period hr x.period_pos hpl
    have hright := Wheel.signed_update_iff d.rightWheel prev.2 x.right x.period (hrr ▸ hr)
      x.period_pos (by rw [hrr]; exact hpr)
    rw [hrr] at hright
    have hrest := ih (d.read (some (x.left, x.right)) x.period).2 (x.left, x.right) rfl hrr
    rw [List.forall_mem_cons, ← hleft, ← hright]
    constructor
    · rintro ⟨h₁, h₂, h₃⟩
      exact ⟨⟨h₁, h₂⟩, (hrest h₁.1 h₂.1).mp h₃⟩
    · rintro ⟨⟨h₁, h₂⟩, h₃⟩
      exact ⟨h₁, h₂, (hrest h₁.1 h₂.1).mpr h₃⟩

omit [IsStrictOrderedRing K] in
/-- Signed steps add up to the signed displacement. -/
theorem travelled_eq (radsPerTick : K) (d : DiffDrive K) (prev : Int × Int)
    (xs : List (Reading K)) (h : d.SignedOdometry radsPerTick prev xs) :
    d.travelled xs =
      (((lastCounts prev xs).1 - prev.1) * radsPerTick,
        ((lastCounts prev xs).2 - prev.2) * radsPerTick) := by
  induction xs generalizing d prev with
  | nil => simp [travelled, lastCounts]
  | cons x xs ih =>
    obtain ⟨h₁, h₂, h₃⟩ := h
    have hlast : lastCounts prev (x :: xs) = lastCounts (x.left.1, x.right.1) xs := rfl
    simp only [travelled, ih _ _ h₃, h₁.2, h₂.2, hlast]
    refine Prod.ext ?_ ?_ <;> ring

/-- Positions, velocities and travelled distance are the signed ones over a whole
sequence of reads if and only if no count in it is negative. -/
theorem signed_odometry (radsPerTick : K) (hr : 0 < radsPerTick) (xs : List (Reading K)) :
    ((setup radsPerTick).SignedOdometry radsPerTick (0, 0) xs ∧
      (setup radsPerTick).travelled xs =
        ((lastCounts (0, 0) xs).1 * radsPerTick, (lastCounts (0, 0) xs).2 * radsPerTick)) ↔
    ∀ x ∈ xs, 0 ≤ x.left.1 ∧ 0 ≤ x.right.1 := by
  have hiff := signedOdometry_iff radsPerTick hr (setup radsPerTick) (0, 0) rfl rfl
    (by simp [setup, Wheel.setup]) (by simp [setup, Wheel.setup]) xs
  rw [← hiff]
  refine ⟨And.left, fun h => ⟨h, ?_⟩⟩
  have ht := travelled_eq radsPerTick _ (0, 0) xs h
  simpa using ht

/-- Two seconds of driving forward. -/
theorem signed_odometry_forward :
    (0 : Rat) < 1 / 2 ∧
      (((setup (1 / 2 : Rat)).SignedOdometry (1 / 2) (0, 0)
          [⟨⟨3, by decide⟩, ⟨4, by decide⟩, 1, by norm_num⟩,
            ⟨⟨7, by decide⟩, ⟨2, by decide⟩, 1, by norm_num⟩] ∧
        (setup (1 / 2 : Rat)).travelled
            [⟨⟨3, by decide⟩, ⟨4, by decide⟩, 1, by norm_num⟩,
              ⟨⟨7, by decide⟩, ⟨2, by decide⟩, 1, by norm_num⟩] =
          (7 * (1 / 2), 2 * (1 / 2)))) := by
  refine ⟨by norm_num, ?_⟩
  exact (signed_odometry (1 / 2 : Rat) (by norm_num) _).mpr (by simp)

/-- One tick backwards from zero is read as `2 ^ 32 - 1` ticks forwards. -/
theorem signed_odometry_backward :
    ¬ (setup (1 : Rat)).SignedOdometry 1 (0, 0)
      [⟨⟨-1, by decide⟩, ⟨0, by decide⟩, 1, by norm_num⟩] := by
  rintro ⟨⟨hpos, -⟩, -, -⟩
  have hangle : ((setup (1 : Rat)).read (some (-1, 0)) 1).2.leftWheel.pos = 4294967295 := by
    change ((Wheel.toUnsigned (-1)).toNat : Rat) * 1 = _
    rw [show (Wheel.toUnsigned (-1)).toNat = 4294967295 from rfl]
    norm_num
  rw [hangle] at hpos
  norm_num at hpos

end DiffDrive

end Odometry

/-! ## Failed reads -/

namespace DiffDrive

/-- `read` with the outcome of the serial exchange: `none` if the port is closed,
else what `SendMsg` returns, which after a timeout is what had arrived before. -/
def readSerial (d : DiffDrive K) (exchange : Option (List Byte)) (deltaSecs : K) :
    ReturnType × DiffDrive K :=
  d.read (exchange.map MotorDriver.encoderValues) deltaSecs

/-- Success on two integers with both wheels updated from them, or an error and
wheels as they were. -/
def SafeRead (d : DiffDrive K) (exchange : Option (List Byte)) (deltaSecs : K) : Prop :=
  (∃ response a b, exchange = some response ∧ TwoIntegers response a b ∧
    d.readSerial exchange deltaSecs =
      (.ok, ⟨d.leftWheel.update a deltaSecs, d.rightWheel.update b deltaSecs⟩)) ∨
  d.readSerial exchange deltaSecs = (.error, d)

/-- A read is safe exactly when the port is closed or the reply is two integers:
with an open port `read` never reports an error. -/
theorem safeRead_iff (d : DiffDrive K) (exchange : Option (List Byte)) (deltaSecs : K) :
    d.SafeRead exchange deltaSecs ↔
      exchange = none ∨ ∃ response a b, exchange = some response ∧ TwoIntegers response a b := by
  constructor
  · rintro (⟨response, a, b, he, h, -⟩ | h)
    · exact .inr ⟨response, a, b, he, h⟩
    · cases exchange with
      | none => exact .inl rfl
      | some response => exact absurd (congrArg Prod.fst h) (by simp [readSerial, read])
  · rintro (rfl | ⟨response, a, b, rfl, h⟩)
    · exact .inr rfl
    · refine .inl ⟨response, a, b, rfl, h, ?_⟩
      rw [readSerial, Option.map_some, encoderValues_twoIntegers h]
      rfl

/-- A timeout without a single byte is reported as a successful read of `(0, 0)`. -/
theorem safeRead_timeout :
    ¬ (⟨⟨100, 50, 0, 1 / 2⟩, ⟨100, 50, 0, 1 / 2⟩⟩ : DiffDrive Rat).SafeRead (some []) 1 := by
  rintro (⟨response, a, b, h, ⟨u, v, e, he, -⟩, -⟩ | h)
  · rw [Option.some.injEq] at h
    rw [← h] at he
    exact absurd he (by simp)
  · exact absurd (congrArg Prod.fst h) (by simp [readSerial, read])

end DiffDrive

end AndinoBase
