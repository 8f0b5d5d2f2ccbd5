import Andino.Library.CArith

/-!
# The motors

A motor drives two PWM outputs of a full bridge. `setSpeedWrites` is the list of
writes `Motor::set_speed` performs, in order; the state keeps what each output
was last written.
-/
namespace AndinoFirmware

open CArith

inductive PwmOut where
  | forward | backward
  deriving DecidableEq, Repr

/-- `lastSpeed` is a ghost: the argument of the last `set_speed`, `none` before the
first one. No function reads it. -/
structure Motor where
  enabled : Bool := false
  forward : Int := 0
  backward : Int := 0
  lastSpeed : Option Int := none
  deriving DecidableEq, Repr

namespace Motor

variable (t : Target)

/-- `Motor::kMaxSpeed`; `kMinSpeed` is zero. -/
def kMaxSpeed : Int := 255

def enable (m : Motor) (enabled : Bool) : Motor := { m with enabled := enabled }

def write (m : Motor) : PwmOut × Int → Motor
  | (.forward, v) => { m with forward := v }
  | (.backward, v) => { m with backward := v }

def setSpeedWrites (speed : Int) : List (PwmOut × Int) :=
  let forward := ¬ speed < 0
  let speed := if speed < 0 then t.int (-speed) else speed
  let speed := if speed > kMaxSpeed then kMaxSpeed else speed
  if forward then [(.forward, speed), (.backward, 0)] else [(.backward, speed), (.forward, 0)]

def setSpeed (m : Motor) (speed : Int) : Motor :=
  { (setSpeedWrites t speed).foldl write m with lastSpeed := some speed }

/-- Some output of the bridge is active. -/
def Active (m : Motor) : Prop := m.forward ≠ 0 ∨ m.backward ≠ 0

instance (m : Motor) : Decidable m.Active := inferInstanceAs (Decidable (_ ∨ _))

/-- A motor set to zero is at rest. -/
theorem setSpeed_zero (m : Motor) : ¬ (m.setSpeed t 0).Active := by
  simp [Active, setSpeed, setSpeedWrites, write, kMaxSpeed]

/-! The two ways through `setSpeed`, over the integers. -/

theorem setSpeed_of_nonneg (m : Motor) {s : Int} (h : 0 ≤ s) :
    m.setSpeed exact s =
      { m with
        forward := if s > kMaxSpeed then kMaxSpeed else s, backward := 0, lastSpeed := some s } := by
  have hneg : ¬ s < 0 := by omega
  simp [setSpeed, setSpeedWrites, write, hneg]

theorem setSpeed_of_neg (m : Motor) {s : Int} (h : s < 0) :
    m.setSpeed exact s =
      { m with
        forward := 0, backward := if -s > kMaxSpeed then kMaxSpeed else -s, lastSpeed := some s } := by
  simp [setSpeed, setSpeedWrites, write, h, exact]

/-- Any other speed activates an output. -/
theorem active_setSpeed (m : Motor) {s : Int} (h : s ≠ 0) : (m.setSpeed exact s).Active := by
  have hmax : kMaxSpeed = 255 := rfl
  rcases Int.lt_or_gt_of_ne h with hneg | hpos
  · rw [setSpeed_of_neg m hneg]
    right
    dsimp only
    split <;> omega
  · rw [setSpeed_of_nonneg m (Int.le_of_lt hpos)]
    left
    dsimp only
    split <;> omega

end Motor

end AndinoFirmware
