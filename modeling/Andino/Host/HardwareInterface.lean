import Andino.Library.Binary64
import Andino.Host.DiffDrive

/-!
# Set-up and commands of the hardware interface

`on_init` reads the parameters and checks the joints, `write` turns the commanded wheel
speeds into ticks per second. Both divide in double precision. The conversion to `int`
truncates, and is defined only as long as `int` holds the result. `on_activate` and
`on_deactivate` touch nothing: the commands of the wheels outlive both, and no stop is sent.
-/
namespace AndinoBase

open CArith CString Decimal Truncation

/-! ## Set-up -/

/-- What `std::stoi` throws. -/
inductive StoiError where
  | invalidArgument
  | outOfRange
  deriving DecidableEq, Repr

/-- There is a digit behind the blanks and the sign. -/
def startsNumber (s : List Byte) : Bool :=
  match s.dropWhile isSpace with
  | 45 :: r => r.head?.any isDigit
  | 43 :: r => r.head?.any isDigit
  | r => r.head?.any isDigit

def stoi (s : List Byte) : Except StoiError HostInt :=
  if startsNumber s then
    if h : Fits 32 (scanInt s) then .ok ⟨scanInt s, h⟩ else .error .outOfRange
  else .error .invalidArgument

inductive CallbackReturn where
  | success
  | failure
  | error
  deriving DecidableEq, Repr

/-- A joint with the sizes of its lists of interfaces. -/
structure ComponentInfo where
  name : List Byte
  commandInterfaces : Nat
  stateInterfaces : Nat

/-- `operator[]` finds an empty text under a name that is not there. -/
structure HardwareInfo where
  hardwareParameters : List Byte → List Byte
  joints : List ComponentInfo

structure Config where
  leftWheelName : List Byte
  rightWheelName : List Byte
  serialDevice : List Byte
  baudRate : HostInt
  timeout : HostInt
  encTicksPerRev : HostInt

namespace DiffDrive

def kLeftWheelNameParam : List Byte := ascii "left_wheel_name"
def kRightWheelNameParam : List Byte := ascii "right_wheel_name"
def kSerialDeviceParam : List Byte := ascii "serial_device"
def kBaudRateParam : List Byte := ascii "baud_rate"
def kTimeoutParam : List Byte := ascii "timeout"
def kEncTicksPerRevParam : List Byte := ascii "enc_ticks_per_rev"

/-- The fatal message about a joint, if there is one; both ask for one interface. -/
def checkJoint (joint : ComponentInfo) : Option (List Byte) :=
  if joint.commandInterfaces ≠ 1 then
    some (ascii "Joint '" ++ joint.name ++ ascii "' has " ++ decimal joint.commandInterfaces ++
      ascii " command interfaces found. 1 expected.")
  else if joint.stateInterfaces ≠ 2 then
    some (ascii "Joint '" ++ joint.name ++ ascii "' has " ++ decimal joint.stateInterfaces ++
      ascii " state interfaces found. 1 expected.")
  else none

/-- The loop over the joints ends at the first message. -/
def checkJoints (joints : List ComponentInfo) : Option (List Byte) :=
  joints.findSome? checkJoint

/-- The statements of `on_init` that fill the configuration. -/
def configure (info : HardwareInfo) : Except StoiError Config := do
  let baudRate ← stoi (info.hardwareParameters kBaudRateParam)
  let timeout ← stoi (info.hardwareParameters kTimeoutParam)
  let encTicksPerRev ← stoi (info.hardwareParameters kEncTicksPerRevParam)
  return ⟨info.hardwareParameters kLeftWheelNameParam, info.hardwareParameters kRightWheelNameParam,
    info.hardwareParameters kSerialDeviceParam, baudRate, timeout, encTicksPerRev⟩

variable {K : Type} [Field K] [LinearOrder K] [IsStrictOrderedRing K] [FloorRing K]

/-- `M_PI`, the double next to the number. -/
def mPi : K := 884279719003555 / 2 ^ 48

/-- `Wheel::Setup`: radians per tick, where a revolution has any. Only the division rounds. -/
def radsPerTick (ticksPerRev : HostInt) : K := Binary64.nearest (2 * mPi / (ticksPerRev.1 : K))

/-- `on_init` of a new object, with what the base class reports. The wheels are set up
only on success. -/
def onInit (base : CallbackReturn) (info : HardwareInfo) :
    Except StoiError (CallbackReturn × Option (Config × DiffDrive K)) :=
  if base ≠ .success then .ok (.error, none)
  else
    match configure info with
    | .error e => .error e
    | .ok config =>
      match checkJoints info.joints with
      | some _ => .ok (.error, none)
      | none => .ok (.success, some (config, setup (radsPerTick config.encTicksPerRev)))

theorem checkJoint_eq_none (joint : ComponentInfo) :
    checkJoint joint = none ↔ joint.commandInterfaces = 1 ∧ joint.stateInterfaces = 2 := by
  unfold checkJoint
  split
  · rename_i h
    exact iff_of_false (by simp) (fun h' => h h'.1)
  · rename_i h₁
    split
    · rename_i h₂
      exact iff_of_false (by simp) (fun h' => h₂ h'.2)
    · rename_i h₂
      exact iff_of_true rfl ⟨of_not_not h₁, of_not_not h₂⟩

omit [IsStrictOrderedRing K] in
/-- Set-up succeeds exactly with three parameters that are integers and with one command and
two state interfaces on every joint. -/
theorem onInit_success_iff (base : CallbackReturn) (info : HardwareInfo) (config : Config)
    (d : DiffDrive K) :
    onInit base info = .ok (.success, some (config, d)) ↔
      base = .success ∧ configure info = .ok config ∧
      (∀ joint ∈ info.joints, joint.commandInterfaces = 1 ∧ joint.stateInterfaces = 2) ∧
      d = setup (radsPerTick config.encTicksPerRev) := by
  have hjoints : checkJoints info.joints = none ↔
      ∀ joint ∈ info.joints, joint.commandInterfaces = 1 ∧ joint.stateInterfaces = 2 := by
    rw [checkJoints, List.findSome?_eq_none_iff]
    exact forall₂_congr fun joint _ => checkJoint_eq_none joint
  rw [← hjoints]
  unfold onInit
  by_cases hbase : base = .success
  · rw [if_neg (not_not.mpr hbase)]
    cases hconfig : configure info with
    | error e => simp [hbase]
    | ok config' =>
      cases hcheck : checkJoints info.joints with
      | some message => simp
      | none =>
        simp only [Except.ok.injEq, Prod.mk.injEq, true_and, Option.some.injEq, hbase]
        constructor
        · rintro ⟨rfl, rfl⟩
          exact ⟨rfl, rfl⟩
        · rintro ⟨rfl, rfl⟩
          exact ⟨rfl, rfl⟩
  · rw [if_pos hbase]
    simp [hbase]

end DiffDrive

/-! ## Commands -/

variable {K : Type} [Field K] [LinearOrder K] [IsStrictOrderedRing K] [FloorRing K]

/-- `static_cast<int>` of a `double`. -/
def toInt (x : K) : Option HostInt :=
  if h : Fits 32 (truncate x) then some ⟨truncate x, h⟩ else none

/-- The members `cmd_` of the two wheels, which the controller writes. -/
structure Commands (K : Type) where
  left : K
  right : K

/-- Radians to ticks per second: the quotient is a double, and the conversion cuts it off. -/
def Wheel.valueTarget (w : Wheel K) (cmd : K) : Option HostInt :=
  toInt (Binary64.nearest (cmd / w.radsPerTick))

/-- `write`, with the call it makes of the motor driver; `none` if a conversion is not
defined. -/
def DiffDrive.write (d : DiffDrive K) (connected : Bool) (cmd : Commands K) :
    Option (ReturnType × Option Call) :=
  if connected = false then some (.error, none)
  else
    match d.leftWheel.valueTarget cmd.left, d.rightWheel.valueTarget cmd.right with
    | some leftValueTarget, some rightValueTarget =>
      some (.ok, some (.setMotorValues leftValueTarget rightValueTarget))
    | _, _ => none

omit [IsStrictOrderedRing K] in
theorem toInt_eq_some {x : K} {v : HostInt} (h : toInt x = some v) : v.1 = truncate x := by
  unfold toInt at h
  split at h
  · rw [← Option.some.inj h]
  · cases h

/-- A sent value is less than one tick per second from the command, on either side. -/
theorem Wheel.valueTarget_error {w : Wheel K} {cmd : K} {v : HostInt}
    (h : w.valueTarget cmd = some v) : |cmd / w.radsPerTick - v.1| < 1 := by
  have hv := toInt_eq_some h
  have hfit := (fits_thirtyTwo _).mp v.2
  have hsmall : |truncate (Binary64.nearest (cmd / w.radsPerTick))| < 2 ^ 53 := by
    rw [← hv, abs_lt]
    omega
  rw [hv]
  exact Binary64.abs_sub_truncate_nearest_lt (Binary64.abs_lt_of_truncate_nearest hsmall)

/-- The quotient of thirty ticks is below thirty, and the double next to it is not. -/
example : (Wheel.setup (DiffDrive.radsPerTick ⟨585, by decide⟩)).valueTarget
    (Binary64.nearest (30 * DiffDrive.radsPerTick ⟨585, by decide⟩) : Rat) =
      some ⟨30, by decide⟩ := by decide +kernel

/-- The radians per tick of a revolution are not rounded to zero. -/
theorem DiffDrive.radsPerTick_ne_zero {ticksPerRev : HostInt} (h : ticksPerRev.1 ≠ 0) :
    (radsPerTick ticksPerRev : K) ≠ 0 := by
  have hfit := (fits_thirtyTwo _).mp ticksPerRev.2
  have hpos : 0 < |(ticksPerRev.1 : K)| := abs_pos.mpr (Int.cast_ne_zero.mpr h)
  have hticks : |(ticksPerRev.1 : K)| ≤ 2 ^ 31 := by
    rw [← Int.cast_abs]
    have hle : |ticksPerRev.1| ≤ 2 ^ 31 := abs_le.mpr (by omega)
    exact_mod_cast hle
  have hquot : (2 : K) ^ (-31 : Int) ≤ |2 * mPi / (ticksPerRev.1 : K)| := by
    have htwo : (0 : K) < 2 * mPi := by norm_num [mPi]
    rw [abs_div, abs_of_pos htwo, le_div_iff₀ hpos]
    calc (2 : K) ^ (-31 : Int) * |(ticksPerRev.1 : K)| ≤ 2 ^ (-31 : Int) * 2 ^ 31 :=
          mul_le_mul_of_nonneg_left hticks (by norm_num)
      _ ≤ 2 * mPi := by norm_num [mPi]
  exact abs_pos.mp ((zpow_pos two_pos _).trans_le
    (Binary64.zpow_le_abs_nearest (by decide) hquot))

end AndinoBase
