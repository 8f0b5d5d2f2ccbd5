import Andino.Host.HardwareInterface
import Andino.System.Delivery

/-!
# Wheel speeds from the controller to the firmware

A commanded speed is converted twice: by `write` from radians to ticks per second, with a
rounding division, and by the handler of `m` to ticks per PID period. Both truncate, and
together they truncate once. What the rounding can add is less than one tick per second, so
the setpoint in force is less than one tick per period from the commanded speed.
-/
namespace AndinoBase

open CArith CString Decimal Truncation AndinoFirmware AndinoFirmware.App
open LineRpc (Origin Outcome)

variable {K : Type} [Field K] [LinearOrder K] [IsStrictOrderedRing K] [FloorRing K]

/-- What the controller manager asks of the hardware interface. -/
inductive Operation (K : Type) where
  | read
  | write (cmd : Commands K)

/-- The call an operation makes with the port open. It takes only `radsPerTick` from the
interface, which no operation changes. -/
def Operation.call (d : DiffDrive K) : Operation K → Option Call
  | .read => some .readEncoderValues
  | .write cmd => (d.write true cmd).bind Prod.snd

def Commands.side (cmd : Commands K) : Side → K
  | .left => cmd.left
  | .right => cmd.right

def DiffDrive.wheel (d : DiffDrive K) : Side → Wheel K
  | .left => d.leftWheel
  | .right => d.rightWheel

/-- The command of a write. -/
def Operation.command (side : Side) : Operation K → Option K
  | .read => none
  | .write cmd => some (cmd.side side)

/-- What a commanded speed sets a controller to; `none` if the conversion is not defined. -/
def Wheel.setpoint (t : Target) (w : Wheel K) (cmd : K) : Option Int :=
  (w.valueTarget cmd).map fun v => t.int ((t.int v.1).tdiv Constants.kPidRate)

/-- Radians per second for one tick per PID period. -/
def speedUnit (radsPerTick : K) : K := radsPerTick * Constants.kPidRate

/-- The setpoint of a commanded speed, if its ticks per second fit. -/
def speedSetpoint (radsPerTick cmd : K) : Int :=
  truncate (Binary64.nearest (cmd / radsPerTick) / Constants.kPidRate)

omit [IsStrictOrderedRing K] in
theorem Wheel.setpoint_of_valueTarget (t : Target) {w : Wheel K} {cmd : K} {v : HostInt}
    (hv : w.valueTarget cmd = some v) :
    w.setpoint t cmd = some (t.int ((t.int v.1).tdiv Constants.kPidRate)) := by
  rw [Wheel.setpoint, hv, Option.map_some]

/-- Two truncations with the division by the PID rate in between are one. -/
theorem setpoint_valueTarget (t : Target) {w : Wheel K} {cmd : K} {v : HostInt}
    (hv : w.valueTarget cmd = some v) (hfit : Fits 16 v.1) :
    t.int ((t.int v.1).tdiv Constants.kPidRate) = v.1.tdiv Constants.kPidRate ∧
      v.1.tdiv Constants.kPidRate = speedSetpoint w.radsPerTick cmd := by
  have hle := Constants.tdiv_kPidRate_le hfit
  have hs16 : Fits 16 (v.1.tdiv Constants.kPidRate) := by
    rw [fits_sixteen]
    omega
  rw [t.int_of_fits v.1 hfit, t.int_of_fits _ hs16, speedSetpoint,
    truncate_div _ (by decide), toInt_eq_some hv]
  exact ⟨rfl, rfl⟩

/-- What both conversions leave of a speed. -/
theorem speedSetpoint_error {w : Wheel K} (hr : w.radsPerTick ≠ 0) {cmd : K} {v : HostInt}
    (hv : w.valueTarget cmd = some v) :
    |((v.1.tdiv Constants.kPidRate : Int) : K) * speedUnit w.radsPerTick| <
        |cmd| + |w.radsPerTick| ∧
      |cmd - (v.1.tdiv Constants.kPidRate : Int) * speedUnit w.radsPerTick| <
        |speedUnit w.radsPerTick| := by
  have hpos : 0 < |w.radsPerTick| := abs_pos.mpr hr
  have herr := Wheel.valueTarget_error hv
  have hle : |30 * ((v.1.tdiv Constants.kPidRate : Int) : K)| ≤ |(v.1 : K)| := by
    exact_mod_cast abs_mul_tdiv_le v.1 Constants.kPidRate
  have hrest : |(v.1 : K) - 30 * (v.1.tdiv Constants.kPidRate : Int)| ≤ 29 := by
    exact_mod_cast Int.le_sub_one_of_lt
      (abs_sub_mul_tdiv_lt v.1 (show 0 < Constants.kPidRate by decide))
  have hunit : ∀ s : K, s * speedUnit w.radsPerTick = 30 * s * w.radsPerTick := by
    intro s
    rw [speedUnit, Constants.kPidRate, Int.cast_ofNat]
    ring
  have hcmd : cmd / w.radsPerTick * w.radsPerTick = cmd := div_mul_cancel₀ cmd hr
  constructor
  · have hquot : |(v.1 : K)| < |cmd / w.radsPerTick| + 1 := by
      have htri := abs_sub_abs_le_abs_sub (v.1 : K) (cmd / w.radsPerTick)
      rw [abs_sub_comm] at herr
      linarith
    rw [hunit, abs_mul]
    calc _ < (|cmd / w.radsPerTick| + 1) * |w.radsPerTick| :=
          mul_lt_mul_of_pos_right (hle.trans_lt hquot) hpos
      _ = |cmd| + |w.radsPerTick| := by rw [add_one_mul, ← abs_mul, hcmd]
  · have hdist : |cmd / w.radsPerTick - 30 * (v.1.tdiv Constants.kPidRate : Int)| < 30 := by
      have htri := abs_sub_le (cmd / w.radsPerTick) (v.1 : K)
        (30 * (v.1.tdiv Constants.kPidRate : Int))
      linarith
    have hsplit : cmd - (v.1.tdiv Constants.kPidRate : Int) * speedUnit w.radsPerTick =
        (cmd / w.radsPerTick - 30 * (v.1.tdiv Constants.kPidRate : Int)) * w.radsPerTick := by
      rw [hunit, sub_mul, hcmd]
    have hwhole : |speedUnit w.radsPerTick| = 30 * |w.radsPerTick| := by
      rw [← one_mul (speedUnit w.radsPerTick), hunit, mul_one, abs_mul]
      norm_num
    rw [hsplit, abs_mul, hwhole]
    exact mul_lt_mul_of_pos_right hdist hpos

omit [IsStrictOrderedRing K] in
/-- A call that an operation makes sets each side to its command. -/
theorem setpoint_call (t : Target) {d : DiffDrive K} {op : Operation K} {c : Call}
    (h : op.call d = some c) :
    c.Fitting ∧ ∀ side, (c.setpoint t side).map some =
      (op.command side).map ((d.wheel side).setpoint t) := by
  cases op with
  | read =>
    obtain rfl : .readEncoderValues = c := Option.some.inj h
    exact ⟨trivial, fun _ => rfl⟩
  | write cmd =>
    simp only [Operation.call, DiffDrive.write, Bool.true_eq_false, ↓reduceIte] at h
    cases hl : d.leftWheel.valueTarget cmd.left with
    | none => simp [hl] at h
    | some val1 =>
      cases hr : d.rightWheel.valueTarget cmd.right with
      | none => simp [hl, hr] at h
      | some val2 =>
        rw [hl, hr] at h
        obtain rfl : .setMotorValues val1 val2 = c := Option.some.inj h
        refine ⟨trivial, fun side => ?_⟩
        cases side with
        | left => exact congrArg some (Wheel.setpoint_of_valueTarget t hl).symm
        | right => exact congrArg some (Wheel.setpoint_of_valueTarget t hr).symm

omit [IsStrictOrderedRing K] in
/-- The setpoints of the calls are those of the commands. -/
theorem setpoints_calls (t : Target) {d : DiffDrive K} (side : Side) {ops : List (Operation K)}
    {cs : List Call} (hops : cs.map some = ops.map (Operation.call d)) :
    (∀ c ∈ cs, c.Fitting) ∧
      (cs.filterMap (Call.setpoint t side)).map some =
        (ops.filterMap (Operation.command side)).map ((d.wheel side).setpoint t) := by
  induction ops generalizing cs with
  | nil =>
    obtain rfl : cs = [] := List.map_eq_nil_iff.mp hops
    exact ⟨by simp, rfl⟩
  | cons op ops ih =>
    cases cs with
    | nil => exact absurd hops (by simp)
    | cons c cs =>
      rw [List.map_cons, List.map_cons, List.cons.injEq] at hops
      obtain ⟨hfit, hset⟩ := setpoint_call t hops.1.symm
      obtain ⟨hfits, hrest⟩ := ih hops.2
      refine ⟨List.forall_mem_cons.mpr ⟨hfit, hfits⟩, ?_⟩
      have hone := hset side
      rw [List.filterMap_cons, List.filterMap_cons]
      cases hcmd : op.command side with
      | none =>
        rw [hcmd] at hone
        rw [Option.map_eq_none_iff.mp hone]
        exact hrest
      | some cmd =>
        rw [hcmd] at hone
        obtain ⟨s, hs, hcs⟩ := Option.map_eq_some_iff.mp hone
        rw [hs, List.map_cons, List.map_cons, hrest, hcs]

/-- At any time of any run of reads and writes of a hardware interface that `on_init` has set
up, with any delays and timeouts: an enabled controller follows the command of the last
write that the firmware has handled. If its ticks per second fit in 16 bits, the setpoint
is the rounded quotient truncated once, never as much as a tick per second faster than the
command and less than one tick per PID period from it. -/
theorem velocity_in_force (t : Target) (base : CallbackReturn) (info : HardwareInfo)
    (config : Config) (d : DiffDrive K)
    (hinit : DiffDrive.onInit base info = .ok (.success, some (config, d)))
    (hticks : config.encTicksPerRev.1 ≠ 0) (imu : Bool) (leftMove rightMove : Int)
    (acts : List Link.Action) (l : Link) (out : List (Outcome Call Byte Counts))
    (ops : List (Operation K)) (hops : (calls acts).map some = ops.map (Operation.call d))
    (hrun : Steps.run (Link.step t) (Link.initial (setup t imu leftMove rightMove)) acts =
      some (l, out)) :
    ∃ app, l.firmware = some app ∧ ∀ side, (app.channel side).pid.enabled = true →
      ∃ cmd v, ((ops.take l.handled).filterMap (Operation.command side)).getLast? = some cmd ∧
        (d.wheel side).valueTarget cmd = some v ∧
        (app.channel side).pid.setpoint = t.int ((t.int v.1).tdiv Constants.kPidRate) ∧
        (Fits 16 v.1 →
          (app.channel side).pid.setpoint =
            speedSetpoint (DiffDrive.radsPerTick config.encTicksPerRev) cmd ∧
          |((app.channel side).pid.setpoint : K) *
              speedUnit (DiffDrive.radsPerTick config.encTicksPerRev)| <
            |cmd| + |(DiffDrive.radsPerTick config.encTicksPerRev : K)| ∧
          |cmd - (app.channel side).pid.setpoint *
              speedUnit (DiffDrive.radsPerTick config.encTicksPerRev)| <
            |speedUnit (DiffDrive.radsPerTick config.encTicksPerRev : K)|) := by
  obtain ⟨-, -, -, rfl⟩ := (DiffDrive.onInit_success_iff base info config d).mp hinit
  have hrads : ∀ side, ((DiffDrive.setup (DiffDrive.radsPerTick config.encTicksPerRev)).wheel
      side).radsPerTick = (DiffDrive.radsPerTick config.encTicksPerRev : K) := by
    intro side
    cases side <;> rfl
  obtain ⟨app, hf⟩ := exists_firmware (setpoints_calls t .left hops).1 hrun
  have h := delivered_run hrun hf
  refine ⟨app, hf, fun side hen => ?_⟩
  have hset := h.setpoint side hen
  have htake : ((calls acts).take l.handled).map some = (ops.take l.handled).map
      (Operation.call (DiffDrive.setup (DiffDrive.radsPerTick config.encTicksPerRev))) := by
    rw [List.map_take, List.map_take, hops]
  have hlast := congrArg List.getLast? (setpoints_calls t side htake).2
  rw [List.getLast?_map, List.getLast?_map, hset] at hlast
  obtain ⟨cmd, hcmd, hsome⟩ := Option.map_eq_some_iff.mp hlast.symm
  obtain ⟨v, hv, hsetpoint⟩ := Option.map_eq_some_iff.mp hsome
  refine ⟨cmd, v, hcmd, hv, hsetpoint.symm, fun hfit => ?_⟩
  obtain ⟨hint, hcut⟩ := setpoint_valueTarget t hv hfit
  have herror := speedSetpoint_error ((hrads side).trans_ne
    (DiffDrive.radsPerTick_ne_zero hticks)) hv
  rw [hrads side] at hcut herror
  rw [← hsetpoint, hint]
  exact ⟨hcut, herror⟩

/-- The parameters of `hardware.yaml`. -/
def hardware : HardwareInfo where
  hardwareParameters name :=
    if name = DiffDrive.kLeftWheelNameParam then ascii "left_wheel_joint"
    else if name = DiffDrive.kRightWheelNameParam then ascii "right_wheel_joint"
    else if name = DiffDrive.kSerialDeviceParam then ascii "/dev/ttyUSB_ARDUINO"
    else if name = DiffDrive.kBaudRateParam then ascii "57600"
    else if name = DiffDrive.kTimeoutParam then ascii "1000"
    else if name = DiffDrive.kEncTicksPerRevParam then ascii "585"
    else []
  joints := [⟨ascii "left_wheel_joint", 1, 2⟩, ⟨ascii "right_wheel_joint", 1, 2⟩]

def hardwareConfig : Config :=
  ⟨ascii "left_wheel_joint", ascii "right_wheel_joint", ascii "/dev/ttyUSB_ARDUINO",
    ⟨57600, by decide⟩, ⟨1000, by decide⟩, ⟨585, by decide⟩⟩

/-- A write of about a radian per second, which has timed out and has been handled all the
same, and a read behind it. -/
theorem velocity_in_force_late :
    ∃ l out app, Steps.run (Link.step (avr fun _ => 0))
        (Link.initial (setup (avr fun _ => 0) false 0 0)) late = some (l, out) ∧
      l.firmware = some app ∧
      app.rightPid.setpoint =
        speedSetpoint (DiffDrive.radsPerTick hardwareConfig.encTicksPerRev) (-43 / 40 : Rat) := by
  have hany : (Steps.run (Link.step (avr fun _ => 0))
      (Link.initial (setup (avr fun _ => 0) false 0 0)) late).any
      (fun r => r.1.handled = 1 ∧ r.1.firmware.all (fun app => app.rightPid.enabled) = true) =
      true := by decide +kernel
  obtain ⟨⟨l, out⟩, hr, hp⟩ := Option.any_eq_true _ _ |>.mp hany
  obtain ⟨hone, hen⟩ := of_decide_eq_true hp
  have hinit : DiffDrive.onInit .success hardware = .ok (.success, some (hardwareConfig,
      DiffDrive.setup (DiffDrive.radsPerTick hardwareConfig.encTicksPerRev : Rat))) :=
    (DiffDrive.onInit_success_iff _ _ _ _).mpr ⟨rfl, rfl, by decide, rfl⟩
  have hvalue : (Wheel.setup (DiffDrive.radsPerTick hardwareConfig.encTicksPerRev)).valueTarget
      (-43 / 40 : Rat) = some ⟨-100, by decide⟩ := by decide +kernel
  obtain ⟨app, hf, h⟩ := velocity_in_force (avr fun _ => 0) .success hardware hardwareConfig _ hinit
    (by decide) false 0 0 late l out [.write ⟨43 / 40, -43 / 40⟩, .read] (by decide +kernel) hr
  have henabled : app.rightPid.enabled = true := by simpa [hf] using hen
  obtain ⟨cmd, v, hlast, hv, -, hset⟩ := h .right henabled
  rw [hone] at hlast
  obtain rfl : -43 / 40 = cmd := Option.some.inj hlast
  obtain rfl : ⟨-100, by decide⟩ = v := Option.some.inj (hvalue.symm.trans hv)
  exact ⟨l, out, app, hr, hf, (hset (by decide)).1⟩

end AndinoBase
