import Andino.Library.Decimal
import Andino.Library.Steps
import Andino.Firmware.Pid
import Andino.Firmware.Motor
import Andino.Firmware.Encoder
import Andino.Firmware.Shell

/-!
# The application

State, callbacks and main loop of the firmware. What the outside world does is
an argument: each byte comes with the clock, the wheel movement since the last
event and the pins as its handler finds them, and each periodic task with the
clock values of its own readings. The clock counts milliseconds since `init()`;
`millis` is what the firmware sees of it. A step has no next state exactly when
`strcpy` leaves the handler's local array.
-/
namespace AndinoFirmware

open CArith CString Decimal

/-- The callbacks of the application, as function pointers. -/
inductive Callback where
  | unknown
  | readAnalogGpio
  | readDigitalGpio
  | readEncoders
  | resetEncoders
  | setMotorsSpeed
  | setMotorsPwm
  | setPidTuningGains
  | getIsImuConnected
  | readEncodersAndImu
  deriving DecidableEq, Repr

namespace Commands

open Shell (CommandName)

def kReadAnalogGpio : CommandName := ⟨ascii "a", by decide, forall_mem_of_all (by decide)⟩
def kReadDigitalGpio : CommandName := ⟨ascii "d", by decide, forall_mem_of_all (by decide)⟩
def kReadEncoders : CommandName := ⟨ascii "e", by decide, forall_mem_of_all (by decide)⟩
def kResetEncoders : CommandName := ⟨ascii "r", by decide, forall_mem_of_all (by decide)⟩
def kSetMotorsSpeed : CommandName := ⟨ascii "m", by decide, forall_mem_of_all (by decide)⟩
def kSetMotorsPwm : CommandName := ⟨ascii "o", by decide, forall_mem_of_all (by decide)⟩
def kSetPidsTuningGains : CommandName := ⟨ascii "u", by decide, forall_mem_of_all (by decide)⟩
def kGetIsImuConnected : CommandName := ⟨ascii "h", by decide, forall_mem_of_all (by decide)⟩
def kReadEncodersAndImu : CommandName := ⟨ascii "i", by decide, forall_mem_of_all (by decide)⟩

end Commands

/-- The 32-bit view of a time in milliseconds. -/
def millis (now : Nat) : UInt32 := UInt32.ofNat now

/-- The world around the handling of one byte: the time, the ticks each wheel has
moved before the handler runs and, for the reset handler, between zeroing the
counts and reading them back, the pins, the texts of the ten numbers printed
for the IMU, and the outcome of comparing a null command name. -/
structure Env where
  now : Nat
  leftMove : Int
  rightMove : Int
  leftMoveAfterReset : Int
  rightMoveAfterReset : Int
  analogRead : Int → Int
  digitalRead : Int → Int
  imu : Fin 10 → List Byte
  nullEq : List Byte → Bool

/-- Nothing moves, all pins are low. -/
def Env.quiet (now : Nat) : Env :=
  ⟨now, 0, 0, 0, 0, fun _ => 0, fun _ => 0, fun _ => [], fun _ => false⟩

/-- The PID check: its clock reading, the one that is stored, and the movement
up to the encoder readings. -/
structure PidEnv where
  check : Nat
  store : Nat
  leftMove : Int
  rightMove : Int

/-- The auto-stop check: its clock reading and the one that is stored. -/
structure StopEnv where
  check : Nat
  store : Nat

structure App where
  shell : Shell Callback
  leftMotor : Motor
  rightMotor : Motor
  leftEncoder : Encoder
  rightEncoder : Encoder
  leftPid : Pid
  rightPid : Pid
  lastPidComputation : UInt32
  lastSetMotorsSpeedCmd : UInt32
  isImuConnected : Bool

def print (s : String) : List Byte := ascii s

def println (s : List Byte) : List Byte := s ++ [CR, LF]

/-- The string `argv[i]`. -/
def arg (argv : List (Option (List Byte))) (i : Nat) : List Byte := (argv[i]?.join).getD []

namespace App

variable (t : Target)

/-- `atoi` of the firmware. -/
def atoi (s : List Byte) : Int := t.int (scanInt s)

/-- The objects before `setup`. -/
def pidController : Pid where
  kp := Constants.kPidKp
  kd := Constants.kPidKd
  ki := Constants.kPidKi
  ko := Constants.kPidKo
  outputMin := -Constants.kPwmMax
  outputMax := Constants.kPwmMax

/-- The shell after the registrations of `setup`; static storage is zeroed. -/
def setupShell : Shell Callback :=
  let s := Shell.construct ⟨List.replicate Shell.kCommandPromptLengthMax 0, by decide⟩
  let s := s.setDefaultCallback .unknown
  let s := s.registerCommand Commands.kReadAnalogGpio .readAnalogGpio
  let s := s.registerCommand Commands.kReadDigitalGpio .readDigitalGpio
  let s := s.registerCommand Commands.kReadEncoders .readEncoders
  let s := s.registerCommand Commands.kResetEncoders .resetEncoders
  let s := s.registerCommand Commands.kSetMotorsSpeed .setMotorsSpeed
  let s := s.registerCommand Commands.kSetMotorsPwm .setMotorsPwm
  let s := s.registerCommand Commands.kSetPidsTuningGains .setPidTuningGains
  let s := s.registerCommand Commands.kGetIsImuConnected .getIsImuConnected
  s.registerCommand Commands.kReadEncodersAndImu .readEncodersAndImu

def moveEncoders (app : App) (left right : Int) : App :=
  { app with
    leftEncoder := app.leftEncoder.move t left
    rightEncoder := app.rightEncoder.move t right }

/-- `App::setup`, with what the IMU answers and the movement up to the first reads. -/
def setup (imu : Bool) (leftMove rightMove : Int) : App :=
  let leftEncoder := Encoder.move t {} leftMove
  let rightEncoder := Encoder.move t {} rightMove
  { shell := setupShell
    leftMotor := Motor.enable {} true
    rightMotor := Motor.enable {} true
    leftEncoder := leftEncoder
    rightEncoder := rightEncoder
    leftPid := pidController.reset (t.int leftEncoder.read)
    rightPid := pidController.reset (t.int rightEncoder.read)
    lastPidComputation := 0
    lastSetMotorsSpeedCmd := 0
    isImuConnected := imu }

/-- The controllers restart from the current counts. -/
def resetPids (app : App) : App :=
  { app with
    leftPid := app.leftPid.reset (t.int app.leftEncoder.read)
    rightPid := app.rightPid.reset (t.int app.rightEncoder.read) }

def enablePids (app : App) : App :=
  { app with leftPid := app.leftPid.enable, rightPid := app.rightPid.enable }

def disablePids (app : App) : App :=
  { app with leftPid := app.leftPid.disable, rightPid := app.rightPid.disable }

def setSpeeds (app : App) (left right : Int) : App :=
  { app with
    leftMotor := app.leftMotor.setSpeed t left
    rightMotor := app.rightMotor.setSpeed t right }

def adjustMotorsSpeed (app : App) : App :=
  let left := app.leftPid.compute t (t.int app.leftEncoder.read) 0
  let right := app.rightPid.compute t (t.int app.rightEncoder.read) 0
  { app with
    leftPid := left.pid
    rightPid := right.pid
    leftMotor := if left.pid.enabled then app.leftMotor.setSpeed t left.output else app.leftMotor
    rightMotor := if right.pid.enabled then app.rightMotor.setSpeed t right.output else app.rightMotor }

def stopMotors (app : App) : App := (app.setSpeeds t 0 0).disablePids

/-! ## Command callbacks -/

def cmdUnknownCb (app : App) : App × List Byte := (app, println (print "Unknown command."))

/-- The two GPIO handlers differ in the read they perform. -/
def readGpio (read : Int → Int) (argc : Nat) (argv : List (Option (List Byte))) (app : App) :
    App × List Byte :=
  if argc < 2 then (app, []) else (app, println (decimal (read (atoi t (arg argv 1)))))

def cmdReadAnalogGpioCb (env : Env) (argc : Nat) (argv : List (Option (List Byte))) (app : App) :
    App × List Byte := readGpio t env.analogRead argc argv app

def cmdReadDigitalGpioCb (env : Env) (argc : Nat) (argv : List (Option (List Byte))) (app : App) :
    App × List Byte := readGpio t env.digitalRead argc argv app

def cmdReadEncodersCb (app : App) : App × List Byte :=
  (app, decimal app.leftEncoder.read ++ print " " ++ println (decimal app.rightEncoder.read))

def cmdResetEncodersCb (env : Env) (app : App) : App × List Byte :=
  let app :=
    { app with leftEncoder := app.leftEncoder.reset, rightEncoder := app.rightEncoder.reset }
  let app := app.moveEncoders t env.leftMoveAfterReset env.rightMoveAfterReset
  (app.resetPids t, println (print "OK"))

def cmdSetMotorsSpeedCb (env : Env) (argc : Nat) (argv : List (Option (List Byte))) (app : App) :
    App × List Byte :=
  if argc < 3 then (app, []) else
    let leftMotorSpeed := atoi t (arg argv 1)
    let rightMotorSpeed := atoi t (arg argv 2)
    -- Reset the auto stop timer.
    let app := { app with lastSetMotorsSpeedCmd := millis env.now }
    let app :=
      if leftMotorSpeed = 0 ∧ rightMotorSpeed = 0 then
        ((app.setSpeeds t 0 0).resetPids t).disablePids
      else app.enablePids
    -- Ticks per second to ticks per PID period.
    ({ app with
      leftPid := app.leftPid.setSetpoint (t.int (leftMotorSpeed.tdiv Constants.kPidRate))
      rightPid := app.rightPid.setSetpoint (t.int (rightMotorSpeed.tdiv Constants.kPidRate)) },
      println (print "OK"))

def cmdSetMotorsPwmCb (argc : Nat) (argv : List (Option (List Byte))) (app : App) :
    App × List Byte :=
  if argc < 3 then (app, []) else
    let leftMotorPwm := atoi t (arg argv 1)
    let rightMotorPwm := atoi t (arg argv 2)
    -- Sneaky way to temporarily disable the PID.
    (((app.resetPids t).disablePids).setSpeeds t leftMotorPwm rightMotorPwm, println (print "OK"))

/-- `char arg[20]`. -/
def kArgSize : Nat := 20

/-- `kSizePidArgs`. -/
def kSizePidArgs : Nat := 4

/-- The `strtok_r` loop of the gains handler, with room for `n` more values. -/
def pidArgs (m : List Byte) (p : Nat) : Nat → List Int
  | 0 => []
  | n + 1 =>
    match strtokR [COLON] m p with
    | (none, _, _) => []
    | (some s, m', q) => atoi t (cstr m' s) :: pidArgs m' q n

def cmdSetPidTuningGainsCb (argc : Nat) (argv : List (Option (List Byte))) (app : App) :
    Option (App × List Byte) :=
  if argc < 2 then some (app, []) else
    match strcpy (List.replicate kArgSize 0) (arg argv 1) with
    | none => none
    | some m =>
      let args := pidArgs t m 0 kSizePidArgs
      let kp := args.getD 0 0
      let kd := args.getD 1 0
      let ki := args.getD 2 0
      let ko := args.getD 3 0
      some ({ app with
        leftPid := app.leftPid.setTunings kp kd ki ko
        rightPid := app.rightPid.setTunings kp kd ki ko },
        print "PID Updated: " ++ decimal kp ++ print " " ++ decimal kd ++ print " " ++ decimal ki ++
          print " " ++ println (decimal ko) ++ println (print "OK"))

def cmdGetIsImuConnectedCb (app : App) : App × List Byte :=
  (app, println (decimal (if app.isImuConnected then 1 else 0)))

/-- Encoders and IMU on one line, without a line end. -/
def cmdReadEncodersAndImuCb (env : Env) (app : App) : App × List Byte :=
  (app, decimal app.leftEncoder.read ++ print " " ++ decimal app.rightEncoder.read ++ print " " ++
    (print " ").intercalate (List.ofFn env.imu))

/-- A call through a function pointer. -/
def invoke (env : Env) (i : Shell.Invocation Callback) (app : App) : Option (App × List Byte) :=
  match i.callback with
  | .unknown => some (cmdUnknownCb app)
  | .readAnalogGpio => some (cmdReadAnalogGpioCb t env i.argc i.argv app)
  | .readDigitalGpio => some (cmdReadDigitalGpioCb t env i.argc i.argv app)
  | .readEncoders => some (cmdReadEncodersCb app)
  | .resetEncoders => some (cmdResetEncodersCb t env app)
  | .setMotorsSpeed => some (cmdSetMotorsSpeedCb t env i.argc i.argv app)
  | .setMotorsPwm => some (cmdSetMotorsPwmCb t i.argc i.argv app)
  | .setPidTuningGains => cmdSetPidTuningGainsCb t i.argc i.argv app
  | .getIsImuConnected => some (cmdGetIsImuConnectedCb app)
  | .readEncodersAndImu => some (cmdReadEncodersAndImuCb env app)

/-! ## The main loop -/

def processByte (app : App) (c : Byte) (env : Env) : Option (App × List Byte) :=
  let app := app.moveEncoders t env.leftMove env.rightMove
  let r := app.shell.processByte env.nullEq c
  let app := { app with shell := r.1 }
  match r.2 with
  | none => some (app, [])
  | some i => invoke t env i app

/-- The time is up for the next computation. -/
def PidDue (app : App) (e : PidEnv) : Prop :=
  (millis e.check - app.lastPidComputation).toNat > Constants.kPidPeriod

/-- The auto-stop window has passed. -/
def StopDue (app : App) (e : StopEnv) : Prop :=
  (millis e.check - app.lastSetMotorsSpeedCmd).toNat > Constants.kAutoStopWindow

instance (app : App) (e : PidEnv) : Decidable (app.PidDue e) := Nat.decLt _ _

instance (app : App) (e : StopEnv) : Decidable (app.StopDue e) := Nat.decLt _ _

/-- Compute PID output at the configured rate. -/
def pidTask (app : App) (e : PidEnv) : App :=
  let app := app.moveEncoders t e.leftMove e.rightMove
  if app.PidDue e then
    adjustMotorsSpeed t { app with lastPidComputation := millis e.store }
  else app

/-- Stop the motors if auto-stop interval has been reached. -/
def autoStopTask (app : App) (e : StopEnv) : App :=
  if app.StopDue e then
    stopMotors t { app with lastSetMotorsSpeedCmd := millis e.store }
  else app

/-- The parts of the loop that run to their end without a gap. -/
inductive Action where
  | byte (c : Byte) (env : Env)
  | pid (e : PidEnv)
  | autoStop (e : StopEnv)

def step (app : App) : Action → Option (App × List Byte)
  | .byte c env => app.processByte t c env
  | .pid e => some (app.pidTask t e, [])
  | .autoStop e => some (app.autoStopTask t e, [])

/-- One iteration: the bytes that `process_input` reads, then the two tasks. -/
structure Iteration where
  input : List (Byte × Env)
  pid : PidEnv
  stop : StopEnv

def processInput (app : App) : List (Byte × Env) → Option (App × List Byte)
  | [] => some (app, [])
  | (c, env) :: input =>
    match app.processByte t c env with
    | none => none
    | some (app', out) => (processInput app' input).map (fun r => (r.1, out ++ r.2))

def loop (app : App) (it : Iteration) : Option (App × List Byte) :=
  match app.processInput t it.input with
  | none => none
  | some (app', out) => some ((app'.pidTask t it.pid).autoStopTask t it.stop, out)

def Iteration.actions (it : Iteration) : List Action :=
  it.input.map (fun b => .byte b.1 b.2) ++ [.pid it.pid, .autoStop it.stop]

theorem processInput_eq_run (app : App) (input : List (Byte × Env)) :
    app.processInput t input = Steps.run (step t) app (input.map (fun b => .byte b.1 b.2)) := by
  induction input generalizing app with
  | nil => rfl
  | cons b input ih =>
    obtain ⟨c, env⟩ := b
    rw [processInput, List.map_cons, Steps.run_cons]
    simp only [step]
    cases app.processByte t c env with
    | none => rfl
    | some r => simp only [ih, Option.bind_some]

/-- The loop is the run of its actions. -/
theorem loop_eq_run (app : App) (it : Iteration) :
    app.loop t it = Steps.run (step t) app it.actions := by
  rw [loop, processInput_eq_run, Iteration.actions, Steps.run_append]
  cases Steps.run (step t) app (it.input.map (fun b => .byte b.1 b.2)) with
  | none => rfl
  | some r => simp [Steps.run, step]

end App

end AndinoFirmware
