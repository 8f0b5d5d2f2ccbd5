import Andino.Firmware.App

/-!
# The drive

What the safety properties of the robot are about: the two motors, the gains and
enabled flags of the two controllers, and the auto-stop timer. `Event` says what
an action of the application means for these, read off the command line and the
clock alone, and `Drive.step` what the event does. `drive_step` says that every
step of the application is such a step; the invariants of the following modules
are proved about `Drive` and never open a callback again.
-/
namespace AndinoFirmware

open CArith CString Decimal

structure Gains where
  kp : Int
  kd : Int
  ki : Int
  ko : Int
  deriving DecidableEq, Repr

/-- The gains a list of fields stands for: missing fields are zero, further ones are ignored. -/
def Gains.ofFields (fields : List Int) : Gains :=
  ⟨fields.getD 0 0, fields.getD 1 0, fields.getD 2 0, fields.getD 3 0⟩

/-- The gains in the argument of a `u` command: its first four nonempty fields. -/
def requestedGains (t : Target) (s : List Byte) : Gains :=
  .ofFields (((tokens [COLON] s).take App.kSizePidArgs).map (App.atoi t))

/-- An accepted command, or a task that fires. -/
inductive Event where
  | setMotorsSpeed (left right : Int) (now : Nat)
  | setMotorsPwm (left right : Int) (now : Nat)
  | setTunings (argument : List Byte)
  | tick (left right : Int)
  | stop (now : Nat)
  | other
  deriving DecidableEq, Repr

structure Drive where
  leftMotor : Motor
  rightMotor : Motor
  left : Pid.Fixed
  right : Pid.Fixed
  lastSetMotorsSpeedCmd : UInt32
  deriving DecidableEq, Repr

def Pid.Fixed.setGains (f : Pid.Fixed) (g : Gains) : Pid.Fixed :=
  { f with kp := g.kp, kd := g.kd, ki := g.ki, ko := g.ko }

def Pid.Fixed.setEnabled (f : Pid.Fixed) (enabled : Bool) : Pid.Fixed :=
  { f with enabled := enabled }

namespace Drive

variable (t : Target)

def setSpeeds (d : Drive) (left right : Int) : Drive :=
  { d with
    leftMotor := d.leftMotor.setSpeed t left
    rightMotor := d.rightMotor.setSpeed t right }

def setEnabled (d : Drive) (enabled : Bool) : Drive :=
  { d with left := d.left.setEnabled enabled, right := d.right.setEnabled enabled }

def restartTimer (d : Drive) (now : Nat) : Drive :=
  { d with lastSetMotorsSpeedCmd := millis now }

def step (d : Drive) : Event → Drive
  | .setMotorsSpeed left right now =>
    if left = 0 ∧ right = 0 then ((d.setSpeeds t 0 0).setEnabled false).restartTimer now
    else (d.setEnabled true).restartTimer now
  | .setMotorsPwm left right _ => (d.setSpeeds t left right).setEnabled false
  | .setTunings argument =>
    { d with
      left := d.left.setGains (requestedGains t argument)
      right := d.right.setGains (requestedGains t argument) }
  | .tick left right =>
    { d with
      leftMotor := if d.left.enabled then d.leftMotor.setSpeed t left else d.leftMotor
      rightMotor := if d.right.enabled then d.rightMotor.setSpeed t right else d.rightMotor }
  | .stop now => ((d.setSpeeds t 0 0).setEnabled false).restartTimer now
  | .other => d

end Drive

namespace App

variable (t : Target)

def drive (app : App) : Drive :=
  ⟨app.leftMotor, app.rightMotor, app.leftPid.fixed, app.rightPid.fixed, app.lastSetMotorsSpeedCmd⟩

def invocationEvent (env : Env) (i : Shell.Invocation Callback) : Event :=
  match i.callback with
  | .setMotorsSpeed =>
    if i.argc < 3 then .other
    else .setMotorsSpeed (atoi t (arg i.argv 1)) (atoi t (arg i.argv 2)) env.now
  | .setMotorsPwm =>
    if i.argc < 3 then .other
    else .setMotorsPwm (atoi t (arg i.argv 1)) (atoi t (arg i.argv 2)) env.now
  | .setPidTuningGains =>
    if i.argc < 2 then .other else .setTunings (arg i.argv 1)
  | _ => .other

/-- The wrapped difference of two clock values is the true one up to the period. -/
theorem elapsed (a b : Nat) (hab : a ≤ b) (hb : b < a + 2 ^ 32) :
    (millis b - millis a).toNat = b - a := by
  rw [UInt32.toNat_sub, millis, millis, UInt32.toNat_ofNat', UInt32.toNat_ofNat']
  omega

/-- The two computations of a tick, left and right. -/
def leftComputation (app : App) (e : PidEnv) : Pid.Computation :=
  app.leftPid.compute t (t.int (app.leftEncoder.move t e.leftMove).read) 0

def rightComputation (app : App) (e : PidEnv) : Pid.Computation :=
  app.rightPid.compute t (t.int (app.rightEncoder.move t e.rightMove).read) 0

def event (app : App) : Action → Event
  | .byte c env =>
    match (app.shell.processByte env.nullEq c).2 with
    | none => .other
    | some i => invocationEvent t env i
  | .pid e =>
    if app.PidDue e then .tick (app.leftComputation t e).output (app.rightComputation t e).output
    else .other
  | .autoStop e => if app.StopDue e then .stop e.store else .other

theorem drive_setup (imu : Bool) (leftMove rightMove : Int) :
    (setup t imu leftMove rightMove).drive =
      ⟨Motor.enable {} true, Motor.enable {} true, pidController.fixed, pidController.fixed, 0⟩ := rfl

/-! ## The gains handler -/

/-- The handler's loop reads the nonempty fields of the string, as far as it has room. -/
theorem pidArgs_tokens (m : List Byte) (p n : Nat) (h : Terminated m p) :
    pidArgs t m p n = ((tokens [COLON] (cstr m p)).take n).map (atoi t) := by
  induction n generalizing m p with
  | zero => rfl
  | succ n ih =>
    cases ht : tokens [COLON] (cstr m p) with
    | nil =>
      obtain ⟨q, hq⟩ := strtokR_none h ht
      simp [pidArgs, hq]
    | cons w ws =>
      obtain ⟨s, m', q, hs, -, hw, -, -, htq, hws, -⟩ := strtokR_some h ht
      simp only [pidArgs, hs, hw, ih m' q htq, hws, List.take_succ_cons, List.map_cons]

/-- What the gains handler prints. -/
def gainsReply (g : Gains) : List Byte :=
  print "PID Updated: " ++ decimal g.kp ++ print " " ++ decimal g.kd ++ print " " ++ decimal g.ki ++
    print " " ++ println (decimal g.ko) ++ println (print "OK")

def setTunings (app : App) (g : Gains) : App :=
  { app with
    leftPid := app.leftPid.setTunings g.kp g.kd g.ki g.ko
    rightPid := app.rightPid.setTunings g.kp g.kd g.ki g.ko }

/-- The gains handler on an argument that fits its array. -/
theorem cmdSetPidTuningGainsCb_fits (argc : Nat) (argv : List (Option (List Byte))) (app : App)
    (hargc : ¬ argc < 2) (hnul : ∀ c ∈ arg argv 1, c ≠ 0) (hfit : (arg argv 1).length < kArgSize) :
    cmdSetPidTuningGainsCb t argc argv app =
      some (app.setTunings (requestedGains t (arg argv 1)),
        gainsReply (requestedGains t (arg argv 1))) := by
  have hsome : ∃ m, strcpy (List.replicate kArgSize 0) (arg argv 1) = some m :=
    ⟨_, by rw [strcpy, List.length_replicate, if_pos hfit]⟩
  obtain ⟨m, hm⟩ := hsome
  obtain ⟨hc, ht⟩ := strcpy_eq_some hm hnul
  have hargs := pidArgs_tokens t m 0 kSizePidArgs ht
  rw [hc] at hargs
  simp only [cmdSetPidTuningGainsCb, if_neg hargc, hm, hargs]
  rfl

/-- A longer argument leaves the array. -/
theorem cmdSetPidTuningGainsCb_overflow (argc : Nat) (argv : List (Option (List Byte))) (app : App)
    (hargc : ¬ argc < 2) (hlong : ¬ (arg argv 1).length < kArgSize) :
    cmdSetPidTuningGainsCb t argc argv app = none := by
  have hnone : strcpy (List.replicate kArgSize 0) (arg argv 1) = none := by
    rw [strcpy, List.length_replicate, if_neg hlong]
  simp only [cmdSetPidTuningGainsCb, if_neg hargc, hnone]

/-! ## What a call does -/

/-- The calls that only read, or find too few arguments. -/
def Inert (i : Shell.Invocation Callback) : Prop :=
  match i.callback with
  | .resetEncoders => False
  | .setMotorsSpeed | .setMotorsPwm => i.argc < 3
  | .setPidTuningGains => i.argc < 2
  | _ => True

/-- What a call that returns leaves of the application. -/
inductive Effect (env : Env) (i : Shell.Invocation Callback) (app : App) : App → Prop where
  | inert (h : Inert i) : Effect env i app app
  | resetEncoders (h : i.callback = .resetEncoders) :
    Effect env i app (cmdResetEncodersCb t env app).1
  | setMotorsSpeed (h : i.callback = .setMotorsSpeed) (hargc : ¬ i.argc < 3) :
    Effect env i app (cmdSetMotorsSpeedCb t env i.argc i.argv app).1
  | setMotorsPwm (h : i.callback = .setMotorsPwm) (hargc : ¬ i.argc < 3) :
    Effect env i app (cmdSetMotorsPwmCb t i.argc i.argv app).1
  | setTunings (h : i.callback = .setPidTuningGains) (hargc : ¬ i.argc < 2) :
    Effect env i app (app.setTunings (requestedGains t (arg i.argv 1)))

theorem effect_of_invoke {env : Env} {i : Shell.Invocation Callback} {app app' : App}
    {out : List Byte} (hnul : ∀ c ∈ arg i.argv 1, c ≠ 0)
    (h : invoke t env i app = some (app', out)) : Effect t env i app app' := by
  obtain ⟨callback, argc, argv⟩ := i
  cases callback with
  | unknown | readEncoders | getIsImuConnected | readEncodersAndImu =>
    simp only [invoke, Option.some.injEq] at h
    rw [← (Prod.mk.inj h).1]
    exact .inert trivial
  | readAnalogGpio | readDigitalGpio =>
    simp only [invoke, cmdReadAnalogGpioCb, cmdReadDigitalGpioCb, readGpio, Option.some.injEq] at h
    split at h <;> rw [← (Prod.mk.inj h).1] <;> exact .inert trivial
  | resetEncoders =>
    simp only [invoke, Option.some.injEq] at h
    rw [← (Prod.mk.inj h).1]
    exact .resetEncoders rfl
  | setMotorsSpeed =>
    simp only [invoke, Option.some.injEq] at h
    by_cases hargc : argc < 3
    · rw [cmdSetMotorsSpeedCb, if_pos hargc] at h
      rw [← (Prod.mk.inj h).1]
      exact .inert hargc
    · have happ : (cmdSetMotorsSpeedCb t env argc argv app).1 = app' := congrArg Prod.fst h
      rw [← happ]
      exact .setMotorsSpeed rfl hargc
  | setMotorsPwm =>
    simp only [invoke, Option.some.injEq] at h
    by_cases hargc : argc < 3
    · rw [cmdSetMotorsPwmCb, if_pos hargc] at h
      rw [← (Prod.mk.inj h).1]
      exact .inert hargc
    · have happ : (cmdSetMotorsPwmCb t argc argv app).1 = app' := congrArg Prod.fst h
      rw [← happ]
      exact .setMotorsPwm rfl hargc
  | setPidTuningGains =>
    simp only [invoke] at h
    by_cases hargc : argc < 2
    · rw [cmdSetPidTuningGainsCb, if_pos hargc, Option.some.injEq] at h
      rw [← (Prod.mk.inj h).1]
      exact .inert hargc
    · by_cases hfit : (arg argv 1).length < kArgSize
      · rw [cmdSetPidTuningGainsCb_fits t argc argv app hargc hnul hfit, Option.some.injEq] at h
        rw [← (Prod.mk.inj h).1]
        exact .setTunings rfl hargc
      · rw [cmdSetPidTuningGainsCb_overflow t argc argv app hargc hfit] at h
        exact absurd h (by simp)

theorem invocationEvent_inert {i : Shell.Invocation Callback} (env : Env) (h : Inert i) :
    invocationEvent t env i = .other := by
  obtain ⟨callback, argc, argv⟩ := i
  cases callback with
  | resetEncoders => exact h.elim
  | setMotorsSpeed | setMotorsPwm | setPidTuningGains => exact if_pos h
  | _ => rfl

/-! ## Steps of the application as steps of the drive -/

/-- A call changes the drive by its event and nothing of the shell. -/
theorem invoke_drive {env : Env} {i : Shell.Invocation Callback} {app app' : App}
    {out : List Byte} (hnul : ∀ c ∈ arg i.argv 1, c ≠ 0)
    (h : invoke t env i app = some (app', out)) :
    app'.drive = app.drive.step t (invocationEvent t env i) ∧ app'.shell = app.shell := by
  have heffect := effect_of_invoke t hnul h
  obtain ⟨callback, argc, argv⟩ := i
  cases heffect with
  | inert hi =>
    rw [invocationEvent_inert t env hi]
    exact ⟨rfl, rfl⟩
  | resetEncoders hc =>
    subst hc
    exact ⟨rfl, rfl⟩
  | setMotorsSpeed hc hargc =>
    subst hc
    simp only [invocationEvent, cmdSetMotorsSpeedCb, if_neg hargc, Drive.step]
    split <;> exact ⟨rfl, rfl⟩
  | setMotorsPwm hc hargc =>
    subst hc
    simp only [invocationEvent, cmdSetMotorsPwmCb, if_neg hargc]
    exact ⟨rfl, rfl⟩
  | setTunings hc hargc =>
    subst hc
    simp only [invocationEvent, if_neg hargc]
    exact ⟨rfl, rfl⟩

/-- The arguments the shell hands to a callback are C strings. -/
theorem processByte_arg_ne_nul {s : Shell Callback} {nullEq : List Byte → Bool} {c : Byte}
    {i : Shell.Invocation Callback} (h : (s.processByte nullEq c).2 = some i) (k : Nat) :
    ∀ b ∈ arg i.argv k, b ≠ 0 := by
  have hargv : ∃ (l : List (Option Nat)) (m : List Byte), i.argv = l.map (Option.map (cstr m)) := by
    unfold Shell.processByte at h
    split at h
    · simp only [Shell.parseMessage, Shell.executeCallback] at h
      split at h
      · rw [Option.some.injEq] at h
        exact ⟨_, _, (congrArg Shell.Invocation.argv h).symm⟩
      · obtain ⟨k, -, hk⟩ := Option.map_eq_some_iff.mp h
        exact ⟨_, _, (congrArg Shell.Invocation.argv hk).symm⟩
    · split at h
      · exact absurd h (by simp)
      · dsimp only at h
        split at h <;> exact absurd h (by simp)
  obtain ⟨l, m, hl⟩ := hargv
  rw [arg, hl, List.getElem?_map]
  rcases l[k]? with _ | _ | p
  · simp
  · simp
  · exact cstr_ne_nul m p

theorem pidTask_due {app : App} {e : PidEnv} (h : app.PidDue e) :
    app.pidTask t e =
      adjustMotorsSpeed t
        { app.moveEncoders t e.leftMove e.rightMove with lastPidComputation := millis e.store } :=
  if_pos h

theorem pidTask_not_due {app : App} {e : PidEnv} (h : ¬ app.PidDue e) :
    app.pidTask t e = app.moveEncoders t e.leftMove e.rightMove := if_neg h

theorem autoStopTask_due {app : App} {e : StopEnv} (h : app.StopDue e) :
    app.autoStopTask t e = stopMotors t { app with lastSetMotorsSpeedCmd := millis e.store } :=
  if_pos h

theorem autoStopTask_not_due {app : App} {e : StopEnv} (h : ¬ app.StopDue e) :
    app.autoStopTask t e = app := if_neg h

/-- A tick is the two computations, and each enabled controller drives its motor. -/
theorem drive_pidTask (app : App) (e : PidEnv) :
    (app.pidTask t e).drive = app.drive.step t (app.event t (.pid e)) := by
  rw [event]
  by_cases hdue : app.PidDue e
  · rw [pidTask_due t hdue, if_pos hdue]
    simp only [drive, adjustMotorsSpeed, Drive.step, Pid.fixed_compute, Pid.enabled_compute]
    rfl
  · rw [pidTask_not_due t hdue, if_neg hdue]
    rfl

theorem drive_autoStopTask (app : App) (e : StopEnv) :
    (app.autoStopTask t e).drive = app.drive.step t (app.event t (.autoStop e)) := by
  rw [event]
  by_cases hdue : app.StopDue e
  · rw [autoStopTask_due t hdue, if_pos hdue]
    rfl
  · rw [autoStopTask_not_due t hdue, if_neg hdue]
    rfl

/-- Every step of the application is the step of its event. -/
theorem drive_step {app app' : App} {a : Action} {out : List Byte}
    (h : step t app a = some (app', out)) :
    app'.drive = app.drive.step t (app.event t a) := by
  cases a with
  | byte c env =>
    simp only [step, processByte] at h
    simp only [event]
    cases hi : (app.shell.processByte env.nullEq c).2 with
    | none =>
      rw [show (app.moveEncoders t env.leftMove env.rightMove).shell = app.shell from rfl, hi] at h
      simp only [Option.some.injEq] at h
      rw [← (Prod.mk.inj h).1]
      rfl
    | some i =>
      rw [show (app.moveEncoders t env.leftMove env.rightMove).shell = app.shell from rfl, hi] at h
      exact (invoke_drive t (processByte_arg_ne_nul hi 1) h).1
  | pid e =>
    simp only [step, Option.some.injEq] at h
    rw [← (Prod.mk.inj h).1]
    exact drive_pidTask t app e
  | autoStop e =>
    simp only [step, Option.some.injEq] at h
    rw [← (Prod.mk.inj h).1]
    exact drive_autoStopTask t app e

/-- What a byte can mean: nothing, or one of three commands, at the time of its handling. -/
theorem event_byte_cases (app : App) (c : Byte) (env : Env) :
    (∃ l r, app.event t (.byte c env) = .setMotorsSpeed l r env.now) ∨
    (∃ l r, app.event t (.byte c env) = .setMotorsPwm l r env.now) ∨
    (∃ s, app.event t (.byte c env) = .setTunings s) ∨
    app.event t (.byte c env) = .other := by
  rw [event]
  cases (app.shell.processByte env.nullEq c).2 with
  | none => exact .inr (.inr (.inr rfl))
  | some i =>
    obtain ⟨callback, argc, argv⟩ := i
    cases callback with
    | setMotorsSpeed =>
      by_cases h : argc < 3
      · exact .inr (.inr (.inr (if_pos h)))
      · exact .inl ⟨_, _, if_neg h⟩
    | setMotorsPwm =>
      by_cases h : argc < 3
      · exact .inr (.inr (.inr (if_pos h)))
      · exact .inr (.inl ⟨_, _, if_neg h⟩)
    | setPidTuningGains =>
      by_cases h : argc < 2
      · exact .inr (.inr (.inr (if_pos h)))
      · exact .inr (.inr (.inl ⟨_, if_neg h⟩))
    | _ => exact .inr (.inr (.inr rfl))

/-- The events along a run. -/
def events (app : App) (acts : List Action) : List Event := Steps.labels (step t) (event t) app acts

end App

end AndinoFirmware
