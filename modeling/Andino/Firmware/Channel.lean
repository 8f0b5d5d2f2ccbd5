import Andino.Firmware.Drive
import Andino.Firmware.PidCalls

/-!
# One side of the robot

The application runs two copies of the same control loop, one for each wheel, and
no statement of it lets one copy see the other but the test of `m` for two zeros.
`Channel` is one copy: a motor, its encoder and its controller. `channel_step` says
that each step of the application is, on each side, the step of an event of that
side; what holds of a channel under all its events holds of both sides of every run.
-/
namespace AndinoFirmware

open CArith CString Decimal

def Pid.gains (p : Pid) : Gains := ⟨p.kp, p.kd, p.ki, p.ko⟩

def Pid.limits (p : Pid) : Int × Int := (p.outputMin, p.outputMax)

structure Channel where
  motor : Motor
  encoder : Encoder
  pid : Pid
  deriving DecidableEq, Repr

namespace Channel

/-- What an action means for one side. An event with `ticks` starts with that movement
of the wheel since the one before; `idle` marks an `m` with two zeros. -/
inductive Event where
  | nothing
  | move (ticks : Int)
  | setSpeed (ticks speed : Int) (idle : Bool)
  | setPwm (ticks pwm : Int)
  | resetEncoder (ticks ticksAfterReset : Int)
  | setTunings (ticks : Int) (gains : Gains)
  | tick (ticks : Int)
  | stop
  deriving DecidableEq, Repr

variable (t : Target)

def move (c : Channel) (ticks : Int) : Channel := { c with encoder := c.encoder.move t ticks }

/-- The count as the calls of the controller pass it. -/
def count (c : Channel) : Int := t.int c.encoder.read

/-- The computation of a tick that finds the wheel `ticks` further. -/
def computation (c : Channel) (ticks : Int) : Pid.Computation :=
  c.pid.compute t ((c.move t ticks).count t) 0

def step (c : Channel) : Event → Channel
  | .nothing => c
  | .move ticks => c.move t ticks
  | .setSpeed ticks speed idle =>
    let c := c.move t ticks
    let pid := if idle then (c.pid.reset (c.count t)).disable else c.pid.enable
    { c with
      motor := if idle then c.motor.setSpeed t 0 else c.motor
      pid := pid.setSetpoint (t.int (speed.tdiv Constants.kPidRate)) }
  | .setPwm ticks pwm =>
    let c := c.move t ticks
    { c with motor := c.motor.setSpeed t pwm, pid := (c.pid.reset (c.count t)).disable }
  | .resetEncoder ticks ticksAfterReset =>
    let encoder := (c.move t ticks).encoder.reset.move t ticksAfterReset
    { c with encoder := encoder, pid := c.pid.reset (t.int encoder.read) }
  | .setTunings ticks g => { c.move t ticks with pid := c.pid.setTunings g.kp g.kd g.ki g.ko }
  | .tick ticks =>
    let r := c.computation t ticks
    { c.move t ticks with
      motor := if c.pid.enabled then c.motor.setSpeed t r.output else c.motor
      pid := r.pid }
  | .stop => { c with motor := c.motor.setSpeed t 0, pid := c.pid.disable }

/-- The argument of `set_speed`, for the events that call it. -/
def speed (c : Channel) : Event → Option Int
  | .setSpeed _ _ idle => if idle then some 0 else none
  | .setPwm _ pwm => some pwm
  | .tick ticks => if c.pid.enabled then some (c.computation t ticks).output else none
  | .stop => some 0
  | _ => none

/-- The motor is set by these calls and by nothing else. -/
theorem motor_step (c : Channel) (e : Event) :
    (c.step t e).motor =
      match c.speed t e with
      | none => c.motor
      | some s => c.motor.setSpeed t s := by
  cases e with
  | setSpeed ticks speed idle => cases idle <;> rfl
  | tick ticks =>
    simp only [step, speed]
    cases c.pid.enabled <;> rfl
  | _ => rfl

/-- The limits of the controller are those it was built with. -/
theorem limits_step (c : Channel) (e : Event) : (c.step t e).pid.limits = c.pid.limits := by
  cases e with
  | setSpeed ticks speed idle => cases idle <;> rfl
  | tick ticks =>
    have h := Pid.fixed_compute t c.pid ((c.move t ticks).count t) 0
    exact congrArg (fun f : Pid.Fixed => (f.outputMin, f.outputMax)) h
  | _ => rfl

theorem limits_run (c : Channel) (es : List Event) :
    (es.foldl (step t) c).pid.limits = c.pid.limits := by
  induction es generalizing c with
  | nil => rfl
  | cons e es ih => exact (ih _).trans (limits_step t c e)

/-! ## Displacement since the stored count -/

/-- The number a motor command gives to a side. -/
def Event.argument : Event → Option Int
  | .setSpeed _ speed _ => some speed
  | .setPwm _ pwm => some pwm
  | _ => none

/-- The movement of the wheel in an event. -/
def Event.moved : Event → Int
  | .nothing => 0
  | .move ticks => ticks
  | .setSpeed ticks _ _ => ticks
  | .setPwm ticks _ => ticks
  | .resetEncoder ticks ticksAfterReset => ticks + ticksAfterReset
  | .setTunings ticks _ => ticks
  | .tick ticks => ticks
  | .stop => 0

/-- The movement of the wheel over a sequence of events. -/
def travel (es : List Event) : Int := (es.map Event.moved).sum

/-- The events that store the count in the controller. A tick that finds it disabled
does so only as long as its last input is not zero. -/
def stores (c : Channel) : Event → Bool
  | .setSpeed _ _ idle => idle
  | .setPwm _ _ => true
  | .resetEncoder _ _ => true
  | .tick _ => c.pid.enabled || c.pid.lastInput ≠ 0
  | _ => false

/-- The displacement since the count was last stored, if it was `d` before. -/
def sinceStored (c : Channel) (d : Int) : List Event → Int
  | [] => d
  | e :: es => sinceStored (c.step t e) (if c.stores e then 0 else d + e.moved) es

/-- Where the wheel was when the count was last stored: it is at `x`, and the last store
so far was at `s`. -/
def storedAt (c : Channel) (x s : Int) : List Event → Int
  | [] => s
  | e :: es => storedAt (c.step t e) (x + e.moved) (if c.stores e then x + e.moved else s) es

theorem sinceStored_eq (c : Channel) (x s : Int) (es : List Event) :
    c.sinceStored t (x - s) es = x + travel es - c.storedAt t x s es := by
  induction es generalizing c x s with
  | nil => simp [sinceStored, storedAt, travel]
  | cons e es ih =>
    have hd : (if c.stores e then 0 else x - s + e.moved) =
        (x + e.moved) - (if c.stores e then x + e.moved else s) := by
      split <;> omega
    rw [sinceStored, storedAt, hd, ih]
    simp only [travel, List.map_cons, List.sum_cons]
    omega

/-- The stored count lags behind the encoder by `d`, as far as an `int` shows it. -/
def Lags (c : Channel) (d : Int) : Prop :=
  Int.ModEq (2 ^ 16) (c.encoder.count - c.pid.lastEncoderCount) d

theorem modEq_move (zeroQuot : Int → Int) (c : Channel) (ticks : Int) :
    Int.ModEq (2 ^ 16) (c.move (avr zeroQuot) ticks).encoder.count (c.encoder.count + ticks) :=
  modEq_sixteen (wrap_modEq 32 _)

/-- A count that has just been stored. -/
theorem lags_zero {c : Channel} (h : c.pid.lastEncoderCount = wrap 16 c.encoder.count) :
    c.Lags 0 := by
  have hmod := (wrap_modEq 16 c.encoder.count).symm.sub_right (wrap 16 c.encoder.count)
  rw [sub_self] at hmod
  unfold Lags
  rw [h]
  exact hmod

theorem lags_move (zeroQuot : Int → Int) {c c' : Channel} {d ticks : Int} (h : c.Lags d)
    (he : c'.encoder = (c.move (avr zeroQuot) ticks).encoder)
    (hp : c'.pid.lastEncoderCount = c.pid.lastEncoderCount) : c'.Lags (d + ticks) := by
  have hmod := (modEq_move zeroQuot c ticks).sub_right c.pid.lastEncoderCount
  rw [add_sub_right_comm] at hmod
  unfold Lags
  rw [he, hp]
  exact hmod.trans (h.add_right ticks)

theorem lags_step (zeroQuot : Int → Int) {c : Channel} {d : Int} (e : Event) (h : c.Lags d) :
    (c.step (avr zeroQuot) e).Lags (if c.stores e then 0 else d + e.moved) := by
  cases e with
  | nothing | stop =>
    simp only [stores, Event.moved, add_zero]
    exact h
  | move ticks | setTunings ticks => exact lags_move zeroQuot h rfl rfl
  | setSpeed ticks speed idle =>
    cases idle with
    | false => exact lags_move zeroQuot h rfl rfl
    | true => exact lags_zero rfl
  | setPwm ticks pwm => exact lags_zero rfl
  | resetEncoder ticks ticksAfterReset => exact lags_zero rfl
  | tick ticks =>
    have hstored := Pid.lastEncoderCount_call (t := avr zeroQuot) c.pid
      (.compute (c.move (avr zeroQuot) ticks).encoder.read 0)
    change (c.step (avr zeroQuot) (.tick ticks)).pid.lastEncoderCount = _ at hstored
    simp only [Pid.stores] at hstored
    by_cases hs : c.pid.enabled = true ∨ c.pid.lastInput ≠ 0
    · have hst : c.stores (.tick ticks) = true := by simpa [stores] using hs
      rw [if_pos hs] at hstored
      rw [if_pos hst]
      exact lags_zero hstored
    · have hst : ¬ c.stores (.tick ticks) = true := by simpa [stores] using hs
      rw [if_neg hs] at hstored
      rw [if_neg hst]
      exact lags_move zeroQuot h rfl hstored

/-- Along any events, the stored count lags by the displacement since it was stored. -/
theorem lags_run (zeroQuot : Int → Int) {c : Channel} {d : Int} (es : List Event) (h : c.Lags d) :
    (es.foldl (step (avr zeroQuot)) c).Lags (c.sinceStored (avr zeroQuot) d es) := by
  induction es generalizing c d with
  | nil => exact h
  | cons e es ih => exact ih (lags_step zeroQuot e h)

/-- The input of a tick is the displacement since the stored count. -/
theorem Lags.input_eq (zeroQuot : Int → Int) {c : Channel} {d : Int} (h : c.Lags d) (ticks : Int) :
    c.pid.input (avr zeroQuot) ((c.move (avr zeroQuot) ticks).count (avr zeroQuot)) =
      wrap 16 (d + ticks) := by
  have hmod := ((modEq_move zeroQuot c ticks).sub_right c.pid.lastEncoderCount).symm
  rw [add_sub_right_comm] at hmod
  exact Pid.input_eq_wrap zeroQuot (Int.ModEq.refl _) ((h.add_right ticks).symm.trans hmod)

end Channel

/-- The movement of one side before the handling of a byte, and behind a reset. -/
def Env.move (env : Env) : Side → Int
  | .left => env.leftMove
  | .right => env.rightMove

def Env.moveAfterReset (env : Env) : Side → Int
  | .left => env.leftMoveAfterReset
  | .right => env.rightMoveAfterReset

def PidEnv.move (e : PidEnv) : Side → Int
  | .left => e.leftMove
  | .right => e.rightMove

/-- The position of a side's argument in the `argv` of `m` and `o`. -/
def Side.argument : Side → Nat
  | .left => 1
  | .right => 2

namespace App

variable (t : Target)

def channel (app : App) : Side → Channel
  | .left => ⟨app.leftMotor, app.leftEncoder, app.leftPid⟩
  | .right => ⟨app.rightMotor, app.rightEncoder, app.rightPid⟩

def invocationSideEvent (env : Env) (i : Shell.Invocation Callback) (side : Side) : Channel.Event :=
  match i.callback with
  | .resetEncoders => .resetEncoder (env.move side) (env.moveAfterReset side)
  | .setMotorsSpeed =>
    if i.argc < 3 then .move (env.move side)
    else
      .setSpeed (env.move side) (atoi t (arg i.argv side.argument))
        (atoi t (arg i.argv 1) = 0 ∧ atoi t (arg i.argv 2) = 0)
  | .setMotorsPwm =>
    if i.argc < 3 then .move (env.move side)
    else .setPwm (env.move side) (atoi t (arg i.argv side.argument))
  | .setPidTuningGains =>
    if i.argc < 2 then .move (env.move side)
    else .setTunings (env.move side) (requestedGains t (arg i.argv 1))
  | _ => .move (env.move side)

/-- What an action means for one side. -/
def sideEvent (side : Side) (app : App) : Action → Channel.Event
  | .byte c env =>
    match (app.shell.processByte env.nullEq c).2 with
    | none => .move (env.move side)
    | some i => invocationSideEvent t env i side
  | .pid e => if app.PidDue e then .tick (e.move side) else .move (e.move side)
  | .autoStop e => if app.StopDue e then .stop else .nothing

/-- The argument of a motor command is what `atoi` returns. -/
theorem sideEvent_argument {side : Side} {app : App} {a : Action} {x : Int}
    (h : (sideEvent t side app a).argument = some x) : ∃ s, x = atoi t s := by
  cases a with
  | byte c env =>
    simp only [sideEvent] at h
    split at h
    · exact absurd h (by simp [Channel.Event.argument])
    · rename_i i _
      obtain ⟨callback, argc, argv⟩ := i
      cases callback with
      | setMotorsSpeed | setMotorsPwm =>
        simp only [invocationSideEvent] at h
        split at h
        · exact absurd h (by simp [Channel.Event.argument])
        · exact ⟨_, (Option.some.inj h).symm⟩
      | setPidTuningGains =>
        simp only [invocationSideEvent] at h
        split at h <;> exact absurd h (by simp [Channel.Event.argument])
      | _ => exact absurd h (by simp [invocationSideEvent, Channel.Event.argument])
  | pid e =>
    simp only [sideEvent] at h
    split at h <;> exact absurd h (by simp [Channel.Event.argument])
  | autoStop e =>
    simp only [sideEvent] at h
    split at h <;> exact absurd h (by simp [Channel.Event.argument])

theorem channel_moveEncoders (app : App) (env : Env) (side : Side) :
    (app.moveEncoders t env.leftMove env.rightMove).channel side =
      (app.channel side).move t (env.move side) := by
  cases side <;> rfl

theorem invocationSideEvent_inert {i : Shell.Invocation Callback} (env : Env) (side : Side)
    (h : Inert i) : invocationSideEvent t env i side = .move (env.move side) := by
  obtain ⟨callback, argc, argv⟩ := i
  cases callback with
  | resetEncoders => exact h.elim
  | setMotorsSpeed | setMotorsPwm | setPidTuningGains => exact if_pos h
  | _ => rfl

/-- A call is an event on each side, once the wheels have moved. -/
theorem invoke_channel {env : Env} {i : Shell.Invocation Callback} {app app' : App}
    {shell : Shell Callback} {out : List Byte} (hnul : ∀ c ∈ arg i.argv 1, c ≠ 0) (side : Side)
    (h : invoke t env i { app.moveEncoders t env.leftMove env.rightMove with shell := shell } =
      some (app', out)) :
    app'.channel side = (app.channel side).step t (invocationSideEvent t env i side) := by
  have heffect := effect_of_invoke t hnul h
  obtain ⟨callback, argc, argv⟩ := i
  cases heffect with
  | inert hi =>
    rw [invocationSideEvent_inert t env side hi]
    exact channel_moveEncoders t app env side
  | resetEncoders hc =>
    subst hc
    cases side <;> rfl
  | setMotorsSpeed hc hargc =>
    subst hc
    simp only [invocationSideEvent, cmdSetMotorsSpeedCb, if_neg hargc]
    by_cases hz : atoi t (arg argv 1) = 0 ∧ atoi t (arg argv 2) = 0
    · simp only [if_pos hz, decide_eq_true hz]
      cases side <;> rfl
    · simp only [if_neg hz, decide_eq_false hz]
      cases side <;> rfl
  | setMotorsPwm hc hargc =>
    subst hc
    simp only [invocationSideEvent, cmdSetMotorsPwmCb, if_neg hargc]
    cases side <;> rfl
  | setTunings hc hargc =>
    subst hc
    simp only [invocationSideEvent, if_neg hargc]
    cases side <;> rfl

/-- A tick is a tick of both sides. -/
theorem channel_pidTask (app : App) (e : PidEnv) (side : Side) :
    (app.pidTask t e).channel side = (app.channel side).step t (sideEvent t side app (.pid e)) := by
  rw [sideEvent]
  by_cases hdue : app.PidDue e
  · rw [pidTask_due t hdue, if_pos hdue]
    cases side with
    | left =>
      simp only [channel, adjustMotorsSpeed, Pid.enabled_compute]
      rfl
    | right =>
      simp only [channel, adjustMotorsSpeed, Pid.enabled_compute]
      rfl
  · rw [pidTask_not_due t hdue, if_neg hdue]
    cases side <;> rfl

theorem channel_autoStopTask (app : App) (e : StopEnv) (side : Side) :
    (app.autoStopTask t e).channel side =
      (app.channel side).step t (sideEvent t side app (.autoStop e)) := by
  rw [sideEvent]
  by_cases hdue : app.StopDue e
  · rw [autoStopTask_due t hdue, if_pos hdue]
    cases side <;> rfl
  · rw [autoStopTask_not_due t hdue, if_neg hdue]
    rfl

/-- Every step of the application is, on each side, the step of its event there. -/
theorem channel_step {app app' : App} {a : Action} {out : List Byte}
    (h : step t app a = some (app', out)) (side : Side) :
    app'.channel side = (app.channel side).step t (sideEvent t side app a) := by
  cases a with
  | byte c env =>
    simp only [step, processByte] at h
    rw [show (app.moveEncoders t env.leftMove env.rightMove).shell = app.shell from rfl] at h
    simp only [sideEvent]
    cases hi : (app.shell.processByte env.nullEq c).2 with
    | none =>
      rw [hi] at h
      simp only [Option.some.injEq] at h
      rw [← (Prod.mk.inj h).1]
      exact channel_moveEncoders t app env side
    | some i =>
      rw [hi] at h
      exact invoke_channel t (processByte_arg_ne_nul hi 1) side h
  | pid e =>
    simp only [step, Option.some.injEq] at h
    rw [← (Prod.mk.inj h).1]
    exact channel_pidTask t app e side
  | autoStop e =>
    simp only [step, Option.some.injEq] at h
    rw [← (Prod.mk.inj h).1]
    exact channel_autoStopTask t app e side

/-- The events of one side along a run. -/
def sideEvents (side : Side) (app : App) (acts : List Action) : List Channel.Event :=
  Steps.labels (step t) (sideEvent t side) app acts

/-- A run is a run of each side. -/
theorem channel_run {app app' : App} {acts : List Action} {out : List Byte}
    (h : Steps.run (step t) app acts = some (app', out)) (side : Side) :
    app'.channel side = (sideEvents t side app acts).foldl (Channel.step t) (app.channel side) := by
  refine Steps.run_history (sideEvent t side)
    (fun _ es a _ => a.channel side = es.foldl (Channel.step t) (app.channel side)) rfl ?_ h
  intro _ es a _ act a' _ ih hstep
  rw [channel_step t hstep side, ih, List.foldl_append]
  rfl

theorem lags_setup (zeroQuot : Int → Int) (imu : Bool) (leftMove rightMove : Int) (side : Side) :
    ((setup (avr zeroQuot) imu leftMove rightMove).channel side).Lags 0 := by
  cases side <;> exact Channel.lags_zero rfl

theorem limits_setup_run {imu : Bool} {leftMove rightMove : Int} {acts : List Action} {app : App}
    {out : List Byte}
    (hr : Steps.run (step t) (setup t imu leftMove rightMove) acts = some (app, out)) (side : Side) :
    (app.channel side).pid.limits = (-255, 255) := by
  rw [channel_run t hr side, Channel.limits_run]
  cases side <;> rfl

end App

end AndinoFirmware
