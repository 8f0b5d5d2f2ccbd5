import Andino.Firmware.Channel
import Andino.Firmware.Command

/-!
# Settings in force

The setpoint that an enabled controller follows and the gains it uses are those of the
last call that orders any: ticks and stops change neither while the controller stays
enabled. The setpoint of a disabled one is not in force, and a tick may clear it. A side
that was last told to stand stands.
-/
namespace AndinoFirmware

open CArith CString Decimal

namespace Channel

variable (t : Target)

/-- The setpoint an event orders. -/
def Event.setpoint : Event → Option Int
  | .setSpeed _ speed _ => some (t.int (speed.tdiv Constants.kPidRate))
  | .setPwm _ _ => some 0
  | .resetEncoder _ _ => some 0
  | _ => none

/-- The gains an event orders. -/
def Event.gains : Event → Option Gains
  | .setTunings _ g => some g
  | _ => none

/-- Whether an event tells the side to stand or to drive. -/
def Event.stands : Event → Option Bool
  | .setSpeed _ _ idle => some idle
  | .setPwm _ pwm => some (pwm = 0)
  | _ => none

/-- The motor is off, and the controller does not drive it. -/
def AtRest (c : Channel) : Prop := ¬ c.motor.Active ∧ c.pid.enabled = false

/-- While it is enabled, the controller follows this setpoint. -/
def Obeys (c : Channel) (setpoint : Option Int) : Prop :=
  c.pid.enabled = true → setpoint = some c.pid.setpoint

theorem setpoint_compute (p : Pid) (n out : Int) (h : p.enabled = true) :
    (p.compute t n out).pid.setpoint = p.setpoint := by
  by_cases hmax : p.rawOutput t n ≥ p.outputMax
  · rw [Pid.compute_max t out h hmax]
  · by_cases hmin : p.rawOutput t n ≤ p.outputMin
    · rw [Pid.compute_min t out h hmax hmin]
    · rw [Pid.compute_between t out h hmax hmin]

theorem obeys_step {c : Channel} {s : Option Int} (e : Event) (h : c.Obeys s) :
    (c.step t e).Obeys ((e.setpoint t).or s) := by
  intro hen
  cases e with
  | setSpeed ticks speed idle => cases idle <;> rfl
  | setPwm ticks pwm => rfl
  | resetEncoder ticks ticksAfterReset => rfl
  | tick ticks =>
    have hc : c.pid.enabled = true := by
      rw [← Pid.enabled_compute t c.pid ((c.move t ticks).count t) 0]
      exact hen
    exact (h hc).trans (congrArg some (setpoint_compute t c.pid _ 0 hc).symm)
  | stop => exact absurd hen (by simp [step, Pid.disable])
  | _ => exact h hen

theorem gains_step (c : Channel) (e : Event) : (c.step t e).pid.gains = e.gains.getD c.pid.gains := by
  cases e with
  | setSpeed ticks speed idle => cases idle <;> rfl
  | tick ticks =>
    have h := Pid.fixed_compute t c.pid ((c.move t ticks).count t) 0
    exact congrArg (fun f : Pid.Fixed => (⟨f.kp, f.kd, f.ki, f.ko⟩ : Gains)) h
  | _ => rfl

/-- Nothing but an order to drive makes a side leave its rest. -/
theorem stands_step {c : Channel} {s : Option Bool} (e : Event) (h : s ≠ some false → c.AtRest) :
    e.stands.or s ≠ some false → (c.step t e).AtRest := by
  intro hs
  cases e with
  | setSpeed ticks speed idle =>
    cases idle with
    | false => exact absurd rfl hs
    | true => exact ⟨Motor.setSpeed_zero t _, rfl⟩
  | setPwm ticks pwm =>
    have hzero : pwm = 0 := by
      by_contra hne
      exact hs (congrArg some (decide_eq_false hne))
    subst hzero
    exact ⟨Motor.setSpeed_zero t _, rfl⟩
  | tick ticks =>
    obtain ⟨hmotor, hpid⟩ := h hs
    have hoff : (c.computation t ticks).pid.enabled = false :=
      (Pid.enabled_compute t c.pid ((c.move t ticks).count t) 0).trans hpid
    refine ⟨?_, hoff⟩
    simp only [step, hpid]
    exact hmotor
  | stop => exact ⟨Motor.setSpeed_zero t _, rfl⟩
  | _ => exact h hs

end Channel

namespace App

variable (t : Target)

/-- Something that the commands order for a side: read off an event, and off the call behind
it. No task orders anything. -/
structure Order (side : Side) (β : Type) where
  event : Channel.Event → Option β
  call : Shell.Invocation Callback → Option β
  event_call : ∀ env i, event (invocationSideEvent t env i side) = call i
  event_move : ∀ ticks, event (.move ticks) = none
  event_tick : ∀ ticks, event (.tick ticks) = none
  event_stop : event .stop = none
  event_nothing : event .nothing = none

namespace Order

variable {t} {side : Side} {β : Type}

/-- The last order of a sequence of calls. -/
def last (o : Order t side β) (is : List (Shell.Invocation Callback)) : Option β :=
  (is.filterMap o.call).getLast?

/-- An action orders what its call orders. -/
theorem event_sideEvent (o : Order t side β) (app : App) (a : Action) :
    o.event (sideEvent t side app a) = (app.invocation a).bind o.call := by
  cases a with
  | byte c env =>
    simp only [sideEvent, invocation]
    cases (app.shell.processByte env.nullEq c).2 with
    | none => exact o.event_move _
    | some i => exact o.event_call env i
  | pid e =>
    simp only [sideEvent, invocation]
    split
    · exact o.event_tick _
    · exact o.event_move _
  | autoStop e =>
    simp only [sideEvent, invocation]
    split
    · exact o.event_stop
    · exact o.event_nothing

/-- The last one is a new one, or the last one so far. -/
theorem last_append (o : Order t side β) (is : List (Shell.Invocation Callback))
    (i : Option (Shell.Invocation Callback)) :
    o.last (is ++ i.toList) = (i.bind o.call).or (o.last is) := by
  rw [last, last]
  cases i with
  | none => simp
  | some i =>
    rw [Option.toList_some, List.filterMap_append, Option.bind_some]
    cases hi : o.call i with
    | none => simp [hi]
    | some x => simp [hi]

/-- What every event keeps in force is in force after any bytes and tasks. -/
theorem in_force (o : Order t side β) {I : Channel → Option β → Prop}
    (hstep : ∀ c s e, I c s → I (c.step t e) ((o.event e).or s)) {imu : Bool}
    {leftMove rightMove : Int} {acts : List Action} {app : App} {out : List Byte}
    (hsetup : I ((setup t imu leftMove rightMove).channel side) none)
    (hr : Steps.run (step t) (setup t imu leftMove rightMove) acts = some (app, out)) :
    I (app.channel side) (o.last ((setup t imu leftMove rightMove).invocations t acts)) := by
  refine Steps.run_history invocation
    (fun _ ls app _ => I (app.channel side) (o.last (ls.filterMap id))) hsetup ?_ hr
  intro _ ls app _ a app' _ hlast hs
  have hcalls : (ls ++ [app.invocation a]).filterMap id =
      ls.filterMap id ++ (app.invocation a).toList := by
    cases app.invocation a <;> simp
  rw [hcalls, last_append, ← o.event_sideEvent app a, channel_step t hs side]
  exact hstep _ _ _ hlast

end Order

/-- The setpoint a call orders for a side. -/
def orderedSetpoint (side : Side) (i : Shell.Invocation Callback) : Option Int :=
  match i.callback with
  | .setMotorsSpeed =>
    if i.argc < 3 then none
    else some (t.int ((atoi t (arg i.argv side.argument)).tdiv Constants.kPidRate))
  | .setMotorsPwm => if i.argc < 3 then none else some 0
  | .resetEncoders => some 0
  | _ => none

/-- The gains a call orders. -/
def orderedGains (i : Shell.Invocation Callback) : Option Gains :=
  match i.callback with
  | .setPidTuningGains => if i.argc < 2 then none else some (requestedGains t (arg i.argv 1))
  | _ => none

/-- Whether a call tells a side to stand or to drive. -/
def orderedStands (side : Side) (i : Shell.Invocation Callback) : Option Bool :=
  match i.callback with
  | .setMotorsSpeed =>
    if i.argc < 3 then none else some (atoi t (arg i.argv 1) = 0 ∧ atoi t (arg i.argv 2) = 0)
  | .setMotorsPwm => if i.argc < 3 then none else some (atoi t (arg i.argv side.argument) = 0)
  | _ => none

def setpointOrder (side : Side) : Order t side Int where
  event := Channel.Event.setpoint t
  call := orderedSetpoint t side
  event_call env i := by
    obtain ⟨callback, argc, argv⟩ := i
    cases callback with
    | setMotorsSpeed | setMotorsPwm | setPidTuningGains =>
      simp only [invocationSideEvent, orderedSetpoint]
      split <;> rfl
    | _ => rfl
  event_move _ := rfl
  event_tick _ := rfl
  event_stop := rfl
  event_nothing := rfl

def gainsOrder (side : Side) : Order t side Gains where
  event := Channel.Event.gains
  call := orderedGains t
  event_call env i := by
    obtain ⟨callback, argc, argv⟩ := i
    cases callback with
    | setMotorsSpeed | setMotorsPwm | setPidTuningGains =>
      simp only [invocationSideEvent, orderedGains]
      split <;> rfl
    | _ => rfl
  event_move _ := rfl
  event_tick _ := rfl
  event_stop := rfl
  event_nothing := rfl

def standsOrder (side : Side) : Order t side Bool where
  event := Channel.Event.stands
  call := orderedStands t side
  event_call env i := by
    obtain ⟨callback, argc, argv⟩ := i
    cases callback with
    | setMotorsSpeed | setMotorsPwm | setPidTuningGains =>
      simp only [invocationSideEvent, orderedStands]
      split <;> rfl
    | _ => rfl
  event_move _ := rfl
  event_tick _ := rfl
  event_stop := rfl
  event_nothing := rfl

variable {t} {imu : Bool} {leftMove rightMove : Int} {acts : List Action} {app : App}
  {out : List Byte}

/-- After any bytes and tasks, an enabled controller follows the last setpoint that a call
has ordered. -/
theorem setpoint_in_force
    (hr : Steps.run (step t) (setup t imu leftMove rightMove) acts = some (app, out)) (side : Side) :
    (app.channel side).Obeys
      ((setpointOrder t side).last ((setup t imu leftMove rightMove).invocations t acts)) := by
  apply (setpointOrder t side).in_force (I := Channel.Obeys) _ _ hr
  · exact fun c s e h => Channel.obeys_step t e h
  · cases side <;> exact fun hen => absurd hen Bool.false_ne_true

/-- Both controllers use the last gains. -/
theorem gains_in_force
    (hr : Steps.run (step t) (setup t imu leftMove rightMove) acts = some (app, out)) (side : Side) :
    (app.channel side).pid.gains =
      ((gainsOrder t side).last ((setup t imu leftMove rightMove).invocations t acts)).getD
        pidController.gains := by
  apply (gainsOrder t side).in_force (I := fun c s => c.pid.gains = s.getD pidController.gains) _ _ hr
  · intro c s e h
    rw [Channel.gains_step, h]
    change e.gains.getD _ = (e.gains.or s).getD _
    cases e.gains <;> rfl
  · cases side <;> rfl

/-- A side that was not told to drive, or told to stand since, is at rest. -/
theorem rest_in_force
    (hr : Steps.run (step t) (setup t imu leftMove rightMove) acts = some (app, out)) (side : Side)
    (hlast : (standsOrder t side).last ((setup t imu leftMove rightMove).invocations t acts) ≠
      some false) :
    (app.channel side).AtRest := by
  revert hlast
  apply (standsOrder t side).in_force (I := fun c s => s ≠ some false → c.AtRest) _ _ hr
  · exact fun c s e h => Channel.stands_step t e h
  · have hoff : ¬ (Motor.enable {} true).Active := by decide
    cases side <;> exact fun _ => ⟨hoff, rfl⟩

end App

end AndinoFirmware
