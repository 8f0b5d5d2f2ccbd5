import Andino.Library.Moments
import Andino.Firmware.Channel

/-!
# The application without its shell

Over the integers the movement of the wheels adds up, and a command line counts from its
last byte on: `Core` is the two sides and the two timers, `Input` is what the application
is told apart from movements, and `core_step` says that every step of the application is
a movement and then the reaction to what the step brings, if it brings anything. Times
are inputs; whether a task fires is decided by the timers of the core.
-/
namespace AndinoFirmware

open CArith CString Moments

/-- The value of a side in a pair. -/
def Side.of {α : Type} (p : α × α) : Side → α
  | .left => p.1
  | .right => p.2

/-- The ticks of the left and of the right wheel. -/
abbrev Displacement := Int × Int

/-- A command that reaches a motor, an encoder or a controller, or one turn of a task. -/
inductive Input where
  | setMotorsSpeed (left right : Int) (now : Nat)
  | setMotorsPwm (left right : Int)
  | resetEncoders (movedAfterReset : Displacement)
  | setTunings (gains : Gains)
  | pid (check store : Nat)
  | autoStop (check store : Nat)
  deriving DecidableEq, Repr

namespace Channel

/-- The movement with which an event starts. -/
def Event.ticks : Event → Int
  | .nothing | .stop => 0
  | .move ticks | .setSpeed ticks _ _ | .setPwm ticks _ | .resetEncoder ticks _
  | .setTunings ticks _ | .tick ticks => ticks

/-- The event without that movement. -/
def Event.still : Event → Event
  | .nothing => .nothing
  | .move _ => .nothing
  | .setSpeed _ speed idle => .setSpeed 0 speed idle
  | .setPwm _ pwm => .setPwm 0 pwm
  | .resetEncoder _ ticksAfterReset => .resetEncoder 0 ticksAfterReset
  | .setTunings _ gains => .setTunings 0 gains
  | .tick _ => .tick 0
  | .stop => .stop

theorem move_zero (c : Channel) : c.move exact 0 = c := by
  simp [move, Encoder.move, exact]

theorem move_add (c : Channel) (d e : Int) :
    c.move exact (d + e) = (c.move exact d).move exact e := by
  simp [move, Encoder.move, exact, add_assoc]

/-- An event is its movement and the rest of it. -/
theorem step_still (c : Channel) (e : Event) :
    c.step exact e = (c.move exact e.ticks).step exact e.still := by
  have hzero : (c.move exact e.ticks).move exact 0 = c.move exact e.ticks := move_zero _
  cases e with
  | nothing | stop =>
    rw [Event.ticks, move_zero]
    rfl
  | move ticks => rfl
  | setSpeed ticks speed idle | setPwm ticks speed =>
    simp only [step, Event.still, hzero]
    rfl
  | resetEncoder ticks ticksAfterReset => rfl
  | setTunings ticks g =>
    simp only [step, Event.still, hzero]
    rfl
  | tick ticks =>
    simp only [step, computation, Event.still, hzero]
    rfl

end Channel

/-- What an input means for one side. -/
def Input.event : Input → Side → Channel.Event
  | .setMotorsSpeed left right _, side =>
    .setSpeed 0 (side.of (left, right)) (left = 0 ∧ right = 0)
  | .setMotorsPwm left right, side => .setPwm 0 (side.of (left, right))
  | .resetEncoders d, side => .resetEncoder 0 (side.of d)
  | .setTunings g, _ => .setTunings 0 g
  | .pid _ _, _ => .tick 0
  | .autoStop _ _, _ => .stop

/-- Both sides and both timers. -/
@[ext]
structure Core where
  channel : Side → Channel
  lastPidComputation : UInt32
  lastSetMotorsSpeedCmd : UInt32

namespace Core

/-- One event on each side. -/
def each (c : Core) (event : Side → Channel.Event) : Core :=
  { c with channel := fun side => (c.channel side).step exact (event side) }

def push (c : Core) (d : Displacement) : Core := c.each (fun side => .move (side.of d))

/-- A task waits until its time is up, a command is never refused. -/
def Due (c : Core) : Input → Prop
  | .pid check _ => (millis check - c.lastPidComputation).toNat > Constants.kPidPeriod
  | .autoStop check _ =>
    (millis check - c.lastSetMotorsSpeedCmd).toNat > Constants.kAutoStopWindow
  | _ => True

instance (c : Core) : ∀ i, Decidable (c.Due i)
  | .pid _ _ | .autoStop _ _ => Nat.decLt _ _
  | .setMotorsSpeed _ _ _ | .setMotorsPwm _ _ | .resetEncoders _ | .setTunings _ => isTrue trivial

/-- The timer that an input sets. -/
def setTimer (c : Core) : Input → Core
  | .setMotorsSpeed _ _ now => { c with lastSetMotorsSpeedCmd := millis now }
  | .pid _ store => { c with lastPidComputation := millis store }
  | .autoStop _ store => { c with lastSetMotorsSpeedCmd := millis store }
  | _ => c

def react (c : Core) (i : Input) : Core := if c.Due i then (c.each i.event).setTimer i else c

theorem react_due {c : Core} {i : Input} (h : c.Due i) :
    c.react i = (c.each i.event).setTimer i := if_pos h

theorem react_not_due {c : Core} {i : Input} (h : ¬ c.Due i) : c.react i = c := if_neg h

theorem push_zero (c : Core) : c.push 0 = c := by
  have hsides : (c.push 0).channel = c.channel := by
    funext side
    cases side <;> exact Channel.move_zero _
  cases c
  exact congrArg (Core.mk · _ _) hsides

theorem push_add (c : Core) (d e : Displacement) : c.push (d + e) = (c.push d).push e := by
  have hsides : (c.push (d + e)).channel = ((c.push d).push e).channel := by
    funext side
    cases side <;> exact Channel.move_add _ _ _
  exact congrArg (Core.mk · c.lastPidComputation c.lastSetMotorsSpeedCmd) hsides

def machine : Machine Core Input Displacement := ⟨push, react, push_zero, push_add⟩

theorem respond_some (c : Core) (d : Displacement) (i : Input) :
    machine.respond c ⟨d, some i⟩ = (c.push d).react i := rfl

end Core

namespace App

def core (app : App) : Core :=
  ⟨app.channel, app.lastPidComputation, app.lastSetMotorsSpeedCmd⟩

/-- The movement with which an action starts. -/
def moved : Action → Displacement
  | .byte _ env => (env.leftMove, env.rightMove)
  | .pid e => (e.leftMove, e.rightMove)
  | .autoStop _ => (0, 0)

def invocationInput (env : Env) (i : Shell.Invocation Callback) : Option Input :=
  match i.callback with
  | .resetEncoders => some (.resetEncoders (env.leftMoveAfterReset, env.rightMoveAfterReset))
  | .setMotorsSpeed =>
    if i.argc < 3 then none
    else some (.setMotorsSpeed (atoi exact (arg i.argv 1)) (atoi exact (arg i.argv 2)) env.now)
  | .setMotorsPwm =>
    if i.argc < 3 then none
    else some (.setMotorsPwm (atoi exact (arg i.argv 1)) (atoi exact (arg i.argv 2)))
  | .setPidTuningGains =>
    if i.argc < 2 then none else some (.setTunings (requestedGains exact (arg i.argv 1)))
  | _ => none

/-- What an action tells the application. -/
def seen (app : App) : Action → Option Input
  | .byte c env => (app.shell.processByte env.nullEq c).2.bind (invocationInput env)
  | .pid e => some (.pid e.check e.store)
  | .autoStop e => some (.autoStop e.check e.store)

def view : View App Action Input Displacement := ⟨moved, seen⟩

theorem invocationInput_inert {i : Shell.Invocation Callback} (env : Env) (h : Inert i) :
    invocationInput env i = none := by
  obtain ⟨callback, argc, argv⟩ := i
  cases callback with
  | resetEncoders => exact h.elim
  | setMotorsSpeed | setMotorsPwm | setPidTuningGains => exact if_pos h
  | _ => rfl

/-- What a call tells is its event on each side. -/
theorem channel_invocationInput (app : App) (env : Env) (i : Shell.Invocation Callback)
    (side : Side) :
    (Core.machine.respond app.core ⟨(env.leftMove, env.rightMove), invocationInput env i⟩).channel
      side = (app.channel side).step exact (invocationSideEvent exact env i side) := by
  by_cases hi : Inert i
  · rw [invocationInput_inert env hi, invocationSideEvent_inert exact env side hi]
    cases side <;> rfl
  · rw [Channel.step_still]
    obtain ⟨callback, argc, argv⟩ := i
    cases callback with
    | resetEncoders => cases side <;> rfl
    | setMotorsSpeed | setMotorsPwm =>
      have hargc : ¬ argc < 3 := hi
      simp only [invocationInput, invocationSideEvent, if_neg hargc]
      cases side <;> rfl
    | setPidTuningGains =>
      have hargc : ¬ argc < 2 := hi
      simp only [invocationInput, invocationSideEvent, if_neg hargc]
      cases side <;> rfl
    | _ => exact absurd trivial hi

theorem channel_seen (app : App) (a : Action) (side : Side) :
    (Core.machine.respond app.core ⟨moved a, app.seen a⟩).channel side =
      (app.channel side).step exact (sideEvent exact side app a) := by
  cases a with
  | byte c env =>
    simp only [seen, sideEvent]
    cases (app.shell.processByte env.nullEq c).2 with
    | none => cases side <;> rfl
    | some i => exact channel_invocationInput app env i side
  | pid e =>
    rw [seen, Core.respond_some, sideEvent]
    by_cases hdue : app.PidDue e
    · have hcore : (app.core.push (moved (.pid e))).Due (.pid e.check e.store) := hdue
      rw [if_pos hdue, Core.react_due hcore, Channel.step_still]
      cases side <;> rfl
    · have hcore : ¬ (app.core.push (moved (.pid e))).Due (.pid e.check e.store) := hdue
      rw [if_neg hdue, Core.react_not_due hcore]
      cases side <;> rfl
  | autoStop e =>
    rw [seen, Core.respond_some, sideEvent, moved, ← Prod.zero_eq_mk, Core.push_zero]
    by_cases hdue : app.StopDue e
    · have hcore : app.core.Due (.autoStop e.check e.store) := hdue
      rw [if_pos hdue, Core.react_due hcore]
      rfl
    · have hcore : ¬ app.core.Due (.autoStop e.check e.store) := hdue
      rw [if_neg hdue, Core.react_not_due hcore]
      rfl

/-- Of the calls, only `m` with two arguments sets a timer. -/
theorem invoke_timers {env : Env} {i : Shell.Invocation Callback} {app app' : App} {out : List Byte}
    (hnul : ∀ c ∈ arg i.argv 1, c ≠ 0)
    (h : invoke exact env i app = some (app', out)) (c : Core)
    (hpid : c.lastPidComputation = app.lastPidComputation)
    (hset : c.lastSetMotorsSpeedCmd = app.lastSetMotorsSpeedCmd) (d : Displacement) :
    app'.lastPidComputation = (Core.machine.respond c ⟨d, invocationInput env i⟩).lastPidComputation ∧
      app'.lastSetMotorsSpeedCmd =
        (Core.machine.respond c ⟨d, invocationInput env i⟩).lastSetMotorsSpeedCmd := by
  have heffect := effect_of_invoke exact hnul h
  obtain ⟨callback, argc, argv⟩ := i
  cases heffect with
  | inert hi =>
    rw [invocationInput_inert env hi]
    exact ⟨hpid.symm, hset.symm⟩
  | resetEncoders hc =>
    subst hc
    exact ⟨hpid.symm, hset.symm⟩
  | setMotorsSpeed hc hargc =>
    subst hc
    simp only [invocationInput, cmdSetMotorsSpeedCb, if_neg hargc]
    split <;> exact ⟨hpid.symm, rfl⟩
  | setMotorsPwm hc hargc =>
    subst hc
    simp only [invocationInput, cmdSetMotorsPwmCb, if_neg hargc]
    exact ⟨hpid.symm, hset.symm⟩
  | setTunings hc hargc =>
    subst hc
    simp only [invocationInput, if_neg hargc]
    exact ⟨hpid.symm, hset.symm⟩

theorem timers_step {app app' : App} {a : Action} {out : List Byte}
    (h : step exact app a = some (app', out)) :
    app'.lastPidComputation =
        (Core.machine.respond app.core ⟨moved a, app.seen a⟩).lastPidComputation ∧
      app'.lastSetMotorsSpeedCmd =
        (Core.machine.respond app.core ⟨moved a, app.seen a⟩).lastSetMotorsSpeedCmd := by
  cases a with
  | byte c env =>
    simp only [step, processByte] at h
    rw [show (app.moveEncoders exact env.leftMove env.rightMove).shell = app.shell from rfl] at h
    simp only [seen]
    cases hi : (app.shell.processByte env.nullEq c).2 with
    | none =>
      rw [hi] at h
      simp only [Option.some.injEq] at h
      rw [← (Prod.mk.inj h).1]
      exact ⟨rfl, rfl⟩
    | some i =>
      rw [hi] at h
      exact invoke_timers (processByte_arg_ne_nul hi 1) h app.core rfl rfl (moved (.byte c env))
  | pid e =>
    simp only [step, Option.some.injEq] at h
    rw [← (Prod.mk.inj h).1, seen, Core.respond_some]
    by_cases hdue : app.PidDue e
    · have hcore : (app.core.push (moved (.pid e))).Due (.pid e.check e.store) := hdue
      rw [pidTask_due exact hdue, Core.react_due hcore]
      exact ⟨rfl, rfl⟩
    · have hcore : ¬ (app.core.push (moved (.pid e))).Due (.pid e.check e.store) := hdue
      rw [pidTask_not_due exact hdue, Core.react_not_due hcore]
      exact ⟨rfl, rfl⟩
  | autoStop e =>
    simp only [step, Option.some.injEq] at h
    rw [← (Prod.mk.inj h).1, seen, Core.respond_some, moved, ← Prod.zero_eq_mk, Core.push_zero]
    by_cases hdue : app.StopDue e
    · have hcore : app.core.Due (.autoStop e.check e.store) := hdue
      rw [autoStopTask_due exact hdue, Core.react_due hcore]
      exact ⟨rfl, rfl⟩
    · have hcore : ¬ app.core.Due (.autoStop e.check e.store) := hdue
      rw [autoStopTask_not_due exact hdue, Core.react_not_due hcore]
      exact ⟨rfl, rfl⟩

/-- Every step of the application is a step of its core. -/
theorem core_step : Simulates (step exact) view Core.machine core := by
  intro app a app' out h
  obtain ⟨hpid, hset⟩ := timers_step h
  apply Core.ext
  · funext side
    exact (channel_step exact h side).trans (channel_seen app a side).symm
  · exact hpid
  · exact hset

end App

end AndinoFirmware
