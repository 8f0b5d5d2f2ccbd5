import Andino.Firmware.Command
import Andino.Firmware.Core
import Andino.Firmware.PidExact

/-!
# Forward and backward

Nothing in the firmware prefers a direction: `set_speed` chooses an output by the sign,
the quotients truncate toward zero, the limits of the controllers are symmetric, and a
disabled controller restarts at zero. So the run in which every motor command and every
movement of a wheel is negated goes through the negated states. A negated command line
can be longer than the line it negates, or even than the buffer; therefore the two runs
are related by their moments and not by their bytes.
-/
namespace AndinoFirmware

open CArith CString Moments

namespace Motor

/-- The bridge with its two outputs exchanged. -/
def reversed (m : Motor) : Motor :=
  { m with forward := m.backward, backward := m.forward, lastSpeed := m.lastSpeed.map (- ·) }

theorem setSpeed_reversed (m : Motor) (s : Int) :
    m.reversed.setSpeed exact (-s) = (m.setSpeed exact s).reversed := by
  rcases Int.lt_trichotomy s 0 with hneg | rfl | hpos
  · rw [setSpeed_of_neg m hneg, setSpeed_of_nonneg m.reversed (by omega)]
    rfl
  · rw [neg_zero, setSpeed_of_nonneg m (le_refl 0), setSpeed_of_nonneg m.reversed (le_refl 0)]
    rfl
  · rw [setSpeed_of_nonneg m (by omega), setSpeed_of_neg m.reversed (by omega), neg_neg]
    rfl

end Motor

def Encoder.reversed (e : Encoder) : Encoder := { e with count := -e.count }

theorem Pid.reset_reversed (p : Pid) (n : Int) : p.reversed.reset (-n) = (p.reset n).reversed := by
  simp [reset, reversed]

namespace Channel

def reversed (c : Channel) : Channel := ⟨c.motor.reversed, c.encoder.reversed, c.pid.reversed⟩

def Event.reversed : Event → Event
  | .nothing => .nothing
  | .move ticks => .move (-ticks)
  | .setSpeed ticks speed idle => .setSpeed (-ticks) (-speed) idle
  | .setPwm ticks pwm => .setPwm (-ticks) (-pwm)
  | .resetEncoder ticks ticksAfterReset => .resetEncoder (-ticks) (-ticksAfterReset)
  | .setTunings ticks g => .setTunings (-ticks) g
  | .tick ticks => .tick (-ticks)
  | .stop => .stop

theorem move_reversed (c : Channel) (ticks : Int) :
    c.reversed.move exact (-ticks) = (c.move exact ticks).reversed := by
  have hcount : -c.encoder.count + -ticks = -(c.encoder.count + ticks) := by omega
  simp [move, Encoder.move, reversed, Encoder.reversed, exact, hcount]

/-- On one side, a reversed event leads to the reversed state. -/
theorem step_reversed {c : Channel} (hlim : c.pid.limits = (-255, 255)) (e : Event) :
    c.reversed.step exact e.reversed = (c.step exact e).reversed := by
  have hzero : c.motor.reversed.setSpeed exact 0 = (c.motor.setSpeed exact 0).reversed :=
    c.motor.setSpeed_reversed 0
  cases e with
  | nothing => rfl
  | move ticks => exact move_reversed c ticks
  | setSpeed ticks speed idle =>
    have hset : (-speed).tdiv Constants.kPidRate = -(speed.tdiv Constants.kPidRate) :=
      Int.neg_tdiv _ _
    simp only [Event.reversed, step, move_reversed, hset]
    cases idle with
    | false => rfl
    | true =>
      have hreset := c.pid.reset_reversed ((c.move exact ticks).count exact)
      exact congrArg₂ (fun m p => Channel.mk m (c.move exact ticks).encoder.reversed
        ((Pid.disable p).setSetpoint (-(speed.tdiv Constants.kPidRate)))) hzero hreset
  | setPwm ticks pwm =>
    have hreset := c.pid.reset_reversed ((c.move exact ticks).count exact)
    simp only [Event.reversed, step, move_reversed]
    exact congrArg₂ (fun m p => Channel.mk m (c.move exact ticks).encoder.reversed (Pid.disable p))
      (c.motor.setSpeed_reversed pwm) hreset
  | resetEncoder ticks ticksAfterReset =>
    have hcount : 0 + -ticksAfterReset = -(0 + ticksAfterReset) := by omega
    have hreset := c.pid.reset_reversed (0 + ticksAfterReset)
    rw [← hcount] at hreset
    exact congrArg₂ (fun n p => Channel.mk c.motor.reversed ⟨c.encoder.state, n⟩ p) hcount hreset
  | setTunings ticks g =>
    simp only [Event.reversed, step, move_reversed]
    rfl
  | tick ticks =>
    obtain ⟨hmin, hmax⟩ := Prod.mk.inj hlim
    have hrun : c.reversed.computation exact (-ticks) =
        ⟨(c.computation exact ticks).pid.reversed, -(c.computation exact ticks).output,
          (c.computation exact ticks).divisor⟩ := by
      rw [computation, move_reversed]
      exact Pid.compute_reversed (by omega) (by omega) ((c.move exact ticks).count exact) 0
    simp only [Event.reversed, step, move_reversed, hrun]
    have hmotor := c.motor.setSpeed_reversed (c.computation exact ticks).output
    change Channel.mk (if c.pid.enabled then _ else _) _ _ =
      Channel.reversed ⟨if c.pid.enabled then _ else _, _, _⟩
    cases c.pid.enabled with
    | false => rfl
    | true =>
      exact congrArg (Channel.mk · (c.move exact ticks).encoder.reversed
        (c.computation exact ticks).pid.reversed) hmotor
  | stop => exact congrArg (Channel.mk · c.encoder.reversed c.pid.reversed.disable) hzero

end Channel

def Input.reversed : Input → Input
  | .setMotorsSpeed left right now => .setMotorsSpeed (-left) (-right) now
  | .setMotorsPwm left right => .setMotorsPwm (-left) (-right)
  | .resetEncoders d => .resetEncoders (-d)
  | .setTunings g => .setTunings g
  | .pid check store => .pid check store
  | .autoStop check store => .autoStop check store

/-- A moment with its movement and the numbers of a motor command negated; times and
gains are the same. -/
def reversed (m : Moment Displacement Input) : Moment Displacement Input :=
  ⟨-m.moved, m.seen.map Input.reversed⟩

namespace Core

/-- Both sides reversed, and the same timers. -/
def reversed (c : Core) : Core := { c with channel := fun side => (c.channel side).reversed }

/-- The controllers have the limits they are built with. -/
def Limited (c : Core) : Prop := ∀ side, (c.channel side).pid.limits = (-255, 255)

theorem limited_each {c : Core} (h : c.Limited) (event : Side → Channel.Event) :
    (c.each event).Limited := by
  intro side
  exact (Channel.limits_step exact (c.channel side) (event side)).trans (h side)

theorem limited_react {c : Core} (h : c.Limited) (i : Input) : (c.react i).Limited := by
  by_cases hdue : c.Due i
  · rw [react_due hdue]
    cases i <;> exact limited_each h _
  · rw [react_not_due hdue]
    exact h

theorem limited_respond (c : Core) (m : Moment Displacement Input) (h : c.Limited) :
    (machine.respond c m).Limited := by
  obtain ⟨d, _ | i⟩ := m
  · exact limited_each h _
  · exact limited_react (limited_each h _) i

/-- Reversed events on both sides. -/
theorem each_reversed {c : Core} (h : c.Limited) {event event' : Side → Channel.Event}
    (he : ∀ side, event' side = (event side).reversed) :
    c.reversed.each event' = (c.each event).reversed := by
  have hsides : (c.reversed.each event').channel = (c.each event).reversed.channel := by
    funext side
    change (c.channel side).reversed.step exact (event' side) = _
    rw [he]
    exact Channel.step_reversed (h side) (event side)
  exact congrArg (Core.mk · c.lastPidComputation c.lastSetMotorsSpeedCmd) hsides

theorem push_reversed {c : Core} (h : c.Limited) (d : Displacement) :
    c.reversed.push (-d) = (c.push d).reversed := by
  apply each_reversed h
  intro side
  cases side <;> rfl

theorem event_reversed (i : Input) (side : Side) :
    i.reversed.event side = (i.event side).reversed := by
  cases i with
  | setMotorsSpeed left right now =>
    have hzero : (-left = 0 ∧ -right = 0) ↔ (left = 0 ∧ right = 0) := by omega
    simp only [Input.reversed, Input.event, hzero]
    cases side <;> rfl
  | setMotorsPwm | resetEncoders => cases side <;> rfl
  | setTunings | pid | autoStop => rfl

/-- The same times make the same tasks fire. -/
theorem due_reversed (c : Core) (i : Input) : c.reversed.Due i.reversed ↔ c.Due i := by
  cases i <;> exact Iff.rfl

theorem setTimer_reversed (c : Core) (i : Input) :
    c.reversed.setTimer i.reversed = (c.setTimer i).reversed := by
  cases i <;> rfl

theorem react_reversed {c : Core} (h : c.Limited) (i : Input) :
    c.reversed.react i.reversed = (c.react i).reversed := by
  have hiff := due_reversed c i
  by_cases hdue : c.Due i
  · rw [react_due hdue, react_due (hiff.mpr hdue), each_reversed h (event_reversed i),
      setTimer_reversed]
  · rw [react_not_due hdue, react_not_due (mt hiff.mp hdue)]

/-- A reversed moment leads to the reversed state. -/
theorem respond_reversed (c : Core) (m : Moment Displacement Input) (h : c.Limited) :
    machine.respond c.reversed (AndinoFirmware.reversed m) = (machine.respond c m).reversed := by
  obtain ⟨d, _ | i⟩ := m
  · exact push_reversed h d
  · change (c.reversed.push (-d)).react i.reversed = ((c.push d).react i).reversed
    rw [push_reversed h d]
    exact react_reversed (limited_each h _) i

end Core

namespace App

/-- The moments of a run: what it is told, and the movements in between. -/
def moments (app : App) (acts : List Action) : List (Moment Displacement Input) :=
  (points (step exact) view 0 app acts).map Prod.fst

/-- The sides and timers behind each of the moments. -/
def cores (app : App) (acts : List Action) : List Core :=
  (points (step exact) view 0 app acts).map (fun p => p.2.core)

theorem limited_setup (imu : Bool) (leftMove rightMove : Int) :
    (setup exact imu leftMove rightMove).core.Limited := by
  intro side
  cases side <;> rfl

theorem core_setup_reversed (imu imu' : Bool) (leftMove rightMove : Int) :
    (setup exact imu' (-leftMove) (-rightMove)).core =
      (setup exact imu leftMove rightMove).core.reversed := by
  have hsides : (setup exact imu' (-leftMove) (-rightMove)).core.channel =
      (setup exact imu leftMove rightMove).core.reversed.channel := by
    have hcount (n : Int) : 0 + -n = -(0 + n) := by omega
    funext side
    cases side with
    | left =>
      exact congrArg (fun n => Channel.mk (Motor.enable {} true) ⟨0, n⟩ (pidController.reset n))
        (hcount leftMove)
    | right =>
      exact congrArg (fun n => Channel.mk (Motor.enable {} true) ⟨0, n⟩ (pidController.reset n))
        (hcount rightMove)
  exact congrArg (Core.mk · 0 0) hsides

/-- Two runs with the same times and the same gains, one with all motor commands and all
movements of the other negated: behind every moment, the outputs of both bridges are
exchanged, and everything that the controllers keep, but the gains, is negated. -/
theorem symmetric_runs (imu imu' : Bool) (leftMove rightMove : Int) (acts acts' : List Action)
    (h : (setup exact imu' (-leftMove) (-rightMove)).moments acts' =
      ((setup exact imu leftMove rightMove).moments acts).map reversed) :
    (setup exact imu' (-leftMove) (-rightMove)).cores acts' =
      ((setup exact imu leftMove rightMove).cores acts).map Core.reversed :=
  points_map core_step Core.Limited Core.limited_respond Core.respond_reversed
    (limited_setup imu leftMove rightMove) (core_setup_reversed imu imu' leftMove rightMove) h

/-- Turning on the spot to either side, with a negative divisor set on the way. -/
theorem symmetric_runs_turning :
    (setup exact false 0 0).cores
      (typed (Env.quiet 5) (ascii "m -600 90\r") ++ [Action.pid ⟨40, 40, 1, -2⟩] ++
        typed (Env.quiet 50) (ascii "u 30:10:1:-7\rr\r") ++
        [Action.pid ⟨80, 80, -7, 3⟩, Action.autoStop ⟨80, 80⟩]) =
    ((setup exact false 0 0).cores
      (typed (Env.quiet 5) (ascii "m 600 -90\r") ++ [Action.pid ⟨40, 40, -1, 2⟩] ++
        typed (Env.quiet 50) (ascii "u 30:10:1:-7\rr\r") ++
        [Action.pid ⟨80, 80, 7, -3⟩, Action.autoStop ⟨80, 80⟩])).map Core.reversed :=
  symmetric_runs false false 0 0 _ _ (by decide +kernel)

end App

end AndinoFirmware
