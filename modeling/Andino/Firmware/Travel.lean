import Andino.Firmware.Core
import Andino.Firmware.Command

/-!
# Counts and travel

As long as nobody resets the encoders, the counts are the movement of the wheels since
power-up, as far as 32 bits show it.
-/
namespace AndinoFirmware

open CArith CString

namespace Channel

def Event.isReset : Event → Bool
  | .resetEncoder _ _ => true
  | _ => false

theorem count_step (zeroQuot : Int → Int) {c : Channel} {e : Event} {n : Int}
    (h : c.encoder.count = wrap 32 n) (he : e.isReset = false) :
    (c.step (avr zeroQuot) e).encoder.count = wrap 32 (n + e.moved) := by
  have hmove : ∀ ticks, (c.move (avr zeroQuot) ticks).encoder.count = wrap 32 (n + ticks) := by
    intro ticks
    change wrap 32 (c.encoder.count + ticks) = _
    rw [h]
    exact Int.bmod_add_bmod
  cases e with
  | nothing | stop =>
    rw [Event.moved, add_zero]
    exact h
  | resetEncoder ticks ticksAfterReset => exact absurd he (by simp [Event.isReset])
  | move ticks => exact hmove ticks
  | setSpeed ticks speed idle => exact hmove ticks
  | setPwm ticks pwm => exact hmove ticks
  | setTunings ticks g => exact hmove ticks
  | tick ticks => exact hmove ticks

end Channel

namespace App

/-- The movement of a wheel in an action, up to the handler of a byte. -/
def Action.move (side : Side) : Action → Int
  | .byte _ env => env.move side
  | .pid e => e.move side
  | .autoStop _ => 0

/-- The movement of a wheel over a run. -/
def travelled (side : Side) (acts : List Action) : Int := (acts.map (Action.move side)).sum

variable (t : Target)

theorem invocationSideEvent_moved (env : Env) {i : Shell.Invocation Callback} (side : Side)
    (hi : i.callback ≠ .resetEncoders) :
    (invocationSideEvent t env i side).isReset = false ∧
      (invocationSideEvent t env i side).moved = env.move side := by
  obtain ⟨callback, argc, argv⟩ := i
  cases callback with
  | resetEncoders => exact absurd rfl hi
  | setMotorsSpeed | setMotorsPwm | setPidTuningGains =>
    simp only [invocationSideEvent]
    split <;> exact ⟨rfl, rfl⟩
  | _ => exact ⟨rfl, rfl⟩

theorem sideEvent_moved (side : Side) (app : App) (a : Action)
    (h : ∀ i, app.invocation a = some i → i.callback ≠ .resetEncoders) :
    (sideEvent t side app a).isReset = false ∧ (sideEvent t side app a).moved = a.move side := by
  cases a with
  | byte c env =>
    simp only [sideEvent]
    cases hi : (app.shell.processByte env.nullEq c).2 with
    | none => exact ⟨rfl, rfl⟩
    | some i => exact invocationSideEvent_moved t env side (h i hi)
  | pid e =>
    simp only [sideEvent]
    split <;> exact ⟨rfl, rfl⟩
  | autoStop e =>
    simp only [sideEvent]
    split <;> exact ⟨rfl, rfl⟩

theorem count_setup (zeroQuot : Int → Int) (imu : Bool) (leftMove rightMove : Int) (side : Side) :
    ((setup (avr zeroQuot) imu leftMove rightMove).channel side).encoder.count =
      wrap 32 (side.of (leftMove, rightMove)) := by
  cases side with
  | left => exact congrArg (wrap 32) (zero_add leftMove)
  | right => exact congrArg (wrap 32) (zero_add rightMove)

theorem count_run (zeroQuot : Int → Int) {start app : App} {acts : List Action} {out : List Byte}
    {side : Side} {n : Int} (hn : (start.channel side).encoder.count = wrap 32 n)
    (hr : Steps.run (step (avr zeroQuot)) start acts = some (app, out))
    (hreset : ∀ i ∈ start.invocations (avr zeroQuot) acts, i.callback ≠ .resetEncoders) :
    (app.channel side).encoder.count = wrap 32 (n + travelled side acts) := by
  refine Steps.run_history invocation
    (fun as ls app _ => (∀ i ∈ ls.filterMap id, i.callback ≠ .resetEncoders) →
      (app.channel side).encoder.count = wrap 32 (n + travelled side as)) ?_ ?_ hr hreset
  · intro _
    rw [hn]
    simp [travelled]
  · intro as ls app _ a app' _ ih hs hreset
    rw [List.filterMap_append] at hreset
    have hcount := ih (fun i hi => hreset i (List.mem_append_left _ hi))
    obtain ⟨hno, hmoved⟩ := sideEvent_moved (avr zeroQuot) side app a
      (fun i hi => hreset i (List.mem_append_right _ (by simp [hi])))
    rw [channel_step (avr zeroQuot) hs side, Channel.count_step zeroQuot hcount hno, hmoved]
    congr 1
    simp only [travelled, List.map_append, List.map_singleton, List.sum_append, List.sum_singleton]
    omega

end App

end AndinoFirmware
