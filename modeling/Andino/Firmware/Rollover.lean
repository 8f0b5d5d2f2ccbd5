import Andino.Firmware.Drive

/-!
# The clock

`millis()` counts modulo 2^32 and is back at zero after some fifty days. The firmware only ever
looks at differences between a reading and one of its two timers, so that no moment of the clock
is special: a run with all readings, and the timers it starts with, moved by the same time is
the same run.
-/
namespace AndinoFirmware

open CArith CString

theorem millis_add (now k : Nat) : millis (now + k) = millis now + millis k :=
  UInt32.ofNat_add now k

/-- What has passed since a timer was set does not depend on where the clock stands. -/
theorem elapsed_later (now k : Nat) (last : UInt32) :
    millis (now + k) - (last + millis k) = millis now - last := by
  rw [millis_add]
  grind

namespace App

/-- Every reading of the clock is `k` later. -/
def Action.later (k : Nat) : Action → Action
  | .byte c env => .byte c { env with now := env.now + k }
  | .pid e => .pid { e with check := e.check + k, store := e.store + k }
  | .autoStop e => .autoStop ⟨e.check + k, e.store + k⟩

/-- Both timers were set `k` later. -/
def later (k : Nat) (app : App) : App :=
  { app with
    lastPidComputation := app.lastPidComputation + millis k
    lastSetMotorsSpeedCmd := app.lastSetMotorsSpeedCmd + millis k }

variable (t : Target)

theorem invoke_later (k : Nat) (env : Env) (i : Shell.Invocation Callback) (app : App) :
    invoke t { env with now := env.now + k } i (app.later k) =
      (invoke t env i app).map (fun r => (r.1.later k, r.2)) := by
  obtain ⟨callback, argc, argv⟩ := i
  cases callback with
  | readAnalogGpio | readDigitalGpio =>
    simp only [invoke, cmdReadAnalogGpioCb, cmdReadDigitalGpioCb, readGpio]
    split <;> rfl
  | setMotorsSpeed =>
    simp only [invoke, cmdSetMotorsSpeedCb, Option.map_some]
    by_cases hargc : argc < 3
    · rw [if_pos hargc, if_pos hargc]
    · rw [if_neg hargc, if_neg hargc, millis_add]
      by_cases hidle : atoi t (arg argv 1) = 0 ∧ atoi t (arg argv 2) = 0
      · rw [if_pos hidle, if_pos hidle]
        rfl
      · rw [if_neg hidle, if_neg hidle]
        rfl
  | setMotorsPwm =>
    simp only [invoke, cmdSetMotorsPwmCb, Option.map_some]
    split <;> rfl
  | setPidTuningGains =>
    simp only [invoke, cmdSetPidTuningGainsCb]
    split
    · rfl
    · cases strcpy (List.replicate kArgSize 0) (arg argv 1) <;> rfl
  | _ => rfl

theorem step_later (k : Nat) (app : App) (a : Action) :
    step t (app.later k) (a.later k) = (step t app a).map (fun r => (r.1.later k, r.2)) := by
  cases a with
  | byte c env =>
    simp only [step, Action.later, processByte]
    rw [show (app.later k).moveEncoders t env.leftMove env.rightMove =
      (app.moveEncoders t env.leftMove env.rightMove).later k from rfl,
      show ((app.moveEncoders t env.leftMove env.rightMove).later k).shell = app.shell from rfl,
      show (app.moveEncoders t env.leftMove env.rightMove).shell = app.shell from rfl]
    cases (app.shell.processByte env.nullEq c).2 with
    | none => rfl
    | some i =>
      exact invoke_later t k env i
        { app.moveEncoders t env.leftMove env.rightMove with
          shell := (app.shell.processByte env.nullEq c).1 }
  | pid e =>
    have hiff : (app.later k).PidDue { e with check := e.check + k, store := e.store + k } ↔
        app.PidDue e := by
      rw [PidDue, PidDue, ← elapsed_later e.check k]
      rfl
    simp only [step, Action.later, Option.map_some]
    by_cases hdue : app.PidDue e
    · rw [pidTask_due t hdue, pidTask_due t (hiff.mpr hdue), millis_add]
      rfl
    · rw [pidTask_not_due t hdue, pidTask_not_due t (mt hiff.mp hdue)]
      rfl
  | autoStop e =>
    have hiff : (app.later k).StopDue ⟨e.check + k, e.store + k⟩ ↔ app.StopDue e := by
      rw [StopDue, StopDue, ← elapsed_later e.check k]
      rfl
    simp only [step, Action.later, Option.map_some]
    by_cases hdue : app.StopDue e
    · rw [autoStopTask_due t hdue, autoStopTask_due t (hiff.mpr hdue), millis_add]
      rfl
    · rw [autoStopTask_not_due t hdue, autoStopTask_not_due t (mt hiff.mp hdue)]

/-- A run at another time of the clock, across its rollover or not, is the same run. -/
theorem rollover (k : Nat) (app : App) (acts : List Action) :
    Steps.run (step t) (app.later k) (acts.map (Action.later k)) =
      (Steps.run (step t) app acts).map (fun r => (r.1.later k, r.2)) :=
  Steps.run_map (step_later t k) app acts

end App

end AndinoFirmware
