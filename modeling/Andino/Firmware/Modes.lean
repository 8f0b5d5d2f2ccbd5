import Andino.Firmware.Drive

/-!
# Motor modes

No variable of the firmware holds the mode of the motors. It is spread over the
two enabled flags and the last speeds given to the motors; `Refines` is that
correspondence with a machine of three modes, and each event keeps it.
-/
namespace AndinoFirmware

open CArith CString

inductive Mode where
  | stopped
  | openLoop (left right : Int)
  | closedLoop
  deriving DecidableEq, Repr

namespace Mode

def step (m : Mode) : Event → Mode
  | .setMotorsSpeed left right _ => if left = 0 ∧ right = 0 then .stopped else .closedLoop
  | .setMotorsPwm left right _ => .openLoop left right
  | .stop _ => .stopped
  | .setTunings _ => m
  | .tick _ _ => m
  | .other => m

/-- The mode a sequence of events leads to. -/
def after (events : List Event) : Mode := events.foldl step .stopped

/-- What the mode says about the last speeds of the motors. -/
def Speeds (m : Mode) (left right : Motor) : Prop :=
  match m with
  | .stopped =>
    (left.lastSpeed = none ∨ left.lastSpeed = some 0) ∧
      (right.lastSpeed = none ∨ right.lastSpeed = some 0)
  | .openLoop l r => left.lastSpeed = some l ∧ right.lastSpeed = some r
  | .closedLoop => True

/-- The controllers are enabled exactly in closed loop, both or none. -/
structure Refines (d : Drive) (m : Mode) : Prop where
  left : d.left.enabled = true ↔ m = .closedLoop
  right : d.right.enabled = true ↔ m = .closedLoop
  speeds : m.Speeds d.leftMotor d.rightMotor

end Mode

namespace Drive

variable (t : Target)

/-- The limits of both controllers are those of the PWM range. -/
def Limited (d : Drive) : Prop :=
  (d.left.outputMin = -255 ∧ d.left.outputMax = 255) ∧
    (d.right.outputMin = -255 ∧ d.right.outputMax = 255)

theorem limited_step (d : Drive) (e : Event) (h : d.Limited) : (d.step t e).Limited := by
  cases e with
  | setMotorsSpeed l r now =>
    rw [step]
    split <;> exact h
  | _ => exact h

/-- Setting both motors and disabling both controllers leaves closed loop. -/
theorem refines_set (d : Drive) (l r : Int) :
    Mode.Refines ((d.setSpeeds t l r).setEnabled false) (.openLoop l r) where
  left := by simp [setEnabled, Pid.Fixed.setEnabled]
  right := by simp [setEnabled, Pid.Fixed.setEnabled]
  speeds := ⟨rfl, rfl⟩

theorem refines_zero (d : Drive) (now : Nat) :
    Mode.Refines (((d.setSpeeds t 0 0).setEnabled false).restartTimer now) .stopped where
  left := by simp [restartTimer, setEnabled, Pid.Fixed.setEnabled]
  right := by simp [restartTimer, setEnabled, Pid.Fixed.setEnabled]
  speeds := ⟨.inr rfl, .inr rfl⟩

/-- One event keeps the correspondence. -/
theorem refines_step (d : Drive) (m : Mode) (e : Event) (h : Mode.Refines d m) :
    Mode.Refines (d.step t e) (m.step e) := by
  cases e with
  | setMotorsSpeed l r now =>
    simp only [step, Mode.step]
    split
    · exact refines_zero t d now
    · exact ⟨by simp [restartTimer, setEnabled, Pid.Fixed.setEnabled],
        by simp [restartTimer, setEnabled, Pid.Fixed.setEnabled], trivial⟩
  | setMotorsPwm l r now => exact refines_set t d l r
  | stop now => exact refines_zero t d now
  | setTunings s => exact ⟨h.left, h.right, h.speeds⟩
  | tick l r =>
    refine ⟨h.left, h.right, ?_⟩
    cases m with
    | closedLoop => trivial
    | stopped | openLoop =>
      -- outside closed loop a tick finds both controllers disabled
      have hl : d.left.enabled = false := by
        rw [← Bool.not_eq_true, h.left]
        simp
      have hr : d.right.enabled = false := by
        rw [← Bool.not_eq_true, h.right]
        simp
      simpa [step, Mode.step, hl, hr] using h.speeds
  | other => exact h

/-- In closed loop only a tick changes the motors, as long as the mode is kept. -/
theorem motors_step (d : Drive) (e : Event) (htick : ∀ l r, e ≠ .tick l r)
    (hkeep : Mode.step .closedLoop e = .closedLoop) :
    (d.step t e).leftMotor = d.leftMotor ∧ (d.step t e).rightMotor = d.rightMotor := by
  cases e with
  | setMotorsSpeed l r now =>
    simp only [Mode.step] at hkeep
    split at hkeep
    · exact absurd hkeep (by simp)
    · rename_i hne
      rw [step, if_neg hne]
      exact ⟨rfl, rfl⟩
  | setMotorsPwm l r now => exact absurd hkeep (by simp [Mode.step])
  | stop now => exact absurd hkeep (by simp [Mode.step])
  | tick l r => exact absurd rfl (htick l r)
  | setTunings s => exact ⟨rfl, rfl⟩
  | other => exact ⟨rfl, rfl⟩

end Drive

namespace App

variable (t : Target)

theorem refines_setup (imu : Bool) (leftMove rightMove : Int) :
    Mode.Refines (setup t imu leftMove rightMove).drive .stopped := by
  rw [drive_setup]
  exact ⟨by decide, by decide, .inl rfl, .inl rfl⟩

/-- Every run keeps the correspondence and the limits. -/
theorem refines_run {imu : Bool} {leftMove rightMove : Int} {acts : List Action} {app : App}
    {out : List Byte}
    (hr : Steps.run (step t) (setup t imu leftMove rightMove) acts = some (app, out)) :
    Mode.Refines app.drive (Mode.after ((setup t imu leftMove rightMove).events t acts)) ∧
      app.drive.Limited := by
  refine Steps.run_history (event t)
    (fun _ es app _ => Mode.Refines app.drive (Mode.after es) ∧ app.drive.Limited)
    ⟨refines_setup t imu leftMove rightMove, ⟨rfl, rfl⟩, ⟨rfl, rfl⟩⟩ ?_ hr
  intro _ es app _ a app' _ ⟨hmode, hlim⟩ hstep
  have hafter : Mode.after (es ++ [event t app a]) = (Mode.after es).step (event t app a) := by
    simp [Mode.after]
  rw [hafter, drive_step t hstep]
  exact ⟨Drive.refines_step t _ _ _ hmode, Drive.limited_step t _ _ hlim⟩

/-- The output of an enabled controller with the PWM limits. -/
theorem compute_range (p : Pid) (n : Int) (hen : p.enabled = true)
    (hlim : p.fixed.outputMin = -255 ∧ p.fixed.outputMax = 255) :
    -255 ≤ (p.compute t n 0).output ∧ (p.compute t n 0).output ≤ 255 := by
  obtain ⟨hmin, hmax⟩ := hlim
  change p.outputMin = -255 at hmin
  change p.outputMax = 255 at hmax
  have h := Pid.compute_output_range t p n 0 hen (by omega) (by rw [hmin]; decide)
    (by rw [hmax]; decide)
  omega

/-- A tick in closed loop drives each motor with the output of its own controller. -/
theorem tick_motors {app : App} {e : PidEnv} (hdue : app.PidDue e)
    (hl : app.leftPid.enabled = true) (hr : app.rightPid.enabled = true) :
    (app.pidTask t e).leftMotor = app.leftMotor.setSpeed t (app.leftComputation t e).output ∧
    (app.pidTask t e).rightMotor = app.rightMotor.setSpeed t (app.rightComputation t e).output ∧
    (app.pidTask t e).leftPid = (app.leftComputation t e).pid ∧
    (app.pidTask t e).rightPid = (app.rightComputation t e).pid := by
  rw [pidTask_due t hdue]
  simp only [adjustMotorsSpeed, Pid.enabled_compute, moveEncoders, hl, hr, ↓reduceIte]
  exact ⟨rfl, rfl, rfl, rfl⟩

/-- The application refines the machine of three modes. In closed loop a tick sets
each motor to its own controller's output, within the PWM range, and no other
step that stays in closed loop touches the motors. -/
theorem mode_refinement (imu : Bool) (leftMove rightMove : Int) (acts : List Action) (app : App)
    (out : List Byte)
    (hr : Steps.run (step t) (setup t imu leftMove rightMove) acts = some (app, out)) :
    Mode.Refines app.drive (Mode.after ((setup t imu leftMove rightMove).events t acts)) ∧
    (Mode.after ((setup t imu leftMove rightMove).events t acts) = .closedLoop →
      (∀ e app' out', step t app (.pid e) = some (app', out') → app.PidDue e →
        (app'.leftMotor = app.leftMotor.setSpeed t (app.leftComputation t e).output ∧
          app'.leftPid = (app.leftComputation t e).pid ∧
          -255 ≤ (app.leftComputation t e).output ∧ (app.leftComputation t e).output ≤ 255) ∧
        (app'.rightMotor = app.rightMotor.setSpeed t (app.rightComputation t e).output ∧
          app'.rightPid = (app.rightComputation t e).pid ∧
          -255 ≤ (app.rightComputation t e).output ∧ (app.rightComputation t e).output ≤ 255)) ∧
      (∀ a app' out', step t app a = some (app', out') → (∀ l r, app.event t a ≠ .tick l r) →
        Mode.step .closedLoop (app.event t a) = .closedLoop →
        app'.leftMotor = app.leftMotor ∧ app'.rightMotor = app.rightMotor)) := by
  obtain ⟨hmode, hlimL, hlimR⟩ := refines_run t hr
  refine ⟨hmode, fun hclosed => ⟨?_, ?_⟩⟩
  · intro e app' out' hstep hdue
    simp only [step, Option.some.injEq] at hstep
    rw [← (Prod.mk.inj hstep).1]
    have hl : app.leftPid.enabled = true := hmode.left.mpr hclosed
    have hr : app.rightPid.enabled = true := hmode.right.mpr hclosed
    obtain ⟨h₁, h₂, h₃, h₄⟩ := tick_motors t hdue hl hr
    exact ⟨⟨h₁, h₃, compute_range t app.leftPid _ hl hlimL⟩,
      ⟨h₂, h₄, compute_range t app.rightPid _ hr hlimR⟩⟩
  · intro a app' out' hstep htick hkeep
    have hm := Drive.motors_step t app.drive (app.event t a) htick hkeep
    rw [← drive_step t hstep] at hm
    exact hm

/-- Open loop, then closed loop. -/
theorem mode_refinement_closed :
    ∃ app out, Steps.run (step exact) (setup exact false 0 0)
        ((ascii "o 20 -30\rm 60 0\r").map (fun c => .byte c (Env.quiet 0))) = some (app, out) ∧
      Mode.Refines app.drive .closedLoop := by
  have hrun : (Steps.run (step exact) (setup exact false 0 0)
      ((ascii "o 20 -30\rm 60 0\r").map (fun c => .byte c (Env.quiet 0)))).isSome = true := by
    decide +kernel
  obtain ⟨⟨app, out⟩, hr⟩ := Option.isSome_iff_exists.mp hrun
  have hmode : Mode.after ((setup exact false 0 0).events exact
      ((ascii "o 20 -30\rm 60 0\r").map (fun c => .byte c (Env.quiet 0)))) = .closedLoop := by
    decide +kernel
  have h := (mode_refinement exact false 0 0 _ app out hr).1
  rw [hmode] at h
  exact ⟨app, out, hr, h⟩

end App

end AndinoFirmware
