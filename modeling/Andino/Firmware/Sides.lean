import Andino.Firmware.Core
import Andino.Firmware.MemorySafety

/-!
# The two sides

Both wheels hear the same commands, through one shell and with one pair of timers; `Shared`
is that part, and it moves on its own. What is left of an action for one side is `only`: the
byte, the clock and the movement of that wheel. So two runs that differ in the movement of
the other wheel, and in the pins, are the same run for this one.
-/
namespace AndinoFirmware

open CArith CString

/-- The movement that counts for a side. -/
def Side.keep (side wheel : Side) (ticks : Int) : Int := if side = wheel then ticks else 0

def Env.only (side : Side) (env : Env) : Env :=
  { env with
    leftMove := side.keep .left env.leftMove
    rightMove := side.keep .right env.rightMove
    leftMoveAfterReset := side.keep .left env.leftMoveAfterReset
    rightMoveAfterReset := side.keep .right env.rightMoveAfterReset
    analogRead := fun _ => 0
    digitalRead := fun _ => 0
    imu := fun _ => [] }

def PidEnv.only (side : Side) (e : PidEnv) : PidEnv :=
  { e with leftMove := side.keep .left e.leftMove, rightMove := side.keep .right e.rightMove }

theorem Env.move_only (side : Side) (env : Env) : (env.only side).move side = env.move side := by
  cases side <;> rfl

theorem Env.moveAfterReset_only (side : Side) (env : Env) :
    (env.only side).moveAfterReset side = env.moveAfterReset side := by
  cases side <;> rfl

theorem PidEnv.move_only (side : Side) (e : PidEnv) : (e.only side).move side = e.move side := by
  cases side <;> rfl

/-- The shell and the two timers. -/
structure Shared where
  shell : Shell Callback
  lastPidComputation : UInt32
  lastSetMotorsSpeedCmd : UInt32

namespace App

/-- What an action is for one side. -/
def Action.only (side : Side) : Action → Action
  | .byte c env => .byte c (env.only side)
  | .pid e => .pid (e.only side)
  | .autoStop e => .autoStop e

def shared (app : App) : Shared := ⟨app.shell, app.lastPidComputation, app.lastSetMotorsSpeedCmd⟩

/-- The commands that restart the auto-stop timer. -/
def restartsTimer (i : Shell.Invocation Callback) : Bool :=
  i.callback = .setMotorsSpeed ∧ ¬ i.argc < 3

end App

open App in
def Shared.step (s : Shared) : Action → Shared
  | .byte c env =>
    let r := s.shell.processByte env.nullEq c
    { s with
      shell := r.1
      lastSetMotorsSpeedCmd :=
        if r.2.any restartsTimer then millis env.now else s.lastSetMotorsSpeedCmd }
  | .pid e =>
    if (millis e.check - s.lastPidComputation).toNat > Constants.kPidPeriod then
      { s with lastPidComputation := millis e.store }
    else s
  | .autoStop e =>
    if (millis e.check - s.lastSetMotorsSpeedCmd).toNat > Constants.kAutoStopWindow then
      { s with lastSetMotorsSpeedCmd := millis e.store }
    else s

theorem Shared.step_only (s : Shared) (side : Side) (a : App.Action) :
    s.step (a.only side) = s.step a := by
  cases a <;> rfl

namespace App

variable (t : Target)

theorem shared_invoke {env : Env} {i : Shell.Invocation Callback} {app app' : App}
    {out : List Byte} (hnul : ∀ c ∈ arg i.argv 1, c ≠ 0)
    (h : invoke t env i app = some (app', out)) :
    app'.shared =
      { app.shared with
        lastSetMotorsSpeedCmd :=
          if restartsTimer i then millis env.now else app.lastSetMotorsSpeedCmd } := by
  have heffect := effect_of_invoke t hnul h
  obtain ⟨callback, argc, argv⟩ := i
  cases heffect with
  | inert hi =>
    have hkept : restartsTimer ⟨callback, argc, argv⟩ = false := by
      cases callback with
      | setMotorsSpeed =>
        have hargc : argc < 3 := hi
        simp [restartsTimer, hargc]
      | _ => rfl
    rw [hkept, if_neg Bool.false_ne_true]
    rfl
  | resetEncoders hc | setMotorsPwm hc | setTunings hc =>
    subst hc
    simp only [cmdSetMotorsPwmCb, *]
    rfl
  | setMotorsSpeed hc hargc =>
    subst hc
    have hrestart : restartsTimer ⟨.setMotorsSpeed, argc, argv⟩ = true := by
      simpa [restartsTimer] using hargc
    rw [if_pos hrestart]
    simp only [cmdSetMotorsSpeedCb, if_neg hargc]
    split <;> rfl

/-- What the sides share moves by itself. -/
theorem shared_step {app app' : App} {a : Action} {out : List Byte}
    (h : step t app a = some (app', out)) : app'.shared = app.shared.step a := by
  cases a with
  | byte c env =>
    simp only [step, processByte] at h
    rw [show (app.moveEncoders t env.leftMove env.rightMove).shell = app.shell from rfl] at h
    simp only [Shared.step]
    cases hi : (app.shell.processByte env.nullEq c).2 with
    | none =>
      rw [hi] at h
      rw [← (Prod.mk.inj (Option.some.inj h)).1, show app.shared.shell = app.shell from rfl, hi]
      rfl
    | some i =>
      rw [hi] at h
      rw [shared_invoke t (processByte_arg_ne_nul hi 1) h,
        show app.shared.shell = app.shell from rfl, hi]
      rfl
  | pid e =>
    rw [← (Prod.mk.inj (Option.some.inj h)).1]
    by_cases hdue : app.PidDue e
    · rw [pidTask_due t hdue]
      exact (if_pos hdue).symm
    · rw [pidTask_not_due t hdue]
      exact (if_neg hdue).symm
  | autoStop e =>
    rw [← (Prod.mk.inj (Option.some.inj h)).1]
    by_cases hdue : app.StopDue e
    · rw [autoStopTask_due t hdue]
      exact (if_pos hdue).symm
    · rw [autoStopTask_not_due t hdue]
      exact (if_neg hdue).symm

/-- Two applications that are the same for one side. -/
structure SameSide (side : Side) (app app' : App) : Prop where
  shared : app.shared = app'.shared
  channel : app.channel side = app'.channel side

variable {t} {side : Side} {app app' : App}

theorem SameSide.shell (h : SameSide side app app') : app.shell = app'.shell :=
  congrArg Shared.shell h.shared

theorem SameSide.pidDue_iff (h : SameSide side app app') (e : PidEnv) :
    app'.PidDue e ↔ app.PidDue e := by
  rw [PidDue, PidDue,
    show app.lastPidComputation = app'.lastPidComputation from
      congrArg Shared.lastPidComputation h.shared]

theorem SameSide.stopDue_iff (h : SameSide side app app') (e : StopEnv) :
    app'.StopDue e ↔ app.StopDue e := by
  rw [StopDue, StopDue,
    show app.lastSetMotorsSpeedCmd = app'.lastSetMotorsSpeedCmd from
      congrArg Shared.lastSetMotorsSpeedCmd h.shared]

theorem invocationSideEvent_only (env : Env) (i : Shell.Invocation Callback) (side : Side) :
    invocationSideEvent t (env.only side) i side = invocationSideEvent t env i side := by
  simp only [invocationSideEvent, Env.move_only, Env.moveAfterReset_only]

/-- An action means the same for the side. -/
theorem SameSide.sideEvent (h : SameSide side app app') (a : Action) :
    App.sideEvent t side app' (a.only side) = App.sideEvent t side app a := by
  cases a with
  | byte c env =>
    have hcall : app'.shell.processByte (env.only side).nullEq c =
        app.shell.processByte env.nullEq c := by rw [h.shell]; rfl
    simp only [Action.only, App.sideEvent, hcall, Env.move_only]
    cases (app.shell.processByte env.nullEq c).2 with
    | none => rfl
    | some i => exact invocationSideEvent_only env i side
  | pid e =>
    have hdue : app'.PidDue (e.only side) ↔ app.PidDue e := h.pidDue_iff e
    simp only [Action.only, App.sideEvent, PidEnv.move_only, hdue]
  | autoStop e => simp only [Action.only, App.sideEvent, h.stopDue_iff e]

theorem SameSide.returns (h : SameSide side app app') (a : Action) :
    step t app a = none ↔ step t app' (a.only side) = none := by
  cases a with
  | byte c env =>
    have hcall : app'.shell.processByte (env.only side).nullEq c =
        app.shell.processByte env.nullEq c := by rw [h.shell]; rfl
    simp only [Action.only, step, processByte]
    rw [show ∀ l r, (app.moveEncoders t l r).shell = app.shell from fun _ _ => rfl,
      show ∀ l r, (app'.moveEncoders t l r).shell = app'.shell from fun _ _ => rfl, hcall]
    cases (app.shell.processByte env.nullEq c).2 with
    | none => exact iff_of_false (Option.some_ne_none _) (Option.some_ne_none _)
    | some i => exact (invoke_eq_none_iff t _ i _).trans (invoke_eq_none_iff t _ i _).symm
  | pid e => exact iff_of_false (Option.some_ne_none _) (Option.some_ne_none _)
  | autoStop e => exact iff_of_false (Option.some_ne_none _) (Option.some_ne_none _)

theorem SameSide.step (h : SameSide side app app') (a : Action) :
    Option.Rel (fun p q => SameSide side p.1 q.1 ∧ True) (App.step t app a)
      (App.step t app' (a.only side)) := by
  have hreturns := h.returns (t := t) a
  cases hs : App.step t app a with
  | none =>
    rw [hreturns.mp hs]
    exact .none
  | some p =>
    cases hs' : App.step t app' (a.only side) with
    | none =>
      rw [hreturns.mpr hs'] at hs
      exact absurd hs.symm (Option.some_ne_none p)
    | some q =>
      refine .some ⟨⟨?_, ?_⟩, trivial⟩
      · rw [shared_step t hs, shared_step t hs', Shared.step_only, h.shared]
      · rw [channel_step t hs side, channel_step t hs' side, h.sideEvent, h.channel]

/-- What a run leaves of a side and of the shared part. -/
def sideAfter (t : Target) (side : Side) (app : App) (acts : List Action) :
    Option (Shared × Channel) :=
  (Steps.run (App.step t) app acts).map (fun r => (r.1.shared, r.1.channel side))

/-- The run with nothing but this side's part of the actions. -/
theorem SameSide.run (h : SameSide side app app') (acts : List Action) :
    sideAfter t side app acts = sideAfter t side app' (acts.map (Action.only side)) := by
  have hrel := Steps.run_alike (R := SameSide side) (O := fun _ _ => True)
    (g := Action.only side) trivial (fun _ _ => trivial)
    (fun _ _ a hs => SameSide.step (t := t) hs a) acts h
  rw [sideAfter, sideAfter]
  generalize Steps.run (App.step t) app acts = p,
    Steps.run (App.step t) app' (acts.map (Action.only side)) = q at hrel ⊢
  cases hrel with
  | none => rfl
  | some hpq =>
    obtain ⟨hside, -⟩ := hpq
    exact congrArg some (Prod.ext hside.shared hside.channel)

theorem sameSide_setup {imu imu' : Bool} {l r l' r' : Int}
    (h : side.of (l, r) = side.of (l', r')) :
    SameSide side (setup t imu l r) (setup t imu' l' r') := by
  refine ⟨rfl, ?_⟩
  cases side with
  | left =>
    obtain rfl : l = l' := h
    rfl
  | right =>
    obtain rfl : r = r' := h
    rfl

/-- No wheel influences the other one: two runs with the same bytes and clock readings, in
which one wheel moves alike, drive, count and control that wheel alike, however the other wheel
moves, whatever is on the pins, and with or without an IMU. -/
theorem sides_independent (t : Target) (side : Side) (imu imu' : Bool) {l r l' r' : Int}
    {acts acts' : List Action} (hsetup : side.of (l, r) = side.of (l', r'))
    (hacts : acts.map (Action.only side) = acts'.map (Action.only side)) :
    sideAfter t side (setup t imu l r) acts = sideAfter t side (setup t imu' l' r') acts' := by
  have hstart : SameSide side (setup t imu l r) (setup t imu' l' r') := sameSide_setup hsetup
  have hsame : SameSide side (setup t imu' l' r') (setup t imu' l' r') := ⟨rfl, rfl⟩
  rw [hstart.run acts, hacts, ← hsame.run acts']

/-- The right wheel turns, or is held. -/
theorem sides_independent_held :
    (sideAfter exact .left (setup exact true 0 0)
        ((ascii "m 400 400\r").map (Action.byte · (Env.quiet 0)) ++ [.pid ⟨40, 40, 3, 5⟩])).any
      (fun c => decide (0 < c.2.motor.forward)) = true ∧
    sideAfter exact .left (setup exact true 0 0)
        ((ascii "m 400 400\r").map (Action.byte · (Env.quiet 0)) ++ [.pid ⟨40, 40, 3, 5⟩]) =
      sideAfter exact .left (setup exact false 0 7)
        ((ascii "m 400 400\r").map (Action.byte · (Env.quiet 0)) ++ [.pid ⟨40, 40, 3, 0⟩]) :=
  ⟨by decide +kernel, sides_independent exact .left true false rfl rfl⟩

end App

end AndinoFirmware
