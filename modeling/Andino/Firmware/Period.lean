import Andino.Library.PolledTimer
import Andino.Firmware.Command
import Andino.Firmware.Channel

/-!
# The control period

The PID task is a polled timer: nothing else sets its time, and nothing else computes. So the
controllers compute at most once in 34 ms, which is short of the rate that the setpoints are
computed for, and as often as the loop comes by.
-/
namespace AndinoFirmware

open CArith CString PolledTimer

/-! ## What computes -/

def Pid.Call.isCompute : Pid.Call → Bool
  | .compute _ _ => true
  | _ => false

/-- Outside of a tick, a side makes calls of its controller that do not compute. -/
theorem Channel.pid_step_of_ne_tick (t : Target) (c : Channel) {e : Channel.Event}
    (h : ∀ ticks, e ≠ .tick ticks) :
    ∃ cs : List Pid.Call, (∀ call ∈ cs, call.isCompute = false) ∧
      (c.step t e).pid = (c.pid.calls t cs).1 := by
  cases e with
  | nothing | move ticks => exact ⟨[], by simp, rfl⟩
  | setSpeed ticks speed idle =>
    cases idle with
    | false =>
      refine ⟨[.enable, .setSetpoint (t.int (speed.tdiv Constants.kPidRate))], ?_, rfl⟩
      simp [Pid.Call.isCompute]
    | true =>
      refine ⟨[.reset (c.move t ticks).encoder.read, .disable,
        .setSetpoint (t.int (speed.tdiv Constants.kPidRate))], ?_, rfl⟩
      simp [Pid.Call.isCompute]
  | setPwm ticks pwm =>
    exact ⟨[.reset (c.move t ticks).encoder.read, .disable], by simp [Pid.Call.isCompute], rfl⟩
  | resetEncoder ticks ticksAfterReset =>
    refine ⟨[.reset ((c.move t ticks).encoder.reset.move t ticksAfterReset).read], ?_, rfl⟩
    simp [Pid.Call.isCompute]
  | setTunings ticks g =>
    exact ⟨[.setTunings g.kp g.kd g.ki g.ko], by simp [Pid.Call.isCompute], rfl⟩
  | tick ticks => exact absurd rfl (h ticks)
  | stop => exact ⟨[.disable], by simp [Pid.Call.isCompute], rfl⟩

/-- `millis()`. -/
def clock : WrappingClock UInt32 where
  modulus := 2 ^ 32
  read := millis
  elapsed := fun b a => (b - a).toNat
  elapsed_read := App.elapsed _ _

namespace App

def Action.poll : Action → Option Poll
  | .pid e => some ⟨e.check, e.store⟩
  | _ => none

/-- The PID checks among the actions. -/
def polls (acts : List Action) : List Poll := acts.filterMap Action.poll

/-- The check, if it finds the period over. -/
def firing (app : App) : Action → Option Poll
  | .pid e => if app.PidDue e then some ⟨e.check, e.store⟩ else none
  | _ => none

variable (t : Target)

/-- The checks of a run at which the controllers compute. -/
def fired (app : App) (acts : List Action) : List Poll :=
  (Steps.labels (step t) firing app acts).filterMap id

/-- Both controllers compute, each from the count that its wheel has come to, and the output
of an enabled one goes to its motor. -/
structure Computes (app app' : App) (e : PidEnv) : Prop where
  pid : ∀ side, (app'.channel side).pid = ((app.channel side).computation t (e.move side)).pid
  motor : ∀ side, (app'.channel side).motor =
    if (app.channel side).pid.enabled then
      (app.channel side).motor.setSpeed t ((app.channel side).computation t (e.move side)).output
    else (app.channel side).motor

/-- No controller computes: all that happens to it are other calls of its interface. -/
def ComputesNothing (app app' : App) : Prop :=
  ∀ side, ∃ cs : List Pid.Call, (∀ c ∈ cs, c.isCompute = false) ∧
    (app'.channel side).pid = ((app.channel side).pid.calls t cs).1

/-- In each step of a run, the controllers compute if it is a check that fires, and only then. -/
def ComputesWhenFired (start : App) (acts : List Action) : Prop :=
  ∀ pre a post, acts = pre ++ a :: post → ∀ app out app' out',
    Steps.run (step t) start pre = some (app, out) → step t app a = some (app', out') →
      (∀ p, app.firing a = some p →
        ∃ e, a = .pid e ∧ p = ⟨e.check, e.store⟩ ∧ Computes t app app' e) ∧
      (app.firing a = none → ComputesNothing t app app')

variable {t}

theorem computes_step {app app' : App} {a : Action} {out : List Byte} {p : Poll}
    (h : step t app a = some (app', out)) (hp : app.firing a = some p) :
    ∃ e, a = .pid e ∧ p = ⟨e.check, e.store⟩ ∧ Computes t app app' e := by
  cases a with
  | byte c env => exact absurd hp (by simp [firing])
  | autoStop e => exact absurd hp (by simp [firing])
  | pid e =>
    rw [firing] at hp
    split at hp
    case isFalse hdue => exact absurd hp (by simp)
    case isTrue hdue =>
      have hevent : ∀ side, sideEvent t side app (.pid e) = .tick (e.move side) :=
        fun _ => if_pos hdue
      refine ⟨e, rfl, (Option.some.inj hp).symm, fun side => ?_, fun side => ?_⟩
      · rw [channel_step t h side, hevent]
        rfl
      · rw [channel_step t h side, hevent]
        rfl

theorem computesNothing_step {app app' : App} {a : Action} {out : List Byte}
    (h : step t app a = some (app', out)) (hp : app.firing a = none) :
    ComputesNothing t app app' := by
  intro side
  rw [channel_step t h side]
  apply Channel.pid_step_of_ne_tick
  intro ticks he
  cases a with
  | pid e =>
    rw [firing] at hp
    split at hp
    case isTrue hdue => exact absurd hp (by simp)
    case isFalse hdue =>
      rw [sideEvent, if_neg hdue] at he
      exact absurd he (by simp)
  | autoStop e =>
    rw [sideEvent] at he
    split at he <;> exact absurd he (by simp)
  | byte c env =>
    rw [sideEvent] at he
    split at he
    · exact absurd he (by simp)
    · rename_i i _
      obtain ⟨callback, argc, argv⟩ := i
      cases callback with
      | setMotorsSpeed | setMotorsPwm | setPidTuningGains =>
        simp only [invocationSideEvent] at he
        split at he <;> exact absurd he (by simp)
      | _ => exact absurd he (by simp [invocationSideEvent])

/-! ## When it computes -/

/-- No handler sets the timer of the PID task. -/
theorem lastPidComputation_invoke {env : Env} {i : Shell.Invocation Callback} {app app' : App}
    {out : List Byte} (hnul : ∀ c ∈ arg i.argv 1, c ≠ 0)
    (h : invoke t env i app = some (app', out)) :
    app'.lastPidComputation = app.lastPidComputation := by
  cases effect_of_invoke t hnul h with
  | setMotorsSpeed hc hargc =>
    simp only [cmdSetMotorsSpeedCb, if_neg hargc]
    split <;> rfl
  | setMotorsPwm hc hargc =>
    simp only [cmdSetMotorsPwmCb, if_neg hargc]
    rfl
  | _ => rfl

theorem lastPidComputation_byte {app app' : App} {c : Byte} {env : Env} {out : List Byte}
    (h : step t app (.byte c env) = some (app', out)) :
    app'.lastPidComputation = app.lastPidComputation := by
  simp only [step, processByte] at h
  split at h
  · simp only [Option.some.injEq] at h
    rw [← (Prod.mk.inj h).1]
    rfl
  · rename_i i hi
    exact (lastPidComputation_invoke (processByte_arg_ne_nul hi 1) h).trans rfl

theorem lastPidComputation_autoStop (app : App) (e : StopEnv) :
    (app.autoStopTask t e).lastPidComputation = app.lastPidComputation := by
  by_cases hdue : app.StopDue e
  · rw [autoStopTask_due t hdue]
    rfl
  · rw [autoStopTask_not_due t hdue]

/-- Among all that a run does, the PID task is the timer alone. -/
theorem fired_eq {app app' : App} {acts : List Action} {out : List Byte}
    (hr : Steps.run (step t) app acts = some (app', out)) :
    app.fired t acts =
      fires clock Constants.kPidPeriod app.lastPidComputation (polls acts) := by
  induction acts generalizing app out with
  | nil => rfl
  | cons a acts ih =>
    obtain ⟨u, _, _, hs, hr, -⟩ := Steps.run_cons_eq_some hr
    have hsplit : app.fired t (a :: acts) = (app.firing a).toList ++ u.fired t acts := by
      rw [fired, Steps.labels_cons hs, List.filterMap_cons]
      cases app.firing a <;> rfl
    rw [hsplit, ih hr]
    cases a with
    | byte c env =>
      rw [lastPidComputation_byte hs]
      rfl
    | autoStop e =>
      simp only [step, Option.some.injEq] at hs
      rw [← (Prod.mk.inj hs).1, lastPidComputation_autoStop]
      rfl
    | pid e =>
      simp only [step, Option.some.injEq] at hs
      rw [← (Prod.mk.inj hs).1]
      have hpolls : polls (.pid e :: acts) = ⟨e.check, e.store⟩ :: polls acts := rfl
      rw [hpolls, fires, firing]
      by_cases hdue : app.PidDue e
      · have helapsed : clock.elapsed (clock.read e.check) app.lastPidComputation >
            Constants.kPidPeriod := hdue
        rw [if_pos hdue, if_pos helapsed, pidTask_due t hdue]
        rfl
      · have helapsed : ¬ clock.elapsed (clock.read e.check) app.lastPidComputation >
            Constants.kPidPeriod := hdue
        rw [if_neg hdue, if_neg helapsed, pidTask_not_due t hdue]
        rfl

/-- A loop that takes some 20 ms for each turn. -/
def slowLoop : List Action :=
  [.pid ⟨20, 20, 0, 0⟩, .autoStop ⟨20, 20⟩, .byte LF (Env.quiet 30), .pid ⟨40, 41, 0, 0⟩,
    .autoStop ⟨41, 41⟩, .pid ⟨60, 60, 0, 0⟩, .autoStop ⟨60, 60⟩, .pid ⟨81, 81, 0, 0⟩]

end App

end AndinoFirmware
