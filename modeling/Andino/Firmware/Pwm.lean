import Andino.Firmware.Channel
import Andino.Firmware.Command

/-!
# What the motors are given

`Motor::set_speed` takes the absolute value of its argument and limits it. Negation
leaves one `int` where it is, the smallest: it is not limited and goes to the output
as it stands. The controllers and the stops never ask for that speed; `o` passes on
whatever `atoi` makes of its arguments.
-/
namespace AndinoFirmware

open CArith CString

namespace Motor

/-- A call of `set_speed` writes duty cycles only, and leaves the limited magnitude of
the speed on the output that matches its sign. -/
structure Valid (t : Target) (m : Motor) (speed : Int) : Prop where
  duty : ∀ w ∈ setSpeedWrites t speed, 0 ≤ w.2 ∧ w.2 ≤ 255
  forward : (m.setSpeed t speed).forward = if 0 < speed then min (speed.natAbs : Int) 255 else 0
  backward : (m.setSpeed t speed).backward = if speed < 0 then min (speed.natAbs : Int) 255 else 0

instance (t : Target) (m : Motor) (speed : Int) : Decidable (m.Valid t speed) :=
  decidable_of_iff
    ((∀ w ∈ setSpeedWrites t speed, 0 ≤ w.2 ∧ w.2 ≤ 255) ∧
      (m.setSpeed t speed).forward = (if 0 < speed then min (speed.natAbs : Int) 255 else 0) ∧
      (m.setSpeed t speed).backward = (if speed < 0 then min (speed.natAbs : Int) 255 else 0))
    ⟨fun h => ⟨h.1, h.2.1, h.2.2⟩, fun h => ⟨h.duty, h.forward, h.backward⟩⟩

variable {t : Target}

theorem limit_eq_min (speed : Int) :
    (if speed > kMaxSpeed then kMaxSpeed else speed) = min speed 255 := by
  unfold kMaxSpeed
  omega

theorem setSpeedWrites_forward (t : Target) (speed : Int) (h : ¬ speed < 0) :
    setSpeedWrites t speed = [(.forward, min speed 255), (.backward, 0)] := by
  simp only [setSpeedWrites, h, not_false_eq_true, ↓reduceIte, limit_eq_min]

theorem setSpeedWrites_backward (t : Target) (speed : Int) (h : speed < 0) :
    setSpeedWrites t speed = [(.backward, min (t.int (-speed)) 255), (.forward, 0)] := by
  simp only [setSpeedWrites, h, not_true_eq_false, ↓reduceIte, limit_eq_min]

theorem duty_of_pair {speed v : Int} {used unused : PwmOut}
    (h : setSpeedWrites t speed = [(used, v), (unused, 0)]) (hv : 0 ≤ v ∧ v ≤ 255) :
    ∀ w ∈ setSpeedWrites t speed, 0 ≤ w.2 ∧ w.2 ≤ 255 := by
  intro w hw
  rw [h, List.mem_cons, List.mem_singleton] at hw
  rcases hw with rfl | rfl
  · exact hv
  · exact ⟨le_refl 0, by omega⟩

/-- All is well with a speed whose negation is exact. -/
theorem valid_of_neg {m : Motor} {speed : Int} (h : t.int (-speed) = -speed) : m.Valid t speed := by
  by_cases hneg : speed < 0
  · have hw := setSpeedWrites_backward t speed hneg
    rw [h] at hw
    refine ⟨duty_of_pair hw (by omega), ?_, ?_⟩
    · simp only [setSpeed, hw, List.foldl_cons, List.foldl_nil, write]
      omega
    · simp only [setSpeed, hw, List.foldl_cons, List.foldl_nil, write]
      omega
  · have hw := setSpeedWrites_forward t speed hneg
    refine ⟨duty_of_pair hw (by omega), ?_, ?_⟩
    · simp only [setSpeed, hw, List.foldl_cons, List.foldl_nil, write]
      omega
    · simp only [setSpeed, hw, List.foldl_cons, List.foldl_nil, write]
      omega

/-- With a wrapping `int` of `w` bits, a speed is handled as it should be if and only
if it is not the smallest one. -/
theorem valid_iff {w : Nat} (hw : 16 ≤ w) (ht : t.int = wrap w) (m : Motor) {speed : Int}
    (h : Fits w speed) : m.Valid t speed ↔ speed ≠ -2 ^ (w - 1) := by
  constructor
  · rintro hvalid rfl
    have hpos : (0 : Int) < 2 ^ (w - 1) := by positivity
    have hwrites := setSpeedWrites_backward t (-2 ^ (w - 1)) (by omega)
    rw [neg_neg, ht, wrap_lowest w (by omega)] at hwrites
    have hduty := hvalid.duty (.backward, min (-2 ^ (w - 1)) 255) (by rw [hwrites]; simp)
    omega
  · intro hne
    obtain ⟨hlo, hhi⟩ := h
    apply valid_of_neg
    rw [ht]
    exact wrap_of_fits w (by omega) _ ⟨by omega, by omega⟩

end Motor

namespace Channel

/-- The argument of an accepted `o`. -/
def Event.pwm : Event → Option Int
  | .setPwm _ pwm => some pwm
  | _ => none

theorem Event.argument_of_pwm {e : Event} {pwm : Int} (h : e.pwm = some pwm) :
    e.argument = some pwm := by
  cases e with
  | setPwm ticks p => exact h
  | _ => exact absurd h (by simp [Event.pwm])

/-- Whatever a side asks of its motor outside of an `o` is a limited speed. -/
theorem speed_range {t : Target} {c : Channel} {e : Event} {s : Int}
    (hlim : c.pid.limits = (-255, 255)) (h : c.speed t e = some s) (he : e.pwm = none) :
    -255 ≤ s ∧ s ≤ 255 := by
  cases e with
  | setSpeed ticks target idle =>
    cases idle with
    | false => exact absurd h (by simp [speed])
    | true =>
      simp only [speed, ↓reduceIte, Option.some.injEq] at h
      omega
  | setPwm ticks pwm => exact absurd he (by simp [Event.pwm])
  | tick ticks =>
    obtain ⟨hmin, hmax⟩ := Prod.mk.inj hlim
    simp only [speed] at h
    split at h
    · rename_i hen
      have hrange := Pid.compute_output_range t c.pid ((c.move t ticks).count t) 0 hen
        (by rw [hmin, hmax]; decide) (by rw [hmin]; decide) (by rw [hmax]; decide)
      rw [hmin, hmax] at hrange
      have hs := Option.some.inj h
      unfold computation at hs
      omega
    · exact absurd h (by simp)
  | stop =>
    simp only [speed, Option.some.injEq] at h
    omega
  | nothing | move | resetEncoder | setTunings => exact absurd h (by simp [speed])

end Channel

namespace App

/-- The call of `set_speed` that an action makes on one side, with the motor it finds. -/
def setSpeedCall (t : Target) (side : Side) (app : App) (a : Action) : Option (Motor × Int) :=
  ((app.channel side).speed t (sideEvent t side app a)).map (fun s => ((app.channel side).motor, s))

/-- The calls of `set_speed` on one side along a run. -/
def setSpeedCalls (t : Target) (side : Side) (app : App) (acts : List Action) : List (Motor × Int) :=
  (Steps.labels (step t) (setSpeedCall t side) app acts).filterMap id

/-- A motor once the call has been made, if there is one. -/
def afterCall (t : Target) (m : Motor) : Option (Motor × Int) → Motor
  | none => m
  | some c => c.1.setSpeed t c.2

/-- Along a run, these calls set the motor of a side, and nothing else does. -/
def SetByCalls (t : Target) (side : Side) (start : App) (acts : List Action) : Prop :=
  ∀ pre a post, acts = pre ++ a :: post → ∀ app out app' out',
    Steps.run (step t) start pre = some (app, out) → step t app a = some (app', out') →
      (app'.channel side).motor = afterCall t (app.channel side).motor (setSpeedCall t side app a)

/-- A step sets the motor of a side by this call, or leaves it as it is. -/
theorem motor_setSpeedCall {t : Target} {app app' : App} {a : Action} {out : List Byte}
    (h : step t app a = some (app', out)) (side : Side) :
    (app'.channel side).motor =
      afterCall t (app.channel side).motor (setSpeedCall t side app a) := by
  rw [channel_step t h side, Channel.motor_step, setSpeedCall]
  cases (app.channel side).speed t (sideEvent t side app a) <;> rfl

/-- The arguments of the accepted `o` commands for one side along a run. -/
def pwmArguments (t : Target) (side : Side) (app : App) (acts : List Action) : List Int :=
  (sideEvents t side app acts).filterMap Channel.Event.pwm

theorem setSpeedCall_pwm {t : Target} {side : Side} {app : App} {a : Action} {pwm : Int}
    (h : (sideEvent t side app a).pwm = some pwm) :
    setSpeedCall t side app a = some ((app.channel side).motor, pwm) := by
  unfold setSpeedCall
  cases he : sideEvent t side app a with
  | setPwm ticks p =>
    rw [he] at h
    rw [Option.some.inj h.symm]
    rfl
  | _ =>
    rw [he] at h
    exact absurd h (by simp [Channel.Event.pwm])

/-- In every run, and on each side, the motor is set by the calls of `set_speed` alone. All of
them write duty cycles only and leave the limited magnitude of their argument on the matching
output if and only if no accepted `o` asks for the smallest `int`. -/
theorem pwm_valid_iff (w : Nat) (hw : 16 ≤ w) (t : Target) (ht : t.int = wrap w) (imu : Bool)
    (leftMove rightMove : Int) (acts : List Action) (side : Side) :
    SetByCalls t side (setup t imu leftMove rightMove) acts ∧
      ((∀ c ∈ setSpeedCalls t side (setup t imu leftMove rightMove) acts, c.1.Valid t c.2) ↔
        ∀ pwm ∈ pwmArguments t side (setup t imu leftMove rightMove) acts, pwm ≠ -2 ^ (w - 1)) := by
  refine ⟨fun _ _ _ _ _ _ _ _ _ hs => motor_setSpeedCall hs side, ?_⟩
  have hfits : ∀ s, Fits w (atoi t s) := by
    intro s
    rw [atoi, ht]
    exact wrap_fits w (by omega) _
  constructor
  · intro h pwm hmem
    obtain ⟨e, he, hpwm⟩ := List.mem_filterMap.mp hmem
    obtain ⟨pre, a, post, app, out, rfl, hrun, rfl⟩ := Steps.mem_labels he
    obtain ⟨s, rfl⟩ := sideEvent_argument t (Channel.Event.argument_of_pwm hpwm)
    have hcall : ((app.channel side).motor, atoi t s) ∈
        setSpeedCalls t side (setup t imu leftMove rightMove) (pre ++ a :: post) := by
      refine List.mem_filterMap.mpr ⟨_, Steps.label_mem (setSpeedCall t side) hrun a post, ?_⟩
      exact setSpeedCall_pwm hpwm
    exact (Motor.valid_iff hw ht _ (hfits s)).mp (h _ hcall)
  · intro h c hmem
    obtain ⟨call, hc, rfl⟩ := List.mem_filterMap.mp hmem
    obtain ⟨pre, a, post, app, out, rfl, hrun, hlabel⟩ := Steps.mem_labels hc
    obtain ⟨s, hs, rfl⟩ := Option.map_eq_some_iff.mp hlabel.symm
    cases hpwm : (sideEvent t side app a).pwm with
    | none =>
      have hrange := Channel.speed_range (limits_setup_run t hrun side) hs hpwm
      apply Motor.valid_of_neg
      exact t.int_of_fits _ ((fits_sixteen _).mpr (by omega))
    | some pwm =>
      have hmem : pwm ∈ pwmArguments t side (setup t imu leftMove rightMove) (pre ++ a :: post) :=
        List.mem_filterMap.mpr ⟨_, Steps.label_mem (sideEvent t side) hrun a post, hpwm⟩
      have hcall := setSpeedCall_pwm hpwm
      rw [setSpeedCall, hs] at hcall
      obtain ⟨-, rfl⟩ := Prod.mk.inj (Option.some.inj hcall)
      obtain ⟨x, rfl⟩ := sideEvent_argument t (Channel.Event.argument_of_pwm hpwm)
      exact (Motor.valid_iff hw ht _ (hfits x)).mpr (h _ hmem)

/-- The largest `int` is limited, and one more than the smallest. -/
theorem pwm_valid_iff_limited :
    (setSpeedCalls (avr fun _ => 0) .left (setup (avr fun _ => 0) false 0 0)
      (typed (Env.quiet 0) (ascii "o 32767 0\ro -32767 0\r"))).map Prod.snd = [32767, -32767] ∧
    ∀ c ∈ setSpeedCalls (avr fun _ => 0) .left (setup (avr fun _ => 0) false 0 0)
      (typed (Env.quiet 0) (ascii "o 32767 0\ro -32767 0\r")), c.1.Valid (avr fun _ => 0) c.2 := by
  refine ⟨by decide +kernel, ?_⟩
  exact (pwm_valid_iff 16 (by decide) (avr fun _ => 0) rfl false 0 0 _ .left).2.mpr (by decide +kernel)

/-- The smallest `int` is not. -/
theorem pwm_lowest :
    ¬ ∀ c ∈ setSpeedCalls (avr fun _ => 0) .left (setup (avr fun _ => 0) false 0 0)
      (typed (Env.quiet 0) (ascii "o -32768 0\r")), c.1.Valid (avr fun _ => 0) c.2 := by
  decide +kernel

end App

end AndinoFirmware
