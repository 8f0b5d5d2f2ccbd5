import Andino.Library.CArith

/-!
# The PID controller

`Pid::compute` mixes `int` and `long` operands. Each definition below converts
after every operation exactly where the source's types do, so the same text is
the wrapping controller of the boards and the controller over the integers,
according to the target.
-/
namespace AndinoFirmware

open CArith

namespace Constants

/-- Time window to stop the robot if no command has been received [ms]. -/
def kAutoStopWindow : Nat := 3000

def kPwmMax : Int := 255

def kPidRate : Int := 30

/-- `1000 / kPidRate` is an integer division; the comparison against the resulting
double 33.0 is the comparison against 33. -/
def kPidPeriod : Nat := 33

def kPidKp : Int := 30
def kPidKd : Int := 10
def kPidKi : Int := 0
def kPidKo : Int := 10

/-- Per period, a speed that 16 bits hold is a small number. -/
theorem tdiv_kPidRate_le {speed : Int} (h : Fits 16 speed) :
    (speed.tdiv kPidRate).natAbs ≤ 1092 := by
  have habs : (speed.tdiv kPidRate).natAbs = speed.natAbs / 30 := Int.natAbs_tdiv speed 30
  rw [fits_sixteen] at h
  omega

end Constants

structure Pid where
  kp : Int
  kd : Int
  ki : Int
  ko : Int
  outputMin : Int
  outputMax : Int
  enabled : Bool := false
  setpoint : Int := 0
  integralTerm : Int := 0
  lastEncoderCount : Int := 0
  lastInput : Int := 0
  lastOutput : Int := 0
  deriving DecidableEq, Repr

namespace Pid

variable (t : Target)

def reset (p : Pid) (encoderCount : Int) : Pid :=
  { p with
    setpoint := 0, integralTerm := 0, lastEncoderCount := encoderCount, lastInput := 0,
    lastOutput := 0 }

def enable (p : Pid) : Pid := { p with enabled := true }

def disable (p : Pid) : Pid := { p with enabled := false }

def setSetpoint (p : Pid) (setpoint : Int) : Pid := { p with setpoint := setpoint }

def setTunings (p : Pid) (kp kd ki ko : Int) : Pid :=
  { p with kp := kp, kd := kd, ki := ki, ko := ko }

/-- `int input = encoder_count - last_encoder_count_`: a `long` difference, narrowed. -/
def input (p : Pid) (encoderCount : Int) : Int :=
  t.int (t.long (encoderCount - p.lastEncoderCount))

/-- `long error = setpoint_ - input`: both operands are `int`. -/
def error (p : Pid) (encoderCount : Int) : Int := t.int (p.setpoint - p.input t encoderCount)

/-- `kp_ * error - kd_ * (input - last_input_) + integral_term_`; only the first
product and the two sums are `long`. -/
def numerator (p : Pid) (encoderCount : Int) : Int :=
  t.long (t.long (t.long (p.kp * p.error t encoderCount) -
    t.int (p.kd * t.int (p.input t encoderCount - p.lastInput))) + p.integralTerm)

/-- The new output before it is limited. -/
def rawOutput (p : Pid) (encoderCount : Int) : Int :=
  t.long (t.long (t.quot (p.numerator t encoderCount) p.ko) + p.lastOutput)

/-- What one call of `compute` leaves behind: the controller, the reference
parameter, and the divisor of the quotient if that was evaluated. -/
structure Computation where
  pid : Pid
  output : Int
  divisor : Option Int

def compute (p : Pid) (encoderCount computedOutput : Int) : Computation :=
  if p.enabled = false then
    -- Reset PID once to prevent startup spikes.
    ⟨if p.lastInput ≠ 0 then p.reset encoderCount else p, computedOutput, none⟩
  else
    let output := p.rawOutput t encoderCount
    if output ≥ p.outputMax then
      ⟨{ p with
        lastEncoderCount := encoderCount, lastInput := p.input t encoderCount,
        lastOutput := p.outputMax }, t.int p.outputMax, some p.ko⟩
    else if output ≤ p.outputMin then
      ⟨{ p with
        lastEncoderCount := encoderCount, lastInput := p.input t encoderCount,
        lastOutput := p.outputMin }, t.int p.outputMin, some p.ko⟩
    else
      -- Accumulate integral term as long as output doesn't saturate.
      ⟨{ p with
        integralTerm := t.int (t.long (p.integralTerm + t.long (p.ki * p.error t encoderCount))),
        lastEncoderCount := encoderCount, lastInput := p.input t encoderCount,
        lastOutput := output }, t.int output, some p.ko⟩

/-! The four ways through `compute`. -/

theorem compute_disabled {p : Pid} (n out : Int) (h : p.enabled = false) :
    p.compute t n out = ⟨if p.lastInput ≠ 0 then p.reset n else p, out, none⟩ := if_pos h

theorem compute_max {p : Pid} {n : Int} (out : Int) (h : p.enabled = true)
    (hmax : p.rawOutput t n ≥ p.outputMax) :
    p.compute t n out =
      ⟨{ p with
        lastEncoderCount := n, lastInput := p.input t n, lastOutput := p.outputMax },
        t.int p.outputMax, some p.ko⟩ := by
  rw [compute, if_neg (by simp [h])]
  exact if_pos hmax

theorem compute_min {p : Pid} {n : Int} (out : Int) (h : p.enabled = true)
    (hmax : ¬ p.rawOutput t n ≥ p.outputMax) (hmin : p.rawOutput t n ≤ p.outputMin) :
    p.compute t n out =
      ⟨{ p with
        lastEncoderCount := n, lastInput := p.input t n, lastOutput := p.outputMin },
        t.int p.outputMin, some p.ko⟩ := by
  rw [compute, if_neg (by simp [h])]
  exact (if_neg hmax).trans (if_pos hmin)

theorem compute_between {p : Pid} {n : Int} (out : Int) (h : p.enabled = true)
    (hmax : ¬ p.rawOutput t n ≥ p.outputMax) (hmin : ¬ p.rawOutput t n ≤ p.outputMin) :
    p.compute t n out =
      ⟨{ p with
        integralTerm := t.int (t.long (p.integralTerm + t.long (p.ki * p.error t n))),
        lastEncoderCount := n, lastInput := p.input t n, lastOutput := p.rawOutput t n },
        t.int (p.rawOutput t n), some p.ko⟩ := by
  rw [compute, if_neg (by simp [h])]
  exact (if_neg hmax).trans (if_neg hmin)

/-- The part of a controller that `reset` and `compute` never touch. -/
structure Fixed where
  kp : Int
  kd : Int
  ki : Int
  ko : Int
  outputMin : Int
  outputMax : Int
  enabled : Bool
  deriving DecidableEq, Repr

def fixed (p : Pid) : Fixed := ⟨p.kp, p.kd, p.ki, p.ko, p.outputMin, p.outputMax, p.enabled⟩

@[simp] theorem fixed_compute (p : Pid) (n out : Int) :
    (p.compute t n out).pid.fixed = p.fixed := by
  unfold compute
  split
  · dsimp only
    split <;> rfl
  · dsimp only
    split
    · rfl
    · split <;> rfl

@[simp] theorem enabled_compute (p : Pid) (n out : Int) :
    (p.compute t n out).pid.enabled = p.enabled :=
  congrArg Fixed.enabled (fixed_compute t p n out)

/-- The quotient is evaluated by exactly the enabled controllers, and its divisor is `ko_`. -/
theorem compute_divisor (p : Pid) (n out : Int) :
    (p.compute t n out).divisor = if p.enabled then some p.ko else none := by
  unfold compute
  cases p.enabled with
  | false => rfl
  | true =>
    simp only [Bool.true_eq_false, ↓reduceIte]
    split
    · rfl
    · split <;> rfl

/-- An enabled controller writes an output within its limits and remembers it. -/
theorem compute_output_range (p : Pid) (n out : Int) (he : p.enabled = true)
    (hlim : p.outputMin ≤ p.outputMax) (hmin : Fits 16 p.outputMin) (hmax : Fits 16 p.outputMax) :
    p.outputMin ≤ (p.compute t n out).output ∧ (p.compute t n out).output ≤ p.outputMax ∧
      (p.compute t n out).output = (p.compute t n out).pid.lastOutput := by
  unfold compute
  simp only [he, Bool.true_eq_false, ↓reduceIte]
  split
  · rw [t.int_of_fits _ hmax]
    exact ⟨hlim, le_refl _, rfl⟩
  · split
    · rw [t.int_of_fits _ hmin]
      exact ⟨le_refl _, hlim, rfl⟩
    · rename_i h₁ h₂
      have hfit : Fits 16 (p.rawOutput t n) := by
        rw [fits_sixteen] at *
        omega
      rw [t.int_of_fits _ hfit]
      exact ⟨le_of_not_ge h₂, le_of_not_ge h₁, rfl⟩

end Pid

end AndinoFirmware
