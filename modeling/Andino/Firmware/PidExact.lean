import Mathlib.Algebra.Order.Group.Int
import Mathlib.Tactic.Ring
import Andino.Library.Saturation
import Andino.Firmware.PidCalls

/-!
# The controller over the integers

Without overflow a computation is one equation: the quotient is added to the last
output, and the sum is saturated. From this equation follow the three facts below. Only
displacements count, not where the encoder stands; the controller treats both directions
alike; and without an integral gain its output comes to rest at a constant input only
where there is no error left or no room.
-/
namespace AndinoFirmware

open CArith Saturation

namespace Pid

/-- An output, as the limits of the controller let it pass. -/
def saturated (p : Pid) (x : Int) : Int := saturate p.outputMin p.outputMax x

/-- The integral term after a computation: it accumulates as long as the output does
not saturate. -/
def accumulated (p : Pid) (n : Int) : Int :=
  if p.outputMax ≤ p.rawOutput exact n ∨ p.rawOutput exact n ≤ p.outputMin then p.integralTerm
  else p.integralTerm + p.ki * p.error exact n

theorem compute_exact {p : Pid} (n out : Int) (h : p.enabled = true) :
    p.compute exact n out =
      ⟨{ p with
        integralTerm := p.accumulated n, lastEncoderCount := n, lastInput := p.input exact n,
        lastOutput := p.saturated (p.rawOutput exact n) },
        p.saturated (p.rawOutput exact n), some p.ko⟩ := by
  by_cases hmax : p.outputMax ≤ p.rawOutput exact n
  · rw [compute_max exact out h hmax, saturated, saturate_of_le hmax, accumulated,
      if_pos (.inl hmax)]
    rfl
  · by_cases hmin : p.rawOutput exact n ≤ p.outputMin
    · rw [compute_min exact out h hmax hmin, saturated, saturate_of_ge hmax hmin, accumulated,
        if_pos (.inr hmin)]
      rfl
    · have hbetween : ¬ (p.outputMax ≤ p.rawOutput exact n ∨ p.rawOutput exact n ≤ p.outputMin) :=
        not_or.mpr ⟨hmax, hmin⟩
      rw [compute_between exact out h hmax hmin, saturated, saturate_of_between hmax hmin,
        accumulated, if_neg hbetween]
      rfl

theorem rawOutput_exact (p : Pid) (n : Int) :
    p.rawOutput exact n =
      (p.kp * p.error exact n - p.kd * (p.input exact n - p.lastInput) + p.integralTerm).tdiv p.ko +
        p.lastOutput := rfl

/-! ## Moving the counts -/

/-- The same controller at an encoder that is `k` further. -/
def translate (k : Int) (p : Pid) : Pid := { p with lastEncoderCount := p.lastEncoderCount + k }

theorem input_translate (k : Int) (p : Pid) (n : Int) :
    (p.translate k).input exact (n + k) = p.input exact n :=
  add_sub_add_right_eq_sub n p.lastEncoderCount k

theorem compute_translate (k : Int) (p : Pid) (n out : Int) :
    (p.translate k).compute exact (n + k) out =
      { p.compute exact n out with pid := (p.compute exact n out).pid.translate k } := by
  cases hen : p.enabled with
  | false =>
    rw [compute_disabled exact n out hen, compute_disabled exact (p := p.translate k) _ out hen]
    by_cases hlast : p.lastInput = 0
    · simp [translate, hlast]
    · simp [translate, hlast, reset]
  | true =>
    have hin := input_translate k p n
    have herr : (p.translate k).error exact (n + k) = p.error exact n := by
      rw [error, hin]
      rfl
    have hraw : (p.translate k).rawOutput exact (n + k) = p.rawOutput exact n := by
      rw [rawOutput_exact, rawOutput_exact, herr, hin]
      rfl
    have hacc : (p.translate k).accumulated (n + k) = p.accumulated n := by
      rw [accumulated, accumulated, hraw, herr]
      rfl
    rw [compute_exact n out hen, compute_exact (p := p.translate k) _ out hen, hin, hraw, hacc]
    rfl

/-! ## Turning the signs -/

/-- The controller of the same wheel, seen from the other side. -/
def reversed (p : Pid) : Pid :=
  { p with
    setpoint := -p.setpoint, integralTerm := -p.integralTerm,
    lastEncoderCount := -p.lastEncoderCount, lastInput := -p.lastInput,
    lastOutput := -p.lastOutput }

theorem input_reversed (p : Pid) (n : Int) :
    p.reversed.input exact (-n) = -p.input exact n := by
  change -n - -p.lastEncoderCount = -(n - p.lastEncoderCount)
  omega

theorem error_reversed (p : Pid) (n : Int) : p.reversed.error exact (-n) = -p.error exact n := by
  rw [error, input_reversed]
  change -p.setpoint - -p.input exact n = -(p.setpoint - p.input exact n)
  omega

/-- The quotient truncates toward zero on both sides. -/
theorem rawOutput_reversed (p : Pid) (n : Int) :
    p.reversed.rawOutput exact (-n) = -p.rawOutput exact n := by
  have hsum : p.kp * -p.error exact n - p.kd * (-p.input exact n - -p.lastInput) + -p.integralTerm =
      -(p.kp * p.error exact n - p.kd * (p.input exact n - p.lastInput) + p.integralTerm) := by
    ring
  rw [rawOutput_exact, rawOutput_exact, error_reversed, input_reversed]
  change (p.kp * -p.error exact n - p.kd * (-p.input exact n - -p.lastInput) +
    -p.integralTerm).tdiv p.ko + -p.lastOutput = _
  rw [hsum, Int.neg_tdiv]
  omega

theorem accumulated_reversed {p : Pid} (hlim : p.outputMin = -p.outputMax) (n : Int) :
    p.reversed.accumulated (-n) = -p.accumulated n := by
  have hiff : p.outputMax ≤ -p.rawOutput exact n ∨ -p.rawOutput exact n ≤ p.outputMin ↔
      p.outputMax ≤ p.rawOutput exact n ∨ p.rawOutput exact n ≤ p.outputMin := by omega
  rw [accumulated, accumulated, rawOutput_reversed, error_reversed]
  change (if p.outputMax ≤ -p.rawOutput exact n ∨ -p.rawOutput exact n ≤ p.outputMin then
    -p.integralTerm else -p.integralTerm + p.ki * -p.error exact n) = _
  simp only [hiff]
  split
  · rfl
  · ring

/-- Between limits that are symmetric, a computation treats both directions alike. -/
theorem compute_reversed {p : Pid} (hlim : p.outputMin = -p.outputMax) (hmax : 0 ≤ p.outputMax)
    (n out : Int) :
    p.reversed.compute exact (-n) (-out) =
      ⟨(p.compute exact n out).pid.reversed, -(p.compute exact n out).output,
        (p.compute exact n out).divisor⟩ := by
  cases hen : p.enabled with
  | false =>
    rw [compute_disabled exact n out hen, compute_disabled exact (p := p.reversed) _ _ hen]
    by_cases hlast : p.lastInput = 0
    · simp [reversed, hlast]
    · simp [reversed, hlast, reset]
  | true =>
    have hsat : p.reversed.saturated (-p.rawOutput exact n) = -p.saturated (p.rawOutput exact n) := by
      change saturate p.outputMin p.outputMax _ = -saturate p.outputMin p.outputMax _
      rw [hlim]
      exact saturate_neg hmax _
    rw [compute_exact n out hen, compute_exact (p := p.reversed) _ _ hen, input_reversed,
      rawOutput_reversed, accumulated_reversed hlim, hsat]
    rfl

/-! ## Equilibrium -/

/-- The constructor. -/
def construct (kp kd ki ko outputMin outputMax : Int) : Pid where
  kp := kp
  kd := kd
  ki := ki
  ko := ko
  outputMin := outputMin
  outputMax := outputMax

def Call.isTuning : Call → Bool
  | .setTunings _ _ _ _ => true
  | _ => false

/-- A controller without an integral part, with an output that its limits allow. -/
structure Proportional (outputMin outputMax : Int) (p : Pid) : Prop where
  ko_pos : 0 < p.ko
  ko_le_kp : p.ko ≤ p.kp
  ki : p.ki = 0
  integralTerm : p.integralTerm = 0
  limits : p.outputMin = outputMin ∧ p.outputMax = outputMax
  zero_mem : outputMin ≤ 0 ∧ 0 ≤ outputMax
  lastOutput : outputMin ≤ p.lastOutput ∧ p.lastOutput ≤ outputMax

section Equilibrium

variable {outputMin outputMax : Int} {p : Pid}

theorem Proportional.saturated_mem (h : p.Proportional outputMin outputMax) (x : Int) :
    outputMin ≤ p.saturated x ∧ p.saturated x ≤ outputMax := by
  obtain ⟨hmin, hmax⟩ := h.limits
  rw [saturated, hmin, hmax]
  exact saturate_mem (le_trans h.zero_mem.1 h.zero_mem.2) x

theorem Proportional.accumulated_eq (h : p.Proportional outputMin outputMax) (n : Int) :
    p.accumulated n = 0 := by
  rw [accumulated, h.integralTerm, h.ki, zero_mul, add_zero, ite_self]

theorem proportional_reset (n : Int) (h : p.Proportional outputMin outputMax) :
    (p.reset n).Proportional outputMin outputMax :=
  ⟨h.ko_pos, h.ko_le_kp, h.ki, rfl, h.limits, h.zero_mem, h.zero_mem⟩

theorem proportional_compute (n out : Int) (h : p.Proportional outputMin outputMax) :
    (p.compute exact n out).pid.Proportional outputMin outputMax := by
  cases hen : p.enabled with
  | false =>
    rw [compute_disabled exact n out hen]
    dsimp only
    split
    · exact proportional_reset n h
    · exact h
  | true =>
    rw [compute_exact n out hen]
    exact ⟨h.ko_pos, h.ko_le_kp, h.ki, h.accumulated_eq n, h.limits, h.zero_mem,
      h.saturated_mem _⟩

theorem proportional_call {c : Call} (hc : c.isTuning = false)
    (h : p.Proportional outputMin outputMax) :
    (p.call exact c).1.Proportional outputMin outputMax := by
  cases c with
  | reset n => exact proportional_reset n h
  | enable | disable | setSetpoint =>
    exact ⟨h.ko_pos, h.ko_le_kp, h.ki, h.integralTerm, h.limits, h.zero_mem, h.lastOutput⟩
  | setTunings kp kd ki ko => exact absurd hc (by simp [Call.isTuning])
  | compute n out => exact proportional_compute n out h

theorem proportional_calls {cs : List Call} (hcs : ∀ c ∈ cs, c.isTuning = false)
    (h : p.Proportional outputMin outputMax) :
    (p.calls exact cs).1.Proportional outputMin outputMax := by
  induction cs generalizing p with
  | nil => exact h
  | cons c cs ih =>
    apply ih (fun c' hc' => hcs c' (List.mem_cons_of_mem _ hc'))
    exact proportional_call (hcs c List.mem_cons_self) h

/-- Where the gain is not below the divisor, the quotient swallows no error. -/
theorem tdiv_pos_of_error_pos {kp ko err : Int} (hko : 0 < ko) (hkp : ko ≤ kp) (herr : 0 < err) :
    0 < (kp * err).tdiv ko := by
  have hle : ko ≤ kp * err := by
    calc
      ko ≤ kp := hkp
      _ = kp * 1 := (mul_one kp).symm
      _ ≤ kp * err := Int.mul_le_mul_of_nonneg_left herr (by omega)
  rw [Int.tdiv_eq_ediv_of_nonneg (by omega)]
  exact Int.le_ediv_of_mul_le hko (by omega)

theorem tdiv_neg_of_error_neg {kp ko err : Int} (hko : 0 < ko) (hkp : ko ≤ kp) (herr : err < 0) :
    (kp * err).tdiv ko < 0 := by
  have hpos := tdiv_pos_of_error_pos hko hkp (Int.neg_pos_of_neg herr)
  rw [mul_neg, Int.neg_tdiv] at hpos
  omega

/-- At a constant input the derivative part is gone. -/
theorem Proportional.rawOutput_eq (h : p.Proportional outputMin outputMax) {n : Int}
    (hin : p.input exact n = p.lastInput) :
    p.rawOutput exact n = (p.kp * p.error exact n).tdiv p.ko + p.lastOutput := by
  rw [rawOutput_exact, hin, sub_self, mul_zero, sub_zero, h.integralTerm, add_zero]

/-- The new output lies on the side of the last one to which the error points. -/
theorem Proportional.rawOutput_direction (h : p.Proportional outputMin outputMax) {n : Int}
    (hin : p.input exact n = p.lastInput) :
    (p.rawOutput exact n = p.lastOutput ↔ p.error exact n = 0) ∧
      (p.lastOutput < p.rawOutput exact n ↔ 0 < p.error exact n) ∧
      (p.rawOutput exact n < p.lastOutput ↔ p.error exact n < 0) := by
  rw [h.rawOutput_eq hin]
  rcases lt_trichotomy (p.error exact n) 0 with hneg | hzero | hpos
  · have hq := tdiv_neg_of_error_neg h.ko_pos h.ko_le_kp hneg
    omega
  · rw [hzero, mul_zero, Int.zero_tdiv]
    omega
  · have hq := tdiv_pos_of_error_pos h.ko_pos h.ko_le_kp hpos
    omega

end Equilibrium

/-- From construction on, whatever is called but `set_tunings`: the output stays within
its limits and the integral term zero, and at a constant input the output moves in the
direction of the error as long as there is an error and room. -/
theorem no_residual_error (kp kd ko outputMin outputMax : Int) (hmin : outputMin ≤ 0)
    (hmax : 0 ≤ outputMax) (hko : 0 < ko) (hkp : ko ≤ kp) (cs : List Call)
    (hcs : ∀ c ∈ cs, c.isTuning = false) :
    let p := ((construct kp kd 0 ko outputMin outputMax).calls exact cs).1
    (outputMin ≤ p.lastOutput ∧ p.lastOutput ≤ outputMax) ∧ p.integralTerm = 0 ∧
    ∀ n out, p.enabled = true →
      let error := p.error exact n
      let output := (p.compute exact n out).output
      (outputMin ≤ output ∧ output ≤ outputMax) ∧ (p.compute exact n out).pid.lastOutput = output ∧
      (p.input exact n = p.lastInput →
        (output = p.lastOutput ↔
          error = 0 ∨ (0 < error ∧ p.lastOutput = outputMax) ∨
            (error < 0 ∧ p.lastOutput = outputMin)) ∧
        (0 < error → p.lastOutput ≠ outputMax → p.lastOutput < output) ∧
        (error < 0 → p.lastOutput ≠ outputMin → output < p.lastOutput)) := by
  intro p
  have hstart : (construct kp kd 0 ko outputMin outputMax).Proportional outputMin outputMax :=
    ⟨hko, hkp, rfl, rfl, ⟨rfl, rfl⟩, ⟨hmin, hmax⟩, ⟨hmin, hmax⟩⟩
  have h : p.Proportional outputMin outputMax := proportional_calls hcs hstart
  obtain ⟨hlo, hhi⟩ := h.limits
  refine ⟨h.lastOutput, h.integralTerm, ?_⟩
  intro n out hen error output
  have hout : output = saturate outputMin outputMax (p.rawOutput exact n) := by
    change (p.compute exact n out).output = _
    rw [compute_exact n out hen, ← hlo, ← hhi]
    rfl
  have hlast : (p.compute exact n out).pid.lastOutput = output := by
    change _ = (p.compute exact n out).output
    rw [compute_exact n out hen]
  refine ⟨hout ▸ saturate_mem (le_trans hmin hmax) _, hlast, ?_⟩
  intro hin
  obtain ⟨hzero, hpos, hneg⟩ := h.rawOutput_direction hin
  rw [hout]
  refine ⟨?_, ?_, ?_⟩
  · rw [saturate_eq_iff h.lastOutput, hzero, hpos, hneg]
  · intro herr hne
    exact lt_saturate h.lastOutput (hpos.mpr herr) hne
  · intro herr hne
    exact saturate_lt h.lastOutput (hneg.mpr herr) hne

/-- The gains of the robot, with an error left at a constant input. -/
theorem no_residual_error_compiled :
    0 < ((construct 30 10 0 10 (-255) 255).calls exact
      [.enable, .setSetpoint 2, .compute 1 0]).1.error exact 2 ∧
    ((construct 30 10 0 10 (-255) 255).calls exact
      [.enable, .setSetpoint 2, .compute 1 0]).1.lastOutput <
      (((construct 30 10 0 10 (-255) 255).calls exact
        [.enable, .setSetpoint 2, .compute 1 0]).1.compute exact 2 0).output := by
  have h := no_residual_error 30 10 10 (-255) 255 (by decide) (by decide) (by decide) (by decide)
    [.enable, .setSetpoint 2, .compute 1 0] (by decide)
  exact ⟨by decide, ((h.2.2 2 0 (by decide)).2.2 (by decide)).2.1 (by decide) (by decide)⟩

end Pid

end AndinoFirmware
