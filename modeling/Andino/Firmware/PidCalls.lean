import Andino.Firmware.Pid

/-!
# Sequences of calls of a controller

The encoder count is a `long` that becomes an `int` on every call and a `long`
again in `last_encoder_count_`. The differences cancel modulo `2 ^ 16`:
`Tracks` says that the stored count is congruent to the count it was made from,
and every call keeps it. A controller therefore sees displacements only, never
where the counts are.
-/
namespace AndinoFirmware

open CArith

namespace Pid

/-- The calls of the interface, with the arguments their callers pass. -/
inductive Call where
  | reset (encoderCount : Int)
  | enable
  | disable
  | setSetpoint (setpoint : Int)
  | setTunings (kp kd ki ko : Int)
  | compute (encoderCount computedOutput : Int)
  deriving DecidableEq, Repr

variable (t : Target)

/-- A call, and the outputs it computes. The count is narrowed to `int`. -/
def call (p : Pid) : Call → Pid × List Int
  | .reset n => (p.reset (t.int n), [])
  | .enable => (p.enable, [])
  | .disable => (p.disable, [])
  | .setSetpoint setpoint => (p.setSetpoint setpoint, [])
  | .setTunings kp kd ki ko => (p.setTunings kp kd ki ko, [])
  | .compute n out =>
    let r := p.compute t (t.int n) out
    (r.pid, [r.output])

/-- A sequence of calls, and all the outputs. -/
def calls (p : Pid) : List Call → Pid × List Int
  | [] => (p, [])
  | c :: cs =>
    let r := p.call t c
    let q := calls r.1 cs
    (q.1, r.2 ++ q.2)

/-- The count a call stores, if it stores one: a disabled controller does so only
as long as its last input is not zero. -/
def stores (p : Pid) : Call → Option Int
  | .reset n => some n
  | .compute n _ => if p.enabled = true ∨ p.lastInput ≠ 0 then some n else none
  | _ => none

/-- The count given to the last call that stored one, with `n` stored before. -/
def lastStored (p : Pid) (n : Int) : List Call → Int
  | [] => n
  | c :: cs => lastStored (p.call t c).1 ((p.stores c).getD n) cs

/-- The stored count is the narrowed `n`. -/
def Tracks (p : Pid) (n : Int) : Prop := Int.ModEq (2 ^ 16) p.lastEncoderCount n

variable {t}

/-- The controller stores a count exactly where `stores` says. -/
theorem lastEncoderCount_call (p : Pid) (c : Call) :
    (p.call t c).1.lastEncoderCount = ((p.stores c).map t.int).getD p.lastEncoderCount := by
  cases c with
  | compute n out =>
    simp only [call, compute, stores]
    cases hen : p.enabled with
    | false =>
      simp only [↓reduceIte, Bool.false_eq_true, false_or]
      split <;> simp_all [reset]
    | true =>
      simp only [Bool.true_eq_false, ↓reduceIte, true_or]
      split
      · rfl
      · split <;> rfl
  | _ => rfl

theorem tracks_call (zeroQuot : Int → Int) {p : Pid} {n : Int} (c : Call) (h : p.Tracks n) :
    (p.call (avr zeroQuot) c).1.Tracks ((p.stores c).getD n) := by
  unfold Tracks
  rw [lastEncoderCount_call]
  cases p.stores c with
  | none => exact h
  | some m => exact wrap_modEq 16 m

theorem tracks_calls (zeroQuot : Int → Int) {p : Pid} {n : Int} (cs : List Call)
    (h : p.Tracks n) :
    (p.calls (avr zeroQuot) cs).1.Tracks (p.lastStored (avr zeroQuot) n cs) := by
  induction cs generalizing p n with
  | nil => exact h
  | cons c cs ih => exact ih (tracks_call zeroQuot c h)

/-- The input is the displacement since the stored count, as an `int` holds it. -/
theorem input_eq_wrap (zeroQuot : Int → Int) {p : Pid} {m n d : Int} (h : p.Tracks m)
    (hd : Int.ModEq (2 ^ 16) d (n - m)) :
    p.input (avr zeroQuot) ((avr zeroQuot).int n) = wrap 16 d := by
  change wrap 16 (wrap 32 (wrap 16 n - p.lastEncoderCount)) = wrap 16 d
  rw [wrap_wrap_of_le (by decide), wrap_eq_wrap_iff]
  exact ((wrap_modEq 16 n).sub h).trans hd.symm

/-! ## Counts that differ by a constant -/

/-- The same controller with another stored count. -/
def rebase (p : Pid) (n : Int) : Pid := { p with lastEncoderCount := n }

/-- Two computations that agree on the input, the new output, the integral term and
the conversion of the output leave the same controller behind, up to the count. -/
theorem compute_agree {t₁ t₂ : Target} {p : Pid} {m n n' : Int} (out : Int)
    (hin : (p.rebase m).input t₂ n' = p.input t₁ n)
    (hraw : (p.rebase m).rawOutput t₂ n' = p.rawOutput t₁ n)
    (hint : t₂.int (t₂.long (p.integralTerm + t₂.long (p.ki * (p.rebase m).error t₂ n'))) =
      t₁.int (t₁.long (p.integralTerm + t₁.long (p.ki * p.error t₁ n))))
    (hout : ∀ x, x = p.outputMax ∨ x = p.outputMin ∨ (p.outputMin < x ∧ x < p.outputMax) →
      t₂.int x = t₁.int x) :
    (∃ x, ((p.rebase m).compute t₂ n' out).pid = (p.compute t₁ n out).pid.rebase x) ∧
      ((p.rebase m).compute t₂ n' out).output = (p.compute t₁ n out).output := by
  cases hen : p.enabled with
  | false =>
    rw [compute_disabled t₁ n out hen, compute_disabled t₂ (p := p.rebase m) n' out hen]
    by_cases hlast : p.lastInput = 0
    · exact ⟨⟨m, by simp [hlast, rebase]⟩, rfl⟩
    · exact ⟨⟨n', by simp [hlast, rebase, reset]⟩, rfl⟩
  | true =>
    have hen' : (p.rebase m).enabled = true := hen
    by_cases hmax : p.rawOutput t₁ n ≥ p.outputMax
    · rw [compute_max t₁ out hen hmax, compute_max t₂ out hen' (hraw ▸ hmax), hin]
      exact ⟨⟨n', rfl⟩, hout _ (.inl rfl)⟩
    · have hmax' : ¬ (p.rebase m).rawOutput t₂ n' ≥ (p.rebase m).outputMax := hraw ▸ hmax
      by_cases hmin : p.rawOutput t₁ n ≤ p.outputMin
      · rw [compute_min t₁ out hen hmax hmin, compute_min t₂ out hen' hmax' (hraw ▸ hmin), hin]
        exact ⟨⟨n', rfl⟩, hout _ (.inr (.inl rfl))⟩
      · have hmin' : ¬ (p.rebase m).rawOutput t₂ n' ≤ (p.rebase m).outputMin := hraw ▸ hmin
        rw [compute_between t₁ out hen hmax hmin, compute_between t₂ out hen' hmax' hmin', hin, hraw]
        refine ⟨⟨n', ?_⟩, hout _ (.inr (.inr ⟨by omega, by omega⟩))⟩
        rw [← hint]
        rfl

/-- On one target, a computation depends on counts through its input alone. -/
theorem compute_rebase {p : Pid} {m n n' : Int} (out : Int)
    (hin : (p.rebase m).input t n' = p.input t n) :
    (∃ x, ((p.rebase m).compute t n' out).pid = (p.compute t n out).pid.rebase x) ∧
      ((p.rebase m).compute t n' out).output = (p.compute t n out).output := by
  have herr : (p.rebase m).error t n' = p.error t n := by
    rw [error, error, hin]
    rfl
  have hnum : (p.rebase m).numerator t n' = p.numerator t n := by
    rw [numerator, numerator, herr, hin]
    rfl
  have hraw : (p.rebase m).rawOutput t n' = p.rawOutput t n := by
    rw [rawOutput, rawOutput, hnum]
    rfl
  exact compute_agree out hin hraw (by rw [herr]) (fun _ _ => rfl)

/-- The call with its count moved by `k`, modulo the width of `long`. -/
def Call.shift (k : Int) : Call → Call
  | .reset n => .reset (wrap 32 (n + k))
  | .compute n out => .compute (wrap 32 (n + k)) out
  | c => c

/-- The same controller, with its stored count moved by `k`. -/
def Shifted (k : Int) (p q : Pid) : Prop :=
  ∃ m, q = p.rebase m ∧ Int.ModEq (2 ^ 16) m (p.lastEncoderCount + k)

/-- Moving a count and narrowing it commute modulo `2 ^ 16`. -/
theorem narrow_shift (n k : Int) :
    Int.ModEq (2 ^ 16) (wrap 16 (wrap 32 (n + k))) (wrap 16 n + k) := by
  have hwide : Int.ModEq (2 ^ 16) (wrap 32 (n + k)) (n + k) := modEq_sixteen (wrap_modEq 32 _)
  exact ((wrap_modEq 16 _).trans hwide).trans ((wrap_modEq 16 n).add_right k).symm

/-- Moving all the counts moves the stored one and nothing else. -/
theorem shifted_call (zeroQuot : Int → Int) {k : Int} {p q : Pid} (c : Call) (h : Shifted k p q) :
    Shifted k (p.call (avr zeroQuot) c).1 (q.call (avr zeroQuot) (c.shift k)).1 ∧
      (q.call (avr zeroQuot) (c.shift k)).2 = (p.call (avr zeroQuot) c).2 := by
  obtain ⟨m, rfl, hm⟩ := h
  cases c with
  | reset n => exact ⟨⟨wrap 16 (wrap 32 (n + k)), rfl, narrow_shift n k⟩, rfl⟩
  | compute n out =>
    have hin : (p.rebase m).input (avr zeroQuot) ((avr zeroQuot).int (wrap 32 (n + k))) =
        p.input (avr zeroQuot) ((avr zeroQuot).int n) := by
      have hd : Int.ModEq (2 ^ 16) (n - p.lastEncoderCount) (wrap 32 (n + k) - m) := by
        have hsub := ((modEq_sixteen (wrap_modEq 32 (n + k))).sub hm).symm
        rwa [add_sub_add_right_eq_sub] at hsub
      rw [input_eq_wrap zeroQuot (p := p.rebase m) (m := m) (Int.ModEq.refl m) hd,
        input_eq_wrap zeroQuot (p := p) (Int.ModEq.refl _) (Int.ModEq.refl _)]
    obtain ⟨⟨x, hx⟩, hout⟩ := compute_rebase out hin
    refine ⟨⟨x, hx, ?_⟩, ?_⟩
    · -- both store the narrowed count, or neither stores one
      have h₁ := lastEncoderCount_call (t := avr zeroQuot) (p.rebase m) (.compute (wrap 32 (n + k)) out)
      have h₂ := lastEncoderCount_call (t := avr zeroQuot) p (.compute n out)
      have hleft : ((p.rebase m).call (avr zeroQuot) (.compute (wrap 32 (n + k)) out)).1.lastEncoderCount
          = x := by
        rw [call]
        dsimp only
        rw [hx]
        rfl
      rw [hleft] at h₁
      rw [h₁, h₂]
      have hen : (p.rebase m).enabled = p.enabled := rfl
      have hlast : (p.rebase m).lastInput = p.lastInput := rfl
      simp only [stores, hen, hlast]
      split
      · exact narrow_shift n k
      · exact hm
    · simp only [Call.shift, call, hout]
  | enable | disable | setSetpoint | setTunings => exact ⟨⟨m, rfl, hm⟩, rfl⟩

theorem shifted_calls (zeroQuot : Int → Int) {k : Int} {p q : Pid} (cs : List Call)
    (h : Shifted k p q) :
    (q.calls (avr zeroQuot) (cs.map (Call.shift k))).2 = (p.calls (avr zeroQuot) cs).2 := by
  induction cs generalizing p q with
  | nil => rfl
  | cons c cs ih =>
    obtain ⟨hs, hout⟩ := shifted_call zeroQuot c h
    simp only [List.map_cons, calls, hout, ih hs]

/-- After a reset, whatever the calls: the input of an enabled computation is the
displacement since the count that was last stored, as long as an `int` holds it and
wherever the 32-bit counts wrap around; and counts that all differ by a constant
lead to the same outputs. -/
theorem input_survives_narrowing (zeroQuot : Int → Int) (p : Pid) (n₀ : Int) (cs : List Call) :
    (∀ pre n out post, cs = pre ++ .compute n out :: post →
      ((p.reset ((avr zeroQuot).int n₀)).calls (avr zeroQuot) pre).1.enabled = true →
      ∀ d, Int.ModEq (2 ^ 32) d
          (n - (p.reset ((avr zeroQuot).int n₀)).lastStored (avr zeroQuot) n₀ pre) →
        ((p.reset ((avr zeroQuot).int n₀)).calls (avr zeroQuot) pre).1.input (avr zeroQuot)
            ((avr zeroQuot).int n) = wrap 16 d ∧
        (Fits 16 d →
          ((p.reset ((avr zeroQuot).int n₀)).calls (avr zeroQuot) pre).1.input (avr zeroQuot)
            ((avr zeroQuot).int n) = d)) ∧
    ∀ k, (p.calls (avr zeroQuot) ((Call.reset n₀ :: cs).map (Call.shift k))).2 =
      (p.calls (avr zeroQuot) (.reset n₀ :: cs)).2 := by
  have htracks : (p.reset ((avr zeroQuot).int n₀)).Tracks n₀ := wrap_modEq 16 n₀
  refine ⟨?_, fun k => ?_⟩
  · intro pre n out post _ _ d hd
    have hin := input_eq_wrap zeroQuot (tracks_calls zeroQuot pre htracks) (modEq_sixteen hd)
    exact ⟨hin, fun hfit => hin.trans (wrap_of_fits 16 (by decide) d hfit)⟩
  · have hstart : Shifted k (p.reset ((avr zeroQuot).int n₀))
        (p.reset ((avr zeroQuot).int (wrap 32 (n₀ + k)))) :=
      ⟨wrap 16 (wrap 32 (n₀ + k)), rfl, narrow_shift n₀ k⟩
    exact shifted_calls zeroQuot cs hstart

/-- A reset below and a computation above the largest `int`. -/
theorem input_survives_narrowing_int_max :
    ((((⟨30, 10, 0, 10, -255, 255, false, 0, 0, 0, 0, 0⟩ : Pid).reset
      ((avr fun _ => 0).int 32767)).calls (avr fun _ => 0) [.enable]).1.input
      (avr fun _ => 0) ((avr fun _ => 0).int 32769)) = 2 :=
  ((input_survives_narrowing (fun _ => 0) ⟨30, 10, 0, 10, -255, 255, false, 0, 0, 0, 0, 0⟩ 32767
    [.enable, .compute 32769 0]).1 [.enable] 32769 0 [] rfl rfl 2 (by decide)).2 (by decide)

end Pid

end AndinoFirmware
