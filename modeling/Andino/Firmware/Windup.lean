import Andino.Firmware.Overflow

/-!
# Gains that keep the controllers within their types

The integral term only grows in a computation whose output stays between the limits, and
such a computation bounds the sum it divides, the integral term with it: that is what the
check against windup is worth in 16 bits. From this follows which gains are safe to send,
given the setpoints and the displacement that a tick may find, for runs in which the gains
change at any time.
-/
namespace AndinoFirmware

open CArith CString

/-- Gains that are safe with setpoints up to `S` and displacements up to `M`, and with an
integral term up to `W`. -/
structure Gains.Admissible (S M W : Nat) (g : Gains) : Prop where
  proportional : Fits 16 g.kp
  derivative : g.kd.natAbs * (2 * M) ≤ 32767
  integral : W + g.ki.natAbs * (S + M) ≤ 32767
  divisor : g.ko ≠ 0
  windup : g.ki = 0 ∨
    510 * g.ko.natAbs + (g.kp.natAbs + g.ki.natAbs) * (S + M) + g.kd.natAbs * (2 * M) ≤ W

instance (S M W : Nat) (g : Gains) : Decidable (g.Admissible S M W) :=
  decidable_of_iff (Fits 16 g.kp ∧ g.kd.natAbs * (2 * M) ≤ 32767 ∧
      W + g.ki.natAbs * (S + M) ≤ 32767 ∧ g.ko ≠ 0 ∧ (g.ki = 0 ∨
        510 * g.ko.natAbs + (g.kp.natAbs + g.ki.natAbs) * (S + M) + g.kd.natAbs * (2 * M) ≤ W))
    ⟨fun ⟨hp, hd, hi, ho, hw⟩ => ⟨hp, hd, hi, ho, hw⟩,
      fun h => ⟨h.proportional, h.derivative, h.integral, h.divisor, h.windup⟩⟩

namespace Pid

/-! A computation within its types, part by part. -/

theorem InRange.error_eq (zeroQuot : Int → Int) {p : Pid} {n x : Int} (h : p.InRange x)
    (hin : p.input (avr zeroQuot) n = x) : p.error (avr zeroQuot) n = p.setpoint - x := by
  rw [Pid.error, hin]
  exact (avr zeroQuot).int_of_fits _ h.error

theorem InRange.rawOutput_eq (zeroQuot : Int → Int) {p : Pid} {n x : Int} (h : p.InRange x)
    (hin : p.input (avr zeroQuot) n = x) (hko : p.ko ≠ 0) :
    p.rawOutput (avr zeroQuot) n = (p.exactSum x).tdiv p.ko + p.lastOutput := by
  have hnum : p.numerator (avr zeroQuot) n = p.exactSum x := by
    rw [numerator, h.error_eq zeroQuot hin, hin, (avr zeroQuot).int_of_fits _ h.difference,
      (avr zeroQuot).int_of_fits _ h.derivative, (avr zeroQuot).long_of_fits _ h.proportional,
      (avr zeroQuot).long_of_fits _ h.partialSum]
    exact (avr zeroQuot).long_of_fits _ h.sum
  rw [rawOutput, hnum, (avr zeroQuot).quot_of_ne_zero _ _ hko,
    (avr zeroQuot).long_of_fits _ h.quotient]
  exact (avr zeroQuot).long_of_fits _ h.output

theorem InRange.integral_eq (zeroQuot : Int → Int) {p : Pid} {x : Int} (h : p.InRange x) :
    (avr zeroQuot).int ((avr zeroQuot).long
      (p.integralTerm + (avr zeroQuot).long (p.ki * (p.setpoint - x)))) =
        p.integralTerm + p.ki * (p.setpoint - x) := by
  have hfit : Fits 32 (p.integralTerm + p.ki * (p.setpoint - x)) := by
    have hsixteen := (fits_sixteen _).mp h.integral
    rw [fits_thirtyTwo]
    omega
  rw [(avr zeroQuot).long_of_fits _ h.increment, (avr zeroQuot).long_of_fits _ hfit]
  exact (avr zeroQuot).int_of_fits _ h.integral

/-- What the computations of a run leave in a controller. -/
structure Governed (S M W : Nat) (p : Pid) : Prop where
  gains : p.gains.Admissible S M W
  limits : p.limits = (-255, 255)
  setpoint : p.setpoint.natAbs ≤ S
  lastInput : p.lastInput.natAbs ≤ M
  lastOutput : p.lastOutput.natAbs ≤ 255
  integralTerm : p.integralTerm.natAbs ≤ W

variable {S M W : Nat} {p : Pid} {x : Int}

/-- The three products, with a displacement within the bound. -/
theorem Governed.products (h : p.Governed S M W) (hx : x.natAbs ≤ M) :
    (p.kp * (p.setpoint - x)).natAbs ≤ p.kp.natAbs * (S + M) ∧
      (p.kd * (x - p.lastInput)).natAbs ≤ p.kd.natAbs * (2 * M) ∧
      (p.ki * (p.setpoint - x)).natAbs ≤ p.ki.natAbs * (S + M) := by
  have herror : (p.setpoint - x).natAbs ≤ S + M := by
    have hset := h.setpoint
    omega
  have hdiff : (x - p.lastInput).natAbs ≤ 2 * M := by
    have hlast := h.lastInput
    omega
  rw [Int.natAbs_mul, Int.natAbs_mul, Int.natAbs_mul]
  exact ⟨Nat.mul_le_mul_left _ herror, Nat.mul_le_mul_left _ hdiff, Nat.mul_le_mul_left _ herror⟩

theorem fits_of_natAbs_sixteen {y : Int} (h : y.natAbs ≤ 32767) : Fits 16 y := by
  rw [fits_sixteen]
  omega

theorem fits_of_natAbs_thirtyTwo {y : Int} (h : y.natAbs ≤ 2147483647) : Fits 32 y := by
  rw [fits_thirtyTwo]
  omega

theorem Governed.inRange (h : p.Governed S M W) (hx : x.natAbs ≤ M) (hS : S + M ≤ 32767)
    (hM : 2 * M ≤ 32767) : p.InRange x := by
  obtain ⟨hp, hd, hi⟩ := h.products hx
  have herror : (p.setpoint - x).natAbs ≤ 32767 := by
    have hset := h.setpoint
    omega
  have hdiff : (x - p.lastInput).natAbs ≤ 32767 := by
    have hlast := h.lastInput
    omega
  have hproportional : (p.kp * (p.setpoint - x)).natAbs ≤ 1073709056 := by
    have hkp : p.kp.natAbs ≤ 32768 := by
      have hfit : Fits 16 p.kp := h.gains.proportional
      rw [fits_sixteen] at hfit
      omega
    exact hp.trans (Nat.mul_le_mul hkp hS)
  have hderivative := hd.trans h.gains.derivative
  have hintegral : (p.integralTerm + p.ki * (p.setpoint - x)).natAbs ≤ 32767 := by
    have hterm := h.integralTerm
    have hbound : W + p.ki.natAbs * (S + M) ≤ 32767 := h.gains.integral
    exact (Int.natAbs_add_le _ _).trans (by omega)
  have hterm : p.integralTerm.natAbs ≤ 32767 :=
    h.integralTerm.trans ((Nat.le_add_right _ _).trans h.gains.integral)
  have hincrement := hi.trans ((Nat.le_add_left _ W).trans h.gains.integral)
  have htwo := (Int.natAbs_sub_le _ _).trans (Nat.add_le_add hproportional hderivative)
  have hsum := (Int.natAbs_add_le _ _).trans (Nat.add_le_add htwo hterm)
  have hquot : ((p.exactSum x).tdiv p.ko).natAbs ≤ 1073774590 := by
    rw [Int.natAbs_tdiv]
    exact (Nat.div_le_self _ _).trans hsum
  have hout := (Int.natAbs_add_le _ _).trans (Nat.add_le_add hquot h.lastOutput)
  exact
    { input := fits_of_natAbs_sixteen (by omega)
      error := fits_of_natAbs_sixteen herror
      proportional := fits_of_natAbs_thirtyTwo (hproportional.trans (by decide))
      difference := fits_of_natAbs_sixteen hdiff
      derivative := fits_of_natAbs_sixteen hderivative
      partialSum := fits_of_natAbs_thirtyTwo (htwo.trans (by decide))
      sum := fits_of_natAbs_thirtyTwo (hsum.trans (by decide))
      quotient := fits_of_natAbs_thirtyTwo (hquot.trans (by decide))
      output := fits_of_natAbs_thirtyTwo (hout.trans (by decide))
      increment := fits_of_natAbs_thirtyTwo (hincrement.trans (by decide))
      integral := fits_of_natAbs_sixteen hintegral }

/-- A quotient that the limits let through bounds what has been divided. -/
theorem natAbs_le_of_tdiv {s d : Int} {B : Nat} (hd : d ≠ 0) (h : (s.tdiv d).natAbs < B) :
    s.natAbs ≤ B * d.natAbs := by
  rw [Int.natAbs_tdiv] at h
  have hpos : 0 < d.natAbs := Int.natAbs_pos.mpr hd
  exact Nat.le_of_lt ((Nat.div_lt_iff_lt_mul hpos).mp h)

/-- The integral term after a computation between the limits. -/
theorem Governed.integral_le (h : p.Governed S M W) (hx : x.natAbs ≤ M)
    (hmax : (p.exactSum x).tdiv p.ko + p.lastOutput < 255)
    (hmin : -255 < (p.exactSum x).tdiv p.ko + p.lastOutput) :
    (p.integralTerm + p.ki * (p.setpoint - x)).natAbs ≤ W := by
  obtain ⟨hp, hd, hi⟩ := h.products hx
  have hko : p.ko ≠ 0 := h.gains.divisor
  have hout := h.lastOutput
  rcases h.gains.windup with hki | hwindup
  · have hzero : p.ki = 0 := hki
    rw [hzero, zero_mul, add_zero]
    exact h.integralTerm
  · have hsum := natAbs_le_of_tdiv hko (show ((p.exactSum x).tdiv p.ko).natAbs < 510 by omega)
    have hbound : 510 * p.ko.natAbs + (p.kp.natAbs + p.ki.natAbs) * (S + M) +
        p.kd.natAbs * (2 * M) ≤ W := hwindup
    rw [Nat.add_mul] at hbound
    rw [exactSum] at hsum
    omega

theorem governed_reset (n : Int) (h : p.Governed S M W) : (p.reset n).Governed S M W :=
  ⟨h.gains, h.limits, Nat.zero_le _, Nat.zero_le _, Nat.zero_le _, Nat.zero_le _⟩

/-- A computation of the boards that finds the displacement `x`. -/
theorem governed_compute {zeroQuot : Int → Int} {n : Int} (out : Int) (h : p.Governed S M W)
    (hin : p.input (avr zeroQuot) n = x) (hx : p.enabled = true → x.natAbs ≤ M)
    (hS : S + M ≤ 32767) (hM : 2 * M ≤ 32767) :
    (p.compute (avr zeroQuot) n out).pid.Governed S M W := by
  obtain ⟨hmin, hmax⟩ := Prod.mk.inj h.limits
  cases hen : p.enabled with
  | false =>
    rw [compute_disabled _ n out hen]
    dsimp only
    split
    · exact governed_reset n h
    · exact h
  | true =>
    have hle := hx hen
    have hrange := h.inRange hle hS hM
    have hko : p.ko ≠ 0 := h.gains.divisor
    have herror : p.error (avr zeroQuot) n = p.setpoint - x := hrange.error_eq zeroQuot hin
    have hraw := hrange.rawOutput_eq zeroQuot hin hko
    have hlast : (p.input (avr zeroQuot) n).natAbs ≤ M := by rwa [hin]
    by_cases hlarge : p.rawOutput (avr zeroQuot) n ≥ p.outputMax
    · rw [compute_max _ out hen hlarge]
      refine ⟨h.gains, h.limits, h.setpoint, hlast, ?_, h.integralTerm⟩
      change p.outputMax.natAbs ≤ 255
      omega
    · by_cases hsmall : p.rawOutput (avr zeroQuot) n ≤ p.outputMin
      · rw [compute_min _ out hen hlarge hsmall]
        refine ⟨h.gains, h.limits, h.setpoint, hlast, ?_, h.integralTerm⟩
        change p.outputMin.natAbs ≤ 255
        omega
      · rw [compute_between _ out hen hlarge hsmall]
        refine ⟨h.gains, h.limits, h.setpoint, hlast, ?_, ?_⟩
        · change (p.rawOutput (avr zeroQuot) n).natAbs ≤ 255
          omega
        · rw [herror, hrange.integral_eq zeroQuot]
          exact h.integral_le hle (by omega) (by omega)

end Pid

namespace Channel

variable {S M W : Nat}

/-- Setpoints and gains within the bounds. -/
def Event.Modest (S M W : Nat) : Event → Prop
  | .setSpeed _ speed _ => (speed.tdiv Constants.kPidRate).natAbs ≤ S
  | .setTunings _ gains => gains.Admissible S M W
  | _ => True

instance (S M W : Nat) : (e : Event) → Decidable (e.Modest S M W)
  | .setSpeed _ _ _ => Nat.decLe _ _
  | .setTunings _ g => inferInstanceAs (Decidable (g.Admissible S M W))
  | .nothing | .move _ | .setPwm _ _ | .resetEncoder _ _ | .tick _ | .stop => isTrue trivial

/-- Every tick that finds the controller enabled finds the wheel at most `M` away from where
the count was last stored, `d` having been that displacement before. -/
def Within (t : Target) (M : Nat) (c : Channel) (d : Int) : List Event → Prop
  | [] => True
  | e :: es =>
    (e.isTick = true → c.pid.enabled = true → (d + e.moved).natAbs ≤ M) ∧
      Within t M (c.step t e) (if c.stores e then 0 else d + e.moved) es

instance decidableWithin (t : Target) (M : Nat) :
    ∀ (c : Channel) (d : Int) (es : List Event), Decidable (c.Within t M d es)
  | _, _, [] => isTrue trivial
  | c, d, e :: es =>
    have := decidableWithin t M (c.step t e) (if c.stores e then 0 else d + e.moved) es
    inferInstanceAs (Decidable (_ ∧ _))

theorem Within.append {t : Target} {c : Channel} {d : Int} {es fs : List Event}
    (h : c.Within t M d (es ++ fs)) :
    c.Within t M d es ∧ (es.foldl (step t) c).Within t M (c.sinceStored t d es) fs := by
  induction es generalizing c d with
  | nil => exact ⟨trivial, h⟩
  | cons e es ih => exact ⟨⟨h.1, (ih h.2).1⟩, (ih h.2).2⟩

theorem governed_step {zeroQuot : Int → Int} {c : Channel} {d : Int} {e : Event}
    (hlags : c.Lags d) (h : c.pid.Governed S M W) (hspeed : e.SpeedFits)
    (hmodest : e.Modest S M W)
    (hwithin : e.isTick = true → c.pid.enabled = true → (d + e.moved).natAbs ≤ M)
    (hS : S + M ≤ 32767) (hM : 2 * M ≤ 32767) :
    (c.step (avr zeroQuot) e).pid.Governed S M W := by
  have hset : ∀ speed, Fits 16 speed → (speed.tdiv Constants.kPidRate).natAbs ≤ S →
      ((avr zeroQuot).int (speed.tdiv Constants.kPidRate)).natAbs ≤ S := by
    intro speed hfit hle
    have hsmall := Constants.tdiv_kPidRate_le hfit
    rw [(avr zeroQuot).int_of_fits _ (by rw [fits_sixteen]; omega)]
    exact hle
  cases e with
  | nothing | move ticks | stop =>
    exact ⟨h.gains, h.limits, h.setpoint, h.lastInput, h.lastOutput, h.integralTerm⟩
  | setSpeed ticks speed idle =>
    cases idle with
    | false =>
      exact ⟨h.gains, h.limits, hset speed hspeed hmodest, h.lastInput, h.lastOutput,
        h.integralTerm⟩
    | true =>
      exact ⟨h.gains, h.limits, hset speed hspeed hmodest, Nat.zero_le _, Nat.zero_le _,
        Nat.zero_le _⟩
  | setPwm ticks pwm | resetEncoder ticks ticksAfterReset =>
    exact ⟨h.gains, h.limits, Nat.zero_le _, Nat.zero_le _, Nat.zero_le _, Nat.zero_le _⟩
  | setTunings ticks g =>
    exact ⟨hmodest, h.limits, h.setpoint, h.lastInput, h.lastOutput, h.integralTerm⟩
  | tick ticks =>
    have hx : c.pid.enabled = true → (wrap 16 (d + ticks)).natAbs ≤ M := by
      intro hen
      have hle : (d + ticks).natAbs ≤ M := hwithin rfl hen
      rwa [wrap_of_fits 16 (by decide) _ ((fits_sixteen _).mpr (by omega))]
    exact Pid.governed_compute 0 h (hlags.input_eq zeroQuot ticks) hx hS hM

theorem governed_run {zeroQuot : Int → Int} (es : List Event) {c : Channel} {d : Int}
    (hlags : c.Lags d) (h : c.pid.Governed S M W) (hspeed : ∀ e ∈ es, e.SpeedFits)
    (hmodest : ∀ e ∈ es, e.Modest S M W) (hwithin : c.Within (avr zeroQuot) M d es)
    (hS : S + M ≤ 32767) (hM : 2 * M ≤ 32767) :
    (es.foldl (step (avr zeroQuot)) c).pid.Governed S M W := by
  induction es generalizing c d with
  | nil => exact h
  | cons e es ih =>
    exact ih (lags_step zeroQuot e hlags)
      (governed_step hlags h (hspeed e List.mem_cons_self) (hmodest e List.mem_cons_self)
        hwithin.1 hS hM)
      (fun f hf => hspeed f (List.mem_cons_of_mem _ hf))
      (fun f hf => hmodest f (List.mem_cons_of_mem _ hf)) hwithin.2

/-- A tick that finds the controller enabled. -/
theorem exactTick_of_governed {zeroQuot : Int → Int} {c : Channel} {d ticks : Int}
    (hlags : c.Lags d) (h : c.pid.Governed S M W) (hle : (d + ticks).natAbs ≤ M)
    (hS : S + M ≤ 32767) (hM : 2 * M ≤ 32767) : c.ExactTick zeroQuot ticks (d + ticks) := by
  have hrange := h.inRange hle hS hM
  have hin := (hlags.input_eq zeroQuot ticks).trans (wrap_of_fits 16 (by decide) _ hrange.input)
  obtain ⟨hpid, hout⟩ := hrange.compute_eq zeroQuot 0 hin h.gains.divisor h.limits
  exact ⟨hin, hrange, hpid, hout⟩

end Channel

namespace App

theorem governed_setup (zeroQuot : Int → Int) {S M W : Nat} (hM : M ≤ 1638) (hW : W ≤ 32767)
    (imu : Bool) (leftMove rightMove : Int) (side : Side) :
    ((setup (avr zeroQuot) imu leftMove rightMove).channel side).pid.Governed S M W := by
  have hgains : (Gains.mk 30 10 0 10).Admissible S M W :=
    ⟨by decide, by change 10 * (2 * M) ≤ 32767; omega, by simpa using hW, by decide, .inl rfl⟩
  cases side <;>
    exact ⟨hgains, rfl, Nat.zero_le _, Nat.zero_le _, Nat.zero_le _, Nat.zero_le _⟩

/-- In every run in which setpoints stay within `S`, the displacements that ticks find within
`M` and the gains of every `u` are admissible for these and `W`: no computation overflows, and
the integral term never leaves `W`. That `M ≤ 1638` and `W ≤ 32767` lets the compiled-in gains
be admissible, and `S + M ≤ 32767` keeps the error within an `int`. -/
theorem no_windup (zeroQuot : Int → Int) (imu : Bool) (leftMove rightMove : Int) (S M W : Nat)
    (hM : M ≤ 1638) (hS : S + M ≤ 32767) (hW : W ≤ 32767) (side : Side) (acts : List Action)
    (hmodest : ∀ e ∈ sideEvents (avr zeroQuot) side (setup (avr zeroQuot) imu leftMove rightMove) acts,
      e.Modest S M W)
    (hwithin : ((setup (avr zeroQuot) imu leftMove rightMove).channel side).Within (avr zeroQuot) M 0
      (sideEvents (avr zeroQuot) side (setup (avr zeroQuot) imu leftMove rightMove) acts)) :
    ExactTicks zeroQuot side (setup (avr zeroQuot) imu leftMove rightMove) acts ∧
      ∀ app out, Steps.run (step (avr zeroQuot)) (setup (avr zeroQuot) imu leftMove rightMove) acts =
        some (app, out) → (app.channel side).pid.integralTerm.natAbs ≤ W := by
  have hspeed : ∀ as, ∀ e ∈ sideEvents (avr zeroQuot) side
      (setup (avr zeroQuot) imu leftMove rightMove) as, e.SpeedFits := by
    intro as ev hev
    obtain ⟨_, a, _, u, _, _, _, rfl⟩ := Steps.mem_labels hev
    exact sideEvent_speedFits zeroQuot side u a
  have hlags := lags_setup zeroQuot imu leftMove rightMove side
  have hgoverned := governed_setup zeroQuot (S := S) hM hW imu leftMove rightMove side
  have hM' : 2 * M ≤ 32767 := by omega
  constructor
  · rintro pre e post rfl app out hrun hdue hen
    have hsplit : sideEvents (avr zeroQuot) side (setup (avr zeroQuot) imu leftMove rightMove)
        (pre ++ .pid e :: post) =
        sideEvents (avr zeroQuot) side (setup (avr zeroQuot) imu leftMove rightMove) pre ++
          .tick (e.move side) :: sideEvents (avr zeroQuot) side (app.pidTask (avr zeroQuot) e) post := by
      rw [sideEvents, Steps.labels_append hrun,
        Steps.labels_cons (show step (avr zeroQuot) app (.pid e) = some (_, []) from rfl)]
      rw [show sideEvent (avr zeroQuot) side app (.pid e) = .tick (e.move side) from if_pos hdue]
      rfl
    rw [hsplit] at hmodest hwithin
    obtain ⟨hbefore, hthere⟩ := hwithin.append
    have hgoverned' := Channel.governed_run _ hlags hgoverned (hspeed pre)
      (fun ev hev => hmodest ev (List.mem_append_left _ hev)) hbefore hS hM'
    have hlags' := Channel.lags_run zeroQuot
      (sideEvents (avr zeroQuot) side (setup (avr zeroQuot) imu leftMove rightMove) pre) hlags
    rw [← channel_run (avr zeroQuot) hrun side] at hgoverned' hlags' hthere
    exact Channel.exactTick_of_governed hlags' hgoverned' (hthere.1 rfl hen) hS hM'
  · intro app out hrun
    have hend := Channel.governed_run _ hlags hgoverned (hspeed acts) hmodest hwithin hS hM'
    rw [← channel_run (avr zeroQuot) hrun side] at hend
    exact hend.integralTerm

/-- An integral gain is sent to a robot at rest, which is then pushed ahead of its setpoint. -/
def tuned : List Action :=
  typed (Env.quiet 10) (ascii "u 30:10:2:10\rm 600 -600\r") ++
    [.pid ⟨40, 40, 19, -19⟩, .pid ⟨80, 80, 22, -22⟩, .pid ⟨120, 120, 90, -90⟩]

theorem no_windup_tuned :
    ExactTicks (fun _ => 0) .left (setup (avr fun _ => 0) false 0 0) tuned ∧
      ∃ app out, Steps.run (step (avr fun _ => 0)) (setup (avr fun _ => 0) false 0 0) tuned =
        some (app, out) ∧ (app.channel .left).pid.integralTerm.natAbs ≤ 11000 := by
  obtain ⟨hexact, hterm⟩ := no_windup (fun _ => 0) false 0 0 20 100 11000 (by decide) (by decide)
    (by decide) .left tuned (by decide +kernel) (by decide +kernel)
  have hrun : (Steps.run (step (avr fun _ => 0)) (setup (avr fun _ => 0) false 0 0) tuned).isSome =
      true := by
    decide +kernel
  obtain ⟨⟨app, out⟩, hr⟩ := Option.isSome_iff_exists.mp hrun
  exact ⟨hexact, app, out, hr, hterm app out hr⟩

end App

end AndinoFirmware
