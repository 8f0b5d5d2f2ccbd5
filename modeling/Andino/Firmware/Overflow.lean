import Andino.Firmware.Channel
import Andino.Firmware.Command

/-!
# Overflow in the controllers

At the compiled-in gains, a computation stays within its types as long as its input
differs from the last one by at most 3276: ten times that is the largest product a
16-bit `int` holds. Wheels that move by at most half of it between two ticks meet this,
but for one path: the displacement that piles up over ticks that find the controller
disabled and do not store the count. `Follows` separates this stale part from the
travel since the last tick.
-/
namespace AndinoFirmware

open CArith CString

namespace Pid

/-- The sum that is divided, over the integers. -/
def exactSum (p : Pid) (x : Int) : Int :=
  p.kp * (p.setpoint - x) - p.kd * (x - p.lastInput) + p.integralTerm

/-- Every intermediate of a computation with the input `x` is within its type. -/
structure InRange (p : Pid) (x : Int) : Prop where
  input : Fits 16 x
  error : Fits 16 (p.setpoint - x)
  proportional : Fits 32 (p.kp * (p.setpoint - x))
  difference : Fits 16 (x - p.lastInput)
  derivative : Fits 16 (p.kd * (x - p.lastInput))
  partialSum : Fits 32 (p.kp * (p.setpoint - x) - p.kd * (x - p.lastInput))
  sum : Fits 32 (p.exactSum x)
  quotient : Fits 32 ((p.exactSum x).tdiv p.ko)
  output : Fits 32 ((p.exactSum x).tdiv p.ko + p.lastOutput)
  increment : Fits 32 (p.ki * (p.setpoint - x))
  integral : Fits 16 (p.integralTerm + p.ki * (p.setpoint - x))

/-- A controller as the application sets it up and as its computations leave it. -/
structure Tame (p : Pid) : Prop where
  gains : p.gains = ⟨30, 10, 0, 10⟩
  limits : p.limits = (-255, 255)
  integralTerm : p.integralTerm = 0
  lastOutput : p.lastOutput.natAbs ≤ 255
  setpoint : p.setpoint.natAbs ≤ 1092

variable {t : Target}

theorem Tame.inRange {p : Pid} {x : Int} (h : p.Tame) (hx : x.natAbs ≤ 3276)
    (hdiff : (x - p.lastInput).natAbs ≤ 3276) : p.InRange x := by
  obtain ⟨hgains, -, hint, hout, hset⟩ := h
  obtain ⟨hkp, hkd, hki, hko⟩ := Gains.mk.inj hgains
  have hx' : -3276 ≤ x ∧ x ≤ 3276 := by omega
  have hdiff' : -3276 ≤ x - p.lastInput ∧ x - p.lastInput ≤ 3276 := by omega
  have hset' : -1092 ≤ p.setpoint ∧ p.setpoint ≤ 1092 := by omega
  have hout' : -255 ≤ p.lastOutput ∧ p.lastOutput ≤ 255 := by omega
  have hsum : p.exactSum x = 30 * (p.setpoint - x) - 10 * (x - p.lastInput) := by
    rw [exactSum, hkp, hkd, hint, add_zero]
  have hsum' : -163800 ≤ p.exactSum x ∧ p.exactSum x ≤ 163800 := by
    rw [hsum]
    omega
  have hquot : -16380 ≤ (p.exactSum x).tdiv 10 ∧ (p.exactSum x).tdiv 10 ≤ 16380 := by
    have habs : ((p.exactSum x).tdiv 10).natAbs = (p.exactSum x).natAbs / 10 := Int.natAbs_tdiv _ 10
    omega
  clear hx hdiff hset hout hgains hsum
  constructor <;> simp only [fits_sixteen, fits_thirtyTwo, hkp, hkd, hki, hko, hint] <;> omega

/-- A computation within its types is the computation over the integers. -/
theorem InRange.compute_eq (zeroQuot : Int → Int) {p : Pid} {n x : Int} (out : Int)
    (h : p.InRange x) (hin : p.input (avr zeroQuot) n = x) (hko : p.ko ≠ 0)
    (hlim : p.limits = (-255, 255)) :
    (∃ m, ((p.rebase 0).compute exact x out).pid = (p.compute (avr zeroQuot) n out).pid.rebase m) ∧
      ((p.rebase 0).compute exact x out).output = (p.compute (avr zeroQuot) n out).output := by
  have hexact : (p.rebase 0).input exact x = x := Int.sub_zero x
  have herror : p.error (avr zeroQuot) n = p.setpoint - x := by
    rw [Pid.error, hin]
    exact (avr zeroQuot).int_of_fits _ h.error
  have hnum : p.numerator (avr zeroQuot) n = p.exactSum x := by
    rw [numerator, herror, hin, (avr zeroQuot).int_of_fits _ h.difference,
      (avr zeroQuot).int_of_fits _ h.derivative, (avr zeroQuot).long_of_fits _ h.proportional,
      (avr zeroQuot).long_of_fits _ h.partialSum]
    exact (avr zeroQuot).long_of_fits _ h.sum
  have hraw : p.rawOutput (avr zeroQuot) n = (p.exactSum x).tdiv p.ko + p.lastOutput := by
    rw [rawOutput, hnum, (avr zeroQuot).quot_of_ne_zero _ _ hko,
      (avr zeroQuot).long_of_fits _ h.quotient]
    exact (avr zeroQuot).long_of_fits _ h.output
  have hraw' : (p.rebase 0).rawOutput exact x = (p.exactSum x).tdiv p.ko + p.lastOutput := by
    rw [rawOutput, numerator, Pid.error, hexact]
    rfl
  apply compute_agree out (hexact.trans hin.symm) (hraw'.trans hraw.symm)
  · rw [herror, Pid.error, hexact, (avr zeroQuot).long_of_fits _ h.increment]
    have hfit : Fits 32 (p.integralTerm + p.ki * (p.setpoint - x)) := by
      have h16 := (fits_sixteen _).mp h.integral
      rw [fits_thirtyTwo]
      omega
    rw [(avr zeroQuot).long_of_fits _ hfit, (avr zeroQuot).int_of_fits _ h.integral]
    rfl
  · intro y hy
    obtain ⟨hmin, hmax⟩ := Prod.mk.inj hlim
    refine ((avr zeroQuot).int_of_fits y ?_).symm
    rw [fits_sixteen]
    omega

/-- The input of a computation is what the next one finds as the last. -/
theorem lastInput_compute (p : Pid) (n out : Int) :
    (p.compute t n out).pid.lastInput = if p.enabled then p.input t n else 0 := by
  cases hen : p.enabled with
  | false =>
    rw [compute_disabled t n out hen]
    by_cases hz : p.lastInput = 0
    · simp [hz]
    · simp [hz, reset]
  | true =>
    by_cases hmax : p.rawOutput t n ≥ p.outputMax
    · rw [compute_max t out hen hmax]
      rfl
    · by_cases hmin : p.rawOutput t n ≤ p.outputMin
      · rw [compute_min t out hen hmax hmin]
        rfl
      · rw [compute_between t out hen hmax hmin]
        rfl

theorem tame_reset {p : Pid} (n : Int) (h : p.Tame) : (p.reset n).Tame :=
  ⟨h.gains, h.limits, rfl, Nat.zero_le _, Nat.zero_le _⟩

theorem tame_compute {p : Pid} (n out : Int) (h : p.Tame) : (p.compute t n out).pid.Tame := by
  obtain ⟨hmin, hmax⟩ := Prod.mk.inj h.limits
  obtain ⟨-, -, hki, -⟩ := Gains.mk.inj h.gains
  cases hen : p.enabled with
  | false =>
    rw [compute_disabled t n out hen]
    dsimp only
    split
    · exact tame_reset n h
    · exact h
  | true =>
    by_cases hlarge : p.rawOutput t n ≥ p.outputMax
    · rw [compute_max t out hen hlarge]
      refine ⟨h.gains, h.limits, h.integralTerm, ?_, h.setpoint⟩
      change p.outputMax.natAbs ≤ 255
      omega
    · by_cases hsmall : p.rawOutput t n ≤ p.outputMin
      · rw [compute_min t out hen hlarge hsmall]
        refine ⟨h.gains, h.limits, h.integralTerm, ?_, h.setpoint⟩
        change p.outputMin.natAbs ≤ 255
        omega
      · rw [compute_between t out hen hlarge hsmall]
        refine ⟨h.gains, h.limits, ?_, ?_, h.setpoint⟩
        · rw [h.integralTerm, hki, zero_mul, t.long_of_fits 0 (by decide), add_zero,
            t.long_of_fits 0 (by decide)]
          exact t.int_of_fits 0 (by decide)
        · change (p.rawOutput t n).natAbs ≤ 255
          omega

end Pid

namespace Channel

def Event.isTick : Event → Bool
  | .tick _ => true
  | _ => false

def Event.isTuning : Event → Bool
  | .setTunings _ _ => true
  | _ => false

/-- The speeds that an `int` of the boards holds. -/
def Event.SpeedFits : Event → Prop
  | .setSpeed _ speed _ => Fits 16 speed
  | _ => True

/-- The events up to the next tick, with it. -/
def untilTick : List Event → List Event
  | [] => []
  | e :: es => if e.isTick then [e] else e :: untilTick es

/-- From every moment to the next tick, the wheel moves by at most `B`. The moments between two
ticks count as well as the ticks, because a command there stores the count, and the next tick
then finds the movement since the command. -/
def Slow (B : Nat) (es : List Event) : Prop :=
  ∀ rest ∈ es.tails, (untilTick rest).any Event.isTick = true →
    (travel (untilTick rest)).natAbs ≤ B

instance (B : Nat) (es : List Event) : Decidable (Slow B es) :=
  inferInstanceAs (Decidable (∀ rest ∈ es.tails, _ → _))

/-- Every tick that finds the controller disabled, and with nothing to reset, finds the
wheel at most `K` away from where the count was last stored, `d` having been that
displacement before. -/
def Near (t : Target) (K : Nat) (c : Channel) (d : Int) : List Event → Prop
  | [] => True
  | e :: es =>
    (e.isTick = true → c.pid.enabled = false → c.pid.lastInput = 0 → (d + e.moved).natAbs ≤ K) ∧
      Near t K (c.step t e) (if c.stores e then 0 else d + e.moved) es

instance decidableNear (t : Target) (K : Nat) :
    ∀ (c : Channel) (d : Int) (es : List Event), Decidable (c.Near t K d es)
  | _, _, [] => isTrue trivial
  | c, d, e :: es =>
    have := decidableNear t K (c.step t e) (if c.stores e then 0 else d + e.moved) es
    inferInstanceAs (Decidable (_ ∧ _))

theorem untilTick_append {mid : List Event} (h : ∀ e ∈ mid, e.isTick = false) (es : List Event) :
    untilTick (mid ++ es) = mid ++ untilTick es := by
  induction mid with
  | nil => rfl
  | cons e mid ih =>
    have he := h e List.mem_cons_self
    have hrest := ih (fun f hf => h f (List.mem_cons_of_mem _ hf))
    simp [untilTick, he, hrest]

/-- A piece of a run up to a tick. -/
theorem Slow.travel_le {B : Nat} {pre mid post : List Event} {ticks : Int}
    (h : Slow B (pre ++ mid ++ .tick ticks :: post)) (hmid : ∀ f ∈ mid, f.isTick = false) :
    (travel (mid ++ [.tick ticks])).natAbs ≤ B := by
  have huntil : untilTick (mid ++ .tick ticks :: post) = mid ++ [.tick ticks] :=
    untilTick_append hmid _
  rw [← huntil]
  apply h (mid ++ .tick ticks :: post)
  · rw [List.mem_tails, List.append_assoc]
    exact List.suffix_append _ _
  · rw [huntil]
    simp [Event.isTick]

theorem Near.append {t : Target} {K : Nat} {c : Channel} {d : Int} {es fs : List Event}
    (h : c.Near t K d (es ++ fs)) : c.Near t K d es := by
  induction es generalizing c d with
  | nil => trivial
  | cons e es ih => exact ⟨h.1, ih h.2⟩

theorem travel_concat (es : List Event) (e : Event) : travel (es ++ [e]) = travel es + e.moved := by
  simp [travel]

/-- The displacement `d` since the stored count is a stale part, which found the last input
at zero, and the travel since the last tick or store. -/
def Follows (B : Nat) (done : List Event) (c : Channel) (d : Int) : Prop :=
  ∃ pre mid stale, done = pre ++ mid ∧ (∀ e ∈ mid, e.isTick = false) ∧ d = stale + travel mid ∧
    stale.natAbs ≤ 3276 - 2 * B ∧ (stale ≠ 0 → c.pid.lastInput = 0) ∧
    c.pid.lastInput.natAbs ≤ 3276 - B

/-- What holds of one side along a run at the compiled-in gains. -/
structure Contained (B : Nat) (done : List Event) (c : Channel) (d : Int) : Prop where
  lags : c.Lags d
  tame : c.pid.Tame
  follows : Follows B done c d

theorem tame_step {t : Target} {c : Channel} (e : Event) (h : c.pid.Tame)
    (htuning : e.isTuning = false) (hspeed : e.SpeedFits) : (c.step t e).pid.Tame := by
  have hset : ∀ speed, Fits 16 speed →
      (t.int (speed.tdiv Constants.kPidRate)).natAbs ≤ 1092 := by
    intro speed hfit
    have hle := Constants.tdiv_kPidRate_le hfit
    rw [t.int_of_fits _ (by rw [fits_sixteen]; omega)]
    exact hle
  cases e with
  | nothing => exact h
  | move ticks => exact h
  | setSpeed ticks speed idle =>
    cases idle with
    | false => exact ⟨h.gains, h.limits, h.integralTerm, h.lastOutput, hset speed hspeed⟩
    | true => exact ⟨h.gains, h.limits, rfl, Nat.zero_le _, hset speed hspeed⟩
  | setPwm ticks pwm => exact ⟨h.gains, h.limits, rfl, Nat.zero_le _, Nat.zero_le _⟩
  | resetEncoder ticks ticksAfterReset => exact Pid.tame_reset _ h
  | setTunings ticks g => exact absurd htuning (by simp [Event.isTuning])
  | tick ticks => exact Pid.tame_compute _ 0 h
  | stop => exact ⟨h.gains, h.limits, h.integralTerm, h.lastOutput, h.setpoint⟩

/-- Without a tick or a store the travel grows. -/
theorem Follows.keep {B : Nat} {done : List Event} {c c' : Channel} {d : Int} {e : Event}
    (h : Follows B done c d) (he : e.isTick = false) (hlast : c'.pid.lastInput = c.pid.lastInput) :
    Follows B (done ++ [e]) c' (d + e.moved) := by
  obtain ⟨pre, mid, stale, rfl, hmid, rfl, hle, hzero, hin⟩ := h
  refine ⟨pre, mid ++ [e], stale, List.append_assoc _ _ _, ?_, ?_, hle, ?_, ?_⟩
  · intro f hf
    rcases List.mem_append.mp hf with hf | hf
    · exact hmid f hf
    · rw [List.mem_singleton.mp hf]
      exact he
  · rw [travel_concat, add_assoc]
  · rwa [hlast]
  · rwa [hlast]

/-- The count has just been stored, or not been stored by a tick. -/
theorem follows_tick {B : Nat} {c : Channel} {stale : Int} (done : List Event)
    (hle : stale.natAbs ≤ 3276 - 2 * B) (hzero : stale ≠ 0 → c.pid.lastInput = 0)
    (hin : c.pid.lastInput.natAbs ≤ 3276 - B) : Follows B done c stale :=
  ⟨done, [], stale, (List.append_nil _).symm, by simp, (Int.add_zero _).symm, hle, hzero, hin⟩

/-- The input of a tick is small, and so is its distance from the last one. -/
theorem Follows.input_le {B : Nat} (hB : B ≤ 1638) {done es : List Event} {c : Channel} {d ticks : Int}
    (h : Follows B done c d) (hslow : Slow B (done ++ .tick ticks :: es)) :
    (d + ticks).natAbs ≤ 3276 - B ∧ (d + ticks - c.pid.lastInput).natAbs ≤ 3276 := by
  obtain ⟨pre, mid, stale, rfl, hmid, rfl, hle, hzero, hin⟩ := h
  have htravel := hslow.travel_le hmid
  rw [travel_concat] at htravel
  simp only [Event.moved] at htravel
  refine ⟨by omega, ?_⟩
  by_cases hs : stale = 0
  · omega
  · rw [hzero hs]
    omega

theorem follows_step (zeroQuot : Int → Int) {B : Nat} (hB : B ≤ 1638) {done es : List Event}
    {c : Channel} {d : Int} {e : Event} (h : Contained B done c d) (hslow : Slow B (done ++ e :: es))
    (hnear : e.isTick = true → c.pid.enabled = false → c.pid.lastInput = 0 →
      (d + e.moved).natAbs ≤ 3276 - 2 * B) (htuning : e.isTuning = false) :
    Follows B (done ++ [e]) (c.step (avr zeroQuot) e) (if c.stores e then 0 else d + e.moved) := by
  cases e with
  | nothing => exact h.follows.keep rfl rfl
  | move ticks => exact h.follows.keep rfl rfl
  | setSpeed ticks speed idle =>
    cases idle with
    | false => exact h.follows.keep rfl rfl
    | true => exact follows_tick _ (Nat.zero_le _) (fun hne => absurd rfl hne) (Nat.zero_le _)
  | setPwm ticks pwm =>
    exact follows_tick _ (Nat.zero_le _) (fun hne => absurd rfl hne) (Nat.zero_le _)
  | resetEncoder ticks ticksAfterReset =>
    exact follows_tick _ (Nat.zero_le _) (fun hne => absurd rfl hne) (Nat.zero_le _)
  | setTunings ticks g => exact absurd htuning (by simp [Event.isTuning])
  | stop => exact h.follows.keep rfl rfl
  | tick ticks =>
    have hlast : (c.step (avr zeroQuot) (.tick ticks)).pid.lastInput = _ :=
      Pid.lastInput_compute c.pid ((c.move (avr zeroQuot) ticks).count (avr zeroQuot)) 0
    have hle := (h.follows.input_le hB hslow).1
    cases hen : c.pid.enabled with
    | true =>
      -- the displacement becomes the last input
      have hst : c.stores (.tick ticks) = true := by simp [stores, hen]
      rw [hen, if_pos rfl, h.lags.input_eq zeroQuot ticks,
        wrap_of_fits 16 (by decide) _ ((fits_sixteen _).mpr (by omega))] at hlast
      rw [if_pos hst]
      exact follows_tick _ (Nat.zero_le _) (fun hne => absurd rfl hne) (by rw [hlast]; exact hle)
    | false =>
      rw [hen, if_neg (by simp)] at hlast
      by_cases hz : c.pid.lastInput = 0
      · -- nothing is reset, and the displacement stays
        have hst : ¬ c.stores (.tick ticks) = true := by simp [stores, hen, hz]
        rw [if_neg hst]
        exact follows_tick _ (hnear rfl hen hz) (fun _ => hlast) (by rw [hlast]; exact Nat.zero_le _)
      · have hst : c.stores (.tick ticks) = true := by simp [stores, hz]
        rw [if_pos hst]
        exact follows_tick _ (Nat.zero_le _) (fun hne => absurd rfl hne)
          (by rw [hlast]; exact Nat.zero_le _)

theorem contained_run (zeroQuot : Int → Int) {B : Nat} (hB : B ≤ 1638) {done rest : List Event}
    (es : List Event) {c : Channel} {d : Int} (h : Contained B done c d)
    (hslow : Slow B (done ++ (es ++ rest))) (hnear : c.Near (avr zeroQuot) (3276 - 2 * B) d es)
    (htuning : ∀ e ∈ es, e.isTuning = false) (hspeed : ∀ e ∈ es, e.SpeedFits) :
    Contained B (done ++ es) (es.foldl (step (avr zeroQuot)) c)
      (c.sinceStored (avr zeroQuot) d es) := by
  induction es generalizing c d done with
  | nil =>
    rw [List.append_nil]
    exact h
  | cons e es ih =>
    have htune := htuning e List.mem_cons_self
    have hstep : Contained B (done ++ [e]) (c.step (avr zeroQuot) e)
        (if c.stores e then 0 else d + e.moved) :=
      ⟨lags_step zeroQuot e h.lags, tame_step e h.tame htune (hspeed e List.mem_cons_self),
        follows_step zeroQuot hB h hslow hnear.1 htune⟩
    have hsplit : done ++ e :: es = (done ++ [e]) ++ es := by simp
    have hslow' : Slow B ((done ++ [e]) ++ (es ++ rest)) := by simpa using hslow
    rw [hsplit]
    exact ih hstep hslow' hnear.2 (fun f hf => htuning f (List.mem_cons_of_mem _ hf))
      (fun f hf => hspeed f (List.mem_cons_of_mem _ hf))

/-- The computation of a tick is that over the integers, with the true displacement `x` as
its input. -/
structure ExactTick (zeroQuot : Int → Int) (c : Channel) (ticks x : Int) : Prop where
  input : c.pid.input (avr zeroQuot) ((c.move (avr zeroQuot) ticks).count (avr zeroQuot)) = x
  inRange : c.pid.InRange x
  pid : ∃ m, ((c.pid.rebase 0).compute exact x 0).pid =
    (c.computation (avr zeroQuot) ticks).pid.rebase m
  output : ((c.pid.rebase 0).compute exact x 0).output = (c.computation (avr zeroQuot) ticks).output

theorem Contained.exactTick (zeroQuot : Int → Int) {B : Nat} (hB : B ≤ 1638) {done es : List Event}
    {c : Channel} {d ticks : Int} (h : Contained B done c d)
    (hslow : Slow B (done ++ .tick ticks :: es)) : c.ExactTick zeroQuot ticks (d + ticks) := by
  obtain ⟨hx, hdiff⟩ := h.follows.input_le hB hslow
  have hrange := h.tame.inRange (by omega : (d + ticks).natAbs ≤ 3276) hdiff
  have hin := (h.lags.input_eq zeroQuot ticks).trans (wrap_of_fits 16 (by decide) _ hrange.input)
  have hko : c.pid.ko ≠ 0 := by
    rw [(Gains.mk.inj h.tame.gains).2.2.2]
    decide
  obtain ⟨hpid, hout⟩ := hrange.compute_eq zeroQuot 0 hin hko h.tame.limits
  exact ⟨hin, hrange, hpid, hout⟩

end Channel

namespace App

theorem sideEvent_speedFits (zeroQuot : Int → Int) (side : Side) (app : App) (a : Action) :
    (sideEvent (avr zeroQuot) side app a).SpeedFits := by
  cases he : sideEvent (avr zeroQuot) side app a with
  | setSpeed ticks speed idle =>
    obtain ⟨s, rfl⟩ := sideEvent_argument (avr zeroQuot) (congrArg Channel.Event.argument he)
    exact wrap_fits 16 (by decide) _
  | _ => trivial

theorem contained_setup (zeroQuot : Int → Int) (B : Nat) (imu : Bool) (leftMove rightMove : Int)
    (side : Side) :
    Channel.Contained B [] ((setup (avr zeroQuot) imu leftMove rightMove).channel side) 0 := by
  refine ⟨lags_setup zeroQuot imu leftMove rightMove side, ?_, ?_⟩
  · cases side <;> exact ⟨rfl, rfl, rfl, Nat.zero_le _, Nat.zero_le _⟩
  · cases side <;>
      exact Channel.follows_tick [] (Nat.zero_le _) (fun hne => absurd rfl hne) (Nat.zero_le _)

/-- Every tick of a run that finds the controller of a side enabled computes as over the
integers, from the displacement since the controller last stored a count. -/
def ExactTicks (zeroQuot : Int → Int) (side : Side) (start : App) (acts : List Action) : Prop :=
  ∀ pre e post, acts = pre ++ .pid e :: post →
    ∀ app out, Steps.run (step (avr zeroQuot)) start pre = some (app, out) → app.PidDue e →
      (app.channel side).pid.enabled = true →
      (app.channel side).ExactTick zeroQuot (e.move side)
        ((start.channel side).sinceStored (avr zeroQuot) 0
          (sideEvents (avr zeroQuot) side start pre) + e.move side)

/-- In every run without an accepted `u` in which a wheel moves by at most `B` between
ticks: if each tick that finds the controller disabled, with nothing to reset, finds the
wheel within `3276 - 2 * B` of the stored count, no computation overflows. -/
theorem exactTicks_of_near (zeroQuot : Int → Int) (imu : Bool) (leftMove rightMove : Int) (B : Nat)
    (hB : B ≤ 1638) (side : Side) (acts : List Action)
    (htuning : ∀ e ∈ sideEvents (avr zeroQuot) side (setup (avr zeroQuot) imu leftMove rightMove) acts,
      e.isTuning = false)
    (hslow : Channel.Slow B
      (sideEvents (avr zeroQuot) side (setup (avr zeroQuot) imu leftMove rightMove) acts))
    (hnear : ((setup (avr zeroQuot) imu leftMove rightMove).channel side).Near (avr zeroQuot)
      (3276 - 2 * B) 0
      (sideEvents (avr zeroQuot) side (setup (avr zeroQuot) imu leftMove rightMove) acts)) :
    ExactTicks zeroQuot side (setup (avr zeroQuot) imu leftMove rightMove) acts := by
  rintro pre e post rfl app out hrun hdue -
  have hsplit : sideEvents (avr zeroQuot) side (setup (avr zeroQuot) imu leftMove rightMove)
      (pre ++ .pid e :: post) =
      sideEvents (avr zeroQuot) side (setup (avr zeroQuot) imu leftMove rightMove) pre ++
        .tick (e.move side) :: sideEvents (avr zeroQuot) side (app.pidTask (avr zeroQuot) e) post := by
    rw [sideEvents, Steps.labels_append hrun,
      Steps.labels_cons (show step (avr zeroQuot) app (.pid e) = some (_, []) from rfl)]
    rw [show sideEvent (avr zeroQuot) side app (.pid e) = .tick (e.move side) from if_pos hdue]
    rfl
  rw [hsplit] at htuning hslow hnear
  have hspeed : ∀ ev ∈ sideEvents (avr zeroQuot) side
      (setup (avr zeroQuot) imu leftMove rightMove) pre, ev.SpeedFits := by
    intro ev hev
    obtain ⟨_, a, _, u, _, _, _, rfl⟩ := Steps.mem_labels hev
    exact sideEvent_speedFits zeroQuot side u a
  have hcontained := Channel.contained_run zeroQuot hB
    (sideEvents (avr zeroQuot) side (setup (avr zeroQuot) imu leftMove rightMove) pre)
    (contained_setup zeroQuot B imu leftMove rightMove side) hslow hnear.append
    (fun ev hev => htuning ev (List.mem_append_left _ hev)) hspeed
  rw [← channel_run (avr zeroQuot) hrun side, List.nil_append] at hcontained
  exact hcontained.exactTick zeroQuot hB hslow

/-- A wheel that turns at the largest speed, one way and back. -/
def backAndForth : List Action :=
  typed (Env.quiet 10) (ascii "m 1800 0\r") ++
    [.pid ⟨40, 40, 1638, 0⟩, .autoStop ⟨40, 40⟩, .pid ⟨80, 80, -1638, 0⟩, .autoStop ⟨80, 80⟩]

theorem exactTicks_backAndForth :
    ExactTicks (fun _ => 0) .left (setup (avr fun _ => 0) false 0 0) backAndForth :=
  exactTicks_of_near (fun _ => 0) false 0 0 1638 (by decide) .left backAndForth (by decide +kernel)
    (by decide +kernel) (by decide +kernel)

/-- A wheel that is pushed while its controller is disabled. -/
def pushed : List Action :=
  [.pid ⟨40, 40, 1638, 0⟩, .autoStop ⟨40, 40⟩, .pid ⟨80, 80, 1638, 0⟩, .autoStop ⟨80, 80⟩,
    .pid ⟨120, 120, 1638, 0⟩, .autoStop ⟨120, 120⟩] ++
    typed (Env.quiet 130) (ascii "m 30 30\r")

/-- The next tick finds an input of three times 1638, and its derivative part overflows. -/
theorem exactTicks_pushed :
    ¬ ∀ (B : Nat) (acts : List Action), B ≤ 1638 →
      (∀ e ∈ sideEvents (avr fun _ => 0) .left (setup (avr fun _ => 0) false 0 0) acts,
        e.isTuning = false) →
      Channel.Slow B (sideEvents (avr fun _ => 0) .left (setup (avr fun _ => 0) false 0 0) acts) →
      ExactTicks (fun _ => 0) .left (setup (avr fun _ => 0) false 0 0) acts := by
  intro h
  have hexact := h 1638 (pushed ++ [.pid ⟨160, 160, 0, 0⟩]) (by decide) (by decide +kernel)
    (by decide +kernel)
  have hrun : (Steps.run (step (avr fun _ => 0)) (setup (avr fun _ => 0) false 0 0) pushed).any
      (fun r => decide (r.1.PidDue ⟨160, 160, 0, 0⟩ ∧ r.1.leftPid.enabled = true ∧
        r.1.leftPid.kd = 10 ∧ r.1.leftPid.lastInput = 0)) = true := by decide +kernel
  obtain ⟨⟨app, out⟩, hrun, happ⟩ := Option.any_eq_true _ _ |>.mp hrun
  obtain ⟨hdue, hen, hkd, hlast⟩ := of_decide_eq_true happ
  have hderivative := (hexact pushed ⟨160, 160, 0, 0⟩ [] rfl app out hrun hdue hen).inRange.derivative
  have hdisplacement : ((setup (avr fun _ => 0) false 0 0).channel .left).sinceStored (avr fun _ => 0) 0
      (sideEvents (avr fun _ => 0) .left (setup (avr fun _ => 0) false 0 0) pushed) = 4914 := by
    decide +kernel
  rw [hdisplacement, show (app.channel .left).pid.kd = 10 from hkd,
    show (app.channel .left).pid.lastInput = 0 from hlast] at hderivative
  exact absurd hderivative (by decide)

end App

end AndinoFirmware
