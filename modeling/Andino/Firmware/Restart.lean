import Andino.Firmware.Channel
import Andino.Firmware.Command

/-!
# Restarting the controllers

What a controller brings along when an `m` enables it again. While it is disabled,
a tick resets it as long as its last input is not zero, and never after: wheel
movement behind the last such reset is fed back by the first computation, and a
controller that was stopped with a zero input keeps its last output. Both theorems
are about a `Restart`: a run up to an enabling `m`, and on to the next tick.
-/
namespace AndinoFirmware

open CArith CString

namespace App

/-- A run from `setup` in which `command` takes the controllers from disabled to enabled,
and `tick` is the first tick behind it. -/
structure Restart (t : Target) (imu : Bool) (leftMove rightMove : Int) where
  before : List Action
  command : Action
  between : List Action
  tick : PidEnv
  stopped : App
  started : App
  ready : App
  run_before : ∃ out, Steps.run (step t) (setup t imu leftMove rightMove) before = some (stopped, out)
  run_command : ∃ out, step t stopped command = some (started, out)
  run_between : ∃ out, Steps.run (step t) started between = some (ready, out)
  disabled : ∀ side, (stopped.channel side).pid.enabled = false
  enabled : ∀ side, (started.channel side).pid.enabled = true
  noTick : ∀ side ticks, Channel.Event.tick ticks ∉ sideEvents t side started between
  due : ready.PidDue tick
  computes : ∀ side, (ready.channel side).pid.enabled = true

namespace Restart

variable {t : Target} {imu : Bool} {leftMove rightMove : Int}

theorem run_ready (r : Restart t imu leftMove rightMove) :
    ∃ out, Steps.run (step t) (setup t imu leftMove rightMove) (r.before ++ r.command :: r.between) =
      some (r.ready, out) := by
  obtain ⟨o₁, h₁⟩ := r.run_before
  obtain ⟨o₂, h₂⟩ := r.run_command
  obtain ⟨o₃, h₃⟩ := r.run_between
  exact ⟨_, Steps.run_join h₁ (Steps.run_step h₂ h₃)⟩

end Restart

end App

/-! ## The first input -/

namespace Channel

/-- Ticks and motor commands. -/
def Event.mark : Event → Bool
  | .tick _ => true
  | .setSpeed _ _ _ => true
  | .setPwm _ _ => true
  | _ => false

/-- The displacement since the last tick or motor command, or since the start. -/
def sinceMark (es : List Event) : Int :=
  es.foldl (fun d e => if e.mark then 0 else d + e.moved) 0

/-- Where the wheel was at the last tick or motor command: it is at `x`, and the last one
so far was at `m`. -/
def markedAt (x m : Int) : List Event → Int
  | [] => m
  | e :: es => markedAt (x + e.moved) (if e.mark then x + e.moved else m) es

theorem sinceMark_eq (x m : Int) (es : List Event) :
    es.foldl (fun d e => if e.mark then 0 else d + e.moved) (x - m) =
      x + travel es - markedAt x m es := by
  induction es generalizing x m with
  | nil => simp [markedAt, travel]
  | cons e es ih =>
    have hd : (if e.mark then 0 else x - m + e.moved) =
        (x + e.moved) - (if e.mark then x + e.moved else m) := by
      split <;> omega
    rw [List.foldl_cons, markedAt, hd, ih]
    simp only [travel, List.map_cons, List.sum_cons]
    omega

end Channel

namespace App

namespace Restart

variable {t : Target} {imu : Bool} {leftMove rightMove : Int}

/-- The input that the first computation uses. -/
def input (r : Restart t imu leftMove rightMove) (side : Side) : Int :=
  (r.ready.channel side).pid.input t
    (((r.ready.channel side).move t (r.tick.move side)).count t)

/-- The displacement at the first computation since the last tick or motor command that
precedes the enabling one. -/
def displacement (r : Restart t imu leftMove rightMove) (side : Side) : Int :=
  Channel.sinceMark (sideEvents t side (setup t imu leftMove rightMove) r.before) +
    Channel.travel (sideEvents t side r.stopped (r.command :: r.between)) + r.tick.move side

/-- The displacement at the first computation since the controller last stored a count. -/
def sinceStored (r : Restart t imu leftMove rightMove) (side : Side) : Int :=
  ((setup t imu leftMove rightMove).channel side).sinceStored t 0
    (sideEvents t side (setup t imu leftMove rightMove) (r.before ++ r.command :: r.between)) +
    r.tick.move side

/-- Where the wheel was when the controller last stored a count before the first computation. -/
def storedAt (r : Restart t imu leftMove rightMove) (side : Side) : Int :=
  ((setup t imu leftMove rightMove).channel side).storedAt t 0 0
    (sideEvents t side (setup t imu leftMove rightMove) (r.before ++ r.command :: r.between))

/-- Where the wheel was at the last tick or motor command that precedes the enabling one. -/
def markedAt (r : Restart t imu leftMove rightMove) (side : Side) : Int :=
  Channel.markedAt 0 0 (sideEvents t side (setup t imu leftMove rightMove) r.before)

/-- The two displacements differ by what the wheel has moved between the two places. -/
theorem displacement_sub (r : Restart t imu leftMove rightMove) (side : Side) :
    r.displacement side - r.sinceStored side = r.storedAt side - r.markedAt side := by
  obtain ⟨out, hbefore⟩ := r.run_before
  have hmark := Channel.sinceMark_eq 0 0
    (sideEvents t side (setup t imu leftMove rightMove) r.before)
  have hstored := Channel.sinceStored_eq t ((setup t imu leftMove rightMove).channel side) 0 0
    (sideEvents t side (setup t imu leftMove rightMove) (r.before ++ r.command :: r.between))
  rw [sub_zero, zero_add] at hmark hstored
  have hsplit : Channel.travel
      (sideEvents t side (setup t imu leftMove rightMove) (r.before ++ r.command :: r.between)) =
      Channel.travel (sideEvents t side (setup t imu leftMove rightMove) r.before) +
        Channel.travel (sideEvents t side r.stopped (r.command :: r.between)) := by
    rw [sideEvents, Steps.labels_append hbefore]
    simp [Channel.travel, sideEvents]
  rw [displacement, Channel.sinceMark, hmark, sinceStored, hstored, hsplit, storedAt, markedAt]
  omega

theorem input_eq (zeroQuot : Int → Int) (r : Restart (avr zeroQuot) imu leftMove rightMove)
    (side : Side) : r.input side = wrap 16 (r.sinceStored side) := by
  obtain ⟨out, hrun⟩ := r.run_ready
  have hlags := Channel.lags_run zeroQuot (sideEvents (avr zeroQuot) side
    (setup (avr zeroQuot) imu leftMove rightMove) (r.before ++ r.command :: r.between))
    (lags_setup zeroQuot imu leftMove rightMove side)
  rw [← channel_run (avr zeroQuot) hrun side] at hlags
  exact hlags.input_eq zeroQuot (r.tick.move side)

end Restart

/-- The first input of a restarted controller is the displacement since the last tick
or motor command before the restart if and only if the wheel was at the same place there
as where the controller last stored a count, modulo the width of `int`. -/
theorem restart_input_iff (zeroQuot : Int → Int) (imu : Bool) (leftMove rightMove : Int)
    (r : Restart (avr zeroQuot) imu leftMove rightMove) (side : Side) :
    r.input side = wrap 16 (r.displacement side) ↔
      (2 ^ 16 : Int) ∣ r.storedAt side - r.markedAt side := by
  rw [r.input_eq zeroQuot side, wrap_eq_wrap_iff, Int.modEq_iff_dvd, r.displacement_sub side]

/-- The states around a command that enables both controllers. -/
def Enabling (stopped started : App) : Prop :=
  (stopped.leftPid.enabled = false ∧ stopped.rightPid.enabled = false) ∧
    started.leftPid.enabled = true ∧ started.rightPid.enabled = true

instance (stopped started : App) : Decidable (Enabling stopped started) :=
  inferInstanceAs (Decidable (_ ∧ _))

/-- A restart whose tick follows at once, by evaluation of its run. -/
theorem exists_restart (t : Target) (acts : List Action) (command : Action) (tick : PidEnv)
    (P : App → App → Prop) [DecidableRel P]
    (h : (Steps.run (step t) (setup t false 0 0) acts).any (fun r => (step t r.1 command).any
      (fun q => Enabling r.1 q.1 ∧ q.1.PidDue tick ∧ P r.1 q.1)) = true) :
    ∃ r : Restart t false 0 0, r.before = acts ∧ r.command = command ∧ r.between = [] ∧
      r.tick = tick ∧ r.ready = r.started ∧ P r.stopped r.started := by
  obtain ⟨⟨stopped, o₁⟩, hrun, h⟩ := Option.any_eq_true _ _ |>.mp h
  obtain ⟨⟨started, o₂⟩, hstep, h⟩ := Option.any_eq_true _ _ |>.mp h
  obtain ⟨⟨⟨hl, hr⟩, hl', hr'⟩, hdue, hP⟩ := of_decide_eq_true h
  have hen : ∀ side, (started.channel side).pid.enabled = true := fun side => by
    cases side
    · exact hl'
    · exact hr'
  refine ⟨⟨acts, command, [], tick, stopped, started, started, ⟨o₁, hrun⟩, ⟨o₂, hstep⟩, ⟨[], rfl⟩,
    fun side => ?_, hen, by simp [sideEvents], hdue, hen⟩, rfl, rfl, rfl, rfl, rfl, hP⟩
  cases side
  · exact hl
  · exact hr

/-- Ten ticks by which a wheel was pushed before the last tick are taken for motion. -/
theorem restart_input_pushed :
    ∃ r : Restart (avr fun _ => 0) false 0 0, r.input .left ≠ wrap 16 (r.displacement .left) := by
  let t := avr fun _ => 0
  let acts : List Action :=
    [.pid ⟨40, 40, 10, 0⟩, .autoStop ⟨40, 40⟩] ++ typed (Env.quiet 50) (ascii "m 60 60")
  obtain ⟨r, hb, hc, hbt, ht, hready, hP⟩ := exists_restart t acts (.byte CR (Env.quiet 50))
    ⟨80, 80, 0, 0⟩
    (fun stopped started =>
      (started.channel .left).pid.input t (((started.channel .left).move t 0).count t) ≠
        wrap 16 (Channel.sinceMark (sideEvents t .left (setup t false 0 0) acts) +
          Channel.travel (sideEvents t .left stopped [.byte CR (Env.quiet 50)]) + 0))
    (by decide +kernel)
  refine ⟨r, ?_⟩
  rw [Restart.input, Restart.displacement, hb, hc, hbt, ht, hready]
  exact hP

end App

/-! ## What is left of the motion before -/

namespace Pid

/-- Nothing is left of an earlier motion. -/
structure Cleared (p : Pid) : Prop where
  lastOutput : p.lastOutput = 0
  lastInput : p.lastInput = 0
  integralTerm : p.integralTerm = 0

/-- A zero input is that of a cleared controller. -/
def Settled (p : Pid) : Prop := p.lastInput = 0 → p.Cleared

instance (p : Pid) : Decidable p.Cleared :=
  decidable_of_iff (p.lastOutput = 0 ∧ p.lastInput = 0 ∧ p.integralTerm = 0)
    ⟨fun h => ⟨h.1, h.2.1, h.2.2⟩, fun h => ⟨h.lastOutput, h.lastInput, h.integralTerm⟩⟩

instance (p : Pid) : Decidable p.Settled := inferInstanceAs (Decidable (_ → _))

theorem cleared_reset (p : Pid) (n : Int) : (p.reset n).Cleared := ⟨rfl, rfl, rfl⟩

/-- Cleared controllers with the same parameters differ in the stored count alone. -/
theorem Cleared.eq_rebase {p q : Pid} (hp : p.Cleared) (hq : q.Cleared) (hg : p.gains = q.gains)
    (hl : p.limits = q.limits) (he : p.enabled = q.enabled) (hs : p.setpoint = q.setpoint) :
    q = p.rebase q.lastEncoderCount := by
  obtain ⟨h₁, h₂, h₃⟩ := hp
  obtain ⟨g₁, g₂, g₃⟩ := hq
  cases p
  cases q
  simp_all [gains, limits, rebase]

end Pid

namespace Channel

variable (t : Target)

/-- Every stop that finds the controller enabled finds it settled. -/
def CleanStops (c : Channel) : List Event → Prop
  | [] => True
  | e :: es => (e = .stop → c.pid.enabled = true → c.pid.Settled) ∧ CleanStops (c.step t e) es

instance decidableCleanStops : ∀ (c : Channel) (es : List Event), Decidable (c.CleanStops t es)
  | _, [] => isTrue trivial
  | c, e :: es =>
    have := decidableCleanStops (c.step t e) es
    inferInstanceAs (Decidable (_ ∧ _))

theorem CleanStops.append {c : Channel} {es fs : List Event} (h : c.CleanStops t (es ++ fs)) :
    c.CleanStops t es := by
  induction es generalizing c with
  | nil => trivial
  | cons e es ih => exact ⟨h.1, ih h.2⟩

/-- The first tick that finds a settled controller disabled clears it. -/
theorem cleared_tick {c : Channel} (hdis : c.pid.enabled = false) (h : c.pid.Settled) (ticks : Int) :
    (c.step t (.tick ticks)).pid.Cleared := by
  simp only [step, computation, Pid.compute_disabled t _ _ hdis]
  split
  · exact Pid.cleared_reset _ _
  · rename_i hz
    exact h (not_ne_iff.mp hz)

/-- Outside of ticks, and in ticks that find it disabled, a controller stays cleared. -/
theorem cleared_step {c : Channel} (e : Event) (h : c.pid.Cleared)
    (he : c.pid.enabled = false ∨ ∀ ticks, e ≠ .tick ticks) : (c.step t e).pid.Cleared := by
  cases e with
  | nothing => exact h
  | move | setTunings | stop => exact ⟨h.lastOutput, h.lastInput, h.integralTerm⟩
  | setSpeed ticks speed idle =>
    cases idle with
    | false => exact ⟨h.lastOutput, h.lastInput, h.integralTerm⟩
    | true => exact ⟨rfl, rfl, rfl⟩
  | setPwm => exact ⟨rfl, rfl, rfl⟩
  | resetEncoder => exact Pid.cleared_reset _ _
  | tick ticks =>
    rcases he with hdis | hne
    · exact cleared_tick t hdis (fun _ => h) ticks
    · exact absurd rfl (hne ticks)

/-- A disabled controller is settled, as long as the stops are clean. -/
theorem settled_step {c : Channel} (e : Event) (h : c.pid.enabled = false → c.pid.Settled)
    (hstop : e = .stop → c.pid.enabled = true → c.pid.Settled) :
    (c.step t e).pid.enabled = false → (c.step t e).pid.Settled := by
  intro hdis
  cases e with
  | nothing => exact h hdis
  | move | setTunings =>
    intro hz
    obtain ⟨h₁, h₂, h₃⟩ := h hdis hz
    exact ⟨h₁, h₂, h₃⟩
  | setSpeed ticks speed idle =>
    cases idle with
    | false => exact absurd hdis (by simp [step, Pid.enable, Pid.setSetpoint])
    | true => exact fun _ => ⟨rfl, rfl, rfl⟩
  | setPwm => exact fun _ => ⟨rfl, rfl, rfl⟩
  | resetEncoder => exact fun _ => Pid.cleared_reset _ _
  | tick ticks =>
    have hdis' : c.pid.enabled = false := by
      rw [← hdis]
      exact (Pid.enabled_compute t c.pid _ 0).symm
    exact fun _ => cleared_tick t hdis' (h hdis') ticks
  | stop =>
    intro hz
    have hs : c.pid.Settled := by
      cases hen : c.pid.enabled with
      | false => exact h hen
      | true => exact hstop rfl hen
    obtain ⟨h₁, h₂, h₃⟩ := hs hz
    exact ⟨h₁, h₂, h₃⟩

theorem settled_run {c : Channel} (es : List Event) (h : c.pid.enabled = false → c.pid.Settled)
    (hstops : c.CleanStops t es) :
    (es.foldl (step t) c).pid.enabled = false → (es.foldl (step t) c).pid.Settled := by
  induction es generalizing c with
  | nil => exact h
  | cons e es ih => exact ih (settled_step t e h hstops.1) hstops.2

theorem cleared_run {c : Channel} (es : List Event) (h : c.pid.Cleared)
    (hes : ∀ ticks, .tick ticks ∉ es) : (es.foldl (step t) c).pid.Cleared := by
  induction es generalizing c with
  | nil => exact h
  | cons e es ih =>
    refine ih (cleared_step t e h (.inr ?_)) (fun ticks hm => hes ticks (List.mem_cons_of_mem _ hm))
    rintro ticks rfl
    exact hes ticks List.mem_cons_self

end Channel

namespace App

namespace Restart

variable {t : Target} {imu : Bool} {leftMove rightMove : Int}

/-- A tick has found the controllers disabled, and they have stayed so up to the command. -/
def Idled (r : Restart t imu leftMove rightMove) : Prop :=
  ∃ earlier e later mid out, r.before = earlier ++ .pid e :: later ∧
    Steps.run (step t) (setup t imu leftMove rightMove) earlier = some (mid, out) ∧ mid.PidDue e ∧
    ∀ side, ∀ b ∈ Steps.labels (step t) (fun app _ => (app.channel side).pid.enabled) mid
      (.pid e :: later), b = false

/-- Every auto-stop before the command that finds the controller of a side enabled finds
its last input not zero, or nothing else left in it. -/
def CleanStops (r : Restart t imu leftMove rightMove) (side : Side) : Prop :=
  ((setup t imu leftMove rightMove).channel side).CleanStops t
    (sideEvents t side (setup t imu leftMove rightMove) r.before)

/-- The output of the first computation. -/
def output (r : Restart t imu leftMove rightMove) (side : Side) : Int :=
  ((r.ready.channel side).computation t (r.tick.move side)).output

end Restart

theorem settled_setup (t : Target) (imu : Bool) (leftMove rightMove : Int) (side : Side) :
    ((setup t imu leftMove rightMove).channel side).pid.Settled := by
  cases side <;> exact fun _ => Pid.cleared_reset _ _

/-- Steps that find a cleared controller disabled keep it cleared. -/
theorem cleared_idle (t : Target) {side : Side} {app app' : App} {acts : List Action}
    {out : List Byte} (h : (app.channel side).pid.Cleared)
    (hdis : ∀ b ∈ Steps.labels (step t) (fun app _ => (app.channel side).pid.enabled) app acts,
      b = false)
    (hr : Steps.run (step t) app acts = some (app', out)) : (app'.channel side).pid.Cleared := by
  rw [← List.append_nil acts] at hdis
  refine (Steps.run_remaining (fun _ _ => ()) (fun _ app acts => (app.channel side).pid.Cleared ∧
    ∀ b ∈ Steps.labels (step t) (fun app _ => (app.channel side).pid.enabled) app acts, b = false)
    ?_ [] ⟨h, hdis⟩ hr).1
  rintro _ app a acts app' out ⟨h, hdis⟩ hs
  rw [Steps.labels_cons hs] at hdis
  have hnow := hdis _ List.mem_cons_self
  refine ⟨?_, fun b hb => hdis b (List.mem_cons_of_mem _ hb)⟩
  rw [channel_step t hs side]
  exact Channel.cleared_step t _ h (.inl hnow)

/-- With clean stops, a controller is cleared when it is enabled again. -/
theorem Restart.cleared {t : Target} {imu : Bool} {leftMove rightMove : Int}
    (r : Restart t imu leftMove rightMove) {side : Side} (hidle : r.Idled)
    (hstops : r.CleanStops side) : (r.stopped.channel side).pid.Cleared := by
  obtain ⟨earlier, e, later, mid, o, hb, hearlier, hdue, hdis⟩ := hidle
  obtain ⟨o₁, hrun⟩ := r.run_before
  rw [hb] at hrun
  have hmid : (mid.channel side).pid.enabled = false → (mid.channel side).pid.Settled := by
    rw [channel_run t hearlier side]
    refine Channel.settled_run t _ (fun _ => settled_setup t imu leftMove rightMove side) ?_
    unfold Restart.CleanStops at hstops
    rw [hb, sideEvents, Steps.labels_append hearlier] at hstops
    exact Channel.CleanStops.append t hstops
  obtain ⟨mid', o₂, o₃, hmid', hrest, -⟩ := Steps.run_append_eq_some hrun
  obtain ⟨rfl, -⟩ := Prod.mk.inj (Option.some.inj (hearlier.symm.trans hmid'))
  obtain ⟨u, o₄, o₅, htick, hlater, -⟩ := Steps.run_cons_eq_some hrest
  have hlabels := hdis side
  rw [Steps.labels_cons htick] at hlabels
  have hoff := hlabels _ List.mem_cons_self
  have hu : (u.channel side).pid.Cleared := by
    have hev : sideEvent t side mid (.pid e) = .tick (e.move side) := if_pos hdue
    rw [channel_step t htick side, hev]
    exact Channel.cleared_tick t hoff (hmid hoff) _
  exact cleared_idle t hu (fun b hb => hlabels b (List.mem_cons_of_mem _ hb)) hlater

/-- Up to the first tick it stays so. -/
theorem Restart.cleared_ready {t : Target} {imu : Bool} {leftMove rightMove : Int}
    (r : Restart t imu leftMove rightMove) {side : Side} (hidle : r.Idled)
    (hstops : r.CleanStops side) :
    (r.started.channel side).pid.Cleared ∧ (r.ready.channel side).pid.Cleared := by
  obtain ⟨o₁, hcommand⟩ := r.run_command
  obtain ⟨o₂, hbetween⟩ := r.run_between
  have hstarted : (r.started.channel side).pid.Cleared := by
    rw [channel_step t hcommand side]
    exact Channel.cleared_step t _ (r.cleared hidle hstops) (.inl (r.disabled side))
  refine ⟨hstarted, ?_⟩
  rw [channel_run t hbetween side]
  exact Channel.cleared_run t _ hstarted (r.noTick side)

theorem Restart.limits_ready {t : Target} {imu : Bool} {leftMove rightMove : Int}
    (r : Restart t imu leftMove rightMove) (side : Side) :
    (r.ready.channel side).pid.limits = (-255, 255) := by
  obtain ⟨out, hrun⟩ := r.run_ready
  exact limits_setup_run t hrun side

/-- If every auto-stop finds the controller moving or cleared, a restart after an idle
tick finds it cleared; and then what came before the restart does not matter: equal
gains, setpoints and inputs lead to equal first outputs. -/
theorem restart_forgets (t : Target) (side : Side) :
    (∀ (imu : Bool) (leftMove rightMove : Int) (r : Restart t imu leftMove rightMove),
      r.Idled → r.CleanStops side → (r.started.channel side).pid.Cleared) ∧
    ∀ (imu imu' : Bool) (leftMove rightMove leftMove' rightMove' : Int)
      (r : Restart t imu leftMove rightMove) (r' : Restart t imu' leftMove' rightMove'),
      r.Idled → r.CleanStops side → r'.Idled → r'.CleanStops side →
      (r.ready.channel side).pid.gains = (r'.ready.channel side).pid.gains →
      (r.ready.channel side).pid.setpoint = (r'.ready.channel side).pid.setpoint →
      r.input side = r'.input side → r.output side = r'.output side := by
  refine ⟨fun _ _ _ r hidle hstops => (r.cleared_ready hidle hstops).1, ?_⟩
  intro _ _ _ _ _ _ r r' hidle hstops hidle' hstops' hgains hset hinput
  have heq := (r.cleared_ready hidle hstops).2.eq_rebase (r'.cleared_ready hidle' hstops').2 hgains
    ((r.limits_ready side).trans (r'.limits_ready side).symm)
    ((r.computes side).trans (r'.computes side).symm) hset
  unfold Restart.input at hinput
  unfold Restart.output Channel.computation
  rw [heq] at hinput ⊢
  exact ((Pid.compute_rebase 0 hinput.symm).2).symm

/-- A restart after an idle tick, by evaluation of its run. -/
theorem exists_idle_restart (t : Target) (earlier later : List Action) (e : PidEnv)
    (command : Action) (tick : PidEnv) (P : App → App → Prop) [DecidableRel P]
    (h : (Steps.run (step t) (setup t false 0 0) (earlier ++ .pid e :: later)).any (fun r =>
      (step t r.1 command).any (fun q => Enabling r.1 q.1 ∧ q.1.PidDue tick ∧ P r.1 q.1)) = true)
    (hidle : (Steps.run (step t) (setup t false 0 0) earlier).any (fun m => m.1.PidDue e ∧
      ∀ side ∈ [Side.left, .right],
        ∀ b ∈ Steps.labels (step t) (fun app _ => (app.channel side).pid.enabled) m.1
          (.pid e :: later), b = false) = true) :
    ∃ r : Restart t false 0 0, r.before = earlier ++ .pid e :: later ∧ r.Idled ∧
      P r.stopped r.started := by
  obtain ⟨r, hb, -, -, -, -, hP⟩ := exists_restart t _ command tick P h
  obtain ⟨⟨mid, out⟩, hrun, hmid⟩ := Option.any_eq_true _ _ |>.mp hidle
  obtain ⟨hdue, hlabels⟩ := of_decide_eq_true hmid
  refine ⟨r, hb, ⟨earlier, e, later, mid, out, hb, hrun, hdue, fun side => hlabels side ?_⟩, hP⟩
  cases side <;> simp

/-- A wheel that turns when the auto-stop comes: the controller is cleared by the next tick. -/
theorem restart_forgets_turning :
    ∃ r : Restart (avr fun _ => 0) false 0 0,
      r.Idled ∧ r.CleanStops .left ∧ (r.started.channel .left).pid.Cleared := by
  obtain ⟨r, hb, hidle, -⟩ := exists_idle_restart (avr fun _ => 0)
    (typed (Env.quiet 40) (ascii "m 60 60\r") ++ [.pid ⟨40, 40, 0, 0⟩, .autoStop ⟨40, 40⟩,
      .pid ⟨3100, 3100, 5, 0⟩, .autoStop ⟨3100, 3100⟩])
    (.autoStop ⟨3140, 3140⟩ :: typed (Env.quiet 3150) (ascii "m 60 60")) ⟨3140, 3140, 0, 0⟩
    (.byte CR (Env.quiet 3150)) ⟨3180, 3180, 0, 0⟩ (fun _ _ => True) (by decide +kernel)
    (by decide +kernel)
  have hstops : r.CleanStops .left := by
    unfold Restart.CleanStops
    rw [hb]
    decide +kernel
  exact ⟨r, hidle, hstops, (restart_forgets (avr fun _ => 0) .left).1 false 0 0 r hidle hstops⟩

/-- A wheel that does not turn when the auto-stop comes leaves an output behind. -/
theorem restart_forgets_stalled :
    ∃ r : Restart (avr fun _ => 0) false 0 0,
      r.Idled ∧ ¬ (r.started.channel .left).pid.Cleared := by
  obtain ⟨r, -, hidle, hP⟩ := exists_idle_restart (avr fun _ => 0)
    (typed (Env.quiet 40) (ascii "m 60 60\r") ++ [.pid ⟨40, 40, 0, 0⟩, .autoStop ⟨40, 40⟩,
      .pid ⟨3100, 3100, 0, 0⟩, .autoStop ⟨3100, 3100⟩])
    (.autoStop ⟨3140, 3140⟩ :: typed (Env.quiet 3150) (ascii "m 60 60")) ⟨3140, 3140, 0, 0⟩
    (.byte CR (Env.quiet 3150)) ⟨3180, 3180, 0, 0⟩
    (fun _ started => ¬ (started.channel .left).pid.Cleared) (by decide +kernel) (by decide +kernel)
  exact ⟨r, hidle, hP⟩

end App

end AndinoFirmware
