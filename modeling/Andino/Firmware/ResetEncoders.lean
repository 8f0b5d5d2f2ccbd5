import Andino.Firmware.Core
import Andino.Firmware.Gains
import Andino.Firmware.PidExact

/-!
# What a reset of the encoders does to the motion

The handler of `r` sets both counts to zero and restarts both controllers from there. A
controller sees no counts, only their differences, so the jump of the counts alone is
invisible; but the restart also discards the setpoint, the last input, the last output
and the integral term. Both runs, with and without the `r`, move the robot alike if and
only if there was nothing to discard: whatever else a controller keeps, some gains bring
it to the motor.
-/
namespace AndinoFirmware

open CArith CString Saturation Moments

/-! ## Counts that differ -/

def Encoder.translate (k : Int) (e : Encoder) : Encoder := { e with count := e.count + k }

namespace Channel

/-- The same side with its wheel `k` ticks further. -/
def translate (k : Int) (c : Channel) : Channel :=
  ⟨c.motor, c.encoder.translate k, c.pid.translate k⟩

/-- What remains of a difference of the counts after an event. -/
def Event.offset (k : Int) : Event → Int
  | .resetEncoder _ _ => 0
  | _ => k

theorem move_translate (c : Channel) (k ticks : Int) :
    (c.translate k).move exact ticks = (c.move exact ticks).translate k := by
  have hcount : c.encoder.count + k + ticks = c.encoder.count + ticks + k := by omega
  simp [move, Encoder.move, translate, Encoder.translate, exact, hcount]

/-- Two sides that differ in their counts alone stay so. -/
theorem step_translate (c : Channel) (k : Int) (e : Event) :
    (c.translate k).step exact e = (c.step exact e).translate (e.offset k) := by
  cases e with
  | nothing | stop => rfl
  | move ticks => exact move_translate c k ticks
  | setSpeed ticks speed idle =>
    simp only [step, move_translate]
    cases idle <;> rfl
  | setPwm ticks pwm =>
    simp only [step, move_translate]
    rfl
  | resetEncoder ticks ticksAfterReset =>
    have hzero (n : Int) : n + 0 = n := Int.add_zero n
    simp only [Event.offset, translate, Encoder.translate, Pid.translate, hzero]
    rfl
  | setTunings ticks g =>
    simp only [step, move_translate]
    rfl
  | tick ticks =>
    have hrun : (c.translate k).computation exact ticks =
        { c.computation exact ticks with pid := (c.computation exact ticks).pid.translate k } := by
      rw [computation, move_translate]
      exact Pid.compute_translate k c.pid ((c.move exact ticks).count exact) 0
    simp only [step, move_translate, hrun]
    rfl

end Channel

namespace Core

/-- The same sides with the wheels further. -/
def translate (k : Side → Int) (c : Core) : Core :=
  { c with channel := fun side => (c.channel side).translate (k side) }

theorem each_translate (c : Core) (k : Side → Int) (event : Side → Channel.Event) :
    (c.translate k).each event =
      (c.each event).translate (fun side => (event side).offset (k side)) := by
  have hsides : ((c.translate k).each event).channel =
      ((c.each event).translate (fun side => (event side).offset (k side))).channel := by
    funext side
    exact Channel.step_translate (c.channel side) (k side) (event side)
  exact congrArg (Core.mk · c.lastPidComputation c.lastSetMotorsSpeedCmd) hsides

theorem due_translate (c : Core) (k : Side → Int) (i : Input) :
    (c.translate k).Due i ↔ c.Due i := by
  cases i <;> exact Iff.rfl

theorem setTimer_translate (c : Core) (k : Side → Int) (i : Input) :
    (c.translate k).setTimer i = (c.setTimer i).translate k := by
  cases i <;> rfl

/-- Whatever happens, cores that differ in their counts alone stay so. -/
theorem react_translate (c : Core) (k : Side → Int) (i : Input) :
    ∃ k', (c.translate k).react i = (c.react i).translate k' := by
  have hiff := due_translate c k i
  by_cases hdue : c.Due i
  · rw [react_due hdue, react_due (hiff.mpr hdue), each_translate, setTimer_translate]
    exact ⟨_, rfl⟩
  · rw [react_not_due hdue, react_not_due (mt hiff.mp hdue)]
    exact ⟨k, rfl⟩

theorem respond_translate (c : Core) (k : Side → Int) (m : Moment Displacement Input) :
    ∃ k', machine.respond (c.translate k) m = (machine.respond c m).translate k' := by
  have hpush : (c.translate k).push m.moved = (c.push m.moved).translate k := each_translate c k _
  obtain ⟨d, _ | i⟩ := m
  · exact ⟨k, hpush⟩
  · obtain ⟨k', hk⟩ := react_translate (c.push d) k i
    exact ⟨k', (congrArg (react · i) hpush).trans hk⟩

end Core

/-! ## Shells that have received the same -/

namespace Shell

variable {κ : Type}

/-- Two shells that make the same calls from now on. The rest of their buffers may differ. -/
def Alike (s s' : Shell κ) : Prop :=
  s.registry = s'.registry ∧ ∃ line, s.Pending (kept line) ∧ s'.Pending (kept line)

theorem alike_processByte {s s' : Shell κ} (h : s.Alike s') (nullEq : List Byte → Bool) (c : Byte) :
    (s.processByte nullEq c).1.Alike (s'.processByte nullEq c).1 ∧
      (s.processByte nullEq c).2 = (s'.processByte nullEq c).2 := by
  obtain ⟨hreg, line, hs, hs'⟩ := h
  by_cases hlf : c = LF
  · subst hlf
    rw [processByte_LF, processByte_LF]
    exact ⟨⟨hreg, line, hs, hs'⟩, rfl⟩
  · by_cases hcr : c = CR
    · subst hcr
      obtain ⟨hp, hr, hcall⟩ := processByte_CR s nullEq (kept line) hs
      obtain ⟨hp', hr', hcall'⟩ := processByte_CR s' nullEq (kept line) hs'
      refine ⟨⟨hr.trans (hreg.trans hr'.symm), [], hp, hp'⟩, ?_⟩
      rw [hcall, hcall']
      exact lineCall_registry hreg nullEq (kept line)
    · obtain ⟨hp, hr, hcall⟩ := processByte_extend s nullEq line c hs hcr hlf
      obtain ⟨hp', hr', hcall'⟩ := processByte_extend s' nullEq line c hs' hcr hlf
      exact ⟨⟨hr.trans (hreg.trans hr'.symm), line ++ [c], hp, hp'⟩, hcall.trans hcall'.symm⟩

end Shell

/-! ## Runs from states that differ in their counts alone -/

/-- What the motors get and what the controllers are asked for. -/
structure Motion where
  forward : Int
  backward : Int
  setpoint : Int
  enabled : Bool
  deriving DecidableEq, Repr

def Channel.motion (c : Channel) : Motion :=
  ⟨c.motor.forward, c.motor.backward, c.pid.setpoint, c.pid.enabled⟩

namespace App

def motion (app : App) (side : Side) : Motion := (app.channel side).motion

/-- The same application as far as motions show. -/
structure SameMotion (app app' : App) : Prop where
  shell : app.shell.Alike app'.shell
  core : ∃ k, app'.core = app.core.translate k

theorem SameMotion.motion_eq (app app' : App) (h : SameMotion app app') :
    app.motion = app'.motion := by
  obtain ⟨k, hk⟩ := h.core
  funext side
  have hside : app'.channel side = (app.channel side).translate (k side) :=
    congrArg (fun c : Core => c.channel side) hk
  rw [motion, motion, hside]
  rfl

theorem seen_alike {app app' : App} (h : app.shell.Alike app'.shell) (a : Action) :
    app.seen a = app'.seen a := by
  cases a with
  | byte c env => rw [seen, seen, (Shell.alike_processByte h env.nullEq c).2]
  | pid e | autoStop e => rfl

/-- Whether a call returns is decided by its arguments. -/
theorem isSome_invoke (env : Env) (i : Shell.Invocation Callback) (app app' : App) :
    (invoke exact env i app).isSome = (invoke exact env i app').isSome := by
  obtain ⟨callback, argc, argv⟩ := i
  cases callback with
  | setPidTuningGains =>
    simp only [invoke, cmdSetPidTuningGainsCb]
    split
    · rfl
    · split <;> rfl
  | _ => rfl

theorem isSome_step {app app' : App} (h : app.shell.Alike app'.shell) (a : Action) :
    (step exact app a).isSome = (step exact app' a).isSome := by
  cases a with
  | byte c env =>
    have hcall := (Shell.alike_processByte h env.nullEq c).2
    simp only [step, processByte]
    rw [show (app.moveEncoders exact env.leftMove env.rightMove).shell = app.shell from rfl,
      show (app'.moveEncoders exact env.leftMove env.rightMove).shell = app'.shell from rfl, hcall]
    cases (app'.shell.processByte env.nullEq c).2 with
    | none => rfl
    | some i => exact isSome_invoke env i _ _
  | pid e | autoStop e => rfl

/-- The shell of a step is what its byte makes of it, whatever is called. -/
theorem shell_byte {app app' : App} {c : Byte} {env : Env} {out : List Byte}
    (h : step exact app (.byte c env) = some (app', out)) :
    app'.shell = (app.shell.processByte env.nullEq c).1 := by
  simp only [step, processByte] at h
  split at h
  · simp only [Option.some.injEq] at h
    rw [← (Prod.mk.inj h).1]
    rfl
  · rename_i i hi
    rw [(invoke_drive exact (processByte_arg_ne_nul hi 1) h).2]
    rfl

theorem alike_step {app app' u u' : App} {a : Action} {out out' : List Byte}
    (h : app.shell.Alike app'.shell) (hs : step exact app a = some (u, out))
    (hs' : step exact app' a = some (u', out')) : u.shell.Alike u'.shell := by
  cases a with
  | byte c env =>
    rw [shell_byte hs, shell_byte hs']
    exact (Shell.alike_processByte h env.nullEq c).1
  | pid e =>
    simp only [step, Option.some.injEq] at hs hs'
    rw [← (Prod.mk.inj hs).1, ← (Prod.mk.inj hs').1, shell_pidTask, shell_pidTask]
    exact h
  | autoStop e =>
    simp only [step, Option.some.injEq] at hs hs'
    rw [← (Prod.mk.inj hs).1, ← (Prod.mk.inj hs').1, shell_autoStopTask, shell_autoStopTask]
    exact h

/-- Every action keeps the motions the same. -/
theorem sameMotion_step (app app' : App) (a : Action) (h : SameMotion app app') :
    Option.Rel (fun p q => SameMotion p.1 q.1) (step exact app a) (step exact app' a) := by
  have hsome := isSome_step h.shell a
  cases hs : step exact app a with
  | none =>
    rw [hs] at hsome
    rw [Option.not_isSome_iff_eq_none.mp (Bool.eq_false_iff.mp hsome.symm)]
    exact .none
  | some r =>
    rw [hs] at hsome
    obtain ⟨r', hs'⟩ := Option.isSome_iff_exists.mp hsome.symm
    rw [hs']
    refine .some ⟨alike_step h.shell hs hs', ?_⟩
    obtain ⟨k, hk⟩ := h.core
    have hcore := core_step app a r.1 r.2 hs
    have hcore' := core_step app' a r'.1 r'.2 hs'
    simp only [view] at hcore hcore'
    rw [hk, ← seen_alike h.shell a] at hcore'
    obtain ⟨k', hk'⟩ := Core.respond_translate app.core k ⟨moved a, app.seen a⟩
    exact ⟨k', (hcore'.trans hk').trans (congrArg (Core.translate k') hcore.symm)⟩

end App

/-! ## Lines typed while nothing moves -/

/-- The wheels stand while a byte is handled. -/
structure Env.Still (env : Env) : Prop where
  leftMove : env.leftMove = 0
  rightMove : env.rightMove = 0
  leftMoveAfterReset : env.leftMoveAfterReset = 0
  rightMoveAfterReset : env.rightMoveAfterReset = 0

theorem Env.still_quiet (now : Nat) : (Env.quiet now).Still := ⟨rfl, rfl, rfl, rfl⟩

namespace App

theorem seen_of_invocation {app : App} {c : Byte} {env : Env}
    {o : Option (Shell.Invocation Callback)} (h : app.invocation (.byte c env) = o) :
    app.seen (.byte c env) = o.bind (invocationInput env) :=
  congrArg (·.bind (invocationInput env)) h

/-- With the wheels at rest, a byte does what it tells and nothing else. -/
theorem core_byte {app app' : App} {c : Byte} {env : Env} {out : List Byte} (hstill : env.Still)
    (h : step exact app (.byte c env) = some (app', out)) :
    app'.core = Core.machine.respond app.core ⟨0, app.seen (.byte c env)⟩ := by
  have hcore := core_step app (.byte c env) app' out h
  simp only [view, moved, hstill.leftMove, hstill.rightMove, ← Prod.zero_eq_mk] at hcore
  exact hcore

theorem run_still_text {env : Env} (hstill : env.Still) (w : List Byte) {app : App} {v : List Byte}
    (h : app.Ready v) (hlen : (v ++ w).length < Shell.kCommandPromptLengthMax)
    (hplain : ∀ c ∈ w, c ≠ CR ∧ c ≠ LF) :
    ∃ app', Steps.run (step exact) app (typed env w) = some (app', []) ∧ app'.Ready (v ++ w) ∧
      app'.core = app.core := by
  induction w generalizing app v with
  | nil => exact ⟨app, rfl, by simpa using h, rfl⟩
  | cons c w ih =>
    have hcons : v ++ c :: w = v ++ [c] ++ w := by simp
    rw [hcons] at hlen ⊢
    obtain ⟨hcr, hlf⟩ := hplain c List.mem_cons_self
    have hfit : v.length + 1 < Shell.kCommandPromptLengthMax := by
      simp only [List.length_append, List.length_singleton] at hlen
      omega
    obtain ⟨shell, hs, hr, hnone⟩ := step_store exact env h hfit hcr hlf
    have hcore := core_byte hstill hs
    rw [seen_of_invocation hnone] at hcore
    obtain ⟨app', hrun, hready, hcore'⟩ := ih hr hlen (fun d hd => hplain d (List.mem_cons_of_mem _ hd))
    exact ⟨app', Steps.run_step hs hrun, hready, hcore'.trans (hcore.trans (Core.push_zero _))⟩

/-- A line whose call returns does what the call tells and nothing else. -/
theorem run_still_line {env : Env} (hstill : env.Still) {w : List Byte}
    {i : Shell.Invocation Callback} {app : App} (h : app.Ready [])
    (hlen : w.length < Shell.kCommandPromptLengthMax) (hplain : ∀ c ∈ w, c ≠ CR ∧ c ≠ LF)
    (hi : lineInvocation env.nullEq (Shell.segmentTokens w) = some i)
    (hcall : ∀ app, (invoke exact env i app).isSome) :
    ∃ app' out, Steps.run (step exact) app (typed env (w ++ [CR])) = some (app', out) ∧
      app'.Ready [] ∧
      app'.core = Core.machine.respond app.core ⟨0, invocationInput env i⟩ := by
  obtain ⟨mid, hrun, hready, hcore⟩ := run_still_text hstill w h (by simpa using hlen) hplain
  obtain ⟨shell, hs, hr, hinv⟩ := step_CR exact env hready (by simpa using hi)
  obtain ⟨⟨app', out⟩, hinvoke⟩ := Option.isSome_iff_exists.mp
    (hcall { mid.moveEncoders exact env.leftMove env.rightMove with shell := shell })
  have hstep := hs.trans hinvoke
  have hcore' := core_byte hstill hstep
  rw [seen_of_invocation hinv, hcore] at hcore'
  refine ⟨app', [] ++ (out ++ []), ?_, ?_, hcore'⟩
  · rw [typed, List.map_append]
    exact Steps.run_join hrun (Steps.run_step hstep (Steps.run_nil _ _))
  · exact ready_invoke exact env i (processByte_arg_ne_nul hinv 1) hr hinvoke

end App

/-! ## One tick at chosen gains -/

namespace Pid

/-- The controller is as a reset at the count `n` leaves it. -/
structure Fresh (p : Pid) (n : Int) : Prop where
  setpoint : p.setpoint = 0
  integralTerm : p.integralTerm = 0
  lastEncoderCount : p.lastEncoderCount = n
  lastInput : p.lastInput = 0
  lastOutput : p.lastOutput = 0

instance (p : Pid) (n : Int) : Decidable (p.Fresh n) :=
  decidable_of_iff (p.setpoint = 0 ∧ p.integralTerm = 0 ∧ p.lastEncoderCount = n ∧ p.lastInput = 0 ∧
      p.lastOutput = 0)
    ⟨fun h => ⟨h.1, h.2.1, h.2.2.1, h.2.2.2.1, h.2.2.2.2⟩,
      fun h => ⟨h.setpoint, h.integralTerm, h.lastEncoderCount, h.lastInput, h.lastOutput⟩⟩

theorem Fresh.eq_reset {p : Pid} {n : Int} (h : p.Fresh n) : p = (p.reset 0).translate n := by
  obtain ⟨h₁, h₂, h₃, h₄, h₅⟩ := h
  cases p
  simp_all [reset, translate]

end Pid

namespace Channel

/-- The side after the gains `g`, a command for the speed zero and a tick. -/
def probe (c : Channel) (g : Gains) : Channel :=
  ((c.step exact (.setTunings 0 g)).step exact (.setSpeed 0 1 false)).step exact (.tick 0)

/-- The output of that tick before it is limited. -/
def probed (c : Channel) (g : Gains) : Int :=
  let input := c.encoder.count - c.pid.lastEncoderCount
  (g.kp * (0 - input) - g.kd * (input - c.pid.lastInput) + c.pid.integralTerm).tdiv g.ko +
    c.pid.lastOutput

theorem motor_probe {c : Channel} (hlim : c.pid.limits = (-255, 255)) (g : Gains) :
    (c.probe g).motor = c.motor.setSpeed exact (saturate (-255) 255 (c.probed g)) := by
  obtain ⟨hmin, hmax⟩ := Prod.mk.inj hlim
  let p : Pid := { c.pid with kp := g.kp, kd := g.kd, ki := g.ki, ko := g.ko, enabled := true, setpoint := 0 }
  have hzero (n : Int) : n + 0 = n := Int.add_zero n
  have hout : (p.compute exact (c.encoder.count + 0 + 0 + 0) 0).output =
      saturate (-255) 255 (c.probed g) := by
    rw [Pid.compute_exact (p := p) _ 0 rfl, hzero, hzero, hzero]
    change saturate c.pid.outputMin c.pid.outputMax (c.probed g) = _
    rw [hmin, hmax]
  exact congrArg (c.motor.setSpeed exact) hout

/-- A motor that such an output leaves at rest shows that the output was zero. -/
theorem probed_eq_zero {c : Channel} (hlim : c.pid.limits = (-255, 255)) {g : Gains}
    (h : ¬ (c.probe g).motor.Active) : c.probed g = 0 := by
  have hzero : saturate (-255) 255 (c.probed g) = 0 := by
    rw [motor_probe hlim] at h
    by_contra hne
    exact h (Motor.active_setSpeed c.motor hne)
  rcases (saturate_eq_iff ⟨by decide, by decide⟩).mp hzero with h | ⟨-, h⟩ | ⟨-, h⟩
  · exact h
  · exact absurd h (by decide)
  · exact absurd h (by decide)

/-- Behind a reset the tick leaves the motor at rest. -/
theorem not_active_probe_reset {c : Channel} (hlim : c.pid.limits = (-255, 255)) (g : Gains) :
    ¬ ((c.step exact (.resetEncoder 0 0)).probe g).motor.Active := by
  have hprobed : (c.step exact (.resetEncoder 0 0)).probed g = 0 := by
    change (g.kp * (0 - (0 - 0)) - g.kd * (0 - 0 - 0) + 0).tdiv g.ko + 0 = 0
    simp
  have hlim' : (c.step exact (.resetEncoder 0 0)).pid.limits = (-255, 255) := hlim
  rw [motor_probe hlim', hprobed]
  exact Motor.setSpeed_zero exact _

/-- Four choices of gains show everything that a controller keeps but its setpoint. -/
theorem fresh_of_probed {c : Channel} (hset : c.pid.setpoint = 0) (h₁ : c.probed ⟨0, 0, 0, 1⟩ = 0)
    (h₂ : c.probed ⟨0, 0, 0, -1⟩ = 0) (h₃ : c.probed ⟨0, 1, 0, 1⟩ = 0)
    (h₄ : c.probed ⟨1, 0, 0, 1⟩ = 0) : c.pid.Fresh c.encoder.count := by
  simp only [probed, Int.tdiv_one, Int.tdiv_neg] at h₁ h₂ h₃ h₄
  constructor <;> omega

end Channel

namespace App

/-- The line `u s`, a command for the speed zero, and a tick. -/
def probeActions (s : List Byte) (e : PidEnv) : List Action :=
  typed (Env.quiet 0) (ascii "u" ++ SP :: s ++ [CR]) ++
    (typed (Env.quiet 0) (ascii "m 1 1" ++ [CR]) ++ [.pid e])

theorem invocationInput_u (env : Env) (s : List Byte) :
    invocationInput env ⟨.setPidTuningGains, 2, [some (ascii "u"), some s, none]⟩ =
      some (.setTunings (requestedGains exact s)) := rfl

theorem invocationInput_m :
    invocationInput (Env.quiet 0)
        ⟨.setMotorsSpeed, 3, [some (ascii "m"), some (ascii "1"), some (ascii "1"), none]⟩ =
      some (.setMotorsSpeed 1 1 0) := by decide +kernel

theorem run_probe {app : App} (h : app.Ready []) {s : List Byte} (hs : Word s)
    (hfit : s.length < kArgSize) {e : PidEnv} (hdue : app.PidDue e) (hmoved : moved (.pid e) = 0) :
    ∃ app' out, Steps.run (step exact) app (probeActions s e) = some (app', out) ∧
      ∀ side, app'.channel side = (app.channel side).probe (requestedGains exact s) := by
  have hone : Word (ascii "1") := ⟨by decide, forall_mem_of_all (by decide)⟩
  have hu : ∀ app, (invoke exact (Env.quiet 0)
      ⟨.setPidTuningGains, 2, [some (ascii "u"), some s, none]⟩ app).isSome := by
    intro app
    have hcall := cmdSetPidTuningGainsCb_fits exact 2 [some (ascii "u"), some s, none] app (by decide)
      hs.ne_nul hfit
    exact congrArg Option.isSome hcall
  obtain ⟨app₁, out₁, hrun₁, hr₁, hcore₁⟩ := run_still_line (Env.still_quiet 0) h
    (u_line_length hfit) (u_line_plain hs)
    (by rw [segmentTokens_u hs]; exact lineInvocation_u _ s) hu
  obtain ⟨app₂, out₂, hrun₂, -, hcore₂⟩ := run_still_line (Env.still_quiet 0) hr₁
    (w := ascii "m 1 1") (by decide) (forall_mem_of_all (by decide))
    (by rw [show ascii "m 1 1" = ascii "m" ++ SP :: (ascii "1" ++ SP :: ascii "1") from rfl,
      segmentTokens_m hone hone]; exact lineInvocation_m _ _ _) (fun _ => rfl)
  have hset : app₂.core = (app.core.react (.setTunings (requestedGains exact s))).react
      (.setMotorsSpeed 1 1 0) := by
    rw [hcore₂, hcore₁, invocationInput_u, invocationInput_m, Core.respond_some, Core.respond_some,
      Core.push_zero, Core.push_zero]
  have hdue₂ : app₂.core.Due (.pid e.check e.store) := by
    rw [hset]
    exact hdue
  have hcore₃ := core_step app₂ (.pid e) _ _ rfl
  simp only [view, hmoved] at hcore₃
  rw [seen, Core.respond_some, Core.push_zero, Core.react_due hdue₂, hset] at hcore₃
  refine ⟨app₂.pidTask exact e, _,
    Steps.run_join hrun₁ (Steps.run_join hrun₂ (Steps.run_singleton _ _ _)), ?_⟩
  intro side
  have hside := congrArg (fun c : Core => c.channel side) hcore₃
  cases side <;> exact hside

theorem word_r : Word (ascii "r") := ⟨by decide, forall_mem_of_all (by decide)⟩

/-- The line `r`, while nothing moves, is the reset on both sides. -/
theorem run_still_r {env : Env} (hstill : env.Still) {app : App} (h : app.Ready []) :
    ∃ app' out, Steps.run (step exact) app (typed env (ascii "r\r")) = some (app', out) ∧
      app'.Ready [] ∧ app'.core = app.core.each (fun _ => .resetEncoder 0 0) := by
  obtain ⟨app', out, hrun, hready, hcore⟩ := run_still_line hstill h (w := ascii "r") (by decide)
    word_r.line (i := ⟨.resetEncoders, 1, [some (ascii "r"), none]⟩)
    (by rw [segmentTokens_one word_r]; rfl) (fun _ => rfl)
  have hevent : (Input.resetEncoders (0, 0)).event = fun _ => .resetEncoder 0 0 := by
    funext side
    cases side <;> rfl
  refine ⟨app', out, hrun, hready, ?_⟩
  simp only [invocationInput, Core.respond_some, Core.push_zero, hstill.leftMoveAfterReset,
    hstill.rightMoveAfterReset] at hcore
  have hdue : app.core.Due (.resetEncoders (0, 0)) := trivial
  rw [hcore, Core.react_due hdue, hevent]
  rfl

/-- An application between two lines, and the one that a reset of its encoders leaves. -/
structure AfterReset (app app' : App) : Prop where
  ready : app.Ready []
  ready' : app'.Ready []
  core : app'.core = app.core.each (fun _ => .resetEncoder 0 0)
  limited : ∀ side, (app.channel side).pid.limits = (-255, 255)

section AfterReset

variable {app app' : App}

theorem AfterReset.channel (h : AfterReset app app') (side : Side) :
    app'.channel side = (app.channel side).step exact (.resetEncoder 0 0) :=
  congrArg (fun c : Core => c.channel side) h.core

/-- Nothing was there to discard: the counts alone differ. -/
theorem AfterReset.sameMotion (h : AfterReset app app')
    (hfresh : ∀ side, (app.channel side).pid.Fresh (app.channel side).encoder.count) :
    SameMotion app' app := by
  have hsides : app.core.channel =
      (app'.core.translate (fun side => (app.channel side).encoder.count)).channel := by
    funext side
    have hcount : (app.channel side).encoder.count = 0 + 0 + (app.channel side).encoder.count := by
      omega
    change app.channel side = (app'.channel side).translate _
    rw [h.channel side]
    exact congrArg₂ (fun n p => Channel.mk (app.channel side).motor
      ⟨(app.channel side).encoder.state, n⟩ p) hcount (hfresh side).eq_reset
  obtain ⟨hreg, hpend⟩ := h.ready
  obtain ⟨hreg', hpend'⟩ := h.ready'
  refine ⟨⟨hreg'.trans hreg.symm, [], hpend', hpend⟩, _, Core.ext hsides ?_ ?_⟩
  · exact (congrArg Core.lastPidComputation h.core).symm
  · exact (congrArg Core.lastSetMotorsSpeedCmd h.core).symm

/-- If no continuation shows a difference, no gains bring anything to the motors that a
reset would have discarded. -/
theorem AfterReset.probed (h : AfterReset app app') {s : List Byte} (hs : Word s)
    (hfit : s.length < kArgSize)
    (hsame : ∀ acts, (Steps.run (step exact) app' acts).map (fun r => r.1.motion) =
      (Steps.run (step exact) app acts).map (fun r => r.1.motion)) (side : Side) :
    (app.channel side).probed (requestedGains exact s) = 0 := by
  have hdue := pidDue_dueTick app
  have hdue' : app'.PidDue app.dueTick := by
    change app'.core.Due (.pid app.dueTick.check app.dueTick.store)
    rw [h.core]
    exact hdue
  obtain ⟨u, out, hrun, hu⟩ := run_probe h.ready hs hfit hdue rfl
  obtain ⟨u', out', hrun', hu'⟩ := run_probe h.ready' hs hfit hdue' rfl
  have hmotion := hsame (probeActions s app.dueTick)
  rw [hrun, hrun', Option.map_some, Option.map_some, Option.some.injEq] at hmotion
  have hside : (u'.channel side).motion = (u.channel side).motion := congrFun hmotion side
  have hrest : ¬ (u'.channel side).motor.Active := by
    rw [hu', h.channel]
    exact Channel.not_active_probe_reset (h.limited side) _
  apply Channel.probed_eq_zero (h.limited side)
  rw [← hu side]
  obtain ⟨hf, hb, -, -⟩ := Motion.mk.inj hside
  rw [Motor.Active, ← hf, ← hb]
  exact hrest

theorem AfterReset.fresh (h : AfterReset app app')
    (hsame : ∀ acts, (Steps.run (step exact) app' acts).map (fun r => r.1.motion) =
      (Steps.run (step exact) app acts).map (fun r => r.1.motion)) (side : Side) :
    (app.channel side).pid.Fresh (app.channel side).encoder.count := by
  have hset : (app.channel side).pid.setpoint = 0 := by
    have hnow : app'.motion = app.motion := Option.some.inj (hsame [])
    have hside : (app'.channel side).motion = (app.channel side).motion := congrFun hnow side
    rw [h.channel] at hside
    exact (Motion.mk.inj hside).2.2.1.symm
  have hprobe (s : List Byte) (hs : Word s) (hfit : s.length < kArgSize) {g : Gains}
      (hg : requestedGains exact s = g) : (app.channel side).probed g = 0 :=
    hg ▸ h.probed hs hfit hsame side
  apply Channel.fresh_of_probed hset
  · exact hprobe (ascii "0:0:0:1") ⟨by decide, forall_mem_of_all (by decide)⟩ (by decide)
      (by decide +kernel)
  · exact hprobe (ascii "0:0:0:-1") ⟨by decide, forall_mem_of_all (by decide)⟩ (by decide)
      (by decide +kernel)
  · exact hprobe (ascii "0:1:0:1") ⟨by decide, forall_mem_of_all (by decide)⟩ (by decide)
      (by decide +kernel)
  · exact hprobe (ascii "1:0:0:1") ⟨by decide, forall_mem_of_all (by decide)⟩ (by decide)
      (by decide +kernel)

end AfterReset

/-- At any point of any run at which a line may start, just behind a tick for one: the
line `r` is without effect on the setpoints, the enabled flags and the outputs of every
continuation if and only if both controllers are as a reset leaves them. -/
theorem reset_invisible_iff (imu : Bool) (leftMove rightMove : Int) {earlier : List Action}
    {app : App} {out : List Byte}
    (hr : Steps.run (step exact) (setup exact imu leftMove rightMove) earlier = some (app, out))
    (hidx : app.shell.messageIndex = 0) {env : Env} (hstill : env.Still) :
    (∀ acts,
      (Steps.run (step exact) app (typed env (ascii "r\r") ++ acts)).map (fun r => r.1.motion) =
        (Steps.run (step exact) app acts).map (fun r => r.1.motion)) ↔
      ∀ side, (app.channel side).pid.Fresh (app.channel side).encoder.count := by
  have hready := ready_run exact hr hidx
  obtain ⟨app', out', hrun, hready', hcore⟩ := run_still_r hstill hready
  have h : AfterReset app app' := ⟨hready, hready', hcore, limits_setup_run exact hr⟩
  have hsplit (acts : List Action) :
      (Steps.run (step exact) app (typed env (ascii "r\r") ++ acts)).map (fun r => r.1.motion) =
        (Steps.run (step exact) app' acts).map (fun r => r.1.motion) := by
    rw [Steps.run_append, hrun]
    simp only [Option.bind_some, Option.map_map, Function.comp_def]
  simp only [hsplit]
  constructor
  · exact h.fresh
  · intro hfresh acts
    exact Steps.run_related sameMotion_step SameMotion.motion_eq acts (h.sameMotion hfresh)

/-- Open loop, with wheels that have not moved yet. -/
theorem reset_invisible_open_loop :
    ∃ app out,
      Steps.run (step exact) (setup exact false 0 0)
          (typed (Env.quiet 0) (ascii "o 100 100\r") ++ [.pid ⟨50, 50, 0, 0⟩]) = some (app, out) ∧
        ∀ acts,
          (Steps.run (step exact) app (typed (Env.quiet 60) (ascii "r\r") ++ acts)).map
              (fun r => r.1.motion) =
            (Steps.run (step exact) app acts).map (fun r => r.1.motion) := by
  have hany : (Steps.run (step exact) (setup exact false 0 0)
      (typed (Env.quiet 0) (ascii "o 100 100\r") ++ [.pid ⟨50, 50, 0, 0⟩])).any
      (fun r => r.1.shell.messageIndex = 0 ∧
        (r.1.channel .left).pid.Fresh (r.1.channel .left).encoder.count ∧
        (r.1.channel .right).pid.Fresh (r.1.channel .right).encoder.count) = true := by
    decide +kernel
  obtain ⟨⟨app, out⟩, hr, hp⟩ := Option.any_eq_true _ _ |>.mp hany
  obtain ⟨hidx, hleft, hright⟩ := of_decide_eq_true hp
  refine ⟨app, out, hr, ?_⟩
  apply (reset_invisible_iff false 0 0 hr hidx (Env.still_quiet 60)).mpr
  intro side
  cases side with
  | left => exact hleft
  | right => exact hright

/-- Driving at two ticks in each period, just behind the first tick: with an `r` the next
tick turns the wheel backward, without it forward. -/
theorem reset_while_driving :
    ∃ app out,
      Steps.run (step exact) (setup exact false 0 0)
          (typed (Env.quiet 0) (ascii "m 60 60\r") ++ [.pid ⟨50, 50, 0, 0⟩]) = some (app, out) ∧
        app.shell.messageIndex = 0 ∧
        (Steps.run (step exact) app
            (typed (Env.quiet 60) (ascii "r\r") ++ [.pid ⟨100, 100, 2, 2⟩])).map
            (fun r => r.1.motion .left) = some ⟨0, 8, 0, true⟩ ∧
        (Steps.run (step exact) app [.pid ⟨100, 100, 2, 2⟩]).map (fun r => r.1.motion .left) =
          some ⟨4, 0, 2, true⟩ := by
  have hany : (Steps.run (step exact) (setup exact false 0 0)
      (typed (Env.quiet 0) (ascii "m 60 60\r") ++ [Action.pid ⟨50, 50, 0, 0⟩])).any
      (fun r => r.1.shell.messageIndex = 0 ∧
        (Steps.run (step exact) r.1
            (typed (Env.quiet 60) (ascii "r\r") ++ [Action.pid ⟨100, 100, 2, 2⟩])).map
            (fun r => r.1.motion .left) = some ⟨0, 8, 0, true⟩ ∧
        (Steps.run (step exact) r.1 [Action.pid ⟨100, 100, 2, 2⟩]).map
            (fun r => r.1.motion .left) = some ⟨4, 0, 2, true⟩) = true := by
    decide +kernel
  obtain ⟨⟨app, out⟩, hr, hp⟩ := Option.any_eq_true _ _ |>.mp hany
  obtain ⟨hidx, hreset, hplain⟩ := of_decide_eq_true hp
  exact ⟨app, out, hr, hidx, hreset, hplain⟩

end App

end AndinoFirmware
