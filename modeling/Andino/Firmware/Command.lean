import Andino.Firmware.ShellDispatch
import Andino.Firmware.Drive

/-!
# Commands on the serial line

The application as the other end of the serial line sees it: `Ready app w` says
that the commands of `setup` are registered and that `w` has been received of an
unfinished line. Bytes extend `w`, tasks keep it, and a carriage return calls the
handler of the line's first token.
-/
namespace AndinoFirmware

open CArith CString Decimal

namespace App

variable (t : Target)

structure Ready (app : App) (w : List Byte) : Prop where
  registry : app.shell.registry = setupShell.registry
  pending : app.shell.Pending w

theorem ready_setup (imu : Bool) (leftMove rightMove : Int) :
    Ready (setup t imu leftMove rightMove) [] := ⟨rfl, rfl, rfl⟩

/-- The call the shell makes for the tokens of a line. -/
def lineInvocation (nullEq : List Byte → Bool) (ts : List (List Byte)) :
    Option (Shell.Invocation Callback) :=
  setupShell.executeCallback nullEq (min ts.length (Shell.kCommandArgMax - 1)) (Shell.argvOf ts)

/-- The call the shell makes in an action. -/
def invocation (app : App) : Action → Option (Shell.Invocation Callback)
  | .byte c env => (app.shell.processByte env.nullEq c).2
  | .pid _ => none
  | .autoStop _ => none

/-- The calls of the shell along a run. -/
def invocations (app : App) (acts : List Action) : List (Shell.Invocation Callback) :=
  (Steps.labels (step t) invocation app acts).filterMap id

theorem invocations_append {app app' : App} {as : List Action} {out : List Byte}
    (h : Steps.run (step t) app as = some (app', out)) (bs : List Action) :
    app.invocations t (as ++ bs) = app.invocations t as ++ app'.invocations t bs := by
  rw [invocations, Steps.labels_append h, List.filterMap_append]
  rfl

theorem invocations_cons {app app' : App} {a : Action} {out : List Byte}
    (h : step t app a = some (app', out)) (as : List Action) :
    app.invocations t (a :: as) = (app.invocation a).toList ++ app'.invocations t as := by
  rw [invocations, Steps.labels_cons h, List.filterMap_cons]
  cases app.invocation a <;> rfl

/-- Without a call no gains are set. -/
theorem setTunings_notMem_events {app : App} {acts : List Action} (h : app.invocations t acts = [])
    (s : List Byte) : Event.setTunings s ∉ app.events t acts := by
  intro hmem
  obtain ⟨pre, a, post, u, out, rfl, hrun, he⟩ := Steps.mem_labels hmem
  cases a with
  | byte c env =>
    have hinv : u.invocation (.byte c env) = none := by
      rw [invocations_append t hrun] at h
      have hlabel := (List.filterMap_eq_nil_iff.mp (List.append_eq_nil_iff.mp h).2)
      exact hlabel _ List.mem_cons_self
    simp only [event, show (u.shell.processByte env.nullEq c).2 = none from hinv] at he
    exact absurd he (by simp)
  | pid e =>
    rw [event] at he
    split at he <;> exact absurd he (by simp)
  | autoStop e =>
    rw [event] at he
    split at he <;> exact absurd he (by simp)

/-- A byte inside a line is stored, and nothing else happens but what moves the wheels. -/
theorem step_store {app : App} {w : List Byte} {c : Byte} (env : Env) (h : app.Ready w)
    (hw : w.length + 1 < Shell.kCommandPromptLengthMax) (hcr : c ≠ CR) (hlf : c ≠ LF) :
    ∃ shell, step t app (.byte c env) =
        some ({ app.moveEncoders t env.leftMove env.rightMove with shell := shell }, []) ∧
      Ready { app.moveEncoders t env.leftMove env.rightMove with shell := shell } (w ++ [c]) ∧
      app.invocation (.byte c env) = none := by
  obtain ⟨hp, hreg, hnone⟩ := Shell.processByte_store app.shell env.nullEq w c h.pending hw hcr hlf
  refine ⟨(app.shell.processByte env.nullEq c).1, ?_, ⟨hreg.trans h.registry, hp⟩, hnone⟩
  simp only [step, processByte, moveEncoders, hnone]

/-- A carriage return calls the handler of the line, which finds an empty line. -/
theorem step_CR {app : App} {w : List Byte} (env : Env) {i : Shell.Invocation Callback}
    (h : app.Ready w) (hi : lineInvocation env.nullEq (Shell.segmentTokens w) = some i) :
    ∃ shell, step t app (.byte CR env) =
        invoke t env i { app.moveEncoders t env.leftMove env.rightMove with shell := shell } ∧
      Ready { app.moveEncoders t env.leftMove env.rightMove with shell := shell } [] ∧
      app.invocation (.byte CR env) = some i := by
  obtain ⟨hp, hreg, hinv⟩ := Shell.processByte_CR app.shell env.nullEq w h.pending
  have hline : app.shell.lineCall env.nullEq w = some i :=
    (Shell.lineCall_registry h.registry env.nullEq w).trans hi
  have hcall : (app.shell.processByte env.nullEq CR).2 = some i := hinv.trans hline
  refine ⟨(app.shell.processByte env.nullEq CR).1, ?_, ⟨hreg.trans h.registry, hp⟩, hcall⟩
  simp only [step, processByte, moveEncoders, hcall]

theorem event_of_invocation {app : App} {c : Byte} {env : Env} {i : Shell.Invocation Callback}
    (h : app.invocation (.byte c env) = some i) :
    app.event t (.byte c env) = invocationEvent t env i := by
  simp only [event, show (app.shell.processByte env.nullEq c).2 = some i from h]

/-- The tasks leave the line alone. -/
theorem shell_pidTask (app : App) (e : PidEnv) : (app.pidTask t e).shell = app.shell := by
  by_cases hdue : app.PidDue e
  · rw [pidTask_due t hdue]
    rfl
  · rw [pidTask_not_due t hdue]
    rfl

theorem shell_autoStopTask (app : App) (e : StopEnv) :
    (app.autoStopTask t e).shell = app.shell := by
  by_cases hdue : app.StopDue e
  · rw [autoStopTask_due t hdue]
    rfl
  · rw [autoStopTask_not_due t hdue]

theorem Ready.of_shell {app app' : App} {w : List Byte} (h : app.Ready w)
    (hs : app'.shell = app.shell) : app'.Ready w :=
  ⟨hs ▸ h.registry, hs ▸ h.pending⟩

/-- The shell of a step is that of its byte, or the same. -/
theorem shell_step {app app' : App} {a : Action} {out : List Byte}
    (h : step t app a = some (app', out)) : app'.shell.registry = app.shell.registry := by
  cases a with
  | byte c env =>
    have hreg := Shell.processByte_registry app.shell env.nullEq c
    simp only [step, processByte] at h
    split at h
    · simp only [Option.some.injEq] at h
      rw [← (Prod.mk.inj h).1]
      exact hreg
    · rename_i i hi
      rw [(invoke_drive t (processByte_arg_ne_nul hi 1) h).2]
      exact hreg
  | pid e =>
    simp only [step, Option.some.injEq] at h
    rw [← (Prod.mk.inj h).1, shell_pidTask]
  | autoStop e =>
    simp only [step, Option.some.injEq] at h
    rw [← (Prod.mk.inj h).1, shell_autoStopTask]

/-- Whenever the index is back at zero, the application is ready for a new line. -/
theorem ready_run {imu : Bool} {leftMove rightMove : Int} {acts : List Action} {app : App}
    {out : List Byte}
    (hr : Steps.run (step t) (setup t imu leftMove rightMove) acts = some (app, out))
    (hidx : app.shell.messageIndex = 0) : app.Ready [] := by
  refine ⟨?_, hidx, rfl⟩
  exact Steps.run_invariant (fun app => app.shell.registry = setupShell.registry)
    (fun _ _ _ _ h hs => (shell_step t hs).trans h) rfl hr

/-! ## Whole lines, with tasks running between their bytes -/

/-- The bytes among the actions. -/
def delivered : List Action → List Byte
  | [] => []
  | .byte c _ :: as => c :: delivered as
  | .pid _ :: as => delivered as
  | .autoStop _ :: as => delivered as

/-- A text delivered byte by byte in the same surroundings. -/
def typed (env : Env) (w : List Byte) : List Action := w.map (fun c => .byte c env)

@[simp] theorem delivered_typed (env : Env) (w : List Byte) : delivered (typed env w) = w := by
  induction w with
  | nil => rfl
  | cons c w ih => exact congrArg (c :: ·) ih

theorem delivered_append (as bs : List Action) :
    delivered (as ++ bs) = delivered as ++ delivered bs := by
  induction as with
  | nil => rfl
  | cons a as ih => cases a <;> simp [delivered, ih]

/-- Tasks alone have no output and leave the line alone. -/
theorem step_task (app : App) (a : Action) (h : delivered [a] = []) :
    ∃ app', step t app a = some (app', []) ∧ app'.shell = app.shell := by
  cases a with
  | byte c env => exact absurd h (by simp [delivered])
  | pid e => exact ⟨app.pidTask t e, rfl, shell_pidTask t app e⟩
  | autoStop e => exact ⟨app.autoStopTask t e, rfl, shell_autoStopTask t app e⟩

theorem event_task {app : App} {a : Action} (h : delivered [a] = []) (s : List Byte) :
    app.event t a ≠ .setTunings s := by
  cases a with
  | byte c env => exact absurd h (by simp [delivered])
  | pid e =>
    rw [event]
    split <;> simp
  | autoStop e =>
    rw [event]
    split <;> simp

/-- A text without line ends is received as it is, whatever tasks run meanwhile. -/
theorem run_text {app : App} {w : List Byte} (acts : List Action) (h : app.Ready w)
    (hlen : (w ++ delivered acts).length < Shell.kCommandPromptLengthMax)
    (hplain : ∀ c ∈ delivered acts, c ≠ CR ∧ c ≠ LF) :
    ∃ app', Steps.run (step t) app acts = some (app', []) ∧ app'.Ready (w ++ delivered acts) ∧
      app.invocations t acts = [] := by
  induction acts generalizing app w with
  | nil => exact ⟨app, rfl, by simpa [delivered] using h, rfl⟩
  | cons a acts ih =>
    have hstep : ∃ app₁, step t app a = some (app₁, []) ∧ app₁.Ready (w ++ delivered [a]) ∧
        app.invocation a = none := by
      cases a with
      | byte c env =>
        simp only [delivered, List.length_append, List.length_cons] at hlen
        obtain ⟨hcr, hlf⟩ := hplain c (by simp [delivered])
        obtain ⟨shell, hs, hr, hnone⟩ := step_store t env h (by omega) hcr hlf
        exact ⟨_, hs, hr, hnone⟩
      | pid e =>
        obtain ⟨app₁, hs, hshell⟩ := step_task t app (.pid e) rfl
        exact ⟨app₁, hs, by simpa [delivered] using h.of_shell hshell, rfl⟩
      | autoStop e =>
        obtain ⟨app₁, hs, hshell⟩ := step_task t app (.autoStop e) rfl
        exact ⟨app₁, hs, by simpa [delivered] using h.of_shell hshell, rfl⟩
    have happ : delivered (a :: acts) = delivered [a] ++ delivered acts :=
      delivered_append [a] acts
    rw [happ, ← List.append_assoc] at hlen ⊢
    obtain ⟨app₁, hs, hr, hnone⟩ := hstep
    obtain ⟨app', hrun, hready, hinv⟩ := ih hr hlen
      (fun c hc => hplain c (by rw [happ]; exact List.mem_append_right _ hc))
    refine ⟨app', Steps.run_step hs hrun, hready, ?_⟩
    rw [invocations_cons t hs, hnone, hinv]
    rfl

/-- The delivery of a line splits at its carriage return. -/
theorem delivered_split {acts : List Action} {w : List Byte} (h : delivered acts = w ++ [CR]) :
    ∃ before env after, acts = before ++ .byte CR env :: after ∧ delivered before = w ∧
      delivered after = [] := by
  induction acts generalizing w with
  | nil => exact absurd h (by simp [delivered])
  | cons a acts ih =>
    cases a with
    | byte c env =>
      cases w with
      | nil =>
        simp only [delivered, List.nil_append, List.cons.injEq] at h
        obtain ⟨rfl, h⟩ := h
        exact ⟨[], env, acts, rfl, rfl, h⟩
      | cons d w =>
        simp only [delivered, List.cons_append, List.cons.injEq] at h
        obtain ⟨rfl, h⟩ := h
        obtain ⟨before, env', after, rfl, rfl, ha⟩ := ih h
        exact ⟨.byte c env :: before, env', after, rfl, rfl, ha⟩
    | pid e =>
      obtain ⟨before, env', after, rfl, rfl, ha⟩ := ih h
      exact ⟨.pid e :: before, env', after, rfl, rfl, ha⟩
    | autoStop e =>
      obtain ⟨before, env', after, rfl, rfl, ha⟩ := ih h
      exact ⟨.autoStop e :: before, env', after, rfl, rfl, ha⟩

/-- Once its line has been delivered, the handler runs; tasks may follow. -/
theorem run_line {app : App} {w : List Byte} {acts : List Action} (h : app.Ready [])
    (hd : delivered acts = w ++ [CR]) (hlen : w.length < Shell.kCommandPromptLengthMax)
    (hplain : ∀ c ∈ w, c ≠ CR ∧ c ≠ LF) :
    ∃ (before after : List Action) (env : Env) (mid : App),
      acts = before ++ .byte CR env :: after ∧ delivered after = [] ∧
      Steps.run (step t) app before = some (mid, []) ∧ mid.Ready w ∧
      app.invocations t before = [] := by
  obtain ⟨before, env, after, rfl, rfl, ha⟩ := delivered_split hd
  obtain ⟨mid, hrun, hready, hinv⟩ := run_text t before h (by simpa using hlen) hplain
  exact ⟨before, after, env, mid, rfl, ha, hrun, by simpa using hready, hinv⟩

/-! ## Words -/

/-- A word of a command line: not empty, and free of what ends words and lines. -/
structure Word (w : List Byte) : Prop where
  ne_nil : w ≠ []
  plain : ∀ c ∈ w, c ≠ 0 ∧ c ≠ LF ∧ c ≠ CR ∧ c ≠ SP

theorem word_decimal (x : Int) : Word (decimal x) :=
  ⟨decimal_ne_nil x, fun c hc =>
    ⟨(decimal_plain x c hc).1, (decimal_plain x c hc).2.1, (decimal_plain x c hc).2.2.1,
      (decimal_plain x c hc).2.2.2.1⟩⟩

theorem takeWhile_ne_nul {w : List Byte} (h : ∀ c ∈ w, c ≠ 0) : w.takeWhile (· ≠ 0) = w :=
  List.takeWhile_eq_self_iff.mpr (by simpa using h)

theorem Word.ne_nul {w : List Byte} (h : Word w) : ∀ c ∈ w, c ≠ 0 := fun c hc => (h.plain c hc).1

theorem Word.line {w : List Byte} (h : Word w) : ∀ c ∈ w, c ≠ CR ∧ c ≠ LF :=
  fun c hc => ⟨(h.plain c hc).2.2.1, (h.plain c hc).2.1⟩

theorem Word.notMem {w : List Byte} (h : Word w) : ∀ c ∈ w, c ∉ [SP] := by
  intro c hc hmem
  exact (h.plain c hc).2.2.2 (List.mem_singleton.mp hmem)

/-- One letter and no argument. -/
theorem segmentTokens_one {a : List Byte} (ha : Word a) : Shell.segmentTokens a = [a] := by
  rw [Shell.segmentTokens, takeWhile_ne_nul ha.ne_nul]
  exact tokens_word [SP] a ha.ne_nil ha.notMem

theorem segmentTokens_cons {a w : List Byte} (ha : Word a) (hw : ∀ c ∈ w, c ≠ 0) :
    Shell.segmentTokens (a ++ SP :: w) = a :: Shell.segmentTokens w := by
  have hall : ∀ c ∈ a ++ SP :: w, c ≠ 0 := forall_mem_append_cons ha.ne_nul (by decide) hw
  rw [Shell.segmentTokens, Shell.segmentTokens, takeWhile_ne_nul hall, takeWhile_ne_nul hw]
  exact tokens_word_append [SP] a w SP ha.ne_nil ha.notMem (List.mem_singleton_self SP)

/-! ## The lines of the motor driver -/

theorem lineInvocation_e (nullEq : List Byte → Bool) :
    lineInvocation nullEq [ascii "e"] =
      some ⟨.readEncoders, 1, [some (ascii "e"), none]⟩ := rfl

theorem lineInvocation_m (nullEq : List Byte → Bool) (a b : List Byte) :
    lineInvocation nullEq [ascii "m", a, b] =
      some ⟨.setMotorsSpeed, 3, [some (ascii "m"), some a, some b, none]⟩ := rfl

theorem lineInvocation_u (nullEq : List Byte → Bool) (a : List Byte) :
    lineInvocation nullEq [ascii "u", a] =
      some ⟨.setPidTuningGains, 2, [some (ascii "u"), some a, none]⟩ := rfl

theorem word_e : Word (ascii "e") := ⟨by decide, forall_mem_of_all (by decide)⟩

theorem word_m : Word (ascii "m") := ⟨by decide, forall_mem_of_all (by decide)⟩

theorem word_u : Word (ascii "u") := ⟨by decide, forall_mem_of_all (by decide)⟩

theorem segmentTokens_m {a b : List Byte} (ha : Word a) (hb : Word b) :
    Shell.segmentTokens (ascii "m" ++ SP :: (a ++ SP :: b)) = [ascii "m", a, b] := by
  have hnul : ∀ c ∈ a ++ SP :: b, c ≠ 0 := forall_mem_append_cons ha.ne_nul (by decide) hb.ne_nul
  rw [segmentTokens_cons word_m hnul, segmentTokens_cons ha hb.ne_nul, segmentTokens_one hb]

theorem segmentTokens_u {a : List Byte} (ha : Word a) :
    Shell.segmentTokens (ascii "u" ++ SP :: a) = [ascii "u", a] := by
  rw [segmentTokens_cons word_u ha.ne_nul, segmentTokens_one ha]

/-- The reply to `e` is the two counts at the time of the reply. -/
theorem step_e {app : App} (env : Env) (h : app.Ready (ascii "e")) :
    ∃ app', step t app (.byte CR env) =
        some (app', decimal app'.leftEncoder.read ++ print " " ++
          println (decimal app'.rightEncoder.read)) ∧
      app'.Ready [] ∧
      app'.leftEncoder = app.leftEncoder.move t env.leftMove ∧
      app'.rightEncoder = app.rightEncoder.move t env.rightMove := by
  obtain ⟨shell, hs, hr, -⟩ := step_CR t env h
    (by rw [segmentTokens_one word_e]; exact lineInvocation_e _)
  exact ⟨_, hs, hr, rfl, rfl⟩

theorem ready_invoke (env : Env) (i : Shell.Invocation Callback) {app app' : App} {w out : List Byte}
    (hnul : ∀ c ∈ arg i.argv 1, c ≠ 0) (h : app.Ready w)
    (hi : invoke t env i app = some (app', out)) : app'.Ready w :=
  h.of_shell (invoke_drive t hnul hi).2

/-- The reply to `m` with two arguments is `OK`. -/
theorem step_m {app : App} (env : Env) {a b : List Byte} (ha : Word a) (hb : Word b)
    (h : app.Ready (ascii "m" ++ SP :: (a ++ SP :: b))) :
    ∃ app', step t app (.byte CR env) = some (app', println (print "OK")) ∧ app'.Ready [] ∧
      app.event t (.byte CR env) = .setMotorsSpeed (atoi t a) (atoi t b) env.now := by
  obtain ⟨shell, hs, hr, hi⟩ := step_CR t env h
    (by rw [segmentTokens_m ha hb]; exact lineInvocation_m _ a b)
  refine ⟨_, hs, ?_, event_of_invocation t hi⟩
  exact ready_invoke t env ⟨.setMotorsSpeed, 3, [some (ascii "m"), some a, some b, none]⟩
    ha.ne_nul hr rfl

/-- `u` with an argument that fits the handler's array sets both controllers. -/
theorem step_u {app : App} (env : Env) {a : List Byte} (ha : Word a) (hfit : a.length < kArgSize)
    (h : app.Ready (ascii "u" ++ SP :: a)) :
    ∃ app', step t app (.byte CR env) = some (app', gainsReply (requestedGains t a)) ∧
      app'.Ready [] ∧ app.event t (.byte CR env) = .setTunings a := by
  obtain ⟨shell, hs, hr, hi⟩ := step_CR t env h
    (by rw [segmentTokens_u ha]; exact lineInvocation_u _ a)
  have hcall := cmdSetPidTuningGainsCb_fits t 2 [some (ascii "u"), some a, none]
    { app.moveEncoders t env.leftMove env.rightMove with shell := shell } (by decide) ha.ne_nul hfit
  refine ⟨_, hs.trans hcall, ?_, event_of_invocation t hi⟩
  exact ready_invoke t env ⟨.setPidTuningGains, 2, [some (ascii "u"), some a, none]⟩
    ha.ne_nul hr hcall

/-- With a longer argument it has no next state. -/
theorem step_u_overflow {app : App} (env : Env) {a : List Byte} (ha : Word a)
    (hlong : ¬ a.length < kArgSize) (h : app.Ready (ascii "u" ++ SP :: a)) :
    step t app (.byte CR env) = none := by
  obtain ⟨shell, hs, -, -⟩ := step_CR t env h
    (by rw [segmentTokens_u ha]; exact lineInvocation_u _ a)
  exact hs.trans (cmdSetPidTuningGainsCb_overflow t 2 [some (ascii "u"), some a, none] _
    (by decide) hlong)

end App

end AndinoFirmware
