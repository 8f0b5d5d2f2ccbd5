import Andino.Firmware.ResetEncoders

/-!
# Queries

The commands that read something, the unknown ones and those with too few arguments change
nothing but the line buffer, whose rest nobody looks at. A line of that kind is therefore as
good as the same number of line feeds, with whatever tasks run between its bytes: the robot
does the same afterwards, and answers the same to everything else.
-/
namespace AndinoFirmware

open CArith CString

namespace App

def withShell (app : App) (shell : Shell Callback) : App := { app with shell := shell }

/-- The application without its shell. -/
def body (app : App) : App := app.withShell setupShell

/-- The bytes become line feeds, which the shell drops. -/
def Action.mute : Action → Action
  | .byte _ env => .byte LF env
  | a => a

variable (t : Target)

/-- No handler looks at the shell. -/
theorem invoke_withShell (env : Env) (i : Shell.Invocation Callback) (app : App)
    (shell : Shell Callback) :
    invoke t env i (app.withShell shell) =
      (invoke t env i app).map (fun r => (r.1.withShell shell, r.2)) := by
  obtain ⟨callback, argc, argv⟩ := i
  cases callback with
  | readAnalogGpio | readDigitalGpio =>
    simp only [invoke, cmdReadAnalogGpioCb, cmdReadDigitalGpioCb, readGpio]
    split <;> rfl
  | setMotorsSpeed =>
    simp only [invoke, cmdSetMotorsSpeedCb, Option.map_some]
    by_cases hargc : argc < 3
    · rw [if_pos hargc, if_pos hargc]
    · rw [if_neg hargc, if_neg hargc]
      by_cases hidle : atoi t (arg argv 1) = 0 ∧ atoi t (arg argv 2) = 0
      · rw [if_pos hidle, if_pos hidle]
        rfl
      · rw [if_neg hidle, if_neg hidle]
        rfl
  | setMotorsPwm =>
    simp only [invoke, cmdSetMotorsPwmCb, Option.map_some]
    split <;> rfl
  | setPidTuningGains =>
    simp only [invoke, cmdSetPidTuningGainsCb]
    split
    · rfl
    · cases strcpy (List.replicate kArgSize 0) (arg argv 1) <;> rfl
  | _ => rfl

theorem pidTask_withShell (app : App) (e : PidEnv) (shell : Shell Callback) :
    (app.withShell shell).pidTask t e = (app.pidTask t e).withShell shell := by
  by_cases hdue : app.PidDue e
  · rw [pidTask_due t hdue]
    exact pidTask_due t hdue
  · rw [pidTask_not_due t hdue]
    exact pidTask_not_due t hdue

theorem autoStopTask_withShell (app : App) (e : StopEnv) (shell : Shell Callback) :
    (app.withShell shell).autoStopTask t e = (app.autoStopTask t e).withShell shell := by
  by_cases hdue : app.StopDue e
  · rw [autoStopTask_due t hdue]
    exact autoStopTask_due t hdue
  · rw [autoStopTask_not_due t hdue]
    exact autoStopTask_not_due t hdue

/-- The same application but for the rest of the line buffer. -/
structure Same (app app' : App) : Prop where
  shell : app.shell.Alike app'.shell
  body : app.body = app'.body

theorem Same.withShell {app app' : App} (h : Same app app') : app' = app.withShell app'.shell := by
  have hbody := congrArg (fun a : App => a.withShell app'.shell) h.body
  exact hbody.symm

theorem step_called (app : App) (c : Byte) (env : Env) :
    step t app (.byte c env) =
      (app.shell.processByte env.nullEq c).2.elim
        (some ((app.moveEncoders t env.leftMove env.rightMove).withShell
          (app.shell.processByte env.nullEq c).1, []))
        (fun i => invoke t env i ((app.moveEncoders t env.leftMove env.rightMove).withShell
          (app.shell.processByte env.nullEq c).1)) := by
  simp only [step, processByte]
  rw [show (app.moveEncoders t env.leftMove env.rightMove).shell = app.shell from rfl]
  cases (app.shell.processByte env.nullEq c).2 <;> rfl

theorem same_step (app app' : App) (a : Action) (h : Same app app') :
    Option.Rel (fun p q => Same p.1 q.1 ∧ p.2 = q.2) (step t app a) (step t app' a) := by
  rw [h.withShell]
  have hshell := h.shell
  generalize app'.shell = shell at hshell
  cases a with
  | byte c env =>
    obtain ⟨halike, hcall⟩ := Shell.alike_processByte hshell env.nullEq c
    rw [step_called, step_called, show (app.withShell shell).shell = shell from rfl, ← hcall]
    cases (app.shell.processByte env.nullEq c).2 with
    | none => exact .some ⟨⟨halike, rfl⟩, rfl⟩
    | some i =>
      have hmoved : ((app.withShell shell).moveEncoders t env.leftMove env.rightMove).withShell
          (shell.processByte env.nullEq c).1 = (app.moveEncoders t env.leftMove env.rightMove).withShell
          (shell.processByte env.nullEq c).1 := rfl
      rw [Option.elim_some, Option.elim_some, hmoved, invoke_withShell, invoke_withShell]
      cases invoke t env i (app.moveEncoders t env.leftMove env.rightMove) with
      | none => exact .none
      | some r => exact .some ⟨⟨halike, rfl⟩, rfl⟩
  | pid e =>
    have hpid : (app.pidTask t e).shell.Alike shell := by
      rw [shell_pidTask]
      exact hshell
    simp only [step, pidTask_withShell]
    exact .some ⟨⟨hpid, rfl⟩, rfl⟩
  | autoStop e =>
    have hstop : (app.autoStopTask t e).shell.Alike shell := by
      rw [shell_autoStopTask]
      exact hshell
    simp only [step, autoStopTask_withShell]
    exact .some ⟨⟨hstop, rfl⟩, rfl⟩

/-- A query changes nothing and always returns. -/
theorem invoke_inert (env : Env) {i : Shell.Invocation Callback} (h : Inert i) (app : App) :
    ∃ reply, invoke t env i app = some (app, reply) := by
  obtain ⟨callback, argc, argv⟩ := i
  cases callback with
  | resetEncoders => exact h.elim
  | readAnalogGpio | readDigitalGpio =>
    simp only [invoke, cmdReadAnalogGpioCb, cmdReadDigitalGpioCb, readGpio]
    split <;> exact ⟨_, rfl⟩
  | setMotorsSpeed | setMotorsPwm =>
    simp only [invoke, cmdSetMotorsSpeedCb, cmdSetMotorsPwmCb, if_pos (show argc < 3 from h)]
    exact ⟨_, rfl⟩
  | setPidTuningGains =>
    simp only [invoke, cmdSetPidTuningGainsCb, if_pos (show argc < 2 from h)]
    exact ⟨_, rfl⟩
  | _ => exact ⟨_, rfl⟩

/-! ## A line and its line feeds -/

/-- A line feed moves the wheels and nothing else. -/
theorem step_LF (app : App) (env : Env) :
    step t app (.byte LF env) = some (app.moveEncoders t env.leftMove env.rightMove, []) := by
  simp only [step, processByte]
  rw [show (app.moveEncoders t env.leftMove env.rightMove).shell = app.shell from rfl,
    Shell.processByte_LF]
  rfl

/-- The text of a line and as many line feeds. -/
theorem run_text_mute {app app' : App} {w : List Byte} (acts : List Action)
    (hbody : app.body = app'.body) (h : app.Ready w)
    (hlen : (w ++ delivered acts).length < Shell.kCommandPromptLengthMax)
    (hplain : ∀ c ∈ delivered acts, c ≠ CR ∧ c ≠ LF) :
    ∃ u u', Steps.run (step t) app acts = some (u, []) ∧
      Steps.run (step t) app' (acts.map Action.mute) = some (u', []) ∧
      u.Ready (w ++ delivered acts) ∧ u'.shell = app'.shell ∧ u.body = u'.body := by
  induction acts generalizing app app' w with
  | nil => exact ⟨app, app', rfl, rfl, by simpa [delivered] using h, rfl, hbody⟩
  | cons a acts ih =>
    have hstep : ∃ v v', step t app a = some (v, []) ∧ step t app' a.mute = some (v', []) ∧
        v.Ready (w ++ delivered [a]) ∧ v'.shell = app'.shell ∧ v.body = v'.body := by
      cases a with
      | byte c env =>
        simp only [delivered, List.length_append, List.length_cons] at hlen
        obtain ⟨hcr, hlf⟩ := hplain c (by simp [delivered])
        obtain ⟨shell, hs, hr, -⟩ := step_store t env h (by omega) hcr hlf
        refine ⟨_, _, hs, step_LF t app' env, hr, rfl, ?_⟩
        exact congrArg (fun a : App => a.moveEncoders t env.leftMove env.rightMove) hbody
      | pid e =>
        refine ⟨_, _, rfl, rfl, ?_, shell_pidTask t app' e, ?_⟩
        · simpa [delivered] using h.of_shell (shell_pidTask t app e)
        · rw [body, body, ← pidTask_withShell, ← pidTask_withShell]
          exact congrArg (fun a : App => a.pidTask t e) hbody
      | autoStop e =>
        refine ⟨_, _, rfl, rfl, ?_, shell_autoStopTask t app' e, ?_⟩
        · simpa [delivered] using h.of_shell (shell_autoStopTask t app e)
        · rw [body, body, ← autoStopTask_withShell, ← autoStopTask_withShell]
          exact congrArg (fun a : App => a.autoStopTask t e) hbody
    have happ : delivered (a :: acts) = delivered [a] ++ delivered acts :=
      delivered_append [a] acts
    rw [happ, ← List.append_assoc] at hlen ⊢
    obtain ⟨v, v', hs, hs', hr, hshell, hb⟩ := hstep
    obtain ⟨u, u', hrun, hrun', hready, hshell', hb'⟩ := ih hb hr hlen
      (fun c hc => hplain c (by rw [happ]; exact List.mem_append_right _ hc))
    exact ⟨u, u', Steps.run_step hs hrun, Steps.run_step hs' hrun', hready,
      hshell'.trans hshell, hb'⟩

/-- The whole line, with what tasks follow it. -/
theorem run_query {app : App} {acts : List Action} {w : List Byte} {i : Shell.Invocation Callback}
    (h : app.Ready []) (hd : delivered acts = w ++ [CR])
    (hlen : w.length < Shell.kCommandPromptLengthMax) (hplain : ∀ c ∈ w, c ≠ CR ∧ c ≠ LF)
    (hi : ∀ nullEq, lineInvocation nullEq (Shell.segmentTokens w) = some i) (hinert : Inert i) :
    ∃ u u' reply, Steps.run (step t) app acts = some (u, reply) ∧
      Steps.run (step t) app (acts.map Action.mute) = some (u', []) ∧ Same u u' := by
  obtain ⟨before, env, after, rfl, hbefore, hafter⟩ := delivered_split hd
  obtain ⟨v, v', hrun, hrun', hready, hshell, hbody⟩ := run_text_mute t before rfl h
    (by simpa [hbefore] using hlen) (by simpa [hbefore] using hplain)
  rw [List.nil_append, hbefore] at hready
  obtain ⟨shell, hcr, hready', -⟩ := step_CR t env hready (hi env.nullEq)
  obtain ⟨reply, hreply⟩ := invoke_inert t env hinert
    { v.moveEncoders t env.leftMove env.rightMove with shell := shell }
  have hbody' : App.body { v.moveEncoders t env.leftMove env.rightMove with shell := shell } =
      (v'.moveEncoders t env.leftMove env.rightMove).body :=
    congrArg (fun a : App => a.moveEncoders t env.leftMove env.rightMove) hbody
  obtain ⟨u, u', hend, hend', hready'', hshell', hbody''⟩ := run_text_mute t after hbody' hready'
    (by simp [hafter]; decide) (by simp [hafter])
  rw [hafter, List.append_nil] at hready''
  refine ⟨u, u', reply, ?_, ?_, ⟨?_, hbody''⟩⟩
  · have hline := Steps.run_join hrun (Steps.run_step (hcr.trans hreply) hend)
    simpa using hline
  · rw [List.map_append, List.map_cons]
    exact Steps.run_join hrun' (Steps.run_step (step_LF t v' env) hend')
  · have hempty : u'.Ready [] := h.of_shell (hshell'.trans hshell)
    refine ⟨hready''.registry.trans hempty.registry.symm, [], hready''.pending, hempty.pending⟩

/-- An `e` with a tick in it, while the left wheel turns. -/
def asking : List Action :=
  typed { Env.quiet 20 with leftMove := 2 } (ascii "e") ++
    Action.pid ⟨40, 40, 3, 0⟩ :: typed (Env.quiet 41) [CR]

end App

end AndinoFirmware
