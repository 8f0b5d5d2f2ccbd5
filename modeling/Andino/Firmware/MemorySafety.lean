import Andino.Firmware.Command
import Andino.Firmware.ShellLines

/-!
# Staying within the arrays

The line buffer and the argument vector are written within their bounds whatever arrives.
What can leave its array is the copy that `u` makes of its first argument, and which
streams of bytes do that is decided by their lines alone.
-/
namespace AndinoFirmware

open CArith CString

namespace App

/-- A line that makes `u` copy more than its array holds. -/
def Overlong (w : List Byte) : Prop :=
  ∃ a ts, Shell.segmentTokens w = ascii "u" :: a :: ts ∧ kArgSize ≤ a.length

variable (t : Target)

theorem invoke_eq_none_iff (env : Env) (i : Shell.Invocation Callback) (app : App) :
    invoke t env i app = none ↔
      i.callback = .setPidTuningGains ∧ 2 ≤ i.argc ∧ kArgSize ≤ (arg i.argv 1).length := by
  obtain ⟨callback, argc, argv⟩ := i
  cases callback with
  | setPidTuningGains =>
    simp only [invoke, cmdSetPidTuningGainsCb, strcpy, List.length_replicate, true_and]
    by_cases hargc : argc < 2
    · rw [if_pos hargc]
      simp [hargc]
    · by_cases hfit : (arg argv 1).length < kArgSize
      · rw [if_neg hargc, if_pos hfit]
        simp [hfit]
      · rw [if_neg hargc, if_neg hfit]
        exact ⟨fun _ => ⟨Nat.le_of_not_lt hargc, Nat.le_of_not_lt hfit⟩, fun _ => rfl⟩
  | _ => simp [invoke]

/-- The handler of the gains is found by its name. -/
theorem lineInvocation_setPidTuningGains {nullEq : List Byte → Bool} {c : List Byte}
    {ts : List (List Byte)} {i : Shell.Invocation Callback}
    (h : lineInvocation nullEq (c :: ts) = some i) (hi : i.callback = .setPidTuningGains) :
    c = ascii "u" := by
  have hname : ∀ x ∈ setupShell.commands, x.callback = .setPidTuningGains →
      x.name.bytes = ascii "u" := by decide
  have hdefault : setupShell.defaultCallback = some .unknown := rfl
  simp only [lineInvocation, Shell.executeCallback] at h
  split at h
  · rename_i x hx
    obtain rfl := Option.some.inj h
    rw [Shell.selected_eq] at hx
    have hmatch := List.find?_some hx
    rw [← hname x (List.mem_of_find?_eq_some hx) hi]
    exact of_decide_eq_true hmatch
  · rw [hdefault] at h
    obtain rfl := Option.some.inj h
    cases hi

theorem lineInvocation_u_cons (nullEq : List Byte → Bool) (a : List Byte) (ts : List (List Byte)) :
    lineInvocation nullEq (ascii "u" :: a :: ts) =
      some ⟨.setPidTuningGains, min (ts.length + 2) (Shell.kCommandArgMax - 1),
        Shell.argvOf (ascii "u" :: a :: ts)⟩ := rfl

/-- Which lines have a call that does not return. -/
theorem invoke_line_eq_none_iff {env : Env} {w : List Byte} {i : Shell.Invocation Callback}
    (h : lineInvocation env.nullEq (Shell.segmentTokens w) = some i) (app : App) :
    invoke t env i app = none ↔ Overlong w := by
  rw [invoke_eq_none_iff, Overlong]
  generalize Shell.segmentTokens w = tokens at h
  constructor
  · rintro ⟨hi, hargc, hlong⟩
    cases tokens with
    | nil =>
      have hzero : i.argc = 0 := by
        simp only [lineInvocation, Shell.executeCallback] at h
        split at h
        · exact congrArg Shell.Invocation.argc (Option.some.inj h).symm
        · obtain ⟨_, -, rfl⟩ := Option.map_eq_some_iff.mp h
          rfl
      omega
    | cons c ts =>
      obtain rfl := lineInvocation_setPidTuningGains h hi
      cases ts with
      | nil =>
        obtain rfl : _ = i := Option.some.inj h
        exact absurd hargc (by decide)
      | cons a ts =>
        rw [lineInvocation_u_cons] at h
        obtain rfl := Option.some.inj h
        exact ⟨a, ts, rfl, hlong⟩
  · rintro ⟨a, ts, rfl, hlong⟩
    rw [lineInvocation_u_cons] at h
    obtain rfl := Option.some.inj h
    have hargc : 2 ≤ Shell.kCommandArgMax - 1 := by decide
    refine ⟨rfl, ?_, hlong⟩
    dsimp only
    omega

/-- The default callback takes what has no handler. -/
theorem exists_lineInvocation (nullEq : List Byte → Bool) (ts : List (List Byte)) :
    ∃ i, lineInvocation nullEq ts = some i := by
  simp only [lineInvocation, Shell.executeCallback]
  split <;> exact ⟨_, rfl⟩

/-- The carriage return of a line. -/
theorem step_CR_eq_none_iff {app : App} {w : List Byte} (env : Env) (h : app.Ready w) :
    step t app (.byte CR env) = none ↔ Overlong w := by
  obtain ⟨i, hi⟩ := exists_lineInvocation env.nullEq (Shell.segmentTokens w)
  obtain ⟨shell, hs, -, -⟩ := step_CR t env h hi
  rw [hs]
  exact invoke_line_eq_none_iff t hi _

theorem step_of_invocation_none {app : App} {c : Byte} {env : Env}
    (h : app.invocation (.byte c env) = none) :
    step t app (.byte c env) =
      some ({ app.moveEncoders t env.leftMove env.rightMove with
        shell := (app.shell.processByte env.nullEq c).1 }, []) := by
  simp only [step, processByte, moveEncoders]
  rw [show (app.shell.processByte env.nullEq c).2 = none from h]

/-- What a step without a carriage return does to the line, and that it returns. -/
theorem step_returns {app : App} {line : List Byte} {a : Action}
    (h : app.Ready (Shell.kept line)) (ha : CR ∉ delivered [a]) :
    ∃ app' out, step t app a = some (app', out) ∧
      app'.Ready (Shell.kept (line ++ (delivered [a]).filter (· ≠ LF))) := by
  cases a with
  | pid e =>
    refine ⟨_, _, rfl, ?_⟩
    simpa [delivered] using h.of_shell (shell_pidTask t app e)
  | autoStop e =>
    refine ⟨_, _, rfl, ?_⟩
    simpa [delivered] using h.of_shell (shell_autoStopTask t app e)
  | byte c env =>
    have hcr : c ≠ CR := fun hc => ha (by simp [delivered, hc])
    by_cases hlf : c = LF
    · subst hlf
      have hcall := Shell.processByte_LF app.shell env.nullEq
      refine ⟨_, _, step_of_invocation_none t (congrArg Prod.snd hcall), ?_⟩
      rw [show (delivered [.byte LF env]).filter (· ≠ LF) = [] from rfl, List.append_nil]
      exact h.of_shell (congrArg Prod.fst hcall)
    · obtain ⟨hp, hreg, hnone⟩ :=
        Shell.processByte_extend app.shell env.nullEq line c h.pending hcr hlf
      refine ⟨_, _, step_of_invocation_none t hnone, hreg.trans h.registry, ?_⟩
      simpa [delivered, hlf] using hp

/-- With `line` already received. -/
theorem run_eq_none_iff {app : App} {line : List Byte} (acts : List Action)
    (h : app.Ready (Shell.kept line)) (hl : CR ∉ line) :
    Steps.run (step t) app acts = none ↔
      ∃ w ∈ ((line ++ (delivered acts).filter (· ≠ LF)).splitOn CR).dropLast,
        Overlong (Shell.kept w) := by
  induction acts generalizing app line with
  | nil =>
    have hone : (line ++ (delivered []).filter (· ≠ LF)).splitOn CR = [line] := by
      rw [delivered, List.filter_nil, List.append_nil]
      exact List.splitOn_eq_singleton hl
    rw [hone]
    simp
  | cons a acts ih =>
    have hsplit : delivered (a :: acts) = delivered [a] ++ delivered acts :=
      delivered_append [a] acts
    rw [Steps.run_cons, hsplit, List.filter_append]
    by_cases ha : CR ∈ delivered [a]
    · -- the line is complete, and the next one starts empty
      obtain ⟨env, rfl⟩ : ∃ env, a = .byte CR env := by
        cases a with
        | byte c env =>
          obtain rfl : CR = c := by simpa [delivered] using ha
          exact ⟨env, rfl⟩
        | pid e => exact absurd ha (by simp [delivered])
        | autoStop e => exact absurd ha (by simp [delivered])
      have hlines : (line ++ ((delivered [.byte CR env]).filter (· ≠ LF) ++
          (delivered acts).filter (· ≠ LF))).splitOn CR =
          line :: ((delivered acts).filter (· ≠ LF)).splitOn CR := by
        rw [show (delivered [.byte CR env]).filter (· ≠ LF) = [CR] from rfl,
          List.singleton_append, List.splitOn_append_cons_self, List.splitOn_eq_singleton hl,
          List.singleton_append]
      rw [hlines, List.dropLast_cons_of_ne_nil (List.splitOn_ne_nil _ _)]
      have hcr := step_CR_eq_none_iff t env h
      cases hs : step t app (.byte CR env) with
      | none => simpa using .inl (hcr.mp hs)
      | some r =>
        have hnot : ¬ Overlong (Shell.kept line) := fun ho => by
          rw [hcr.mpr ho] at hs
          exact absurd hs (by simp)
        have hready : r.1.Ready (Shell.kept []) := by
          obtain ⟨i, hi⟩ :=
            exists_lineInvocation env.nullEq (Shell.segmentTokens (Shell.kept line))
          obtain ⟨shell, hcall, hempty, hinv⟩ := step_CR t env h hi
          rw [hs] at hcall
          exact ready_invoke t env i (processByte_arg_ne_nul hinv 1) hempty hcall.symm
        have hih := ih hready (by simp)
        rw [List.nil_append] at hih
        simp only [Option.bind_some, Option.map_eq_none_iff, hih, List.mem_cons,
          exists_eq_or_imp, hnot, false_or]
    · obtain ⟨app', out, hs, hready⟩ := step_returns t h ha
      have hl' : CR ∉ line ++ (delivered [a]).filter (· ≠ LF) := by
        simp only [List.mem_append, List.mem_filter, not_or, not_and]
        exact ⟨hl, fun hmem => absurd hmem ha⟩
      rw [hs, Option.bind_some, Option.map_eq_none_iff, ih hready hl', List.append_assoc]

/-- Whatever arrives, and whatever runs in between: the copy of an argument leaves its array
exactly if one of the complete lines is a `u` with a word of 20 bytes or more behind it. Of a
line longer than the buffer, that is the part since the index last went back to zero. Every
byte of the run writes the line buffer inside its bounds, and what `strtok` finds in it fits
the argument vector. -/
theorem memory_safe_iff (imu : Bool) (leftMove rightMove : Int) (acts : List Action) :
    ((∃ app out, Steps.run (step t) (setup t imu leftMove rightMove) acts = some (app, out)) ↔
      ∀ w ∈ (Shell.segments (delivered acts)).dropLast, ¬ Overlong (Shell.kept w)) ∧
    ∀ pre c env post app out, acts = pre ++ .byte c env :: post →
      Steps.run (step t) (setup t imu leftMove rightMove) pre = some (app, out) →
      app.shell.WritesInside env.nullEq c ∧ app.shell.tokenised.length ≤ Shell.kCommandArgMax := by
  have hready : (setup t imu leftMove rightMove).Ready (Shell.kept []) :=
    ready_setup t imu leftMove rightMove
  have h := run_eq_none_iff t acts hready (by simp)
  rw [List.nil_append] at h
  have hsome : (∃ app out, Steps.run (step t) (setup t imu leftMove rightMove) acts =
      some (app, out)) ↔ Steps.run (step t) (setup t imu leftMove rightMove) acts ≠ none := by
    rw [Option.ne_none_iff_exists']
    exact ⟨fun ⟨app, out, hr⟩ => ⟨(app, out), hr⟩, fun ⟨r, hr⟩ => ⟨r.1, r.2, hr⟩⟩
  refine ⟨?_, fun _ c env _ app _ _ _ =>
    ⟨app.shell.writesInside env.nullEq c, app.shell.tokenised_length_le⟩⟩
  rw [hsome, Ne, h]
  simp only [Shell.segments, not_exists, not_and]

end App

end AndinoFirmware
