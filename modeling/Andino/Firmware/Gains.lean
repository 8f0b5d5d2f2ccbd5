import Andino.Firmware.Command

/-!
# Gains and the quotient of the controllers

Only an accepted `u` changes the gains, and its argument decides them: fields
that are missing, empty or not numbers count as zero. The divisor of the
quotient is the fourth gain, so the quotient is defined along a run as long as
every `u` brings a nonzero fourth field; any argument that does not is one `m`
and one tick away from a division by zero.
-/
namespace AndinoFirmware

open CArith CString Decimal

namespace Drive

variable (t : Target)

/-- The gains of the left and of the right controller. -/
def gains (d : Drive) : Gains × Gains :=
  (⟨d.left.kp, d.left.kd, d.left.ki, d.left.ko⟩, ⟨d.right.kp, d.right.kd, d.right.ki, d.right.ko⟩)

theorem gains_setTunings (d : Drive) (s : List Byte) :
    (d.step t (.setTunings s)).gains = (requestedGains t s, requestedGains t s) := rfl

theorem gains_step (d : Drive) (e : Event) (h : ∀ s, e ≠ .setTunings s) :
    (d.step t e).gains = d.gains := by
  cases e with
  | setMotorsSpeed l r now =>
    rw [step]
    split <;> rfl
  | setTunings s => exact absurd rfl (h s)
  | _ => rfl

end Drive

namespace App

variable (t : Target)

/-- The divisors of the quotients an action evaluates. -/
def divisors (app : App) : Action → List Int
  | .pid e =>
    if app.PidDue e then
      (app.leftComputation t e).divisor.toList ++ (app.rightComputation t e).divisor.toList
    else []
  | _ => []

/-- Without an accepted `u` the gains stay. -/
theorem gains_run {app app' : App} {acts : List Action} {out : List Byte}
    (hr : Steps.run (step t) app acts = some (app', out))
    (hev : ∀ s, Event.setTunings s ∉ app.events t acts) : app'.drive.gains = app.drive.gains := by
  refine Steps.run_history (event t)
    (fun _ es a _ => (∀ s, Event.setTunings s ∉ es) → a.drive.gains = app.drive.gains)
    (fun _ => rfl) ?_ hr hev
  intro _ es a _ act a' _ ih hstep hes
  rw [drive_step t hstep, Drive.gains_step t]
  · exact ih (fun s hs => hes s (List.mem_append_left _ hs))
  · exact fun s hs => hes s (by rw [hs]; simp)

theorem gains_setup (imu : Bool) (leftMove rightMove : Int) :
    (setup t imu leftMove rightMove).drive.gains = (⟨30, 10, 0, 10⟩, ⟨30, 10, 0, 10⟩) := rfl

/-- Both divisors are nonzero as long as every accepted `u` has a nonzero fourth gain. -/
theorem ko_run {imu : Bool} {leftMove rightMove : Int} {acts : List Action} {app : App}
    {out : List Byte}
    (hr : Steps.run (step t) (setup t imu leftMove rightMove) acts = some (app, out))
    (hev : ∀ s, Event.setTunings s ∈ (setup t imu leftMove rightMove).events t acts →
      (requestedGains t s).ko ≠ 0) :
    app.leftPid.ko ≠ 0 ∧ app.rightPid.ko ≠ 0 := by
  refine Steps.run_history (event t)
    (fun _ es a _ => (∀ s, Event.setTunings s ∈ es → (requestedGains t s).ko ≠ 0) →
      a.drive.gains.1.ko ≠ 0 ∧ a.drive.gains.2.ko ≠ 0)
    (fun _ => by rw [gains_setup]; decide) ?_ hr hev
  intro _ es a _ act a' _ ih hstep hes
  rw [drive_step t hstep]
  by_cases hs : ∃ s, a.event t act = .setTunings s
  · obtain ⟨s, hs⟩ := hs
    have hko := hes s (by rw [hs]; simp)
    rw [hs, Drive.gains_setTunings]
    exact ⟨hko, hko⟩
  · rw [Drive.gains_step t _ _ (fun s he => hs ⟨s, he⟩)]
    exact ih (fun s hmem => hes s (List.mem_append_left _ hmem))

/-- The divisors of a tick are the fourth gains of the enabled controllers. -/
theorem mem_divisors {app : App} {a : Action} {d : Int} (h : d ∈ app.divisors t a) :
    d = app.leftPid.ko ∨ d = app.rightPid.ko := by
  cases a with
  | pid e =>
    rw [divisors] at h
    split at h
    · simp only [leftComputation, rightComputation, Pid.compute_divisor, List.mem_append,
        Option.mem_toList] at h
      rcases h with h | h
      · split at h
        · exact .inl (Option.some.inj h).symm
        · exact absurd h (by simp)
      · split at h
        · exact .inr (Option.some.inj h).symm
        · exact absurd h (by simp)
    · exact absurd h (by simp)
  | byte c env => exact absurd h (by simp [divisors])
  | autoStop e => exact absurd h (by simp [divisors])

/-- A time at which the next computation is due. -/
def dueTick (app : App) : PidEnv :=
  ⟨app.lastPidComputation.toNat + 34, app.lastPidComputation.toNat + 34, 0, 0⟩

theorem pidDue_dueTick (app : App) : app.PidDue app.dueTick := by
  have h := elapsed app.lastPidComputation.toNat (app.lastPidComputation.toNat + 34) (by omega)
    (by omega)
  have hm : millis app.lastPidComputation.toNat = app.lastPidComputation := UInt32.ofNat_toNat
  rw [hm] at h
  change _ > 33
  rw [dueTick, h]
  omega

theorem u_line_length {s : List Byte} (h : s.length < kArgSize) :
    (ascii "u" ++ SP :: s).length < Shell.kCommandPromptLengthMax := by
  have h₁ : kArgSize = 20 := rfl
  have h₂ : Shell.kCommandPromptLengthMax = 64 := rfl
  have h₃ : (ascii "u").length = 1 := rfl
  rw [List.length_append, List.length_cons]
  omega

theorem u_line_plain {s : List Byte} (h : Word s) :
    ∀ c ∈ ascii "u" ++ SP :: s, c ≠ CR ∧ c ≠ LF :=
  forall_mem_append_cons word_u.line (by decide) h.line

/-- A line `u s` whose argument fits sets the gains of both controllers, whatever
tasks run between its bytes and after it. -/
theorem run_u {app : App} {s : List Byte} (acts : List Action) (h : app.Ready []) (hs : Word s)
    (hfit : s.length < kArgSize) (hd : delivered acts = ascii "u" ++ SP :: s ++ [CR]) :
    ∃ app' out, Steps.run (step t) app acts = some (app', out) ∧ app'.Ready [] ∧
      app'.drive.gains = (requestedGains t s, requestedGains t s) ∧
      ∀ s', Event.setTunings s' ∈ app.events t acts → s' = s := by
  obtain ⟨before, after, env, mid, rfl, ha, hrun, hready, hinv⟩ :=
    run_line t h hd (u_line_length hfit) (u_line_plain hs)
  obtain ⟨app₁, hstep, hr₁, he⟩ := step_u t env hs hfit hready
  obtain ⟨app', hrun', hr', hinv'⟩ := run_text t after hr₁ (by rw [ha]; decide)
    (by rw [ha]; simp)
  have hev := setTunings_notMem_events t hinv
  have hev' := setTunings_notMem_events t hinv'
  refine ⟨app', _, Steps.run_join hrun (Steps.run_step hstep hrun'), ?_, ?_, ?_⟩
  · simpa [ha] using hr'
  · rw [gains_run t hrun' hev', drive_step t hstep, he, Drive.gains_setTunings]
  · intro s' hmem
    rw [events, Steps.labels_append hrun, Steps.labels_cons hstep, he] at hmem
    rcases List.mem_append.mp hmem with h | h
    · exact absurd h (hev s')
    · rcases List.mem_cons.mp h with h | h
      · exact Event.setTunings.inj h
      · exact absurd h (hev' s')

/-- A line `u s` whose argument does not fit has no next state. -/
theorem run_u_overflow {app : App} {s : List Byte} {acts : List Action} (h : app.Ready [])
    (hs : Word s) (hlong : ¬ s.length < kArgSize)
    (hlen : (ascii "u" ++ SP :: s).length < Shell.kCommandPromptLengthMax)
    (hd : delivered acts = ascii "u" ++ SP :: s ++ [CR]) :
    Steps.run (step t) app acts = none := by
  obtain ⟨before, after, env, mid, rfl, -, hrun, hready, -⟩ :=
    run_line t h hd hlen (u_line_plain hs)
  rw [Steps.run_append, hrun, Option.bind_some, Steps.run_cons,
    step_u_overflow t env hs hlong hready]
  rfl

/-- The line `m 30 30` enables both controllers and keeps the gains. -/
theorem run_typed_m {app : App} (env : Env) (h : app.Ready []) :
    ∃ app' out,
      Steps.run (step t) app (typed env (ascii "m 30 30") ++ [.byte CR env]) = some (app', out) ∧
      app'.leftPid.enabled = true ∧ app'.drive.gains = app.drive.gains ∧
      ∀ s, Event.setTunings s ∉ app.events t (typed env (ascii "m 30 30") ++ [.byte CR env]) := by
  have hthirty : Word (ascii "30") := ⟨by decide, forall_mem_of_all (by decide)⟩
  have hatoi : atoi t (ascii "30") = 30 := t.int_of_fits 30 (by decide)
  obtain ⟨mid, hrun, hready, hinv⟩ := run_text t (typed env (ascii "m 30 30")) h
    (by rw [delivered_typed]; decide)
    (by rw [delivered_typed]; exact forall_mem_of_all (by decide))
  have hev := setTunings_notMem_events t hinv
  rw [delivered_typed, List.nil_append] at hready
  obtain ⟨app', hstep, -, he⟩ := step_m t env hthirty hthirty hready
  rw [hatoi] at he
  have hd := drive_step t hstep
  rw [he] at hd
  refine ⟨app', _, Steps.run_join hrun (Steps.run_step hstep (Steps.run_nil _ _)), ?_, ?_, ?_⟩
  · change app'.drive.left.enabled = true
    rw [hd]
    rfl
  · rw [hd, Drive.gains_step t _ _ (by simp), gains_run t hrun hev]
  · intro s hs
    rw [events, Steps.labels_append hrun, Steps.labels_cons hstep, he] at hs
    rcases List.mem_append.mp hs with h | h
    · exact hev s h
    · exact absurd h (by simp)

/-- An argument with a zero fourth gain, then `m 30 30` and a tick: the controllers
are enabled and divide by zero. -/
theorem reaches_zero_divisor (imu : Bool) (leftMove rightMove : Int) (s : List Byte) (hs : Word s)
    (hfit : s.length < kArgSize) (hko : (requestedGains t s).ko = 0) :
    ∃ acts, (∀ s', Event.setTunings s' ∈ (setup t imu leftMove rightMove).events t acts → s' = s) ∧
      ∃ ds ∈ Steps.labels (step t) (divisors t) (setup t imu leftMove rightMove) acts, 0 ∈ ds := by
  obtain ⟨app₁, out₁, hrun₁, hr₁, hg₁, hev₁⟩ :=
    run_u t (typed (Env.quiet 0) (ascii "u" ++ SP :: s ++ [CR]))
      (ready_setup t imu leftMove rightMove) hs hfit (delivered_typed _ _)
  obtain ⟨app₂, out₂, hrun₂, hen, hg₂, hev₂⟩ := run_typed_m t (Env.quiet 0) hr₁
  have hzero : app₂.leftPid.ko = 0 := by
    change app₂.drive.gains.1.ko = 0
    rw [hg₂, hg₁]
    exact hko
  have hrun := Steps.run_join hrun₁ hrun₂
  refine ⟨typed (Env.quiet 0) (ascii "u" ++ SP :: s ++ [CR]) ++
    (typed (Env.quiet 0) (ascii "m 30 30") ++ [.byte CR (Env.quiet 0)]) ++ [.pid app₂.dueTick],
    ?_, app₂.divisors t (.pid app₂.dueTick), ?_, ?_⟩
  · intro s' hmem
    rw [events, Steps.labels_append hrun, Steps.labels_append hrun₁] at hmem
    rcases List.mem_append.mp hmem with h | h
    · rcases List.mem_append.mp h with h | h
      · exact hev₁ s' h
      · exact absurd h (hev₂ s')
    · simp only [Steps.labels, step, List.mem_singleton] at h
      exact absurd h.symm (event_task t (a := .pid app₂.dueTick) rfl s')
  · rw [Steps.labels_append hrun]
    exact List.mem_append_right _ List.mem_cons_self
  · rw [divisors, if_pos (pidDue_dueTick app₂), leftComputation, Pid.compute_divisor, if_pos hen,
      hzero]
    exact List.mem_append_left _ (by simp)

/-- In every run in which each accepted `u` has a nonzero fourth gain, no quotient
has a zero divisor; and each argument excluded here does lead to one. -/
theorem quotient_defined (imu : Bool) (leftMove rightMove : Int) :
    (∀ acts, (∀ s, Event.setTunings s ∈ (setup t imu leftMove rightMove).events t acts →
        (requestedGains t s).ko ≠ 0) →
      ∀ ds ∈ Steps.labels (step t) (divisors t) (setup t imu leftMove rightMove) acts,
        ∀ d ∈ ds, d ≠ 0) ∧
    (∀ s, Word s → s.length < kArgSize → (requestedGains t s).ko = 0 →
      ∃ acts,
        (∀ s', Event.setTunings s' ∈ (setup t imu leftMove rightMove).events t acts → s' = s) ∧
        ∃ ds ∈ Steps.labels (step t) (divisors t) (setup t imu leftMove rightMove) acts, 0 ∈ ds) := by
  refine ⟨?_, fun s hs hfit hko => reaches_zero_divisor t imu leftMove rightMove s hs hfit hko⟩
  intro acts hev ds hds d hd
  obtain ⟨pre, a, post, app, o, rfl, hr, rfl⟩ := Steps.mem_labels hds
  have hpre : ∀ s, Event.setTunings s ∈ (setup t imu leftMove rightMove).events t pre →
      (requestedGains t s).ko ≠ 0 := by
    intro s hs
    refine hev s ?_
    rw [events, Steps.labels_append hr]
    exact List.mem_append_left _ hs
  obtain ⟨hl, hrr⟩ := ko_run t hr hpre
  rcases mem_divisors t hd with rfl | rfl
  · exact hl
  · exact hrr

/-- Gains that keep the quotient defined, and a tick that evaluates it. -/
theorem quotient_defined_fifty :
    [[50, 50]] = (Steps.labels (step exact) (divisors exact) (setup exact false 0 0)
        (typed (Env.quiet 0) (ascii "u 30:20:10:50\rm 100 100\r") ++ [.pid ⟨50, 50, 0, 0⟩])).filter
          (· ≠ []) ∧
      ∀ ds ∈ Steps.labels (step exact) (divisors exact) (setup exact false 0 0)
        (typed (Env.quiet 0) (ascii "u 30:20:10:50\rm 100 100\r") ++ [.pid ⟨50, 50, 0, 0⟩]),
        ∀ d ∈ ds, d ≠ 0 := by
  refine ⟨by decide +kernel, (quotient_defined exact false 0 0).1 _ ?_⟩
  have hev : ∀ e ∈ (setup exact false 0 0).events exact
      (typed (Env.quiet 0) (ascii "u 30:20:10:50\rm 100 100\r") ++ [.pid ⟨50, 50, 0, 0⟩]),
      e = .setTunings (ascii "30:20:10:50") ∨ e = .other ∨ e = .setMotorsSpeed 100 100 0 ∨
        e = .tick 1 1 := by decide +kernel
  intro s hs
  rcases hev _ hs with h | h | h | h
  · rw [Event.setTunings.inj h]
    decide +kernel
  · exact absurd h (by simp)
  · exact absurd h (by simp)
  · exact absurd h (by simp)

/-- The documented form of the command has blanks between its fields: only the
first one is read, and the next tick of the enabled controllers divides by zero. -/
theorem blank_separated_gains :
    [0, 0] ∈ Steps.labels (step (avr fun _ => 0)) (divisors (avr fun _ => 0))
      (setup (avr fun _ => 0) false 0 0)
      (typed (Env.quiet 0) (ascii "u 30 20 10 50\rm 100 100\r") ++ [.pid ⟨50, 50, 0, 0⟩]) := by
  decide +kernel

end App

end AndinoFirmware
