import Andino.Firmware.Drive

/-!
# The dead-man stop

The timer `last_set_motors_speed_cmd_` is restarted by `m` and by the stop
itself, not by `o`. What carries the proof is that the timer never starts later
than the last driving command while the robot is moving: `Watched` names the
unwrapped time the timer stands for. Since the previous check left that time at
most one window in the past, the 32-bit difference read by the next check is the
true one, whatever the clock has wrapped around in between.
-/
namespace AndinoFirmware

open CArith CString

/-- A motor output is active or a controller is enabled. -/
def Drive.Moving (d : Drive) : Prop :=
  d.leftMotor.Active ∨ d.rightMotor.Active ∨ d.left.enabled = true ∨ d.right.enabled = true

/-- The time of an accepted `m` or `o` command. -/
def Event.driveTime : Event → Option Nat
  | .setMotorsSpeed _ _ now => some now
  | .setMotorsPwm _ _ now => some now
  | _ => none

namespace Drive

variable (t : Target)

theorem stopped_not_moving (d : Drive) (now : Nat) : ¬ (d.step t (.stop now)).Moving := by
  rintro (h | h | h | h)
  · exact Motor.setSpeed_zero t _ h
  · exact Motor.setSpeed_zero t _ h
  · exact absurd h (by simp [step, setEnabled, restartTimer, Pid.Fixed.setEnabled])
  · exact absurd h (by simp [step, setEnabled, restartTimer, Pid.Fixed.setEnabled])

/-- A tick only drives a motor whose controller is enabled. -/
theorem moving_of_tick (d : Drive) (l r : Int) (h : (d.step t (.tick l r)).Moving) : d.Moving := by
  unfold Moving at *
  cases hl : d.left.enabled
  · cases hr : d.right.enabled
    · simpa [step, hl, hr] using h
    · simp
  · simp

theorem moving_of_setTunings (d : Drive) (s : List Byte) (h : (d.step t (.setTunings s)).Moving) :
    d.Moving := h

end Drive

namespace App

variable (t : Target)

/-- From time `now` on, with the last auto-stop check made at `last`, the clock
never runs backwards and consecutive checks are less than `2 ^ 31` ms apart. -/
def Timely (now last : Nat) : List Action → Prop
  | [] => True
  | .byte _ env :: as => now ≤ env.now ∧ Timely env.now last as
  | .pid e :: as => now ≤ e.check ∧ e.check ≤ e.store ∧ Timely e.store last as
  | .autoStop e :: as =>
    now ≤ e.check ∧ e.check ≤ e.store ∧ e.check < last + 2 ^ 31 ∧ Timely e.store e.check as

instance decidableTimely : ∀ now last acts, Decidable (Timely now last acts)
  | _, _, [] => isTrue trivial
  | _, last, .byte _ env :: as =>
    have := decidableTimely env.now last as
    inferInstanceAs (Decidable (_ ∧ _))
  | _, last, .pid e :: as =>
    have := decidableTimely e.store last as
    inferInstanceAs (Decidable (_ ∧ _ ∧ _))
  | _, _, .autoStop e :: as =>
    have := decidableTimely e.store e.check as
    inferInstanceAs (Decidable (_ ∧ _ ∧ _ ∧ _))

/-- The timer stands for the time `start`, which no later driving command and no
check has left behind by more than the window. -/
def Watched (past : List Event) (now last : Nat) (d : Drive) : Prop :=
  ∃ start, d.lastSetMotorsSpeedCmd = millis start ∧ start ≤ now ∧ last ≤ now ∧
    last ≤ start + Constants.kAutoStopWindow ∧
    (d.Moving → ∃ e ∈ past, ∃ τ, e.driveTime = some τ ∧ start ≤ τ ∧ τ ≤ now)

theorem watched_setup (imu : Bool) (leftMove rightMove : Int) :
    Watched [] 0 0 (setup t imu leftMove rightMove).drive := by
  refine ⟨0, rfl, Nat.le_refl 0, Nat.le_refl 0, Nat.zero_le _, ?_⟩
  rw [drive_setup]
  rintro (h | h | h | h) <;> exact absurd h (by decide)

/-- An event that neither drives nor restarts the timer leaves the watch as it is. -/
theorem Watched.keep {past : List Event} {now last now' : Nat} {d d' : Drive} (e : Event)
    (h : Watched past now last d) (hnow : now ≤ now')
    (htimer : d'.lastSetMotorsSpeedCmd = d.lastSetMotorsSpeedCmd) (hmove : d'.Moving → d.Moving) :
    Watched (past ++ [e]) now' last d' := by
  obtain ⟨start, hs, hle, hl, hwin, hdrive⟩ := h
  refine ⟨start, htimer.trans hs, hle.trans hnow, hl.trans hnow, hwin, ?_⟩
  intro hm
  obtain ⟨e', he', τ, hτ, h₁, h₂⟩ := hdrive (hmove hm)
  exact ⟨e', List.mem_append_left _ he', τ, hτ, h₁, h₂.trans hnow⟩

/-- A check that finds the window closed leaves the robot at rest; one that does
not finds the timer at most a window back. -/
theorem watched_autoStop {past : List Event} {now last : Nat} {app : App} {e : StopEnv}
    (h : Watched past now last app.drive) (h₁ : now ≤ e.check) (h₂ : e.check ≤ e.store)
    (h₃ : e.check < last + 2 ^ 31) :
    Watched (past ++ [app.event t (.autoStop e)]) e.store e.check (app.autoStopTask t e).drive ∧
      ((app.autoStopTask t e).drive.Moving → ∃ ev ∈ past, ∃ τ, ev.driveTime = some τ ∧
        τ ≤ e.check ∧ e.check ≤ τ + Constants.kAutoStopWindow) := by
  obtain ⟨start, hs, hle, hl, hwin, hdrive⟩ := h
  have hwindow : Constants.kAutoStopWindow = 3000 := rfl
  have hdiff : (millis e.check - app.lastSetMotorsSpeedCmd).toNat = e.check - start := by
    rw [show app.lastSetMotorsSpeedCmd = millis start from hs]
    exact elapsed start e.check (by omega) (by omega)
  rw [drive_autoStopTask]
  by_cases hdue : app.StopDue e
  · have hev : app.event t (.autoStop e) = .stop e.store := if_pos hdue
    rw [hev]
    have hrest := Drive.stopped_not_moving t app.drive e.store
    refine ⟨⟨e.store, rfl, Nat.le_refl _, h₂, by omega, fun hm => absurd hm hrest⟩, ?_⟩
    exact fun hm => absurd hm hrest
  · have hev : app.event t (.autoStop e) = .other := if_neg hdue
    have hin : e.check ≤ start + Constants.kAutoStopWindow := by
      unfold StopDue at hdue
      omega
    rw [hev]
    refine ⟨⟨start, hs, by omega, h₂, hin, ?_⟩, ?_⟩
    · intro hm
      obtain ⟨ev, hmem, τ, hτ, ha, hb⟩ := hdrive hm
      exact ⟨ev, List.mem_append_left _ hmem, τ, hτ, ha, by omega⟩
    · intro hm
      obtain ⟨ev, hmem, τ, hτ, ha, hb⟩ := hdrive hm
      exact ⟨ev, hmem, τ, hτ, by omega, by omega⟩

/-- One step keeps the watch. -/
theorem watched_step {past : List Event} {now last : Nat} {app app' : App} {a : Action}
    {bs : List Action} {out : List Byte} (htime : Timely now last (a :: bs))
    (h : Watched past now last app.drive) (hstep : step t app a = some (app', out)) :
    ∃ now' last', Timely now' last' bs ∧
      Watched (past ++ [app.event t a]) now' last' app'.drive := by
  have hd := drive_step t hstep
  cases a with
  | byte c env =>
    obtain ⟨hnow, hrest⟩ := htime
    refine ⟨env.now, last, hrest, ?_⟩
    rw [hd]
    obtain ⟨start, hs, hle, hl, hwin, hdrive⟩ := id h
    rcases event_byte_cases t app c env with ⟨l, r, he⟩ | ⟨l, r, he⟩ | ⟨s, he⟩ | he
    · rw [he]
      refine ⟨env.now, ?_, Nat.le_refl _, by omega, by omega, fun _ => ?_⟩
      · rw [Drive.step]
        split <;> rfl
      · exact ⟨_, List.mem_append_right _ (List.mem_singleton_self _), env.now, rfl, Nat.le_refl _,
          Nat.le_refl _⟩
    · -- the timer keeps running across an `o`, so it starts no later than this command
      rw [he]
      refine ⟨start, hs, by omega, by omega, hwin, fun _ => ?_⟩
      exact ⟨_, List.mem_append_right _ (List.mem_singleton_self _), env.now, rfl, by omega,
        Nat.le_refl _⟩
    · rw [he]
      exact h.keep _ hnow rfl (Drive.moving_of_setTunings t app.drive s)
    · rw [he]
      exact h.keep _ hnow rfl id
  | pid e =>
    obtain ⟨h₁, h₂, hrest⟩ := htime
    refine ⟨e.store, last, hrest, ?_⟩
    rw [hd]
    by_cases hdue : app.PidDue e
    · have he : app.event t (.pid e) = .tick _ _ := if_pos hdue
      rw [he]
      exact h.keep _ (h₁.trans h₂) rfl (Drive.moving_of_tick t app.drive _ _)
    · have he : app.event t (.pid e) = .other := if_neg hdue
      rw [he]
      exact h.keep _ (h₁.trans h₂) rfl id
  | autoStop e =>
    obtain ⟨h₁, h₂, h₃, hrest⟩ := htime
    refine ⟨e.store, e.check, hrest, ?_⟩
    have hw := (watched_autoStop t h h₁ h₂ h₃).1
    rw [drive_autoStopTask] at hw
    rw [hd]
    exact hw

/-- So does a run. -/
theorem watched_run {past : List Event} {now last : Nat} {app app' : App} {as bs : List Action}
    {out : List Byte} (htime : Timely now last (as ++ bs)) (h : Watched past now last app.drive)
    (hr : Steps.run (step t) app as = some (app', out)) :
    ∃ now' last', Timely now' last' bs ∧
      Watched (past ++ app.events t as) now' last' app'.drive := by
  apply Steps.run_remaining (event t)
    (fun past app acts => ∃ now last, Timely now last acts ∧ Watched past now last app.drive) ?_ past
    ⟨now, last, htime, h⟩ hr
  rintro past app a as app' out ⟨now, last, htime, h⟩ hs
  exact watched_step t htime h hs

/-- The part of an iteration before its auto-stop check. -/
def Iteration.beforeStop (it : Iteration) : List Action :=
  it.input.map (fun b => .byte b.1 b.2) ++ [.pid it.pid]

/-- At the end of every iteration of every run from `setup`, a robot that moves or
is under closed-loop control has accepted an `m` or `o` command at most
`kAutoStopWindow` before the iteration's auto-stop check. -/
theorem dead_man_stop (imu : Bool) (leftMove rightMove : Int) (its : List Iteration)
    (it : Iteration) (app : App) (out : List Byte)
    (htime : Timely 0 0 ((its ++ [it]).flatMap Iteration.actions))
    (hr : Steps.run (loop t) (setup t imu leftMove rightMove) (its ++ [it]) = some (app, out))
    (hmove : app.leftMotor.Active ∨ app.rightMotor.Active ∨ app.leftPid.enabled = true ∨
      app.rightPid.enabled = true) :
    ∃ e ∈ (setup t imu leftMove rightMove).events t ((its ++ [it]).flatMap Iteration.actions),
      ∃ τ, e.driveTime = some τ ∧ τ ≤ it.stop.check ∧
        it.stop.check ≤ τ + Constants.kAutoStopWindow := by
  have hsplit : (its ++ [it]).flatMap Iteration.actions =
      (its.flatMap Iteration.actions ++ it.beforeStop) ++ [.autoStop it.stop] := by
    simp [Iteration.actions, Iteration.beforeStop]
  rw [Steps.run_flatMap Iteration.actions (loop_eq_run t), hsplit] at hr
  rw [hsplit] at htime ⊢
  obtain ⟨mid, o₁, o₂, h₁, h₂, -⟩ := Steps.run_append_eq_some hr
  obtain ⟨now, last, ⟨ht₁, ht₂, ht₃, -⟩, hw⟩ :=
    watched_run t htime (watched_setup t imu leftMove rightMove) h₁
  rw [Steps.run_singleton] at h₂
  simp only [step, Option.some.injEq] at h₂
  rw [← (Prod.mk.inj h₂).1] at hmove
  obtain ⟨e, hmem, τ, hτ, hlo, hhi⟩ := (watched_autoStop t hw ht₁ ht₂ ht₃).2 hmove
  refine ⟨e, ?_, τ, hτ, hlo, hhi⟩
  rw [events, Steps.labels_append h₁]
  exact List.mem_append_left _ hmem

/-- An iteration at a single time. -/
def iterationAt (now : Nat) (input : List Byte) : Iteration :=
  ⟨input.map (fun c => (c, Env.quiet now)), ⟨now, now, 0, 0⟩, ⟨now, now⟩⟩

/-- A command just after the clock has wrapped around. -/
theorem dead_man_stop_wrapped :
    ∃ app out, Steps.run (loop exact) (setup exact false 0 0)
        ([iterationAt (2 ^ 31 - 1) [], iterationAt (2 ^ 32 - 10) []] ++
          [iterationAt (2 ^ 32 + 5) (ascii "m 100 100\r")]) = some (app, out) ∧
      app.leftPid.enabled = true ∧
      ∃ e ∈ (setup exact false 0 0).events exact
          (([iterationAt (2 ^ 31 - 1) [], iterationAt (2 ^ 32 - 10) []] ++
            [iterationAt (2 ^ 32 + 5) (ascii "m 100 100\r")]).flatMap Iteration.actions),
        ∃ τ, e.driveTime = some τ ∧ τ ≤ 2 ^ 32 + 5 ∧ 2 ^ 32 + 5 ≤ τ + Constants.kAutoStopWindow := by
  have hrun : (Steps.run (loop exact) (setup exact false 0 0)
      ([iterationAt (2 ^ 31 - 1) [], iterationAt (2 ^ 32 - 10) []] ++
        [iterationAt (2 ^ 32 + 5) (ascii "m 100 100\r")])).map (fun r => r.1.leftPid.enabled) =
      some true := by decide +kernel
  obtain ⟨⟨app, out⟩, hr, hen⟩ := Option.map_eq_some_iff.mp hrun
  exact ⟨app, out, hr, hen, dead_man_stop exact false 0 0 _ _ app out (by decide +kernel) hr
    (.inr (.inr (.inl hen)))⟩

end App

end AndinoFirmware
