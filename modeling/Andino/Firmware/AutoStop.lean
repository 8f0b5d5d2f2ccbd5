import Andino.Firmware.DeadMan

/-!
# Stops that come too early

The window of the auto-stop should run from the last motor command. `m` restarts its
timer and so does a stop; `o` does not, and the next check then measures from an
earlier time. What carries the proof is `Armed`: the timer stands for a time that no
accepted command is later than. An `o` keeps that only if it finds the timer at its
own time.
-/
namespace AndinoFirmware

open CArith CString

namespace App

variable (t : Target)

/-- From time `now` on the clock never runs backwards. -/
def Ordered (now : Nat) : List Action → Prop
  | [] => True
  | .byte _ env :: as => now ≤ env.now ∧ Ordered env.now as
  | .pid e :: as => now ≤ e.check ∧ e.check ≤ e.store ∧ Ordered e.store as
  | .autoStop e :: as => now ≤ e.check ∧ e.check ≤ e.store ∧ Ordered e.store as

instance decidableOrdered : ∀ now acts, Decidable (Ordered now acts)
  | _, [] => isTrue trivial
  | _, .byte _ env :: as =>
    have := decidableOrdered env.now as
    inferInstanceAs (Decidable (_ ∧ _))
  | _, .pid e :: as =>
    have := decidableOrdered e.store as
    inferInstanceAs (Decidable (_ ∧ _ ∧ _))
  | _, .autoStop e :: as =>
    have := decidableOrdered e.store as
    inferInstanceAs (Decidable (_ ∧ _ ∧ _))

/-- Every check of a run that stops the motors comes more than the window after every command
accepted so far, by the clock of the check. -/
def NeverPremature (start : App) (acts : List Action) : Prop :=
  ∀ pre e post, acts = pre ++ .autoStop e :: post →
    ∀ app out, Steps.run (step t) start pre = some (app, out) →
      app.event t (.autoStop e) = .stop e.store →
      ∀ ev ∈ start.events t pre, ∀ τ, ev.driveTime = some τ →
        τ + Constants.kAutoStopWindow < e.check

/-- If the action is an accepted `o`, it finds the timer at the time of its handling. -/
def timerFresh (app : App) (a : Action) : Bool :=
  match app.event t a with
  | .setMotorsPwm _ _ now => app.lastSetMotorsSpeedCmd = millis now
  | _ => true

/-- Every accepted `o` of a run finds the timer so. -/
def PwmFresh (start : App) (acts : List Action) : Prop :=
  ∀ b ∈ Steps.labels (step t) (timerFresh t) start acts, b = true

instance (start : App) (acts : List Action) : Decidable (PwmFresh t start acts) :=
  inferInstanceAs (Decidable (∀ b ∈ _, _))

/-- The timer stands for a time that is past and that no accepted command is later than. -/
def Armed (past : List Event) (now : Nat) (d : Drive) : Prop :=
  ∃ start, d.lastSetMotorsSpeedCmd = millis start ∧ start ≤ now ∧
    ∀ ev ∈ past, ∀ τ, ev.driveTime = some τ → τ ≤ start

/-- The 32-bit difference never exceeds the true one. -/
theorem elapsed_le {a b : Nat} (h : a ≤ b) : (millis b - millis a).toNat ≤ b - a := by
  rw [UInt32.toNat_sub, millis, millis, UInt32.toNat_ofNat', UInt32.toNat_ofNat']
  omega

/-- A time that is not earlier than the one before can take its place in the timer. -/
theorem Armed.restart {past : List Event} {now now' : Nat} {d d' : Drive} {e : Event}
    (h : Armed past now d) (hnow : now ≤ now') (htimer : d'.lastSetMotorsSpeedCmd = millis now')
    (he : ∀ τ, e.driveTime = some τ → τ ≤ now') : Armed (past ++ [e]) now' d' := by
  obtain ⟨start, -, hle, hpast⟩ := h
  refine ⟨now', htimer, Nat.le_refl _, ?_⟩
  intro ev hmem τ hτ
  rcases List.mem_append.mp hmem with hm | hm
  · exact (hpast ev hm τ hτ).trans (hle.trans hnow)
  · rw [List.mem_singleton.mp hm] at hτ
    exact he τ hτ

theorem Armed.keep {past : List Event} {now now' : Nat} {d d' : Drive} {e : Event}
    (h : Armed past now d) (hnow : now ≤ now')
    (htimer : d'.lastSetMotorsSpeedCmd = d.lastSetMotorsSpeedCmd) (he : e.driveTime = none) :
    Armed (past ++ [e]) now' d' := by
  obtain ⟨start, hs, hle, hpast⟩ := h
  refine ⟨start, htimer.trans hs, hle.trans hnow, ?_⟩
  intro ev hmem τ hτ
  rcases List.mem_append.mp hmem with hm | hm
  · exact hpast ev hm τ hτ
  · rw [List.mem_singleton.mp hm, he] at hτ
    exact absurd hτ (by simp)

/-- A check stops the motors exactly when the window has passed. -/
theorem event_autoStop_iff (app : App) (e : StopEnv) :
    app.event t (.autoStop e) = .stop e.store ↔ app.StopDue e := by
  rw [event]
  split
  case isTrue hdue => exact iff_of_true rfl hdue
  case isFalse hdue => exact iff_of_false (by simp) hdue

/-- A stop under an armed timer is not premature. -/
theorem Armed.not_premature {past : List Event} {now : Nat} {app : App} {e : StopEnv}
    (h : Armed past now app.drive) (hnow : now ≤ e.check)
    (hstop : app.event t (.autoStop e) = .stop e.store) :
    ∀ ev ∈ past, ∀ τ, ev.driveTime = some τ → τ + Constants.kAutoStopWindow < e.check := by
  have hdue := (event_autoStop_iff t app e).mp hstop
  obtain ⟨start, hs, hle, hpast⟩ := h
  intro ev hmem τ hτ
  have hτ := hpast ev hmem τ hτ
  have hdiff := elapsed_le (hle.trans hnow)
  unfold StopDue at hdue
  rw [show app.lastSetMotorsSpeedCmd = millis start from hs] at hdue
  omega

/-- One step keeps the timer armed. -/
theorem armed_step {past : List Event} {now : Nat} {app app' : App} {a : Action}
    {bs : List Action} {out : List Byte} (htime : Ordered now (a :: bs))
    (h : Armed past now app.drive) (hfresh : app.timerFresh t a = true)
    (hstep : step t app a = some (app', out)) :
    ∃ now', Ordered now' bs ∧ Armed (past ++ [app.event t a]) now' app'.drive := by
  have hd := drive_step t hstep
  cases a with
  | byte c env =>
    obtain ⟨hnow, hrest⟩ := htime
    refine ⟨env.now, hrest, ?_⟩
    rw [hd]
    rcases event_byte_cases t app c env with ⟨l, r, he⟩ | ⟨l, r, he⟩ | ⟨s, he⟩ | he
    · rw [he]
      apply h.restart hnow
      · rw [Drive.step]
        split <;> rfl
      · intro τ hτ
        exact (Option.some.inj hτ).ge
    · -- the timer already stands for the time of the command
      have htimer : app.drive.lastSetMotorsSpeedCmd = millis env.now := by
        rw [timerFresh, he] at hfresh
        exact of_decide_eq_true hfresh
      rw [he]
      apply h.restart hnow
      · exact htimer
      · intro τ hτ
        exact (Option.some.inj hτ).ge
    · rw [he]
      exact h.keep hnow rfl rfl
    · rw [he]
      exact h.keep hnow rfl rfl
  | pid e =>
    obtain ⟨h₁, h₂, hrest⟩ := htime
    refine ⟨e.store, hrest, ?_⟩
    rw [hd]
    by_cases hdue : app.PidDue e
    · have he : app.event t (.pid e) = .tick _ _ := if_pos hdue
      rw [he]
      exact h.keep (h₁.trans h₂) rfl rfl
    · have he : app.event t (.pid e) = .other := if_neg hdue
      rw [he]
      exact h.keep (h₁.trans h₂) rfl rfl
  | autoStop e =>
    obtain ⟨h₁, h₂, hrest⟩ := htime
    refine ⟨e.store, hrest, ?_⟩
    rw [hd]
    by_cases hdue : app.StopDue e
    · have he : app.event t (.autoStop e) = .stop e.store := if_pos hdue
      rw [he]
      exact h.restart (h₁.trans h₂) rfl (fun _ hτ => absurd hτ (by simp [Event.driveTime]))
    · have he : app.event t (.autoStop e) = .other := if_neg hdue
      rw [he]
      exact h.keep (h₁.trans h₂) rfl rfl

/-- So does a run. -/
theorem armed_run {past : List Event} {now : Nat} {app app' : App} {as bs : List Action}
    {out : List Byte} (htime : Ordered now (as ++ bs)) (hfresh : PwmFresh t app (as ++ bs))
    (h : Armed past now app.drive) (hr : Steps.run (step t) app as = some (app', out)) :
    ∃ now', Ordered now' bs ∧ PwmFresh t app' bs ∧
      Armed (past ++ app.events t as) now' app'.drive := by
  apply Steps.run_remaining (event t)
    (fun past app acts => ∃ now, Ordered now acts ∧ PwmFresh t app acts ∧ Armed past now app.drive)
    ?_ past ⟨now, htime, hfresh, h⟩ hr
  rintro past app a as app' out ⟨now, htime, hfresh, h⟩ hs
  unfold PwmFresh at hfresh
  rw [Steps.labels_cons hs] at hfresh
  obtain ⟨now', htime', h'⟩ := armed_step t htime h (hfresh _ List.mem_cons_self) hs
  exact ⟨now', htime', fun b hb => hfresh b (List.mem_cons_of_mem _ hb), h'⟩

theorem armed_setup (imu : Bool) (leftMove rightMove : Int) :
    Armed [] 0 (setup t imu leftMove rightMove).drive :=
  ⟨0, rfl, Nat.le_refl 0, fun _ hm => absurd hm (by simp)⟩

/-! ## An `o` that finds the timer at another time -/

theorem Ordered.extend {now : Nat} {pre : List Action} {c : Byte} {env : Env}
    (h : Ordered now (pre ++ [Action.byte c env])) {bs : List Action} (hbs : Ordered env.now bs) :
    Ordered now (pre ++ .byte c env :: bs) := by
  induction pre generalizing now with
  | nil => exact ⟨h.1, hbs⟩
  | cons a pre ih =>
    cases a with
    | byte d env' => exact ⟨h.1, ih h.2⟩
    | pid e => exact ⟨h.1, h.2.1, ih h.2.2⟩
    | autoStop e => exact ⟨h.1, h.2.1, ih h.2.2⟩

theorem elapsed_add (timer : UInt32) (now k : Nat) (h : (millis now - timer).toNat + k < 2 ^ 32) :
    (millis (now + k) - timer).toNat = (millis now - timer).toNat + k := by
  have hlt := timer.toNat_lt
  rw [UInt32.toNat_sub, millis, UInt32.toNat_ofNat'] at h
  rw [UInt32.toNat_sub, UInt32.toNat_sub, millis, millis, UInt32.toNat_ofNat', UInt32.toNat_ofNat']
  omega

theorem elapsed_pos {timer : UInt32} {now : Nat} (h : timer ≠ millis now) :
    0 < (millis now - timer).toNat := by
  rw [Nat.pos_iff_ne_zero]
  intro hz
  have hlt := timer.toNat_lt
  have hlt' := (millis now).toNat_lt
  apply h
  apply UInt32.toNat_inj.mp
  rw [UInt32.toNat_sub] at hz
  omega

/-- A timer that is not at `now` lets the window close within its own length from then. -/
theorem exists_closing {timer : UInt32} {now : Nat} (h : timer ≠ millis now) :
    ∃ check, now ≤ check ∧ check ≤ now + Constants.kAutoStopWindow ∧
      (millis check - timer).toNat > Constants.kAutoStopWindow := by
  have hwindow : Constants.kAutoStopWindow = 3000 := rfl
  have hpos := elapsed_pos h
  by_cases hclosed : (millis now - timer).toNat > Constants.kAutoStopWindow
  · exact ⟨now, Nat.le_refl _, by omega, hclosed⟩
  · have hadd := elapsed_add timer now (3001 - (millis now - timer).toNat) (by omega)
    exact ⟨now + (3001 - (millis now - timer).toNat), by omega, by omega, by omega⟩

theorem timer_pidTask (app : App) (e : PidEnv) :
    (app.pidTask t e).lastSetMotorsSpeedCmd = app.lastSetMotorsSpeedCmd := by
  by_cases hdue : app.PidDue e
  · rw [pidTask_due t hdue]
    rfl
  · rw [pidTask_not_due t hdue]
    rfl

/-- Behind an accepted `o` that finds the timer at another time than its own, the rest of
an iteration can stop the motors too early. -/
theorem premature_of_not_fresh {start app app' : App} {pre : List Action} {c : Byte} {env : Env}
    {out out' : List Byte} {l r : Int}
    (hr : Steps.run (step t) start pre = some (app, out))
    (hstep : step t app (.byte c env) = some (app', out'))
    (he : app.event t (.byte c env) = .setMotorsPwm l r env.now)
    (htimer : app.lastSetMotorsSpeedCmd ≠ millis env.now)
    (htime : Ordered 0 (pre ++ [Action.byte c env])) :
    ∃ (e₁ : PidEnv) (e₂ : StopEnv),
      Ordered 0 (pre ++ [Action.byte c env, Action.pid e₁, Action.autoStop e₂]) ∧
      ¬ NeverPremature t start (pre ++ [Action.byte c env, Action.pid e₁, Action.autoStop e₂]) := by
  obtain ⟨check, hlo, hhi, hdue⟩ := exists_closing htimer
  refine ⟨⟨check, check, 0, 0⟩, ⟨check, check⟩, ?_, ?_⟩
  · exact htime.extend ⟨hlo, Nat.le_refl _, Nat.le_refl _, Nat.le_refl _, trivial⟩
  · intro hnever
    have hkept : app'.lastSetMotorsSpeedCmd = app.lastSetMotorsSpeedCmd := by
      have hd := drive_step t hstep
      rw [he] at hd
      exact congrArg Drive.lastSetMotorsSpeedCmd hd
    have hrun := Steps.run_join hr (Steps.run_step hstep
      (Steps.run_step (a := .pid ⟨check, check, 0, 0⟩) rfl (Steps.run_nil _ _)))
    have hstop : (app'.pidTask t ⟨check, check, 0, 0⟩).event t (.autoStop ⟨check, check⟩) =
        .stop check := by
      apply (event_autoStop_iff t _ _).mpr
      unfold StopDue
      rw [timer_pidTask, hkept]
      exact hdue
    have hmem : Event.setMotorsPwm l r env.now ∈
        start.events t (pre ++ [.byte c env, .pid ⟨check, check, 0, 0⟩]) := by
      rw [← he]
      exact Steps.label_mem (event t) hr _ _
    have hlate := hnever (pre ++ [.byte c env, .pid ⟨check, check, 0, 0⟩]) ⟨check, check⟩ [] (by simp)
      _ _ hrun hstop _ hmem env.now rfl
    exact absurd hlate (by simp only [not_lt]; exact hhi)

/-- In every run in which each accepted `o` finds the timer at its own time, no stop is
premature; and every reachable `o` that does not can be followed by a premature one. -/
theorem stop_never_premature (imu : Bool) (leftMove rightMove : Int) :
    (∀ acts, Ordered 0 acts → PwmFresh t (setup t imu leftMove rightMove) acts →
      NeverPremature t (setup t imu leftMove rightMove) acts) ∧
    (∀ (pre : List Action) (c : Byte) (env : Env) app app' out out' l r,
      Steps.run (step t) (setup t imu leftMove rightMove) pre = some (app, out) →
      step t app (.byte c env) = some (app', out') →
      app.event t (.byte c env) = .setMotorsPwm l r env.now →
      app.lastSetMotorsSpeedCmd ≠ millis env.now → Ordered 0 (pre ++ [Action.byte c env]) →
      ∃ (e₁ : PidEnv) (e₂ : StopEnv),
        Ordered 0 (pre ++ [Action.byte c env, Action.pid e₁, Action.autoStop e₂]) ∧
        ¬ NeverPremature t (setup t imu leftMove rightMove)
          (pre ++ [Action.byte c env, Action.pid e₁, Action.autoStop e₂])) := by
  refine ⟨?_, fun _ _ _ _ _ _ _ _ _ hr hstep he htimer htime =>
    premature_of_not_fresh t hr hstep he htimer htime⟩
  intro acts htime hfresh
  rintro pre e post rfl app out hr hstop
  obtain ⟨now, htime', -, harmed⟩ :=
    armed_run t htime hfresh (armed_setup t imu leftMove rightMove) hr
  exact harmed.not_premature t htime'.1 hstop

/-- Without an `o` a stop keeps its distance. -/
theorem stop_never_premature_m :
    NeverPremature exact (setup exact false 0 0)
      ([iterationAt 2990 (ascii "m 100 100\r"), iterationAt 3001 [], iterationAt 5991 []].flatMap
        Iteration.actions) :=
  (stop_never_premature exact false 0 0).1 _ (by decide +kernel) (by decide +kernel)

/-- An `o` is accepted at 2990 ms and stopped at 3001 ms. -/
theorem stop_premature_o :
    Ordered 0 ([iterationAt 2990 (ascii "o 100 100\r"), iterationAt 3001 []].flatMap
      Iteration.actions) ∧
    ¬ NeverPremature exact (setup exact false 0 0)
      ([iterationAt 2990 (ascii "o 100 100\r"), iterationAt 3001 []].flatMap Iteration.actions) := by
  refine ⟨by decide +kernel, fun h => ?_⟩
  have hdue : (Steps.run (step exact) (setup exact false 0 0)
      ((iterationAt 2990 (ascii "o 100 100\r")).actions ++ [.pid ⟨3001, 3001, 0, 0⟩])).any
      (fun r => decide (r.1.event exact (.autoStop ⟨3001, 3001⟩) = .stop 3001)) = true := by
    decide +kernel
  obtain ⟨⟨app, out⟩, hrun, hdue⟩ := Option.any_eq_true _ _ |>.mp hdue
  have hlate := h ((iterationAt 2990 (ascii "o 100 100\r")).actions ++ [.pid ⟨3001, 3001, 0, 0⟩])
    ⟨3001, 3001⟩ [] (by simp [iterationAt, Iteration.actions]) app out hrun (of_decide_eq_true hdue)
    (.setMotorsPwm 100 100 2990) (by decide +kernel) 2990 rfl
  exact absurd hlate (by decide)

end App

end AndinoFirmware
