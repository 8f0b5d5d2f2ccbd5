import Andino.Library.Pending
import Andino.Firmware.Quadrature
import Andino.Firmware.Travel

/-!
# The application behind its interrupts

The application sees of an encoder only the count, which it reads and resets; the interrupts
change it in between. A board runs both: interrupts decode the pins one by one, and the parts
of the loop run on the counts they have left. Each such run is a run of the application on
its own, in which a wheel moves all at once by the ticks decoded since the last part that
looks at the counts.
-/
namespace AndinoFirmware

open CArith CString

/-- The ticks that the decoder finds in a reading. -/
def Encoder.delta (e : Encoder) (s : Sample) : Int :=
  kTicksDelta.getD ((e.state <<< 2 ||| bits s) &&& 0x0F).toNat 0

/-- The ticks that an interrupt of a port gives to the encoder of a side. -/
def Encoders.delta (e : Encoders) (port : Port) (level : Nat → Bool) (side : Side) : Int :=
  if port = portOf side then (e.encoder side).delta ⟨level (channelBPin side), level (channelAPin side)⟩
  else 0

structure Board where
  app : App
  encoders : Encoders

namespace Board

/-- The parts of the loop take the place of their own movements. -/
inductive Action where
  | interrupt (port : Port) (level : Nat → Bool)
  | app (a : App.Action)

/-- An action before which the wheels move by these ticks. -/
def moving (d : Displacement) : App.Action → App.Action
  | .byte c env =>
    .byte c { env with
      leftMove := d.1, rightMove := d.2, leftMoveAfterReset := 0, rightMoveAfterReset := 0 }
  | .pid e => .pid { e with leftMove := d.1, rightMove := d.2 }
  | .autoStop e => .autoStop e

/-- The application with the counts of the encoders. -/
def view (b : Board) : App :=
  { b.app with
    leftEncoder := { b.app.leftEncoder with count := (b.encoders.encoder .left).count }
    rightEncoder := { b.app.rightEncoder with count := (b.encoders.encoder .right).count } }

/-- The counts that the application leaves. -/
def store (b : Board) (app : App) : Board where
  app := app
  encoders :=
    { b.encoders with
      encoder := fun side =>
        { b.encoders.encoder side with count := (app.channel side).encoder.count } }

variable (t : Target)

def step (b : Board) : Action → Option (Board × List Byte)
  | .interrupt port level => some ({ b with encoders := b.encoders.isr t port level }, [])
  | .app a => (App.step t b.view (moving 0 a)).map (fun r => (b.store r.1, r.2))

/-- `App::setup`, with the interrupts between the set-up of the encoders and the reads. -/
def setup (imu : Bool) (interrupts : List (Port × (Nat → Bool))) : Board :=
  let encoders := interrupts.foldl (fun e i => e.isr t i.1 i.2) Encoders.setup
  ⟨App.setup t imu (encoders.encoder .left).count (encoders.encoder .right).count, encoders⟩

/-- What an action is for the application: ticks, or a part of the loop. -/
def label (b : Board) : Action → Displacement ⊕ App.Action
  | .interrupt port level =>
    .inl (b.encoders.delta port level .left, b.encoders.delta port level .right)
  | .app a => .inr a

/-- The ticks that an action leaves unseen: the auto-stop check looks at no count. -/
def unseen (d : Displacement) : App.Action → Displacement
  | .autoStop _ => d
  | _ => 0

def consumer : Pending.Consumer Displacement App.Action := ⟨moving, unseen⟩

/-- What the application does in a run of the board, and the ticks it has not seen yet. -/
def gathered (b : Board) (acts : List Action) : List App.Action × Displacement :=
  consumer.gather (Steps.labels (step t) label b acts)

end Board

/-! ## Ticks and counts -/

theorem Encoder.move_move (zeroQuot : Int → Int) (e : Encoder) (m n : Int) :
    (e.move (avr zeroQuot) m).move (avr zeroQuot) n = e.move (avr zeroQuot) (m + n) := by
  simp only [Encoder.move]
  congr 1
  change wrap 32 (wrap 32 (e.count + m) + n) = wrap 32 (e.count + (m + n))
  rw [← add_assoc]
  exact Int.bmod_add_bmod

theorem App.moveEncoders_moveEncoders (zeroQuot : Int → Int) (app : App) (d d' : Displacement) :
    (app.moveEncoders (avr zeroQuot) d.1 d.2).moveEncoders (avr zeroQuot) d'.1 d'.2 =
      app.moveEncoders (avr zeroQuot) (d + d').1 (d + d').2 := by
  simp only [App.moveEncoders, Encoder.move_move]
  rfl

theorem Channel.fits_step (zeroQuot : Int → Int) {c : Channel} {e : Channel.Event}
    (h : ∃ n, c.encoder.count = wrap 32 n) :
    ∃ n, (c.step (avr zeroQuot) e).encoder.count = wrap 32 n := by
  obtain ⟨n, hn⟩ := h
  cases he : e.isReset with
  | false => exact ⟨n + e.moved, Channel.count_step zeroQuot hn he⟩
  | true =>
    cases e with
    | resetEncoder ticks ticksAfterReset => exact ⟨0 + ticksAfterReset, rfl⟩
    | _ => cases he

theorem App.moveEncoders_zero (zeroQuot : Int → Int) {app : App}
    (h : ∀ side, ∃ n, (app.channel side).encoder.count = wrap 32 n) :
    app.moveEncoders (avr zeroQuot) 0 0 = app := by
  have hmove : ∀ e : Encoder, (∃ n, e.count = wrap 32 n) → e.move (avr zeroQuot) 0 = e := by
    rintro ⟨state, count⟩ ⟨n, hn⟩
    simp only at hn
    subst hn
    change (⟨state, wrap 32 (wrap 32 n + 0)⟩ : Encoder) = _
    rw [add_zero, wrap_wrap_of_le le_rfl]
  have hl : app.leftEncoder.move (avr zeroQuot) 0 = app.leftEncoder := hmove _ (h .left)
  have hr : app.rightEncoder.move (avr zeroQuot) 0 = app.rightEncoder := hmove _ (h .right)
  simp only [App.moveEncoders, hl, hr]

namespace Encoders

/-- The count of the own encoder advances by the ticks. -/
theorem isr_count (zeroQuot : Int → Int) {e : Encoders} (h : Wired e) (port : Port)
    (level : Nat → Bool) (side : Side) {n : Int} (hn : (e.encoder side).count = wrap 32 n) :
    ((e.isr (avr zeroQuot) port level).encoder side).count =
      wrap 32 (n + e.delta port level side) := by
  rw [isr_encoder (avr zeroQuot) e h side port level, delta]
  split
  · change wrap 32 ((e.encoder side).count + _) = _
    rw [hn]
    exact Int.bmod_add_bmod
  · rw [add_zero]
    exact hn

theorem isr_wired (t : Target) {e : Encoders} (h : Wired e) (port : Port) (level : Nat → Bool) :
    Wired (e.isr t port level) := step_wired t e (.interrupt port level) h

end Encoders

/-! ## The refinement -/

namespace Board

open App

/-- The board shows the application once the ticks it has not seen have moved the wheels. -/
structure Shows (zeroQuot : Int → Int) (b : Board) (app : App) (d : Displacement) : Prop where
  wired : Encoders.Wired b.encoders
  view : b.view = app.moveEncoders (avr zeroQuot) d.1 d.2
  fits : ∀ side, ∃ n, (app.channel side).encoder.count = wrap 32 n

variable {zeroQuot : Int → Int} {b : Board} {app : App} {d : Displacement}

theorem Shows.count (h : Shows zeroQuot b app d) (side : Side) :
    (b.encoders.encoder side).count = wrap 32 ((app.channel side).encoder.count + side.of d) := by
  cases side with
  | left => exact congrArg (fun a : App => a.leftEncoder.count) h.view
  | right => exact congrArg (fun a : App => a.rightEncoder.count) h.view

theorem Shows.interrupt (h : Shows zeroQuot b app d) (port : Port) (level : Nat → Bool) :
    Shows zeroQuot { b with encoders := b.encoders.isr (avr zeroQuot) port level } app
      (d + (b.encoders.delta port level .left, b.encoders.delta port level .right)) where
  wired := Encoders.isr_wired (avr zeroQuot) h.wired port level
  fits := h.fits
  view := by
    have hl := Encoders.isr_count zeroQuot h.wired port level .left (h.count .left)
    have hr := Encoders.isr_count zeroQuot h.wired port level .right (h.count .right)
    have hview : ({ b with encoders := b.encoders.isr (avr zeroQuot) port level } : Board).view =
        { b.view with
          leftEncoder := { b.view.leftEncoder with
            count := ((b.encoders.isr (avr zeroQuot) port level).encoder .left).count }
          rightEncoder := { b.view.rightEncoder with
            count := ((b.encoders.isr (avr zeroQuot) port level).encoder .right).count } } := rfl
    rw [hview, hl, hr, h.view, add_assoc, add_assoc]
    rfl

/-- An action that starts with ticks can find them moved already. -/
theorem step_moving (a : App.Action) (ha : ∀ e, a ≠ .autoStop e) :
    App.step (avr zeroQuot) (app.moveEncoders (avr zeroQuot) d.1 d.2) (moving 0 a) =
      App.step (avr zeroQuot) app (moving d a) := by
  have hmove := moveEncoders_moveEncoders zeroQuot app d 0
  rw [add_zero] at hmove
  cases a with
  | byte c env =>
    simp only [moving, App.step, processByte, hmove]
    cases ((app.moveEncoders (avr zeroQuot) d.1 d.2).shell.processByte env.nullEq c).2 with
    | none => rfl
    | some i =>
      -- a handler sees nothing of the movement before it but the counts
      obtain ⟨callback, argc, argv⟩ := i
      cases callback <;> rfl
  | pid e => simp only [moving, App.step, pidTask, PidDue, hmove]
  | autoStop e => exact absurd rfl (ha e)

theorem autoStopTask_moveEncoders (t : Target) (app : App) (l r : Int) (e : StopEnv) :
    (app.moveEncoders t l r).autoStopTask t e = (app.autoStopTask t e).moveEncoders t l r := by
  by_cases hdue : app.StopDue e
  · rw [autoStopTask_due t hdue]
    exact autoStopTask_due t hdue
  · rw [autoStopTask_not_due t hdue]
    exact autoStopTask_not_due t hdue

/-- What the application does with unseen ticks, it does with those that are left. -/
theorem step_unseen (a : App.Action) {app' : App} {out : List Byte}
    (hfits : ∀ app' out, App.step (avr zeroQuot) app (moving d a) = some (app', out) →
      app'.moveEncoders (avr zeroQuot) 0 0 = app')
    (hs : App.step (avr zeroQuot) (app.moveEncoders (avr zeroQuot) d.1 d.2) (moving 0 a) =
      some (app', out)) :
    ∃ next, App.step (avr zeroQuot) app (moving d a) = some (next, out) ∧
      app' = next.moveEncoders (avr zeroQuot) (unseen d a).1 (unseen d a).2 := by
  by_cases ha : ∃ e, a = .autoStop e
  · obtain ⟨e, rfl⟩ := ha
    simp only [moving, App.step, autoStopTask_moveEncoders, Option.some.injEq, Prod.mk.injEq] at hs
    obtain ⟨rfl, rfl⟩ := hs
    exact ⟨app.autoStopTask (avr zeroQuot) e, rfl, rfl⟩
  · have hno : ∀ e, a ≠ .autoStop e := fun e h => ha ⟨e, h⟩
    rw [step_moving a hno] at hs
    have hzero : unseen d a = 0 := by
      cases a with
      | autoStop e => exact absurd rfl (hno e)
      | byte c env => rfl
      | pid e => rfl
    refine ⟨app', hs, ?_⟩
    rw [hzero]
    exact (hfits app' out hs).symm

/-- One part of the loop, on the board and in the application. -/
theorem Shows.part (h : Shows zeroQuot b app d) (a : App.Action) {b' : Board} {out : List Byte}
    (hs : b.step (avr zeroQuot) (.app a) = some (b', out)) :
    ∃ next, App.step (avr zeroQuot) app (moving d a) = some (next, out) ∧
      Shows zeroQuot b' next (unseen d a) := by
  obtain ⟨⟨app', out'⟩, hstep, hb⟩ := Option.map_eq_some_iff.mp hs
  obtain ⟨rfl, rfl⟩ := Prod.mk.inj hb
  rw [h.view] at hstep
  have hfits : ∀ app' out, App.step (avr zeroQuot) app (moving d a) = some (app', out) →
      ∀ side, ∃ n, (app'.channel side).encoder.count = wrap 32 n := by
    intro app' out hs side
    rw [channel_step (avr zeroQuot) hs side]
    exact Channel.fits_step zeroQuot (h.fits side)
  obtain ⟨next, hnext, hview⟩ := step_unseen a
    (fun app' _ hs => moveEncoders_zero zeroQuot (hfits app' _ hs)) hstep
  exact ⟨next, hnext, h.wired, hview, hfits next _ hnext⟩

/-- The application is a machine that takes the ticks as they are pending. -/
theorem shows_application (zeroQuot : Int → Int) :
    Pending.Shows (step (avr zeroQuot)) (App.step (avr zeroQuot)) consumer label
      (Shows zeroQuot) where
  event := by
    intro b app d a d' b' o h hl hs
    cases a with
    | interrupt port level =>
      obtain rfl := Sum.inl.inj hl
      simp only [step, Option.some.injEq, Prod.mk.injEq] at hs
      obtain ⟨rfl, rfl⟩ := hs
      exact ⟨rfl, h.interrupt port level⟩
    | app a => exact absurd hl Sum.inr_ne_inl
  action := by
    intro b app d a a' b' o h hl hs
    cases a with
    | interrupt port level => exact absurd hl Sum.inl_ne_inr
    | app a =>
      obtain rfl := Sum.inr.inj hl
      exact h.part a hs

end Board

namespace Encoders

/-- Counts fit their type. -/
theorem run_fits (zeroQuot : Int → Int) (evs : List Event) (side : Side) :
    ∃ n, ((run (avr zeroQuot) setup evs).encoder side).count = wrap 32 n := by
  induction evs using List.reverseRecOn with
  | nil => exact ⟨0, by rw [run, List.foldl_nil, setup_encoder]; rfl⟩
  | append_singleton evs ev ih =>
    rw [run_append]
    change ∃ n, ((step (avr zeroQuot) _ ev).encoder side).count = _
    rw [step_encoder _ _ (run_wired _ _ setup_wired evs)]
    cases view side ev with
    | none => exact ih
    | some a =>
      cases a with
      | sample q => exact ⟨_, rfl⟩
      | reset => exact ⟨0, rfl⟩

end Encoders

namespace Board

open App

variable (t : Target)

def boot (interrupts : List (Port × (Nat → Bool))) : List Encoders.Event :=
  interrupts.map (fun i => .interrupt i.1 i.2)

theorem setup_encoders (imu : Bool) (interrupts : List (Port × (Nat → Bool))) :
    (setup t imu interrupts).encoders = Encoders.run t Encoders.setup (boot interrupts) := by
  rw [Encoders.run, boot, List.foldl_map]
  rfl

theorem shows_setup (zeroQuot : Int → Int) (imu : Bool) (interrupts : List (Port × (Nat → Bool))) :
    Shows zeroQuot (setup (avr zeroQuot) imu interrupts)
      (setup (avr zeroQuot) imu interrupts).app 0 := by
  have he := setup_encoders (avr zeroQuot) imu interrupts
  have hfits : ∀ side, ∃ n,
      ((setup (avr zeroQuot) imu interrupts).app.channel side).encoder.count = wrap 32 n :=
    fun side => ⟨_, count_setup zeroQuot imu _ _ side⟩
  refine ⟨?_, ?_, hfits⟩
  · rw [he]
    exact Encoders.run_wired _ _ Encoders.setup_wired _
  · have hcount : ∀ side, ((setup (avr zeroQuot) imu interrupts).app.channel side).encoder.count =
        ((setup (avr zeroQuot) imu interrupts).encoders.encoder side).count := by
      intro side
      obtain ⟨n, hn⟩ := Encoders.run_fits zeroQuot (boot interrupts) side
      rw [← he] at hn
      cases side with
      | left =>
        refine (count_setup zeroQuot imu _ _ .left).trans ?_
        change wrap 32 ((setup (avr zeroQuot) imu interrupts).encoders.encoder .left).count = _
        rw [hn, wrap_wrap_of_le le_rfl]
      | right =>
        refine (count_setup zeroQuot imu _ _ .right).trans ?_
        change wrap 32 ((setup (avr zeroQuot) imu interrupts).encoders.encoder .right).count = _
        rw [hn, wrap_wrap_of_le le_rfl]
    rw [show (0 : Displacement).1 = 0 from rfl, show (0 : Displacement).2 = 0 from rfl,
      moveEncoders_zero zeroQuot hfits]
    have hl := hcount .left
    have hr := hcount .right
    simp only [App.channel] at hl hr
    rw [view, ← hl, ← hr]

/-- A run of the board, with interrupts between any two parts of the loop, is a run of the
application in which every part first moves the wheels by the ticks decoded before it. -/
theorem board_refines (zeroQuot : Int → Int) (imu : Bool)
    (interrupts : List (Port × (Nat → Bool))) {acts : List Action} {b : Board} {out : List Byte}
    (hr : Steps.run (step (avr zeroQuot)) (setup (avr zeroQuot) imu interrupts) acts =
      some (b, out)) :
    let start := setup (avr zeroQuot) imu interrupts
    let g := start.gathered (avr zeroQuot) acts
    ∃ app, Steps.run (App.step (avr zeroQuot)) (App.setup (avr zeroQuot) imu
        (start.encoders.encoder .left).count (start.encoders.encoder .right).count) g.1 =
          some (app, out) ∧
      b.view = app.moveEncoders (avr zeroQuot) g.2.1 g.2.2 := by
  intro start g
  obtain ⟨app, hrun, hshows⟩ :=
    Pending.run_gather (shows_application zeroQuot) (shows_setup zeroQuot imu interrupts) hr
  exact ⟨app, hrun, hshows.view⟩

/-- A board without an IMU, before anything moves. -/
def powered : Board := setup (avr fun _ => 0) false []

def typed (line : List Byte) : List Action := line.map (fun c => .app (.byte c (Env.quiet 0)))

/-- Both channels of the left encoder rise while an `e` arrives. -/
def turn : List Action :=
  Action.interrupt .D (fun pin => pin = 2) :: typed (ascii "e") ++
    Action.interrupt .D (fun pin => pin = 2 ∨ pin = 3) :: typed (ascii "\r")

theorem board_refines_turn :
    ∃ b, Steps.run (step (avr fun _ => 0)) powered turn = some (b, ascii "2 0\r\n") ∧
      ∃ app, Steps.run (App.step (avr fun _ => 0)) (App.setup (avr fun _ => 0) false 0 0)
          (powered.gathered (avr fun _ => 0) turn).1 = some (app, ascii "2 0\r\n") ∧
        b.view = app.moveEncoders (avr fun _ => 0) 0 0 := by
  have hrun : (Steps.run (step (avr fun _ => 0)) powered turn).map Prod.snd =
      some (ascii "2 0\r\n") := by
    decide +kernel
  obtain ⟨⟨b, out⟩, hr, hout⟩ := Option.map_eq_some_iff.mp hrun
  obtain rfl : out = ascii "2 0\r\n" := hout
  obtain ⟨app, happ, hview⟩ := board_refines (fun _ => 0) false [] hr
  exact ⟨b, hr, app, happ, hview⟩

end Board

end AndinoFirmware
