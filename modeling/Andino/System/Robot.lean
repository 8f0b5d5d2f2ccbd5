import Andino.Firmware.Counts
import Andino.System.Odometry

/-!
# From the pins to the controller

The whole robot: the host on its serial line, the loop of the firmware, and the interrupts
that come between its parts. The interrupts only add ticks that wait for the next part of the
loop that looks at the counts, so a run of the robot is a run of the link in which the wheels
move at these parts. And what the ticks add up to is decided by the pins alone.
-/
namespace AndinoBase

open CArith CString Decimal AndinoFirmware AndinoFirmware.App
open LineRpc (Origin Outcome leftover givenUp)

/-- An action of the link before which the wheels move by these ticks. -/
def Link.Action.moving (d : Displacement) : Link.Action → Link.Action
  | .byte env =>
    .byte { env with
      leftMove := d.1, rightMove := d.2, leftMoveAfterReset := 0, rightMoveAfterReset := 0 }
  | .pid e => .pid { e with leftMove := d.1, rightMove := d.2 }
  | .autoStop e => .autoStop e
  | .call c => .call c
  | .receive => .receive
  | .timeout => .timeout

/-- The ticks that an action leaves unseen. -/
def Link.Action.unseen (d : Displacement) : Link.Action → Displacement
  | .byte _ => 0
  | .pid _ => 0
  | .autoStop _ => d
  | .call _ => d
  | .receive => d
  | .timeout => d

/-- The link, whose application has the counts that its last part has left, and the encoders
that the interrupts go on with. -/
structure Robot where
  link : Link
  encoders : Encoders

namespace Robot

inductive Action where
  | interrupt (port : Port) (level : Nat → Bool)
  | link (a : Link.Action)

/-- The link with the counts of the encoders. -/
def view (r : Robot) : Link :=
  { r.link with firmware := r.link.firmware.map (fun app => (Board.mk app r.encoders).view) }

/-- The counts that the firmware leaves, as long as there is one. -/
def store (r : Robot) (l : Link) : Robot :=
  ⟨l, (l.firmware.map (fun app => ((Board.mk app r.encoders).store app).encoders)).getD r.encoders⟩

variable (t : Target)

def step (r : Robot) : Action → Option (Robot × List (Outcome Call Byte Counts))
  | .interrupt port level => some ({ r with encoders := r.encoders.isr t port level }, [])
  | .link a => (r.view.step t (a.moving 0)).map (fun p => (r.store p.1, p.2))

def initial (imu : Bool) (interrupts : List (Port × (Nat → Bool))) : Robot :=
  ⟨Link.initial (Board.setup t imu interrupts).app, (Board.setup t imu interrupts).encoders⟩

/-- What an action is for the link: ticks, or an action. -/
def label (r : Robot) : Action → Displacement ⊕ Link.Action
  | .interrupt port level =>
    .inl (r.encoders.delta port level .left, r.encoders.delta port level .right)
  | .link a => .inr a

def consumer : Pending.Consumer Displacement Link.Action := ⟨Link.Action.moving, Link.Action.unseen⟩

/-- What the link does in a run of the robot, and the ticks it has not seen yet. -/
def gathered (r : Robot) (acts : List Action) : List Link.Action × Displacement :=
  consumer.gather (Steps.labels (step t) label r acts)

/-! ## The refinement -/

/-- The robot shows the link once the pending ticks have moved the wheels. -/
structure Shows (zeroQuot : Int → Int) (r : Robot) (l : Link) (d : Displacement) : Prop where
  line : r.link = { l with firmware := r.link.firmware }
  firmware : Option.Rel (fun app' app => Board.Shows zeroQuot ⟨app', r.encoders⟩ app d)
    r.link.firmware l.firmware

variable {zeroQuot : Int → Int} {r : Robot} {l : Link} {d : Displacement}

theorem Shows.interrupt (h : Shows zeroQuot r l d) (port : Port) (level : Nat → Bool) :
    Shows zeroQuot { r with encoders := r.encoders.isr (avr zeroQuot) port level } l
      (d + (r.encoders.delta port level .left, r.encoders.delta port level .right)) where
  line := h.line
  firmware := by
    have hfirmware := h.firmware
    change Option.Rel _ r.link.firmware l.firmware
    generalize r.link.firmware = f, l.firmware = g at hfirmware ⊢
    cases hfirmware with
    | none => exact .none
    | some hb => exact .some (hb.interrupt port level)

/-- The actions of the host do not touch the firmware. -/
theorem step_host {a : Link.Action} (ha : (∃ c, a = .call c) ∨ a = .receive ∨ a = .timeout)
    {l' : Link} {f : Option App} {o : List (Outcome Call Byte Counts)}
    (hs : Link.step t { l with firmware := f } a = some (l', o)) :
    l'.firmware = f ∧ Link.step t l a = some ({ l' with firmware := l.firmware }, o) := by
  obtain ⟨host, down, up, firmware, sent, handled⟩ := l
  rcases ha with ⟨c, rfl⟩ | rfl | rfl
  · cases host with
    | some p => exact absurd hs.symm (Option.some_ne_none _)
    | none =>
      obtain ⟨rfl, rfl⟩ := Prod.mk.inj (Option.some.inj hs)
      exact ⟨rfl, rfl⟩
  · cases host with
    | none => exact absurd hs.symm (Option.some_ne_none _)
    | some p =>
      cases up with
      | nil => exact absurd hs.symm (Option.some_ne_none _)
      | cons b up =>
        simp only [Link.step, Link.receiveByte] at hs ⊢
        by_cases hb : b.1 = LF
        · rw [if_pos hb] at hs ⊢
          obtain ⟨rfl, rfl⟩ := Prod.mk.inj (Option.some.inj hs)
          exact ⟨rfl, rfl⟩
        · rw [if_neg hb] at hs ⊢
          obtain ⟨rfl, rfl⟩ := Prod.mk.inj (Option.some.inj hs)
          exact ⟨rfl, rfl⟩
  · cases host with
    | none => exact absurd hs.symm (Option.some_ne_none _)
    | some p =>
      obtain ⟨rfl, rfl⟩ := Prod.mk.inj (Option.some.inj hs)
      exact ⟨rfl, rfl⟩

/-- Counts that are written back as they were read. -/
theorem board_refresh {b : Board} {app : App} (h : Board.Shows zeroQuot b app d) :
    Board.Shows zeroQuot (b.store b.view) app d where
  wired := h.wired
  fits := h.fits
  view := by
    rw [← h.view]
    rfl

theorem Shows.host (h : Shows zeroQuot r l d) {a : Link.Action}
    (ha : (∃ c, a = .call c) ∨ a = .receive ∨ a = .timeout) {l₁ : Link}
    {o : List (Outcome Call Byte Counts)} (hs : r.view.step t a = some (l₁, o)) :
    ∃ l', l.step t a = some (l', o) ∧ Shows zeroQuot (r.store l₁) l' d := by
  have hview : r.view = { l with firmware := r.view.firmware } := by
    rw [view, h.line]
  rw [hview] at hs
  obtain ⟨hf, hl⟩ := step_host t ha hs
  refine ⟨_, hl, ⟨rfl, ?_⟩⟩
  have hfirmware := h.firmware
  change Option.Rel (fun app' app => Board.Shows zeroQuot ⟨app', (r.store l₁).encoders⟩ app d)
    l₁.firmware l.firmware
  rw [store, hf, view]
  generalize r.link.firmware = f, l.firmware = g at hfirmware ⊢
  cases hfirmware with
  | none => exact .none
  | some hb => exact .some (board_refresh hb)

/-- One part of the loop: the application that the link has runs it as the board does. -/
theorem part_eq {app' app : App} {e : Encoders} (h : Board.Shows zeroQuot ⟨app', e⟩ app d)
    {a : App.Action} {next : App} {out : List Byte}
    (hs : App.step (avr zeroQuot) (Board.view ⟨app', e⟩) (Board.moving 0 a) = some (next, out)) :
    ∃ next', App.step (avr zeroQuot) app (Board.moving d a) = some (next', out) ∧
      Board.Shows zeroQuot (Board.store ⟨app', e⟩ next) next' (Board.unseen d a) := by
  apply h.part a
  rw [Board.step, hs]
  rfl

theorem Shows.byte (h : Shows zeroQuot r l d) (env : Env) {l₁ : Link}
    {o : List (Outcome Call Byte Counts)}
    (hs : r.view.step (avr zeroQuot) (Link.Action.moving 0 (.byte env)) = some (l₁, o)) :
    ∃ l', l.step (avr zeroQuot) (Link.Action.moving d (.byte env)) = some (l', o) ∧
      Shows zeroQuot (r.store l₁) l' 0 := by
  obtain ⟨⟨host, down, up, f, sent, handled⟩, encoders⟩ := r
  obtain ⟨host', down', up', g, sent', handled'⟩ := l
  obtain ⟨hline, hfirmware⟩ := h
  simp only [Link.mk.injEq] at hline
  obtain ⟨rfl, rfl, rfl, -, rfl, rfl⟩ := hline
  cases hfirmware with
  | none => exact absurd hs.symm (Option.some_ne_none _)
  | @some app' app hb =>
    cases down with
    | nil => exact absurd hs.symm (Option.some_ne_none _)
    | cons c down =>
      have hstep : App.step (avr zeroQuot) (Board.view ⟨app', encoders⟩)
          (Board.moving 0 (.byte c env)) =
          App.step (avr zeroQuot) app (Board.moving d (.byte c env)) := by
        rw [hb.view]
        exact Board.step_moving (.byte c env) (fun e he => nomatch he)
      cases hnext : App.step (avr zeroQuot) app (Board.moving d (.byte c env)) with
      | none =>
        rw [hnext] at hstep
        simp only [Board.moving] at hstep hnext
        simp only [Link.step, Link.firmwareByte, Link.Action.moving, view, Option.map_some,
          hstep] at hs
        simp only [Link.step, Link.firmwareByte, Link.Action.moving, hnext]
        obtain ⟨rfl, rfl⟩ := Prod.mk.inj (Option.some.inj hs)
        exact ⟨_, rfl, rfl, .none⟩
      | some p =>
        obtain ⟨next, out⟩ := p
        rw [hnext] at hstep
        obtain ⟨next', hnext', hshows⟩ := part_eq hb hstep
        obtain ⟨rfl, -⟩ := Prod.mk.inj (Option.some.inj (hnext.symm.trans hnext'))
        simp only [Board.moving] at hstep hnext
        simp only [Link.step, Link.firmwareByte, Link.Action.moving, view, Option.map_some,
          hstep] at hs
        simp only [Link.step, Link.firmwareByte, Link.Action.moving, hnext]
        obtain ⟨rfl, rfl⟩ := Prod.mk.inj (Option.some.inj hs)
        exact ⟨_, rfl, rfl, .some hshows⟩

/-- The two tasks of the loop. -/
theorem Shows.task (h : Shows zeroQuot r l d) {a : Link.Action} {b : App.Action}
    {task task' : App → App}
    (hstep : ∀ l : Link, l.step (avr zeroQuot) (a.moving 0) =
      l.firmware.map (fun app => ({ l with firmware := some (task app) }, [])))
    (hstep' : ∀ l : Link, l.step (avr zeroQuot) (a.moving d) =
      l.firmware.map (fun app => ({ l with firmware := some (task' app) }, [])))
    (htask : ∀ app, App.step (avr zeroQuot) app (Board.moving 0 b) = some (task app, []))
    (htask' : ∀ app, App.step (avr zeroQuot) app (Board.moving d b) = some (task' app, []))
    {l₁ : Link} {o : List (Outcome Call Byte Counts)}
    (hs : r.view.step (avr zeroQuot) (a.moving 0) = some (l₁, o)) :
    ∃ l', l.step (avr zeroQuot) (a.moving d) = some (l', o) ∧
      Shows zeroQuot (r.store l₁) l' (Board.unseen d b) := by
  obtain ⟨⟨host, down, up, f, sent, handled⟩, encoders⟩ := r
  obtain ⟨host', down', up', g, sent', handled'⟩ := l
  obtain ⟨hline, hfirmware⟩ := h
  simp only [Link.mk.injEq] at hline
  obtain ⟨rfl, rfl, rfl, -, rfl, rfl⟩ := hline
  rw [hstep] at hs
  rw [hstep']
  cases hfirmware with
  | none => exact absurd hs.symm (Option.some_ne_none _)
  | @some app' app hb =>
    obtain ⟨rfl, rfl⟩ := Prod.mk.inj (Option.some.inj hs)
    obtain ⟨next', hnext', hshows⟩ := part_eq hb (htask _)
    obtain ⟨rfl, -⟩ := Prod.mk.inj (Option.some.inj ((htask' app).symm.trans hnext'))
    exact ⟨_, rfl, rfl, .some hshows⟩

/-- An action of the link, with the ticks that are pending. -/
theorem Shows.action (h : Shows zeroQuot r l d) (a : Link.Action) {r' : Robot}
    {o : List (Outcome Call Byte Counts)} (hs : r.step (avr zeroQuot) (.link a) = some (r', o)) :
    ∃ l', l.step (avr zeroQuot) (a.moving d) = some (l', o) ∧
      Shows zeroQuot r' l' (a.unseen d) := by
  obtain ⟨⟨l₁, o₁⟩, hlink, hp⟩ := Option.map_eq_some_iff.mp hs
  obtain ⟨rfl, rfl⟩ := Prod.mk.inj hp
  cases a with
  | call c => exact h.host (avr zeroQuot) (.inl ⟨c, rfl⟩) hlink
  | receive => exact h.host (avr zeroQuot) (.inr (.inl rfl)) hlink
  | timeout => exact h.host (avr zeroQuot) (.inr (.inr rfl)) hlink
  | byte env => exact h.byte env hlink
  | pid e =>
    exact h.task (b := .pid e) (fun _ => rfl) (fun _ => rfl) (fun _ => rfl) (fun _ => rfl) hlink
  | autoStop e =>
    exact h.task (b := .autoStop e) (fun _ => rfl) (fun _ => rfl) (fun _ => rfl) (fun _ => rfl) hlink

theorem shows_link (zeroQuot : Int → Int) :
    Pending.Shows (step (avr zeroQuot)) (Link.step (avr zeroQuot)) consumer label
      (Shows zeroQuot) where
  event := by
    intro r l d a d' r' o h hl hs
    cases a with
    | interrupt port level =>
      obtain rfl := Sum.inl.inj hl
      obtain ⟨rfl, rfl⟩ := Prod.mk.inj (Option.some.inj hs)
      exact ⟨rfl, h.interrupt port level⟩
    | link a => exact absurd hl Sum.inr_ne_inl
  action := by
    intro r l d a b r' o h hl hs
    cases a with
    | interrupt port level => exact absurd hl Sum.inl_ne_inr
    | link a =>
      obtain rfl := Sum.inr.inj hl
      exact h.action a hs

theorem shows_initial (zeroQuot : Int → Int) (imu : Bool)
    (interrupts : List (Port × (Nat → Bool))) :
    Shows zeroQuot (initial (avr zeroQuot) imu interrupts)
      (Link.initial (Board.setup (avr zeroQuot) imu interrupts).app) 0 :=
  ⟨rfl, .some (Board.shows_setup zeroQuot imu interrupts)⟩

/-! ## Ticks and pins -/

def Action.interrupts : Action → List Encoders.Event
  | .interrupt port level => [.interrupt port level]
  | .link _ => []

/-- The readings that the interrupts of an encoder take in a run. -/
def readings (side : Side) (acts : List Action) : List Sample :=
  Encoders.samples side (acts.flatMap Action.interrupts)

theorem readings_append (side : Side) (as bs : List Action) :
    readings side (as ++ bs) = readings side as ++ readings side bs := by
  rw [readings, List.flatMap_append, Encoders.samples_append]
  rfl

theorem readings_singleton (side : Side) (a : Action) :
    readings side [a] = Encoders.samples side a.interrupts := by
  rw [readings, List.flatMap_singleton]

/-- The ticks of one wheel. -/
def ticks : Side → Displacement →+ Int
  | .left => AddMonoidHom.fst Int Int
  | .right => AddMonoidHom.snd Int Int

/-- The encoders are wired, and the one of a side has last read this. -/
structure Holds (r : Robot) (side : Side) (p : Sample) : Prop where
  wired : Encoders.Wired r.encoders
  state : Encoder.Holds (r.encoders.encoder side) p

theorem Holds.store {side : Side} {p : Sample} (h : Holds r side p) (l : Link) :
    Holds (r.store l) side p := by
  obtain ⟨host, down, up, f, sent, handled⟩ := l
  cases f with
  | none => exact ⟨h.wired, h.state⟩
  | some app => exact ⟨h.wired, h.state⟩

/-- A reading adds the step from the one before it. -/
theorem Holds.interrupt {side : Side} {p : Sample} (h : Holds r side p) (port : Port)
    (level : Nat → Bool) :
    r.encoders.delta port level side =
        netSteps p (Encoders.samples side [.interrupt port level]) ∧
      Holds { r with encoders := r.encoders.isr t port level } side
        ((Encoders.samples side [.interrupt port level]).getLastD p) := by
  have hwired := Encoders.isr_wired t h.wired port level
  have hisr := Encoders.isr_encoder t r.encoders h.wired side port level
  by_cases hport : port = Encoders.portOf side
  · have hsample : Encoders.samples side [.interrupt port level] =
        [⟨level (channelBPin side), level (channelAPin side)⟩] := by
      simp [Encoders.samples, Encoders.view, hport, Encoder.readings, Encoder.Action.reading]
    rw [if_pos hport] at hisr
    rw [hsample, Encoders.delta, if_pos hport, Encoder.delta_eq h.state]
    refine ⟨by simp [netSteps], hwired, ?_⟩
    rw [hisr]
    exact Encoder.callback_holds t _ _
  · have hsample : Encoders.samples side [.interrupt port level] = [] := by
      simp [Encoders.samples, Encoders.view, hport, Encoder.readings]
    rw [if_neg hport] at hisr
    rw [hsample, Encoders.delta, if_neg hport]
    refine ⟨rfl, hwired, ?_⟩
    rw [hisr]
    exact h.state

/-- What the interrupts of a run add up to. -/
theorem added_run {r₀ : Robot} {side : Side} {p : Sample} (h₀ : Holds r₀ side p)
    {acts : List Action} {o : List (Outcome Call Byte Counts)}
    (hr : Steps.run (step t) r₀ acts = some (r, o)) :
    ticks side (Pending.Consumer.added (Steps.labels (step t) label r₀ acts)) =
      netSteps p (readings side acts) := by
  refine (Steps.run_history label
    (fun as ls r _ => ticks side (Pending.Consumer.added ls) = netSteps p (readings side as) ∧
      Holds r side ((readings side as).getLastD p)) ⟨map_zero _, h₀⟩ ?_ hr).1
  intro as ls r _ a r' _ ⟨hadded, hholds⟩ hs
  rw [readings_append, readings_singleton, Pending.Consumer.added_append, map_add, hadded,
    netSteps_append]
  cases a with
  | interrupt port level =>
    obtain ⟨rfl, -⟩ := Prod.mk.inj (Option.some.inj hs)
    obtain ⟨hdelta, hholds'⟩ := hholds.interrupt t port level
    refine ⟨?_, ?_⟩
    · rw [Action.interrupts, ← hdelta]
      cases side <;> rfl
    · rw [getLastD_append]
      exact hholds'
  | link a =>
    obtain ⟨⟨l₁, _⟩, -, hp⟩ := Option.map_eq_some_iff.mp hs
    obtain ⟨rfl, -⟩ := Prod.mk.inj hp
    have hnone : Encoders.samples side (Action.link a).interrupts = [] := rfl
    rw [hnone, List.append_nil]
    exact ⟨congrArg _ (map_zero (ticks side)), hholds.store l₁⟩

theorem holds_initial (zeroQuot : Int → Int) (imu : Bool)
    (interrupts : List (Port × (Nat → Bool))) (side : Side) :
    Holds (initial (avr zeroQuot) imu interrupts) side
        ((Encoders.samples side (Board.boot interrupts)).getLastD ⟨false, false⟩) ∧
      ((Board.setup (avr zeroQuot) imu interrupts).encoders.encoder side).count =
        wrap 32 (netSteps ⟨false, false⟩ (Encoders.samples side (Board.boot interrupts))) := by
  have hencoders := Board.setup_encoders (avr zeroQuot) imu interrupts
  have hrun := Encoders.run_encoder (avr zeroQuot) Encoders.setup Encoders.setup_wired side
    (Board.boot interrupts)
  have hno : Encoders.Event.reset side ∉ Board.boot interrupts := by
    intro hmem
    obtain ⟨i, -, hi⟩ := List.mem_map.mp hmem
    cases hi
  rw [Encoders.setup_encoder] at hrun
  refine ⟨⟨?_, ?_⟩, ?_⟩
  · change Encoders.Wired (Board.setup (avr zeroQuot) imu interrupts).encoders
    rw [hencoders]
    exact Encoders.run_wired _ _ Encoders.setup_wired _
  · change Encoder.Holds ((Board.setup (avr zeroQuot) imu interrupts).encoders.encoder side) _
    rw [hencoders, hrun]
    exact Encoder.act_foldl_holds (avr zeroQuot) {} ⟨false, false⟩ _ (.inl rfl)
  · rw [hencoders, hrun]
    have hcount := Encoder.act_foldl_netSteps zeroQuot
      (show Encoder.Holds {} ⟨false, false⟩ from rfl) (show _ = wrap 32 0 from rfl)
      (Encoders.reset_mem_view side (Board.boot interrupts) hno)
    rw [zero_add] at hcount
    exact hcount

/-- The counts with which the link starts. -/
def startCounts (imu : Bool) (interrupts : List (Port × (Nat → Bool))) : Int × Int :=
  (((Board.setup t imu interrupts).encoders.encoder .left).count,
    ((Board.setup t imu interrupts).encoders.encoder .right).count)

/-- A byte finds the wheels moved by all that has been decoded before it. -/
theorem displacement_gathered (zeroQuot : Int → Int) {imu : Bool}
    {interrupts : List (Port × (Nat → Bool))} {before : List Action}
    {o : List (Outcome Call Byte Counts)}
    (hr : Steps.run (step (avr zeroQuot)) (initial (avr zeroQuot) imu interrupts) before =
      some (r, o)) (env : Env) (side : Side) :
    let g := (initial (avr zeroQuot) imu interrupts).gathered (avr zeroQuot) before
    displacement (startCounts (avr zeroQuot) imu interrupts)
        (g.1 ++ [Link.Action.moving g.2 (.byte env)]) side % 2 ^ 32 =
      netSteps ⟨false, false⟩
        (Encoders.samples side (Board.boot interrupts) ++ readings side before) % 2 ^ 32 := by
  intro g
  obtain ⟨hholds, hcount⟩ := holds_initial zeroQuot imu interrupts side
  have hadded := added_run (avr zeroQuot) hholds hr
  have htotal := consumer.gather_total (Link.Action.move side) (ticks side)
    (by
      intro d a
      cases a <;> cases side <;>
        simp [consumer, Link.Action.moving, Link.Action.unseen, Link.Action.move, Env.move,
          PidEnv.move, ticks])
    (Steps.labels (step (avr zeroQuot)) label (initial (avr zeroQuot) imu interrupts) before)
  rw [hadded] at htotal
  have hlast : (Link.Action.moving g.2 (.byte env)).move side = ticks side g.2 := by
    cases side <;> rfl
  have hstart : side.of (startCounts (avr zeroQuot) imu interrupts) =
      wrap 32 (netSteps ⟨false, false⟩ (Encoders.samples side (Board.boot interrupts))) := by
    rw [← hcount]
    cases side <;> rfl
  have hwrap := wrap_modEq 32
    (netSteps ⟨false, false⟩ (Encoders.samples side (Board.boot interrupts)))
  rw [displacement, List.map_append, List.sum_append, List.map_singleton, List.sum_singleton,
    hlast, hstart, netSteps_append]
  exact (congrArg (fun n => (wrap 32 _ + n) % 2 ^ 32) htotal).trans (hwrap.add_right _)

/-! ## Positions -/

/-- The firmware handles request number `n` with this byte, behind these actions. -/
structure HandledAt (t : Target) (start : Robot) (n : Nat) (before : List Action) (env : Env) :
    Prop where
  handled : ∃ r₁ o₁ r₂ o₂, Steps.run (step t) start before = some (r₁, o₁) ∧
    r₁.step t (.link (.byte env)) = some (r₂, o₂) ∧ r₁.link.handled + 1 = n ∧ r₂.link.handled = n

/-- How far a wheel has come in the first `n` of these positions. -/
def travel (positions : List Int) (n : Nat) : Int :=
  (positions.take n).getLastD (origin positions) - origin positions

/-- The wheel has come as far as its pins say. -/
theorem netSteps_before {side : Side} {boot : List Encoders.Event} {acts before rest : List Action}
    (hacts : acts = before ++ rest) {positions : List Int}
    (hpositions : Encoders.samples side boot ++ readings side acts = positions.map .at)
    (htracked : Tracked (origin positions) positions) :
    netSteps ⟨false, false⟩ (Encoders.samples side boot ++ readings side before) =
      travel positions (Encoders.samples side boot ++ readings side before).length := by
  have hprefix : Encoders.samples side boot ++ readings side before <+: positions.map .at := by
    rw [← hpositions, hacts, readings_append, ← List.append_assoc]
    exact List.prefix_append _ _
  have htake := List.prefix_iff_eq_take.mp hprefix
  rw [← List.map_take] at htake
  rw [travel, ← netSteps_take htracked, ← htake]

theorem moving_eq_byte {d : Displacement} {a : Link.Action} {env : Env}
    (h : a.moving d = .byte env) : ∃ env', a = .byte env' := by
  cases a with
  | byte env' => exact ⟨env', rfl⟩
  | _ => exact absurd h nofun

theorem oneLine_moving {d : Displacement} {a : Link.Action} (h : a.OneLine) :
    (a.moving d).OneLine := by
  cases a with
  | call c => exact h
  | _ => trivial

/-- Every action that the link runs is one of the robot's. -/
theorem oneLine_gathered {r₀ : Robot} {acts : List Action}
    (hone : ∀ a, .link a ∈ acts → a.OneLine) :
    ∀ a ∈ (r₀.gathered t acts).1, a.OneLine := by
  intro a ha
  obtain ⟨pre, post, hsplit⟩ := List.append_of_mem ha
  obtain ⟨ls₁, b, ls₂, hls, -, rfl⟩ := consumer.gather_split hsplit
  obtain ⟨before, c, after, r, o, rfl, -, -, hlabel⟩ := Steps.labels_split hls
  cases c with
  | interrupt port level => exact absurd hlabel Sum.inl_ne_inr
  | link c =>
    obtain rfl := Sum.inr.inj hlabel
    exact oneLine_moving (hone _ (by simp))

/-- A byte of the link is a byte of the robot. -/
theorem handledAt_gathered {zeroQuot : Int → Int} {imu : Bool}
    {interrupts : List (Port × (Nat → Bool))} {acts : List Action} {s : Robot}
    {out : List (Outcome Call Byte Counts)}
    (hrun : Steps.run (step (avr zeroQuot)) (initial (avr zeroQuot) imu interrupts) acts =
      some (s, out))
    {pre post : List Link.Action} {env : Env} {n : Nat}
    (hsplit : ((initial (avr zeroQuot) imu interrupts).gathered (avr zeroQuot) acts).1 =
      pre ++ .byte env :: post)
    (hat : AndinoBase.HandledAt (avr zeroQuot)
      (Board.setup (avr zeroQuot) imu interrupts).app n pre env) :
    ∃ before env' after, acts = before ++ .link (.byte env') :: after ∧
      HandledAt (avr zeroQuot) (initial (avr zeroQuot) imu interrupts) n before env' ∧
      pre ++ [.byte env] =
        let g := (initial (avr zeroQuot) imu interrupts).gathered (avr zeroQuot) before
        g.1 ++ [Link.Action.moving g.2 (.byte env')] := by
  obtain ⟨ls₁, b, ls₂, hls, hpre, htake⟩ := consumer.gather_split hsplit
  obtain ⟨before, c, after, r₁, o₁, rfl, hbefore, rfl, hlabel⟩ := Steps.labels_split hls
  cases c with
  | interrupt port level => exact absurd hlabel Sum.inl_ne_inr
  | link c =>
    obtain rfl := Sum.inr.inj hlabel
    obtain ⟨env', rfl⟩ := moving_eq_byte htake
    obtain ⟨t₁, o₁', o₂, hbefore', hrest, -⟩ := Steps.run_append_eq_some hrun
    obtain ⟨rfl, rfl⟩ := Prod.mk.inj (Option.some.inj (hbefore.symm.trans hbefore'))
    obtain ⟨r₂, o₃, -, hstep, -, -⟩ := Steps.run_cons_eq_some hrest
    -- the robot goes on as the link does
    obtain ⟨l₁, hl₁, hshows⟩ :=
      Pending.run_gather (shows_link zeroQuot) (shows_initial zeroQuot imu interrupts) hbefore
    obtain ⟨l₂, hl₂, hshows'⟩ := hshows.action _ hstep
    obtain ⟨k₁, q₁, k₂, q₂, hk₁, hk₂, hn₁, hn₂⟩ := hat.handled
    rw [hpre] at hl₁
    obtain ⟨rfl, -⟩ := Prod.mk.inj (Option.some.inj (hl₁.symm.trans hk₁))
    rw [show (Link.Action.byte env').moving _ = .byte env from htake] at hl₂
    obtain ⟨rfl, -⟩ := Prod.mk.inj (Option.some.inj (hl₂.symm.trans hk₂))
    refine ⟨before, env', after, rfl, ⟨r₁, _, r₂, _, hbefore, hstep, ?_, ?_⟩, ?_⟩
    · rw [hshows.line]
      exact hn₁
    · rw [hshows'.line]
      exact hn₂
    · rw [← hpre, ← htake]
      rfl

end Robot

open Robot in
/-- In a run of the calls of the hardware interface, a read that finds a whole reply to a
request for counts puts each joint where its wheel was when the firmware handled that request:
as many quadrature steps from where it was at power-up as its pins have shown to the
interrupts, modulo the 32 bits of the count, provided that no interrupt finds the wheel more
than a step further. The angle is the exact product. -/
theorem joint_positions {K : Type} [Field K] (zeroQuot : Int → Int) (imu : Bool)
    (interrupts : List (Port × (Nat → Bool))) (acts : List Robot.Action) (s : Robot)
    (out : List (Outcome Call Byte Counts)) (hone : ∀ a, .link a ∈ acts → a.OneLine)
    (hrun : Steps.run (Robot.step (avr zeroQuot)) (initial (avr zeroQuot) imu interrupts) acts =
      some (s, out))
    (pre post : List (Outcome Call Byte Counts)) (r : Outcome Call Byte Counts)
    (hout : out = pre ++ r :: post) (hcomplete : r.complete = true)
    (hanswered : ((pre ++ [r]).map (fun q => q.request))[pre.length - givenUp pre]? =
      some .readEncoderValues)
    (hwhole : leftover pre = []) (positions : Side → List Int)
    (hpositions : ∀ side, Encoders.samples side (Board.boot interrupts) ++ readings side acts =
      (positions side).map .at)
    (htracked : ∀ side, Tracked (origin (positions side)) (positions side))
    (d : DiffDrive K) (deltaSecs : K) :
    ∃ before env after, acts = before ++ .link (.byte env) :: after ∧
      Robot.HandledAt (avr zeroQuot) (initial (avr zeroQuot) imu interrupts)
        (r.number - givenUp pre) before env ∧
      (d.readSerial (some (r.line.map Prod.fst)) deltaSecs).1 = .ok ∧
      let seen := fun side => (Encoders.samples side (Board.boot interrupts) ++
        readings side before).length
      (d.readSerial (some (r.line.map Prod.fst)) deltaSecs).2.leftWheel.pos =
        ((travel (positions .left) (seen .left) % 2 ^ 32 : Int) : K) * d.leftWheel.radsPerTick ∧
      (d.readSerial (some (r.line.map Prod.fst)) deltaSecs).2.rightWheel.pos =
        ((travel (positions .right) (seen .right) % 2 ^ 32 : Int) : K) *
          d.rightWheel.radsPerTick := by
  obtain ⟨l, hl, -⟩ :=
    Pending.run_gather (shows_link zeroQuot) (shows_initial zeroQuot imu interrupts) hrun
  obtain ⟨before', env', after', hsplit, hat, hok, hleft, hright⟩ :=
    odometry zeroQuot imu _ _ _ l out (oneLine_gathered (avr zeroQuot) hone) hl pre post r hout
      hcomplete hanswered hwhole d deltaSecs
  obtain ⟨before, env, after, hacts, hat', hmoved⟩ := handledAt_gathered hrun hsplit hat
  obtain ⟨r₁, o₁, -, -, hbefore, -⟩ := hat'.handled
  have hdisplacement : ∀ side, displacement (startCounts (avr zeroQuot) imu interrupts)
      (before' ++ [.byte env']) side % 2 ^ 32 =
      travel (positions side) (Encoders.samples side (Board.boot interrupts) ++
        readings side before).length % 2 ^ 32 := by
    intro side
    rw [hmoved, displacement_gathered zeroQuot hbefore env side,
      netSteps_before hacts (hpositions side) (htracked side)]
  refine ⟨before, env, after, hacts, hat', hok, ?_, ?_⟩
  · rw [hleft, ← hdisplacement .left]
    rfl
  · rw [hright, ← hdisplacement .right]
    rfl

/-- The left wheel turns while the counts are asked for, and goes on before they are read. -/
def Robot.asked : List Robot.Action :=
  [.interrupt .D (fun pin => pin = 2), .link (.call .readEncoderValues), .link (.byte (Env.quiet 0)),
    .interrupt .D (fun pin => pin = 2 ∨ pin = 3), .link (.byte (Env.quiet 0)),
    .interrupt .D (fun pin => pin = 3)] ++ List.replicate 5 (.link .receive)

theorem joint_positions_asked :
    ∃ (s : Robot) (r : Outcome Call Byte Counts) (before : List Robot.Action) (env : Env),
      Steps.run (Robot.step (avr fun _ => 0)) (Robot.initial (avr fun _ => 0) false [])
        Robot.asked = some (s, [r]) ∧
      Robot.HandledAt (avr fun _ => 0) (Robot.initial (avr fun _ => 0) false []) 1 before env ∧
      ((DiffDrive.setup (1 / 2 : Rat)).readSerial (some (r.line.map Prod.fst)) 1).2.leftWheel.pos =
        ((Robot.travel [1, 2, 3] (Robot.readings .left before).length % 2 ^ 32 : Int) : Rat) *
          (1 / 2) := by
  have hrun : (Steps.run (Robot.step (avr fun _ => 0)) (Robot.initial (avr fun _ => 0) false [])
      Robot.asked).map Prod.snd =
      some [⟨1, .readEncoderValues, LineRpc.tagged ⟨1, (2, 0)⟩ (ascii "2 0\r\n"), true⟩] := by
    decide +kernel
  obtain ⟨⟨s, out⟩, hr, hout⟩ := Option.map_eq_some_iff.mp hrun
  subst hout
  have hone : ∀ a, Robot.Action.link a ∈ Robot.asked → a.OneLine := by
    intro a ha
    simp only [Robot.asked, List.mem_append, List.mem_cons, List.not_mem_nil, List.mem_replicate,
      reduceCtorEq, Robot.Action.link.injEq] at ha
    cases a <;> simp_all [Link.Action.OneLine, Call.OneLine]
  obtain ⟨before, env, -, -, hat, -, hleft, -⟩ := joint_positions (fun _ => 0) false [] Robot.asked s
    _ hone hr [] [] _ rfl rfl rfl rfl (fun side => match side with | .left => [1, 2, 3] | .right => [])
    (by intro side; cases side <;> rfl)
    (by intro side; cases side <;> simp [Tracked, origin, grayStep, Sample.phase, Sample.at])
    (DiffDrive.setup (1 / 2 : Rat)) 1
  exact ⟨s, _, before, env, hr, hat, hleft⟩

end AndinoBase
