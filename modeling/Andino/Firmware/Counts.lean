import Andino.Firmware.Board

/-!
# What the counts count

The interrupts decode the pins of a wheel while the application reads and resets the counts.
Over a run of the board both come together: a reply to `e` gives, for each wheel, the net
number of decoded steps since the last `r`. An interrupt reads the pins when it is served, not
when they change, so the wheel may have gone on by more than a step: what the decoder makes of
that is `netSteps_positions`.
-/
namespace AndinoFirmware

open CArith CString Decimal

/-! ## Readings of a wheel that has moved on -/

/-- The channels of a wheel that is `x` quadrature steps from where both are low. -/
def Sample.at (x : Int) : Sample :=
  if x % 4 = 0 then ⟨false, false⟩
  else if x % 4 = 1 then ⟨false, true⟩
  else if x % 4 = 2 then ⟨true, true⟩
  else ⟨true, false⟩

theorem Sample.phase_at (x : Int) : (Sample.at x).phase = x % 4 := by
  have h : x % 4 = 0 ∨ x % 4 = 1 ∨ x % 4 = 2 ∨ x % 4 = 3 := by omega
  rcases h with h | h | h | h <;> simp [Sample.at, h, phase]

/-- The readings that find the wheel half a cycle away from the one before. -/
def opposite (x : Int) : List Int → Int
  | [] => 0
  | y :: ys => (if (y - x) % 4 = 2 then 1 else 0) + opposite y ys

/-- No two consecutive readings are more than one step apart. -/
def Tracked (x : Int) : List Int → Prop
  | [] => True
  | y :: ys => |y - x| ≤ 1 ∧ Tracked y ys

theorem Tracked.take {x : Int} {ys : List Int} (h : Tracked x ys) (n : Nat) :
    Tracked x (ys.take n) := by
  induction ys generalizing x n with
  | nil => rwa [List.take_nil]
  | cons y ys ih =>
    cases n with
    | zero => trivial
    | succ n => exact ⟨h.1, ih h.2 n⟩

/-- A step is decoded from the phase of the movement alone. -/
theorem grayStep_at (x y : Int) :
    grayStep (.at x) (.at y) =
      if (y - x) % 4 = 1 then 1 else if (y - x) % 4 = 3 then -1 else 0 := by
  have h : (y % 4 - x % 4) % 4 = (y - x) % 4 := by omega
  rw [grayStep, Sample.phase_at, Sample.phase_at, h]

/-- What is decoded misses the travel of the wheel by two steps for each reading that has
skipped one, and by nothing else, modulo a full cycle. -/
theorem netSteps_positions (x : Int) (ys : List Int) :
    (netSteps (.at x) (ys.map .at) - (ys.getLastD x - x)) % 4 = 2 * opposite x ys % 4 := by
  induction ys generalizing x with
  | nil => simp [netSteps, opposite]
  | cons y ys ih =>
    have h := ih y
    rw [List.map_cons, netSteps, grayStep_at, List.getLastD_cons, opposite]
    split_ifs <;> omega

/-- A wheel that is read often enough is decoded exactly. -/
theorem netSteps_tracked {x : Int} {ys : List Int} (h : Tracked x ys) :
    netSteps (.at x) (ys.map .at) = ys.getLastD x - x := by
  induction ys generalizing x with
  | nil => simp [netSteps]
  | cons y ys ih =>
    obtain ⟨hstep, hrest⟩ := h
    have hrange := abs_le.mp hstep
    rw [List.map_cons, netSteps, grayStep_at, List.getLastD_cons, ih hrest]
    split_ifs <;> omega

theorem getLastD_append {α : Type} (xs ys : List α) (p : α) :
    (xs ++ ys).getLastD p = ys.getLastD (xs.getLastD p) := by
  induction xs generalizing p with
  | nil => rfl
  | cons x xs ih => rw [List.cons_append, List.getLastD_cons, List.getLastD_cons, ih]

theorem netSteps_append (p : Sample) (qs rs : List Sample) :
    netSteps p (qs ++ rs) = netSteps p qs + netSteps (qs.getLastD p) rs := by
  induction qs generalizing p with
  | nil => simp [netSteps]
  | cons q qs ih =>
    rw [List.cons_append, netSteps, netSteps, ih q, List.getLastD_cons]
    omega

/-- Where the count of a wheel starts: the first reading is compared with two low channels. -/
def origin : List Int → Int
  | [] => 0
  | x :: _ => x - grayStep ⟨false, false⟩ (.at x)

/-- What is decoded from power-up on, after any of the readings. -/
theorem netSteps_take {xs : List Int} (h : Tracked (origin xs) xs) (n : Nat) :
    netSteps ⟨false, false⟩ ((xs.take n).map .at) =
      (xs.take n).getLastD (origin xs) - origin xs := by
  cases xs with
  | nil => simp [netSteps]
  | cons x ys =>
    cases n with
    | zero => simp [netSteps]
    | succ n =>
      have hrest := netSteps_tracked (h.2.take n)
      rw [List.take_succ_cons, List.map_cons, netSteps, hrest, List.getLastD_cons, origin]
      omega

namespace Encoder

/-- The table agrees with the Gray code on neighbours, and counts nothing for the others. -/
theorem tick_eq (p q : Sample) : tick p q = grayStep p q := by
  obtain ⟨pb, pa⟩ := p
  obtain ⟨qb, qa⟩ := q
  revert pb pa qb qa
  decide

theorem delta_eq {e : Encoder} {p : Sample} (h : Holds e p) (q : Sample) :
    e.delta q = grayStep p q := by
  have hs := (shift_in e.state q).1
  rw [show e.state &&& 3 = bits p from h] at hs
  rw [← tick_eq, delta, hs, tick]

/-- From a reading on, whatever the readings. -/
theorem act_foldl_netSteps (zeroQuot : Int → Int) {e : Encoder} {p : Sample} {n : Int}
    {as : List Action} (h : Holds e p) (hn : e.count = wrap 32 n) (hr : Action.reset ∉ as) :
    (as.foldl (act (avr zeroQuot)) e).count = wrap 32 (n + netSteps p (readings as)) := by
  induction as generalizing e p n with
  | nil => simpa [netSteps] using hn
  | cons a as ih =>
    cases a with
    | reset => exact absurd List.mem_cons_self hr
    | sample q =>
      have hcount : (e.callback (avr zeroQuot) q).count = wrap 32 (n + grayStep p q) := by
        rw [callback_count _ _ _ _ h, hn, tick_eq]
        exact Int.bmod_add_bmod
      rw [readings_sample, netSteps, ← add_assoc]
      exact ih (callback_holds _ e q) hcount (fun hm => hr (List.mem_cons_of_mem _ hm))

end Encoder

namespace Encoders

/-- After a reset the count is what has been decoded since, against the last reading before. -/
theorem count_after_reset (zeroQuot : Int → Int) (side : Side) {p : Sample} {pre post : List Event}
    (hpre : (samples side pre).getLast? = some p) (hr : Event.reset side ∉ post) :
    ((run (avr zeroQuot) setup (pre ++ .reset side :: post)).encoder side).count =
      wrap 32 (netSteps p (samples side post)) := by
  have hne : samples side pre ≠ [] := fun h => by simp [h] at hpre
  have hholds := Encoder.act_foldl_holds (avr zeroQuot) {} p (pre.filterMap (view side))
    (Or.inr hne)
  have hlast : (Encoder.readings (pre.filterMap (view side))).getLastD p = p := by
    rw [List.getLastD_eq_getLast?]
    exact congrArg (fun o => Option.getD o p) hpre
  rw [hlast] at hholds
  have hview : view side (Event.reset side) = some .reset := by simp [view]
  rw [run_encoder _ _ setup_wired, setup_encoder, List.filterMap_append, List.foldl_append,
    List.filterMap_cons, hview]
  have h := Encoder.act_foldl_netSteps zeroQuot
    (show Encoder.Holds ((pre.filterMap (view side)).foldl (Encoder.act (avr zeroQuot)) {}).reset p
      from hholds) (show _ = wrap 32 0 from rfl) (reset_mem_view side post hr)
  rw [zero_add] at h
  exact h

end Encoders

namespace Board

open App

variable (t : Target)

/-- The call of the shell in an action. -/
def invocation (b : Board) : Action → Option (Shell.Invocation Callback)
  | .interrupt _ _ => none
  | .app a => b.app.invocation a

def invocations (b : Board) (acts : List Action) : List (Shell.Invocation Callback) :=
  (Steps.labels (step t) invocation b acts).filterMap id

/-- What an action does to the encoders. -/
def event (b : Board) : Action → List Encoders.Event
  | .interrupt port level => [.interrupt port level]
  | .app a =>
    if (b.app.invocation a).any (fun i => i.callback = .resetEncoders) then
      [.reset .left, .reset .right]
    else []

def events (b : Board) (acts : List Action) : List Encoders.Event :=
  (Steps.labels (step t) event b acts).flatten

def Action.interrupts : Action → List Encoders.Event
  | .interrupt port level => [.interrupt port level]
  | .app _ => []

/-- The readings that the interrupts of an encoder take in a run. -/
def readings (side : Side) (acts : List Action) : List Sample :=
  Encoders.samples side (acts.flatMap Action.interrupts)

variable {t}

theorem invocation_moving (app : App) (d : Displacement) (a : App.Action) :
    app.invocation (moving d a) = app.invocation a := by
  cases a <;> rfl

/-- A part of the loop leaves the counts alone or resets both. -/
theorem count_part {b b' : Board} {a : App.Action} {out : List Byte} {zeroQuot : Int → Int}
    (hfits : ∀ side, ∃ n, (b.encoders.encoder side).count = wrap 32 n)
    (hs : b.step (avr zeroQuot) (.app a) = some (b', out)) (side : Side) :
    (b'.encoders.encoder side).count =
      if (b.app.invocation a).any (fun i => i.callback = .resetEncoders) then 0
      else (b.encoders.encoder side).count := by
  obtain ⟨⟨app', out'⟩, hstep, hb⟩ := Option.map_eq_some_iff.mp hs
  obtain ⟨rfl, rfl⟩ := Prod.mk.inj hb
  change (app'.channel side).encoder.count = _
  have hinvocation : b.view.invocation (moving 0 a) = b.app.invocation a :=
    invocation_moving b.app 0 a
  have hcount : (b.view.channel side).encoder.count = (b.encoders.encoder side).count := by
    cases side <;> rfl
  rw [channel_step (avr zeroQuot) hstep side]
  by_cases hreset : (b.app.invocation a).any (fun i => i.callback = .resetEncoders) = true
  · rw [if_pos hreset]
    obtain ⟨i, hi, hcallback⟩ := (Option.any_eq_true _ _).mp hreset
    cases a with
    | pid e => cases hi
    | autoStop e => cases hi
    | byte c env =>
      obtain ⟨callback, argc, argv⟩ := i
      obtain rfl : callback = .resetEncoders := of_decide_eq_true hcallback
      have hevent : sideEvent (avr zeroQuot) side b.view (moving 0 (.byte c env)) =
          .resetEncoder 0 0 := by
        simp only [moving, sideEvent]
        rw [show (b.view.shell.processByte env.nullEq c).2 = _ from hi]
        cases side <;> rfl
      rw [hevent]
      rfl
  · rw [if_neg hreset]
    obtain ⟨n, hn⟩ := hfits side
    have hno : ∀ i, b.view.invocation (moving 0 a) = some i → i.callback ≠ .resetEncoders := by
      intro i hi hcallback
      rw [hinvocation] at hi
      exact hreset (by simp [hi, hcallback])
    obtain ⟨hkeep, hmoved⟩ := sideEvent_moved (avr zeroQuot) side b.view (moving 0 a) hno
    have hzero : (moving 0 a).move side = 0 := by cases a <;> cases side <;> rfl
    rw [Channel.count_step zeroQuot (hcount.trans hn) hkeep, hmoved, hzero, add_zero, hn]

theorem encoders_step {b b' : Board} {a : Action} {out : List Byte} {zeroQuot : Int → Int}
    (hfits : ∀ side, ∃ n, (b.encoders.encoder side).count = wrap 32 n)
    (hs : b.step (avr zeroQuot) a = some (b', out)) :
    b'.encoders = Encoders.run (avr zeroQuot) b.encoders (b.event a) := by
  cases a with
  | interrupt port level =>
    simp only [step, Option.some.injEq, Prod.mk.injEq] at hs
    rw [← hs.1]
    rfl
  | app a =>
    have hcount := count_part hfits hs
    obtain ⟨⟨app', out'⟩, hstep, hb⟩ := Option.map_eq_some_iff.mp hs
    obtain ⟨rfl, rfl⟩ := Prod.mk.inj hb
    have hencoder : ∀ side, (b.store app').encoders.encoder side =
        { b.encoders.encoder side with count := ((b.store app').encoders.encoder side).count } :=
      fun _ => rfl
    have hsame : (b.store app').encoders =
        { b.encoders with encoder := (b.store app').encoders.encoder } := rfl
    rw [hsame, event]
    split
    case isTrue hreset =>
      have hzero : (b.store app').encoders.encoder = fun side =>
          (b.encoders.encoder side).reset := by
        funext side
        rw [hencoder, hcount side, if_pos hreset]
        rfl
      rw [hzero]
      simp only [Encoders.run, List.foldl_cons, List.foldl_nil, Encoders.step, Encoders.set]
      congr 1
      funext side
      cases side <;> rfl
    case isFalse hreset =>
      have hkeep : (b.store app').encoders.encoder = b.encoders.encoder := by
        funext side
        rw [hencoder, hcount side, if_neg hreset]
      rw [hkeep]
      rfl

/-- The encoders on the board see its interrupts and the resets, in this order. -/
theorem encoders_run {zeroQuot : Int → Int} {imu : Bool} {interrupts : List (Port × (Nat → Bool))}
    {acts : List Action} {b : Board} {out : List Byte}
    (hr : Steps.run (step (avr zeroQuot)) (setup (avr zeroQuot) imu interrupts) acts =
      some (b, out)) :
    b.encoders = Encoders.run (avr zeroQuot) Encoders.setup
      (boot interrupts ++ (setup (avr zeroQuot) imu interrupts).events (avr zeroQuot) acts) := by
  refine Steps.run_history event
    (fun _ ls b _ => b.encoders = Encoders.run (avr zeroQuot) Encoders.setup
      (boot interrupts ++ ls.flatten)) ?_ ?_ hr
  · rw [List.flatten_nil, List.append_nil]
    exact setup_encoders (avr zeroQuot) imu interrupts
  · intro _ ls b₁ _ a b₂ _ ih hs
    have hfits : ∀ side, ∃ n, (b₁.encoders.encoder side).count = wrap 32 n := by
      intro side
      rw [ih]
      exact Encoders.run_fits zeroQuot _ side
    rw [encoders_step hfits hs, ih, ← Encoders.run_append, List.flatten_append,
      List.flatten_singleton, List.append_assoc]

theorem samples_event (side : Side) (b : Board) (a : Action) :
    Encoders.samples side (b.event a) = Encoders.samples side a.interrupts := by
  cases a with
  | interrupt port level => rfl
  | app a =>
    rw [event]
    split
    · cases side <;> rfl
    · rfl

theorem samples_events {b b' : Board} {acts : List Action} {out : List Byte}
    (hr : Steps.run (step t) b acts = some (b', out)) (side : Side) :
    Encoders.samples side (b.events t acts) = readings side acts := by
  refine Steps.run_history event
    (fun as ls _ _ => Encoders.samples side ls.flatten = readings side as) rfl ?_ hr
  intro as ls b _ a _ _ ih _
  rw [List.flatten_append, List.flatten_singleton, Encoders.samples_append, ih, samples_event,
    readings, readings, List.flatMap_append, Encoders.samples_append, List.flatMap_singleton]

/-- The encoders are reset by calls only. -/
theorem reset_notMem_events {b : Board} {acts : List Action}
    (h : ∀ i ∈ b.invocations t acts, i.callback ≠ .resetEncoders) (side : Side) :
    Encoders.Event.reset side ∉ b.events t acts := by
  intro hmem
  obtain ⟨l, hl, hreset⟩ := List.mem_flatten.mp hmem
  obtain ⟨pre, a, post, u, out, rfl, hrun, rfl⟩ := Steps.mem_labels hl
  cases a with
  | interrupt port level => exact absurd hreset (by simp [event])
  | app a =>
    rw [event] at hreset
    split at hreset
    case isFalse => exact absurd hreset (by simp)
    case isTrue hany =>
      obtain ⟨i, hi, hcallback⟩ := (Option.any_eq_true _ _).mp hany
      refine h i ?_ (of_decide_eq_true hcallback)
      exact List.mem_filterMap.mpr ⟨some i, hi ▸ Steps.label_mem invocation hrun _ _, rfl⟩

theorem events_append {b b' : Board} {as : List Action} {out : List Byte}
    (hr : Steps.run (step t) b as = some (b', out)) (bs : List Action) :
    b.events t (as ++ bs) = b.events t as ++ b'.events t bs := by
  rw [events, Steps.labels_append hr, List.flatten_append]
  rfl

theorem events_cons {b b' : Board} {a : Action} {out : List Byte}
    (hs : step t b a = some (b', out)) (as : List Action) :
    b.events t (a :: as) = b.event a ++ b'.events t as := by
  rw [events, Steps.labels_cons hs, List.flatten_cons]
  rfl

/-- The count since the last `r`. -/
theorem count_since_r {zeroQuot : Int → Int} {imu : Bool} {interrupts : List (Port × (Nat → Bool))}
    {before after : List Action} {r : App.Action} {b₁ b₂ b₃ : Board} {out₁ out₂ out₃ : List Byte}
    (h₁ : Steps.run (step (avr zeroQuot)) (setup (avr zeroQuot) imu interrupts) before =
      some (b₁, out₁))
    (hr : ∃ i ∈ b₁.app.invocation r, i.callback = .resetEncoders)
    (h₂ : step (avr zeroQuot) b₁ (.app r) = some (b₂, out₂))
    (h₃ : Steps.run (step (avr zeroQuot)) b₂ after = some (b₃, out₃))
    (hno : ∀ i ∈ b₂.invocations (avr zeroQuot) after, i.callback ≠ .resetEncoders) (side : Side)
    {p : Sample}
    (hp : (Encoders.samples side (boot interrupts) ++ readings side before).getLast? = some p) :
    (b₃.encoders.encoder side).count = wrap 32 (netSteps p (readings side after)) := by
  have hevent : b₁.event (.app r) = [.reset .left, .reset .right] := by
    obtain ⟨i, hi, hcallback⟩ := hr
    rw [event, if_pos]
    simp [Option.mem_def.mp hi, hcallback]
  have hrun := Steps.run_join h₁ (Steps.run_step h₂ h₃)
  have hencoders := encoders_run hrun
  rw [events_append h₁, events_cons h₂, hevent] at hencoders
  rw [hencoders]
  have hbefore := samples_events h₁ side
  have hafter := samples_events h₃ side
  have hnone := reset_notMem_events hno side
  generalize b₂.events (avr zeroQuot) after = late at hafter hnone ⊢
  generalize (setup (avr zeroQuot) imu interrupts).events (avr zeroQuot) before = early
    at hbefore ⊢
  have hpre : (Encoders.samples side (boot interrupts ++ early)).getLast? = some p := by
    rw [Encoders.samples_append, hbefore, hp]
  rw [← hafter]
  cases side with
  | left =>
    rw [← List.append_assoc]
    have hpost : Encoders.Event.reset .left ∉ Encoders.Event.reset .right :: late := by
      intro hmem
      rcases List.mem_cons.mp hmem with h | h
      · cases h
      · exact hnone h
    exact Encoders.count_after_reset zeroQuot .left hpre hpost
  | right =>
    have hsame : Encoders.samples .right (boot interrupts ++ early ++ [.reset .left]) =
        Encoders.samples .right (boot interrupts ++ early) := by
      rw [Encoders.samples_append]
      exact List.append_nil _
    rw [show boot interrupts ++ (early ++ ([.reset .left, .reset .right] ++ late)) =
      boot interrupts ++ early ++ [.reset .left] ++ .reset .right :: late by simp]
    exact Encoders.count_after_reset zeroQuot .right (hsame ▸ hpre) hnone

/-- The reply to `e` gives the counts of the encoders. -/
theorem reply_counts {zeroQuot : Int → Int} {b b' : Board} {a : App.Action} {out : List Byte}
    (hfits : ∀ side, ∃ n, (b.encoders.encoder side).count = wrap 32 n)
    (he : ∃ i ∈ b.app.invocation a, i.callback = .readEncoders)
    (hs : b.step (avr zeroQuot) (.app a) = some (b', out)) :
    out = decimal (b.encoders.encoder .left).count ++ print " " ++
      println (decimal (b.encoders.encoder .right).count) := by
  obtain ⟨⟨callback, argc, argv⟩, hi, rfl⟩ := he
  obtain ⟨⟨app', out'⟩, hstep, hb⟩ := Option.map_eq_some_iff.mp hs
  obtain ⟨rfl, rfl⟩ := Prod.mk.inj hb
  cases a with
  | pid e => cases hi
  | autoStop e => cases hi
  | byte c env =>
    have hview : ∀ side, ∃ n, (b.view.channel side).encoder.count = wrap 32 n := by
      intro side
      cases side with
      | left => exact hfits .left
      | right => exact hfits .right
    simp only [moving, App.step, processByte] at hstep
    rw [show (0 : Displacement).1 = 0 from rfl, show (0 : Displacement).2 = 0 from rfl,
      moveEncoders_zero zeroQuot hview,
      show (b.view.shell.processByte env.nullEq c).2 = _ from hi] at hstep
    exact (Prod.mk.inj (Option.some.inj hstep)).2.symm

/-- Whatever else the board does in between, the reply to an `e` gives for each wheel how far
it has travelled since the last `r`, exactly if its interrupts never find it more than a step
further. If they come late or are lost, the count is off by an even number: by two, modulo
four, for each reading that finds the wheel half a cycle away. -/
theorem board_odometry (zeroQuot : Int → Int) (imu : Bool)
    (interrupts : List (Port × (Nat → Bool))) {before after : List Action} {r e : App.Action}
    {b₁ b₂ b₃ b₄ : Board} {out₁ out₂ out₃ out₄ : List Byte}
    (h₁ : Steps.run (step (avr zeroQuot)) (setup (avr zeroQuot) imu interrupts) before =
      some (b₁, out₁))
    (hr : ∃ i ∈ b₁.app.invocation r, i.callback = .resetEncoders)
    (h₂ : step (avr zeroQuot) b₁ (.app r) = some (b₂, out₂))
    (h₃ : Steps.run (step (avr zeroQuot)) b₂ after = some (b₃, out₃))
    (hno : ∀ i ∈ b₂.invocations (avr zeroQuot) after, i.callback ≠ .resetEncoders)
    (he : ∃ i ∈ b₃.app.invocation e, i.callback = .readEncoders)
    (h₄ : step (avr zeroQuot) b₃ (.app e) = some (b₄, out₄))
    (start : Side → Int) (positions : Side → List Int)
    (hstart : ∀ side, (Encoders.samples side (boot interrupts) ++ readings side before).getLast? =
      some (.at (start side)))
    (hpositions : ∀ side, readings side after = (positions side).map .at) :
    ∃ count : Side → Int,
      out₄ = decimal (count .left) ++ print " " ++ println (decimal (count .right)) ∧
      ∀ side,
        (count side - ((positions side).getLastD (start side) - start side)) % 4 =
          2 * opposite (start side) (positions side) % 4 ∧
        (Tracked (start side) (positions side) →
          count side = wrap 32 ((positions side).getLastD (start side) - start side)) := by
  have hcount := fun side => count_since_r h₁ hr h₂ h₃ hno side (hstart side)
  refine ⟨fun side => (b₃.encoders.encoder side).count,
    reply_counts (fun side => ⟨_, hcount side⟩) he h₄, fun side => ?_⟩
  dsimp only
  rw [hcount side, hpositions side]
  constructor
  · have hwrap := wrap_modEq 32 (netSteps (.at (start side)) ((positions side).map .at))
    have hnet := netSteps_positions (start side) (positions side)
    have hfour := hwrap.of_dvd (show (4 : Int) ∣ 2 ^ 32 by decide)
    rw [← hnet]
    exact hfour.sub_right _
  · intro htracked
    rw [netSteps_tracked htracked]

/-- Both wheels have been seen; the left one is at 01, and an `r` is about to end. -/
def seen : List Action :=
  Action.interrupt .D (fun pin => pin = 2) :: Action.interrupt .C (fun _ => false) ::
    typed (ascii "r")

/-- The left wheel goes on by one step, the right one back by two; its first step is missed. -/
def onward : List Action :=
  Action.interrupt .D (fun pin => pin = 2 ∨ pin = 3) ::
    Action.interrupt .C (fun pin => 15 < pin) :: typed (ascii "e")

def enter : App.Action := App.Action.byte 13 (Env.quiet 0)

theorem board_odometry_onward :
    ∃ b₁ b₂ b₃ b₄ out₁ out₂ out₃ out₄,
      Steps.run (step (avr fun _ => 0)) powered seen = some (b₁, out₁) ∧
      step (avr fun _ => 0) b₁ (.app enter) = some (b₂, out₂) ∧
      Steps.run (step (avr fun _ => 0)) b₂ onward = some (b₃, out₃) ∧
      step (avr fun _ => 0) b₃ (.app enter) = some (b₄, out₄) ∧
      ∃ count : Side → Int,
        out₄ = decimal (count .left) ++ print " " ++ println (decimal (count .right)) ∧
        count .left = wrap 32 (2 - 1) ∧ (count .right - (-2 - 0)) % 4 = 2 := by
  have hany : (Steps.run (step (avr fun _ => 0)) powered seen).any (fun r₁ =>
      (r₁.1.app.invocation enter).any (fun i => i.callback = .resetEncoders) ∧
      (step (avr fun _ => 0) r₁.1 (.app enter)).any (fun r₂ =>
        r₂.1.invocations (avr fun _ => 0) onward = [] ∧
        (Steps.run (step (avr fun _ => 0)) r₂.1 onward).any (fun r₃ =>
          (r₃.1.app.invocation enter).any (fun i => i.callback = .readEncoders) ∧
          (step (avr fun _ => 0) r₃.1 (.app enter)).isSome))) = true := by
    decide +kernel
  obtain ⟨⟨b₁, out₁⟩, h₁, hp⟩ := (Option.any_eq_true _ _).mp hany
  obtain ⟨hr, hp⟩ := of_decide_eq_true hp
  obtain ⟨⟨b₂, out₂⟩, h₂, hp⟩ := (Option.any_eq_true _ _).mp hp
  obtain ⟨hno, hp⟩ := of_decide_eq_true hp
  obtain ⟨⟨b₃, out₃⟩, h₃, hp⟩ := (Option.any_eq_true _ _).mp hp
  obtain ⟨he, hp⟩ := of_decide_eq_true hp
  obtain ⟨⟨b₄, out₄⟩, h₄⟩ := Option.isSome_iff_exists.mp hp
  obtain ⟨i, hi, hcallback⟩ := (Option.any_eq_true _ _).mp hr
  obtain ⟨j, hj, hcallback'⟩ := (Option.any_eq_true _ _).mp he
  obtain ⟨count, hout, hcount⟩ := board_odometry (fun _ => 0) false [] h₁
    ⟨i, hi, of_decide_eq_true hcallback⟩ h₂ h₃ (by simp [hno])
    ⟨j, hj, of_decide_eq_true hcallback'⟩ h₄ (Side.of (1, 0)) (Side.of ([2], [-2]))
    (by rintro (_ | _) <;> decide) (by rintro (_ | _) <;> decide)
  exact ⟨b₁, b₂, b₃, b₄, out₁, out₂, out₃, out₄, h₁, h₂, h₃, h₄, count, hout,
    (hcount .left).2 ⟨by decide, trivial⟩, (hcount .right).1⟩

end Board

end AndinoFirmware
