import Mathlib.Data.List.Infix
import Andino.Firmware.Encoder

/-!
# Exactness of the quadrature decoder

The specification is the unwrapped phase of the two channels: `grayStep p q` is
the signed Gray-code step between two readings, defined without the lookup
table, and `netSteps` adds the steps of a whole sequence. Dispatch keeps the two
encoders apart, so a run of interrupts and resets reduces to the run of each
encoder on its own events.
-/
namespace AndinoFirmware

open CArith

/-- Position on the Gray-code cycle 00, 01, 11, 10 of the bits (B, A). -/
def Sample.phase : Sample → Int
  | ⟨false, false⟩ => 0
  | ⟨false, true⟩ => 1
  | ⟨true, true⟩ => 2
  | ⟨true, false⟩ => 3

/-- At most one channel differs. -/
def Near (p q : Sample) : Prop := p.a = q.a ∨ p.b = q.b

instance (p q : Sample) : Decidable (Near p q) := inferInstanceAs (Decidable (_ ∨ _))

/-- The signed step between two neighbouring readings: one position forward or
back on the cycle, or none. -/
def grayStep (p q : Sample) : Int :=
  if (q.phase - p.phase) % 4 = 1 then 1 else if (q.phase - p.phase) % 4 = 3 then -1 else 0

def netSteps (p : Sample) : List Sample → Int
  | [] => 0
  | q :: qs => grayStep p q + netSteps q qs

/-- Every reading is unchanged or one step away from the one before it. -/
def Continuous (p : Sample) : List Sample → Prop
  | [] => True
  | q :: qs => Near p q ∧ Continuous q qs

theorem continuous_append (p : Sample) (xs ys : List Sample) :
    Continuous p (xs ++ ys) ↔ Continuous p xs ∧ Continuous (xs.getLastD p) ys := by
  induction xs generalizing p with
  | nil => simp [Continuous]
  | cons q qs ih =>
    rw [List.cons_append, Continuous, Continuous, ih, List.getLastD_cons]
    tauto

/-! ## One encoder -/

namespace Encoder

/-- The entry of the table for two consecutive readings. -/
def tick (p q : Sample) : Int := kTicksDelta.getD (4 * (bits p).toNat + (bits q).toNat) 0

/-- The table agrees with the Gray code on every pair of neighbouring readings. -/
theorem tick_eq_grayStep (p q : Sample) (h : Near p q) : tick p q = grayStep p q := by
  obtain ⟨pb, pa⟩ := p
  obtain ⟨qb, qa⟩ := q
  revert pb pa qb qa
  decide

theorem tick_range (p q : Sample) : -1 ≤ tick p q ∧ tick p q ≤ 1 := by
  obtain ⟨pb, pa⟩ := p
  obtain ⟨qb, qa⟩ := q
  revert pb pa qb qa
  decide

theorem grayStep_range (p q : Sample) : -1 ≤ grayStep p q ∧ grayStep p q ≤ 1 := by
  unfold grayStep
  split
  · decide
  · split <;> decide

/-- Shifting two bits in keeps the reading and makes the old one the high half
of the table index. All 256 states are checked. -/
theorem shift_in (state : UInt8) (q : Sample) :
    ((state <<< 2 ||| bits q) &&& 0x0F).toNat = 4 * (state &&& 3).toNat + (bits q).toNat ∧
      (state <<< 2 ||| bits q) &&& 3 = bits q := by
  have h : ∀ n : Fin 256, ∀ b a : Bool,
      ((UInt8.ofFin n <<< 2 ||| bits ⟨b, a⟩) &&& 0x0F).toNat =
        4 * (UInt8.ofFin n &&& 3).toNat + (bits ⟨b, a⟩).toNat ∧
      (UInt8.ofFin n <<< 2 ||| bits ⟨b, a⟩) &&& 3 = bits ⟨b, a⟩ := by
    decide +kernel
  exact h state.toFin q.b q.a

variable (t : Target)

/-- The current reading is the low half of `state_`. -/
def Holds (e : Encoder) (p : Sample) : Prop := e.state &&& 3 = bits p

theorem callback_holds (e : Encoder) (q : Sample) : Holds (e.callback t q) q :=
  (shift_in e.state q).2

theorem callback_count (e : Encoder) (p q : Sample) (h : Holds e p) :
    (e.callback t q).count = t.long (e.count + tick p q) := by
  have hs := (shift_in e.state q).1
  rw [show e.state &&& 3 = bits p from h] at hs
  simp only [callback, tick, hs]

/-- What happens to one encoder: an interrupt with a reading, or a reset. -/
inductive Action where
  | sample (q : Sample)
  | reset
  deriving DecidableEq, Repr

def act (e : Encoder) : Action → Encoder
  | .sample q => e.callback t q
  | .reset => e.reset

def Action.reading : Action → Option Sample
  | .sample q => some q
  | .reset => none

/-- The readings among the actions on an encoder. -/
def readings (as : List Action) : List Sample := as.filterMap Action.reading

@[simp] theorem readings_nil : readings [] = [] := rfl
@[simp] theorem readings_sample (q : Sample) (as : List Action) :
    readings (.sample q :: as) = q :: readings as := rfl
@[simp] theorem readings_reset (as : List Action) : readings (.reset :: as) = readings as := rfl

/-- From a reading on, interrupts count exactly the steps between readings. -/
theorem act_foldl_count (zeroQuot : Int → Int) (e : Encoder) (p : Sample) (n : Int)
    (as : List Action) (h : Holds e p) (hn : e.count = wrap 32 n)
    (hc : Continuous p (readings as)) (hr : Action.reset ∉ as) :
    (as.foldl (act (avr zeroQuot)) e).count = wrap 32 (n + netSteps p (readings as)) := by
  induction as generalizing e p n with
  | nil => simpa [netSteps] using hn
  | cons a as ih =>
    cases a with
    | reset => exact absurd List.mem_cons_self hr
    | sample q =>
      obtain ⟨hnear, hrest⟩ := (hc : Near p q ∧ Continuous q (readings as))
      have hcount : (e.callback (avr zeroQuot) q).count = wrap 32 (n + grayStep p q) := by
        rw [callback_count _ _ _ _ h, hn, tick_eq_grayStep _ _ hnear]
        exact Int.bmod_add_bmod
      have hih := ih _ q _ (callback_holds _ e q) hcount hrest
        (fun hm => hr (List.mem_cons_of_mem _ hm))
      rw [List.foldl_cons]
      change (as.foldl (act (avr zeroQuot)) (e.callback (avr zeroQuot) q)).count = _
      rw [hih]
      congr 1
      change n + grayStep p q + netSteps q (readings as) =
        n + (grayStep p q + netSteps q (readings as))
      omega

/-- The last reading is what an encoder holds once it has had one. -/
theorem act_foldl_holds (e : Encoder) (p : Sample) (as : List Action)
    (h : Holds e p ∨ readings as ≠ []) :
    Holds (as.foldl (act t) e) ((readings as).getLastD p) := by
  induction as generalizing e p with
  | nil =>
    rcases h with h | h
    · exact h
    · exact absurd rfl h
  | cons a as ih =>
    cases a with
    | reset =>
      refine ih e.reset p ?_
      rcases h with h | h
      · exact Or.inl h
      · exact Or.inr h
    | sample q =>
      change Holds (as.foldl (act t) (e.callback t q)) ((q :: readings as).getLastD p)
      rw [List.getLastD_cons]
      exact ih (e.callback t q) q (Or.inl (callback_holds t e q))

/-- The first interrupt is decoded against the zero-initialised state, whatever
the channels were; from then on the error stays the same. -/
theorem act_foldl_first (zeroQuot : Int → Int) (p q : Sample) (as : List Action)
    (hc : Continuous p (q :: readings as)) (hr : Action.reset ∉ as) :
    ((Action.sample q :: as).foldl (act (avr zeroQuot)) {}).count =
      wrap 32 (netSteps p (q :: readings as) + (tick ⟨false, false⟩ q - grayStep p q)) := by
  have hq : (callback (avr zeroQuot) {} q).count = wrap 32 (tick ⟨false, false⟩ q) := by
    rw [callback_count (avr zeroQuot) {} ⟨false, false⟩ q rfl]
    change wrap 32 (0 + _) = _
    rw [Int.zero_add]
  rw [List.foldl_cons]
  change (as.foldl (act (avr zeroQuot)) (callback (avr zeroQuot) {} q)).count = _
  rw [act_foldl_count zeroQuot _ q _ as (callback_holds _ _ q) hq hc.2 hr, netSteps]
  congr 1
  omega

end Encoder

/-! ## Both encoders behind the interrupt vectors -/

namespace Encoders

/-- A pin-change interrupt of a port with the pin levels it samples, or a reset
of one encoder by the application. -/
inductive Event where
  | interrupt (port : Port) (level : Nat → Bool)
  | reset (s : Side)

variable (t : Target)

def step (e : Encoders) : Event → Encoders
  | .interrupt port level => e.isr t port level
  | .reset s => e.set s (e.encoder s).reset

def run (e : Encoders) (evs : List Event) : Encoders := evs.foldl (step t) e

/-- The port that both channels of an encoder sit on. -/
def portOf : Side → Port
  | .left => .D
  | .right => .C

-- exactly the four channel pins are enabled
example : setup.pcicr = 0b110 ∧ setup.pcmsk .B = 0 ∧ setup.pcmsk .C = 0b1100 ∧
    setup.pcmsk .D = 0b1100 := by decide

/-- What an event means for one encoder. -/
def view (s : Side) : Event → Option Encoder.Action
  | .interrupt port level =>
    if port = portOf s then some (.sample ⟨level (channelBPin s), level (channelAPin s)⟩) else none
  | .reset r => if r = s then some .reset else none

/-- The readings an encoder's own interrupts sample. -/
def samples (s : Side) (evs : List Event) : List Sample :=
  Encoder.readings (evs.filterMap (view s))

/-- The static wiring that `setup` leaves and no event changes. -/
def Wired (e : Encoders) : Prop :=
  e.callbacks = setup.callbacks ∧ e.instances = setup.instances

theorem step_wired (e : Encoders) (ev : Event) (h : Wired e) : Wired (step t e ev) := by
  cases ev with
  | reset s => exact h
  | interrupt port level =>
    simp only [step, isr]
    split
    · exact h
    · simp only [callback]
      split <;> exact h

/-- Dispatch: an interrupt reaches the encoder of its port and no other. -/
theorem isr_encoder (e : Encoders) (h : Wired e) (s : Side) (port : Port) (level : Nat → Bool) :
    (e.isr t port level).encoder s =
      if port = portOf s then
        (e.encoder s).callback t ⟨level (channelBPin s), level (channelAPin s)⟩
      else e.encoder s := by
  have hcb : e.callbacks port = setup.callbacks port := congrFun h.1 port
  cases port with
  | B =>
    have hb : setup.callbacks .B = none := by decide
    cases s <;> simp [isr, hcb, hb, portOf]
  | C =>
    have hc : setup.callbacks .C = some 1 := by decide
    have hi : e.instances 1 = some .right := by
      rw [h.2]
      decide
    cases s <;> simp [isr, hcb, hc, callback, hi, set, portOf]
  | D =>
    have hd : setup.callbacks .D = some 0 := by decide
    have hi : e.instances 0 = some .left := by
      rw [h.2]
      decide
    cases s <;> simp [isr, hcb, hd, callback, hi, set, portOf]

theorem step_encoder (e : Encoders) (h : Wired e) (s : Side) (ev : Event) :
    (step t e ev).encoder s =
      match view s ev with
      | none => e.encoder s
      | some a => (e.encoder s).act t a := by
  cases ev with
  | interrupt port level =>
    simp only [step, view, isr_encoder t e h]
    split <;> rfl
  | reset r =>
    simp only [step, view, set]
    by_cases hr : r = s
    · subst hr
      simp [Encoder.act]
    · simp [hr, Ne.symm hr]

/-- An encoder only ever sees its own events. -/
theorem run_encoder (e : Encoders) (h : Wired e) (s : Side) (evs : List Event) :
    (run t e evs).encoder s = (evs.filterMap (view s)).foldl (Encoder.act t) (e.encoder s) := by
  induction evs generalizing e with
  | nil => rfl
  | cons ev evs ih =>
    change (run t (step t e ev) evs).encoder s = _
    rw [ih _ (step_wired t e ev h), step_encoder t e h, List.filterMap_cons]
    cases view s ev <;> rfl

theorem setup_wired : Wired setup := ⟨rfl, rfl⟩

theorem setup_encoder (s : Side) : setup.encoder s = {} := by
  cases s <;> decide

theorem reset_mem_view (s : Side) (evs : List Event) (h : Event.reset s ∉ evs) :
    Encoder.Action.reset ∉ evs.filterMap (view s) := by
  intro hm
  obtain ⟨ev, hev, hv⟩ := List.mem_filterMap.mp hm
  cases ev with
  | interrupt port level =>
    simp only [view] at hv
    split at hv <;> simp at hv
  | reset r =>
    simp only [view] at hv
    split at hv
    · rename_i hr
      exact h (hr ▸ hev)
    · simp at hv

theorem samples_append (s : Side) (xs ys : List Event) :
    samples s (xs ++ ys) = samples s xs ++ samples s ys := by
  simp [samples, Encoder.readings]

/-- Without an interrupt of its own an encoder stays at zero, resets included. -/
theorem run_encoder_quiet (s : Side) (evs : List Event) (h : samples s evs = []) :
    (run t setup evs).encoder s = {} := by
  rw [run_encoder t setup setup_wired, setup_encoder]
  unfold samples at h
  generalize evs.filterMap (view s) = as at h
  induction as with
  | nil => rfl
  | cons a as ih =>
    cases a with
    | sample q => exact absurd h (List.cons_ne_nil _ _)
    | reset => exact ih h

theorem run_append (e : Encoders) (xs ys : List Event) :
    run t e (xs ++ ys) = run t (run t e xs) ys := by
  simp [run]

theorem run_wired (e : Encoders) (h : Wired e) (evs : List Event) : Wired (run t e evs) := by
  induction evs generalizing e with
  | nil => exact h
  | cons ev evs ih => exact ih _ (step_wired t e ev h)

/-- From the first interrupt on, up to a reset, the count is the net number of
steps plus an error fixed by the first reading. -/
theorem count_from_first (zeroQuot : Int → Int) (s : Side) (p q : Sample) (pre post : List Event)
    (first : Event) (hpre : samples s pre = []) (hfirst : samples s [first] = [q])
    (hc : Continuous p (samples s (pre ++ first :: post))) (hr : Event.reset s ∉ post) :
    ((run (avr zeroQuot) setup (pre ++ first :: post)).encoder s).count =
      wrap 32 (netSteps p (samples s (pre ++ first :: post)) +
        (Encoder.tick ⟨false, false⟩ q - grayStep p q)) := by
  have hv : view s first = some (.sample q) := by
    unfold samples at hfirst
    cases hf : view s first with
    | none => simp [hf] at hfirst
    | some a =>
      cases a with
      | reset => simp [hf] at hfirst
      | sample r => simpa [hf] using hfirst
  have hsamples : samples s (pre ++ first :: post) = q :: samples s post := by
    rw [samples_append, hpre]
    simp [samples, hv]
  rw [hsamples] at hc ⊢
  rw [run_append, run_encoder _ _ (run_wired _ _ setup_wired pre), run_encoder_quiet _ s pre hpre,
    List.filterMap_cons, hv]
  exact Encoder.act_foldl_first zeroQuot p q _ hc (reset_mem_view s post hr)

/-- A reset after the first interrupt makes the count exact. -/
theorem count_since_reset (zeroQuot : Int → Int) (s : Side) (p : Sample) (pre post : List Event)
    (hpre : samples s pre ≠ []) (hc : Continuous p (samples s (pre ++ .reset s :: post)))
    (hr : Event.reset s ∉ post) :
    ((run (avr zeroQuot) setup (pre ++ .reset s :: post)).encoder s).read =
      wrap 32 (netSteps ((samples s pre).getLastD p) (samples s post)) := by
  have hreset : samples s (Event.reset s :: post) = samples s post := by
    simp [samples, view]
  rw [samples_append, hreset, continuous_append] at hc
  have hholds := Encoder.act_foldl_holds (avr zeroQuot) {} p (pre.filterMap (view s))
    (Or.inr hpre)
  rw [run_encoder _ _ setup_wired, setup_encoder, List.filterMap_append, List.foldl_append,
    List.filterMap_cons]
  have hv : view s (Event.reset s) = some .reset := by simp [view]
  rw [hv]
  have h := Encoder.act_foldl_count zeroQuot
    (((pre.filterMap (view s)).foldl (Encoder.act (avr zeroQuot)) {}).reset)
    ((samples s pre).getLastD p) 0 (post.filterMap (view s)) hholds rfl hc.2
    (reset_mem_view s post hr)
  rw [Int.zero_add] at h
  exact h

/-- Quadrature decoding over whole runs: a constant error of at most two steps
from the first interrupt on, none from channels at 00, exact counts after a
reset, and no interference between the encoders. -/
theorem quadrature_exact (zeroQuot : Int → Int) (s : Side) (p : Sample) :
    (∀ (pre : List Event) (first : Event) (q : Sample), samples s pre = [] →
      samples s [first] = [q] → Near p q →
      ∃ k : Int, -2 ≤ k ∧ k ≤ 2 ∧ (p = ⟨false, false⟩ → k = 0) ∧
        ∀ post, Continuous p (samples s (pre ++ first :: post)) → Event.reset s ∉ post →
          ((run (avr zeroQuot) setup (pre ++ first :: post)).encoder s).count =
            wrap 32 (netSteps p (samples s (pre ++ first :: post)) + k)) ∧
    (∀ pre post : List Event, samples s pre ≠ [] →
      Continuous p (samples s (pre ++ .reset s :: post)) → Event.reset s ∉ post →
      ((run (avr zeroQuot) setup (pre ++ .reset s :: post)).encoder s).read =
        wrap 32 (netSteps ((samples s pre).getLastD p) (samples s post))) ∧
    (∀ (evs : List Event) (other : Side) (level : Nat → Bool), other ≠ s →
      (run (avr zeroQuot) setup (evs ++ [.interrupt (portOf other) level])).encoder s =
        (run (avr zeroQuot) setup evs).encoder s) := by
  refine ⟨?_, ?_, ?_⟩
  · intro pre first q hpre hfirst hnear
    have htick := Encoder.tick_range ⟨false, false⟩ q
    have hstep := Encoder.grayStep_range p q
    refine ⟨Encoder.tick ⟨false, false⟩ q - grayStep p q, by omega, by omega, ?_, ?_⟩
    · rintro rfl
      have he := Encoder.tick_eq_grayStep ⟨false, false⟩ q hnear
      omega
    · intro post hc hr
      exact count_from_first zeroQuot s p q pre post first hpre hfirst hc hr
  · intro pre post hpre hc hr
    exact count_since_reset zeroQuot s p pre post hpre hc hr
  · intro evs other level ho
    have hport : portOf other ≠ portOf s := by
      cases other <;> cases s <;> simp_all [portOf]
    rw [run_append, run_encoder _ _ (run_wired _ _ setup_wired evs)]
    simp [view, hport]

/-- Both channels high at the start, one step back, one forward. -/
theorem quadrature_exact_from_high :
    ∃ k : Int, -2 ≤ k ∧ k ≤ 2 ∧
      ((run (avr fun _ => 0) setup [.interrupt .D fun pin => pin = 2, .interrupt .C fun _ => true,
          .interrupt .D fun _ => true]).encoder .left).count =
        wrap 32 (netSteps ⟨true, true⟩ [⟨false, true⟩, ⟨true, true⟩] + k) := by
  obtain ⟨k, hlo, hhi, -, h⟩ := (quadrature_exact (fun _ => 0) .left ⟨true, true⟩).1 []
    (.interrupt .D fun pin => pin = 2) ⟨false, true⟩ rfl rfl (by decide)
  exact ⟨k, hlo, hhi, h [.interrupt .C fun _ => true, .interrupt .D fun _ => true]
    ⟨by decide, by decide, trivial⟩ (by simp)⟩

end Encoders

end AndinoFirmware
