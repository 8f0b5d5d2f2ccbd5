import Andino.Firmware.Travel
import Andino.System.Delivery
import Andino.System.Lag

/-!
# Wheel positions from the wheels to the controller

The counts of a reply are the movement of the wheels from power-up to the moment at which
the firmware handles the request. So a read that gets a whole reply to a request for counts
puts the wheels where they were at that moment, modulo the 32 bits of the count: at its own
request without timeouts, and so many calls earlier with them. The host reads counts and
sets speeds only.
-/
namespace AndinoBase

open CArith CString Decimal AndinoFirmware AndinoFirmware.App
open LineRpc (Origin Outcome leftover givenUp)

/-- The movement of a wheel during an action of the link. -/
def Link.Action.move (side : Side) : Link.Action → Int
  | .byte env => env.move side
  | .pid e => e.move side
  | .call _ | .autoStop _ | .receive | .timeout => 0

/-- Where a wheel is after a run that finds both at `start`. -/
def displacement (start : Int × Int) (acts : List Link.Action) (side : Side) : Int :=
  side.of start + (acts.map (Link.Action.move side)).sum

theorem travelled_firmwareAction (t : Target) (side : Side) {l l' : Link} {a : Link.Action}
    {o : List (Outcome Call Byte Counts)} (hs : l.step t a = some (l', o)) :
    travelled side (l.firmwareAction a) = a.move side := by
  cases a with
  | byte env =>
    cases hd : l.down with
    | nil => exact absurd hs (by simp [Link.step, Link.firmwareByte, hd])
    | cons c down => simp [Link.firmwareAction, hd, travelled, App.Action.move, Link.Action.move]
  | pid e => exact add_zero _
  | _ => rfl

/-- The firmware sees the movement that the link sees. -/
theorem travelled_firmwareActions (t : Target) (side : Side) {l₀ l : Link}
    {acts : List Link.Action} {o : List (Outcome Call Byte Counts)}
    (hr : Steps.run (Link.step t) l₀ acts = some (l, o)) :
    travelled side (Link.firmwareActions t l₀ acts) = (acts.map (Link.Action.move side)).sum := by
  refine Steps.run_history Link.firmwareAction
    (fun as ls _ _ => travelled side ls.flatten = (as.map (Link.Action.move side)).sum) rfl ?_ hr
  intro as ls l _ a l' _ ih hs
  have hstep := travelled_firmwareAction t side hs
  simp only [travelled, List.flatten_append, List.flatten_singleton, List.map_append,
    List.sum_append, List.map_singleton, List.sum_singleton] at ih hstep ⊢
  rw [ih, hstep]

/-- The host sends nothing that resets the encoders. -/
theorem invocation_ne_reset (c : Call) : c.invocation.callback ≠ .resetEncoders := by
  cases c <;> exact fun h => nomatch h

/-- The counts at any time of a run. -/
theorem counts_run (zeroQuot : Int → Int) {imu : Bool} {leftMove rightMove : Int}
    {acts : List Link.Action} {l : Link} {o : List (Outcome Call Byte Counts)}
    (hfit : ∀ c ∈ calls acts, c.Fitting)
    (hr : Steps.run (Link.step (avr zeroQuot))
      (Link.initial (setup (avr zeroQuot) imu leftMove rightMove)) acts = some (l, o)) :
    ∃ app, l.firmware = some app ∧ ∀ side,
      (app.channel side).encoder.count = wrap 32 (displacement (leftMove, rightMove) acts side) := by
  obtain ⟨app, hf⟩ := exists_firmware hfit hr
  have h := delivered_run hr hf
  obtain ⟨out, hrun⟩ := h.run
  have hreset : ∀ i ∈ (setup (avr zeroQuot) imu leftMove rightMove).invocations (avr zeroQuot)
      (Link.firmwareActions (avr zeroQuot)
        (Link.initial (setup (avr zeroQuot) imu leftMove rightMove)) acts),
      i.callback ≠ .resetEncoders := by
    rw [h.invocations]
    intro i hi
    obtain ⟨c, -, rfl⟩ := List.mem_map.mp hi
    exact invocation_ne_reset c
  refine ⟨app, h.firmware, fun side => ?_⟩
  have hcount := count_run zeroQuot (count_setup zeroQuot imu leftMove rightMove side) hrun hreset
  rw [travelled_firmwareActions (avr zeroQuot) side hr] at hcount
  exact hcount

/-- The firmware handles request number `n` with the last of these actions. -/
structure HandledAt (t : Target) (start : App) (n : Nat) (before : List Link.Action) (env : Env) :
    Prop where
  handled : ∃ l₁ o₁ l₂ o₂, Steps.run (Link.step t) (Link.initial start) before = some (l₁, o₁) ∧
    l₁.step t (.byte env) = some (l₂, o₂) ∧ l₁.handled + 1 = n ∧ l₂.handled = n

/-- The mark of a symbol tells the truth about the moment of its request. -/
def Stamped (zeroQuot : Int → Int) (imu : Bool) (leftMove rightMove : Int)
    (acts : List Link.Action) (o : Origin Counts) : Prop :=
  ∃ before env after, acts = before ++ .byte env :: after ∧
    HandledAt (avr zeroQuot) (setup (avr zeroQuot) imu leftMove rightMove) o.request before env ∧
    ∀ side, side.of o.info =
      wrap 32 (displacement (leftMove, rightMove) (before ++ [.byte env]) side)

theorem Stamped.append {zeroQuot : Int → Int} {imu : Bool} {leftMove rightMove : Int}
    {acts : List Link.Action} {o : Origin Counts}
    (h : Stamped zeroQuot imu leftMove rightMove acts o) (a : Link.Action) :
    Stamped zeroQuot imu leftMove rightMove (acts ++ [a]) o := by
  obtain ⟨before, env, after, rfl, hat, hinfo⟩ := h
  exact ⟨before, env, after ++ [a], by simp, hat, hinfo⟩

/-- The symbols between the firmware and a line that is returned. -/
def Link.symbols (l : Link) : List (Byte × Origin Counts) := (l.host.map Prod.snd).getD [] ++ l.up

/-- A symbol has been there before, or the firmware has just written it in answer to the next
request. -/
theorem symbol_step {t : Target} {l l' : Link} {a : Link.Action}
    {o : List (Outcome Call Byte Counts)} (hs : l.step t a = some (l', o))
    {b : Byte × Origin Counts} (hb : b ∈ l'.symbols ∨ ∃ r ∈ o, b ∈ r.line) :
    b ∈ l.symbols ∨
      ∃ env app', a = .byte env ∧ l'.firmware = some app' ∧ b.2.request = l.handled + 1 ∧
        l'.handled = l.handled + 1 ∧
        b.2.info = (app'.leftEncoder.read, app'.rightEncoder.read) := by
  cases a with
  | call c =>
    simp only [Link.step, Link.sendMsg] at hs
    split at hs
    · exact absurd hs (by simp)
    · rename_i hh
      simp only [Option.some.injEq, Prod.mk.injEq] at hs
      obtain ⟨rfl, rfl⟩ := hs
      left
      simpa [Link.symbols, hh] using hb
  | byte env =>
    simp only [Link.step, Link.firmwareByte] at hs
    split at hs
    · rename_i app c down happ hdown
      split at hs
      · simp only [Option.some.injEq, Prod.mk.injEq] at hs
        obtain ⟨rfl, rfl⟩ := hs
        left
        simpa [Link.symbols] using hb
      · rename_i app' out happ'
        simp only [Option.some.injEq, Prod.mk.injEq] at hs
        obtain ⟨rfl, rfl⟩ := hs
        have hb : b ∈ l.symbols ∨ b ∈ LineRpc.tagged
            ⟨l.handled + 1, (app'.leftEncoder.read, app'.rightEncoder.read)⟩ out := by
          simpa [Link.symbols, or_assoc] using hb
        rcases hb with hb | hb
        · exact .inl hb
        · obtain ⟨x, hx, rfl⟩ := List.mem_map.mp hb
          -- only a carriage return makes the firmware write
          have hcr : c = CR := by
            cases hi : (app.shell.processByte env.nullEq c).2 with
            | none =>
              have hout : out = [] := by
                simp only [App.step, processByte, moveEncoders, hi, Option.some.injEq,
                  Prod.mk.injEq] at happ'
                exact happ'.2.symm
              exact absurd hx (by simp [hout])
            | some i => exact Shell.processByte_eq_some hi
          exact .inr ⟨env, app', rfl, rfl, rfl, by simp [hcr], rfl⟩
    · exact absurd hs (by simp)
  | pid e | autoStop e =>
    simp only [Link.step] at hs
    obtain ⟨app, -, he⟩ := Option.map_eq_some_iff.mp hs
    obtain ⟨rfl, rfl⟩ := Prod.mk.inj he
    left
    simpa [Link.symbols] using hb
  | receive =>
    simp only [Link.step, Link.receiveByte] at hs
    split at hs
    · rename_i c line b' up hh hu
      left
      split at hs
      · simp only [Option.some.injEq, Prod.mk.injEq] at hs
        obtain ⟨rfl, rfl⟩ := hs
        rcases hb with hb | ⟨r, hr, hb⟩
        · have hup : b ∈ up := by simpa [Link.symbols] using hb
          simp [Link.symbols, hh, hu, hup]
        · rw [List.mem_singleton.mp hr] at hb
          have hline : b ∈ line ∨ b = b' := by simpa using hb
          rcases hline with h | h <;> simp [Link.symbols, hh, hu, h]
      · simp only [Option.some.injEq, Prod.mk.injEq] at hs
        obtain ⟨rfl, rfl⟩ := hs
        simpa [Link.symbols, hh, hu] using hb
    · exact absurd hs (by simp)
  | timeout =>
    simp only [Link.step, Link.readTimeout] at hs
    split at hs
    · exact absurd hs (by simp)
    · rename_i c line hh
      simp only [Option.some.injEq, Prod.mk.injEq] at hs
      obtain ⟨rfl, rfl⟩ := hs
      left
      rcases hb with hb | ⟨r, hr, hb⟩
      · have hup : b ∈ l.up := by simpa [Link.symbols] using hb
        simp [Link.symbols, hup]
      · rw [List.mem_singleton.mp hr] at hb
        simp [Link.symbols, hh, show b ∈ line from hb]

/-- So every mark is true at any time of a run. -/
theorem stamped_run (zeroQuot : Int → Int) {imu : Bool} {leftMove rightMove : Int}
    {acts : List Link.Action} {l : Link} {out : List (Outcome Call Byte Counts)}
    (hfit : ∀ c ∈ calls acts, c.Fitting)
    (hr : Steps.run (Link.step (avr zeroQuot))
      (Link.initial (setup (avr zeroQuot) imu leftMove rightMove)) acts = some (l, out))
    {b : Byte × Origin Counts} (hb : b ∈ l.symbols ∨ ∃ r ∈ out, b ∈ r.line) :
    Stamped zeroQuot imu leftMove rightMove acts b.2 := by
  refine (Steps.run_history (fun _ _ => ())
    (fun as _ l o => Steps.run (Link.step (avr zeroQuot))
        (Link.initial (setup (avr zeroQuot) imu leftMove rightMove)) as = some (l, o) ∧
      ((∀ c ∈ calls as, c.Fitting) → ∀ b : Byte × Origin Counts,
        (b ∈ l.symbols ∨ ∃ r ∈ o, b ∈ r.line) → Stamped zeroQuot imu leftMove rightMove as b.2))
    ⟨rfl, ?_⟩ ?_ hr).2 hfit b hb
  · intro _ b hb
    exact absurd hb (by simp [Link.symbols, Link.initial])
  · intro as _ l o a l' o' ⟨hrun, ih⟩ hs
    have hrun' := Steps.run_join hrun (Steps.run_step hs (Steps.run_nil _ _))
    rw [List.append_nil] at hrun'
    refine ⟨hrun', fun hfit b hb => ?_⟩
    have hpast : ∀ c ∈ calls as, c.Fitting :=
      fun c hc => hfit c (by rw [calls_append]; exact List.mem_append_left _ hc)
    have hnew : (∃ r ∈ o, b ∈ r.line) ∨ (b ∈ l'.symbols ∨ ∃ r ∈ o', b ∈ r.line) := by
      rcases hb with hb | ⟨r, hr, hb⟩
      · exact .inr (.inl hb)
      · rcases List.mem_append.mp hr with hr | hr
        · exact .inl ⟨r, hr, hb⟩
        · exact .inr (.inr ⟨r, hr, hb⟩)
    rcases hnew with hold | hnew
    · exact (ih hpast b (.inr hold)).append a
    · rcases symbol_step hs hnew with hold | ⟨env, app', rfl, hf, hreq, hhandled, hinfo⟩
      · exact (ih hpast b (.inl hold)).append a
      · obtain ⟨app, hf', hcounts⟩ := counts_run zeroQuot hfit hrun'
        obtain rfl : app' = app := Option.some.inj (hf.symm.trans hf')
        refine ⟨as, env, [], rfl, ⟨⟨l, o, l', o', hrun, hs, hreq.symm, hhandled.trans hreq.symm⟩⟩, ?_⟩
        intro side
        rw [hinfo]
        cases side with
        | left => exact hcounts .left
        | right => exact hcounts .right

/-- The unsigned count is the displacement modulo its 32 bits. -/
theorem toUnsigned_wrap (n : Int) : ((Wheel.toUnsigned (wrap 32 n)).toNat : Int) = n % 2 ^ 32 := by
  have hmod : wrap 32 n % 2 ^ 32 = n % 2 ^ 32 := wrap_modEq 32 n
  rw [Wheel.toUnsigned, hmod, UInt32.toNat_ofNat']
  omega

theorem update_pos {K : Type} [Field K] (w : Wheel K) {count n : Int} (deltaSecs : K)
    (h : count = wrap 32 n) :
    (w.update count deltaSecs).pos = ((n % 2 ^ 32 : Int) : K) * w.radsPerTick := by
  rw [h, ← toUnsigned_wrap, Int.cast_natCast]
  rfl

/-- In a run of the calls of the hardware interface, a read that finds a whole reply to a
request for counts, its own or an earlier one, puts each wheel at its displacement since
power-up at the moment at which the firmware has handled that request, modulo 32 bits.
Without timeouts it is the read's own request. The angle is the exact product. -/
theorem odometry {K : Type} [Field K] (zeroQuot : Int → Int) (imu : Bool)
    (leftMove rightMove : Int) (acts : List Link.Action) (l : Link)
    (out : List (Outcome Call Byte Counts)) (hone : ∀ a ∈ acts, a.OneLine)
    (hrun : Steps.run (Link.step (avr zeroQuot))
      (Link.initial (setup (avr zeroQuot) imu leftMove rightMove)) acts = some (l, out))
    (pre post : List (Outcome Call Byte Counts)) (r : Outcome Call Byte Counts)
    (hout : out = pre ++ r :: post) (hcomplete : r.complete = true)
    (hanswered : ((pre ++ [r]).map (fun q => q.request))[pre.length - givenUp pre]? =
      some .readEncoderValues)
    (hwhole : leftover pre = []) (d : DiffDrive K) (deltaSecs : K) :
    ∃ before env after, acts = before ++ .byte env :: after ∧
      HandledAt (avr zeroQuot) (setup (avr zeroQuot) imu leftMove rightMove)
        (r.number - givenUp pre) before env ∧
      (d.readSerial (some (r.line.map Prod.fst)) deltaSecs).1 = .ok ∧
      (d.readSerial (some (r.line.map Prod.fst)) deltaSecs).2.leftWheel.pos =
        ((displacement (leftMove, rightMove) (before ++ [.byte env]) .left % 2 ^ 32 : Int) : K) *
          d.leftWheel.radsPerTick ∧
      (d.readSerial (some (r.line.map Prod.fst)) deltaSecs).2.rightWheel.pos =
        ((displacement (leftMove, rightMove) (before ++ [.byte env]) .right % 2 ^ 32 : Int) : K) *
          d.rightWheel.radsPerTick := by
  obtain ⟨s, hs, -⟩ := link_run hone hrun
  obtain ⟨c, hc, counts, body, hreply, (hline : leftover pre ++ r.line =
    LineRpc.tagged ⟨r.number - givenUp pre, counts⟩ (body ++ [LF]))⟩ := hs.lag hout hcomplete
  obtain rfl : c = .readEncoderValues := Option.some.inj (hc.symm.trans hanswered)
  obtain ⟨rfl, hfitl, hfitr⟩ := hreply
  rw [hwhole, List.nil_append] at hline
  -- the mark of the line's last symbol says when the request was handled
  have hlast : (LF, (⟨r.number - givenUp pre, counts⟩ : Origin Counts)) ∈ r.line := by
    rw [hline]
    simp [LineRpc.tagged]
  have hfit := fitting_of_oneLine hone
  obtain ⟨before, env, after, hsplit, hat, hinfo⟩ :=
    stamped_run zeroQuot hfit hrun (.inr ⟨r, by simp [hout], hlast⟩)
  have hvalues : MotorDriver.encoderValues (r.line.map Prod.fst) = counts := by
    have happ : (decimal counts.1 ++ SP :: (decimal counts.2 ++ [CR])) ++ [LF] =
        decimal counts.1 ++ SP :: (decimal counts.2 ++ [CR, LF]) := by simp
    rw [hline, happ, tagged_fst]
    exact encoderValues_counts hfitl hfitr
  refine ⟨before, env, after, hsplit, hat, ?_⟩
  simp only [DiffDrive.readSerial, Option.map_some, hvalues, DiffDrive.read]
  exact ⟨trivial, update_pos _ _ (hinfo .left), update_pos _ _ (hinfo .right)⟩

/-- A request that times out, and a second one that reads its reply. -/
def lateCounts : List Link.Action :=
  [Link.Action.call .readEncoderValues, Link.Action.timeout] ++
    (List.replicate 2 (Link.Action.byte { Env.quiet 0 with leftMove := 21, rightMove := -3 }) ++
      (Link.Action.call .readEncoderValues :: List.replicate 7 Link.Action.receive))

theorem odometry_late :
    ∃ (l : Link) (pre : List (Outcome Call Byte Counts)) (r : Outcome Call Byte Counts)
      (before : List Link.Action) (env : Env),
      Steps.run (Link.step (avr fun _ => 0)) (Link.initial (setup (avr fun _ => 0) false 0 0))
        lateCounts = some (l, pre ++ [r]) ∧
      r.number = 2 ∧ HandledAt (avr fun _ => 0) (setup (avr fun _ => 0) false 0 0) 1 before env ∧
      ((DiffDrive.setup (1 / 2 : Rat)).readSerial (some (r.line.map Prod.fst)) 1).2.rightWheel.pos =
        ((displacement (0, 0) (before ++ [.byte env]) .right % 2 ^ 32 : Int) : Rat) * (1 / 2) := by
  have hrun : (Steps.run (Link.step (avr fun _ => 0))
      (Link.initial (setup (avr fun _ => 0) false 0 0)) lateCounts).map Prod.snd =
      some ([⟨1, .readEncoderValues, [], false⟩] ++
        [⟨2, .readEncoderValues, LineRpc.tagged ⟨1, (42, -6)⟩ (ascii "42 -6\r\n"), true⟩]) := by
    decide +kernel
  obtain ⟨⟨l, out⟩, hr, hout⟩ := Option.map_eq_some_iff.mp hrun
  subst hout
  obtain ⟨before, env, -, -, hat, -, -, hpos⟩ := odometry (fun _ => 0) false 0 0 lateCounts l _
    (by simp [lateCounts, Link.Action.OneLine, Call.OneLine]) hr _ [] _ rfl rfl rfl rfl
    (DiffDrive.setup (1 / 2 : Rat)) 1
  exact ⟨l, _, _, before, env, hr, rfl, hat, hpos⟩

end AndinoBase
