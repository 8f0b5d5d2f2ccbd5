import Andino.Library.LineLag
import Andino.System.Pairing
import Andino.Host.DiffDrive

/-!
# Reads after timeouts

Every read that times out moves all later ones one request back, and nothing in the
driver brings them forward again. The hardware interface reads and writes in turn, so
after an odd number of timeouts its reads find the reply to a write: a success with
both counts zero, which puts both wheels at their origin.
-/
namespace AndinoBase

open CArith CString Decimal AndinoFirmware AndinoFirmware.App
open LineRpc (Origin Outcome leftover givenUp)

/-- Over any run of calls that are answered by one line, with any delays and timeouts: a
completed read is the reply to the request that lies as many calls back as reads have
timed out before it, without the bytes that timed-out reads have taken from it. -/
theorem read_lag (zeroQuot : Int → Int) (imu : Bool) (leftMove rightMove : Int)
    (acts : List Link.Action) (l : Link) (out : List (Outcome Call Byte Counts))
    (hone : ∀ a ∈ acts, a.OneLine)
    (hrun : Steps.run (Link.step (avr zeroQuot))
      (Link.initial (setup (avr zeroQuot) imu leftMove rightMove)) acts = some (l, out))
    (pre post : List (Outcome Call Byte Counts)) (r : Outcome Call Byte Counts)
    (hout : out = pre ++ r :: post) (hcomplete : r.complete = true) :
    ∃ c counts body,
      ((pre ++ [r]).map (fun q => q.request))[pre.length - givenUp pre]? = some c ∧
      Reply c counts body ∧
      leftover pre ++ r.line = LineRpc.tagged ⟨r.number - givenUp pre, counts⟩ (body ++ [LF]) := by
  obtain ⟨s, hs, -⟩ := link_run hone hrun
  obtain ⟨c, hc, counts, body, hreply, (hline : leftover pre ++ r.line =
    LineRpc.tagged ⟨r.number - givenUp pre, counts⟩ (body ++ [LF]))⟩ := hs.lag hout hcomplete
  exact ⟨c, counts, body, hc, hreply, hline⟩

/-- A speed command that times out, a request behind it and the first reply. -/
def timedOutWrite : List Link.Action :=
  [Link.Action.call (.setMotorValues ⟨0, by decide⟩ ⟨0, by decide⟩), Link.Action.timeout,
    Link.Action.call .readEncoderValues] ++
    (List.replicate 8 (Link.Action.byte (Env.quiet 0)) ++ List.replicate 4 Link.Action.receive)

/-- The late `OK` is read one call later. -/
theorem read_lag_late :
    ∃ (l : Link) (pre : List (Outcome Call Byte Counts)) (r : Outcome Call Byte Counts)
      (counts : Counts) (body : List Byte),
      Steps.run (Link.step (avr fun _ => 0)) (Link.initial (setup (avr fun _ => 0) false 0 0))
        timedOutWrite = some (l, pre ++ [r]) ∧
      r.number = 2 ∧ r.line = LineRpc.tagged ⟨1, counts⟩ (body ++ [LF]) := by
  have hrun : (Steps.run (Link.step (avr fun _ => 0))
      (Link.initial (setup (avr fun _ => 0) false 0 0)) timedOutWrite).map Prod.snd =
      some ([⟨1, .setMotorValues ⟨0, by decide⟩ ⟨0, by decide⟩, [], false⟩] ++
        [⟨2, .readEncoderValues, LineRpc.tagged ⟨1, (0, 0)⟩ (ascii "OK\r\n"), true⟩]) := by
    decide +kernel
  obtain ⟨⟨l, out⟩, hr, hout⟩ := Option.map_eq_some_iff.mp hrun
  subst hout
  obtain ⟨-, counts, body, -, -, hline⟩ := read_lag (fun _ => 0) false 0 0 timedOutWrite l _
    (by simp [timedOutWrite, Link.Action.OneLine, Call.OneLine]) hr _ [] _ rfl rfl
  exact ⟨l, _, _, counts, body, hr, rfl, hline⟩

/-! ## Reading and writing in turn -/

/-- The calls of the hardware interface: a read first, then writes and reads in turn. -/
def InTurn (out : List (Outcome Call Byte Counts)) : Prop :=
  ∀ (j : Nat) (r : Outcome Call Byte Counts), out[j]? = some r →
    (r.request = .readEncoderValues ↔ j % 2 = 0)

theorem inTurn_of_all {out : List (Outcome Call Byte Counts)}
    (h : ∀ p ∈ out.zipIdx, p.1.request = .readEncoderValues ↔ p.2 % 2 = 0) : InTurn out :=
  fun j r hr => h (r, j) (List.mk_mem_zipIdx_iff_getElem?.mpr hr)

/-- Whatever is left of an `OK` reads as two zeros. -/
theorem encoderValues_ok {s u : List Byte} (h : u ++ s = ascii "OK" ++ [CR, LF]) :
    MotorDriver.encoderValues s = (0, 0) := by
  have hall : ∀ s ∈ (ascii "OK" ++ [CR, LF]).tails, MotorDriver.encoderValues s = (0, 0) := by
    decide
  exact hall s ((List.mem_tails s _).mpr ⟨u, h⟩)

/-- Two zeros put a wheel at its origin, wherever it was. -/
theorem update_zero_pos {K : Type} [Field K] (w : Wheel K) (deltaSecs : K) :
    (w.update 0 deltaSecs).pos = 0 := by
  change ((Wheel.toUnsigned 0).toNat : K) * w.radsPerTick = 0
  rw [show (Wheel.toUnsigned 0).toNat = 0 from rfl, Nat.cast_zero, zero_mul]

/-- What a completed `ReadEncoderValues` finds when reads and writes take turns. After an
odd number of timeouts it is two zeros, and `read` reports success and puts both wheels at
their origin. After an even number it is the counts of as many calls ago, provided that no
timed-out read has taken a part of that line. -/
theorem reads_in_turn {K : Type} [Field K] (zeroQuot : Int → Int) (imu : Bool)
    (leftMove rightMove : Int) (acts : List Link.Action) (l : Link)
    (out : List (Outcome Call Byte Counts)) (hone : ∀ a ∈ acts, a.OneLine)
    (hrun : Steps.run (Link.step (avr zeroQuot))
      (Link.initial (setup (avr zeroQuot) imu leftMove rightMove)) acts = some (l, out))
    (hturn : InTurn out) (pre post : List (Outcome Call Byte Counts))
    (r : Outcome Call Byte Counts) (hout : out = pre ++ r :: post)
    (hcall : r.request = .readEncoderValues) (hcomplete : r.complete = true) :
    (givenUp pre % 2 = 1 →
      MotorDriver.encoderValues (r.line.map Prod.fst) = (0, 0) ∧
      ∀ (d : DiffDrive K) (deltaSecs : K),
        (d.readSerial (some (r.line.map Prod.fst)) deltaSecs).1 = .ok ∧
        (d.readSerial (some (r.line.map Prod.fst)) deltaSecs).2.leftWheel.pos = 0 ∧
        (d.readSerial (some (r.line.map Prod.fst)) deltaSecs).2.rightWheel.pos = 0) ∧
    (givenUp pre % 2 = 0 → leftover pre = [] →
      ∃ counts, r.line = LineRpc.tagged ⟨r.number - givenUp pre, counts⟩
          (decimal counts.1 ++ SP :: (decimal counts.2 ++ [CR, LF])) ∧
        MotorDriver.encoderValues (r.line.map Prod.fst) = counts) := by
  obtain ⟨s, hs, -⟩ := link_run hone hrun
  obtain ⟨c, hc, counts, body, hreply, (hline : leftover pre ++ r.line =
    LineRpc.tagged ⟨r.number - givenUp pre, counts⟩ (body ++ [LF]))⟩ := hs.lag hout hcomplete
  have hle : givenUp pre ≤ pre.length := List.countP_le_length
  -- the call that is answered, and its place in the turns
  obtain ⟨q, hq, rfl⟩ : ∃ q, out[pre.length - givenUp pre]? = some q ∧ q.request = c := by
    rw [List.getElem?_map] at hc
    obtain ⟨q, hq, hqc⟩ := Option.map_eq_some_iff.mp hc
    refine ⟨q, ?_, hqc⟩
    rw [hout, List.append_cons, List.getElem?_append_left
      (by rw [List.length_append, List.length_singleton]; omega)]
    exact hq
  have heven : pre.length % 2 = 0 := (hturn pre.length r (by simp [hout])).mp hcall
  have hplace := hturn _ q hq
  constructor
  · intro hodd
    have hbody : body = ascii "OK" ++ [CR] := by
      have hne : q.request ≠ .readEncoderValues := fun he => by
        have := hplace.mp he
        omega
      cases hqr : q.request with
      | readEncoderValues => exact absurd hqr hne
      | setMotorValues val1 val2 =>
        rw [hqr] at hreply
        exact hreply
      | setPidValues =>
        rw [hqr] at hreply
        exact absurd hreply id
    have htext := congrArg (List.map Prod.fst) hline
    rw [List.map_append, tagged_fst, hbody, List.append_assoc] at htext
    have hzero := encoderValues_ok htext
    refine ⟨hzero, fun d deltaSecs => ?_⟩
    simp only [DiffDrive.readSerial, Option.map_some, hzero, DiffDrive.read]
    exact ⟨trivial, update_zero_pos _ _, update_zero_pos _ _⟩
  · intro heq hleft
    have hrequest : q.request = .readEncoderValues := hplace.mpr (by omega)
    rw [hrequest] at hreply
    obtain ⟨rfl, hl, hr⟩ := hreply
    rw [hleft, List.nil_append] at hline
    have hline' : r.line = LineRpc.tagged ⟨r.number - givenUp pre, counts⟩
        (decimal counts.1 ++ SP :: (decimal counts.2 ++ [CR, LF])) := by
      rw [hline]
      simp
    refine ⟨counts, hline', ?_⟩
    rw [hline', tagged_fst]
    exact encoderValues_counts hl hr

/-- A first read that times out, a write that gets its reply and a read that gets the reply
to the write, while the wheels have moved. -/
def timedOutRead : List Link.Action :=
  [Link.Action.call .readEncoderValues, Link.Action.timeout] ++
    (List.replicate 2 (Link.Action.byte (Env.quiet 0)) ++
      (Link.Action.call (.setMotorValues ⟨0, by decide⟩ ⟨0, by decide⟩) ::
        (List.replicate 6 (Link.Action.byte (Env.quiet 0)) ++
          (List.replicate 5 Link.Action.receive ++
            (Link.Action.call .readEncoderValues :: List.replicate 4 Link.Action.receive)))))

theorem reads_in_turn_odd :
    ∃ (l : Link) (pre : List (Outcome Call Byte Counts)) (r : Outcome Call Byte Counts),
      Steps.run (Link.step (avr fun _ => 0)) (Link.initial (setup (avr fun _ => 0) false 7 9))
        timedOutRead = some (l, pre ++ [r]) ∧
      r.request = .readEncoderValues ∧ r.complete = true ∧
      MotorDriver.encoderValues (r.line.map Prod.fst) = (0, 0) := by
  have hrun : (Steps.run (Link.step (avr fun _ => 0))
      (Link.initial (setup (avr fun _ => 0) false 7 9)) timedOutRead).map Prod.snd =
      some ([⟨1, .readEncoderValues, [], false⟩,
        ⟨2, .setMotorValues ⟨0, by decide⟩ ⟨0, by decide⟩,
          LineRpc.tagged ⟨1, (7, 9)⟩ (ascii "7 9\r\n"), true⟩] ++
        [⟨3, .readEncoderValues, LineRpc.tagged ⟨2, (7, 9)⟩ (ascii "OK\r\n"), true⟩]) := by
    decide +kernel
  obtain ⟨⟨l, out⟩, hr, hout⟩ := Option.map_eq_some_iff.mp hrun
  subst hout
  have h := reads_in_turn (K := Rat) (fun _ => 0) false 7 9 timedOutRead l _
    (by simp [timedOutRead, Link.Action.OneLine, Call.OneLine]) hr (inTurn_of_all (by decide)) _ []
    _ rfl rfl rfl
  exact ⟨l, _, _, hr, rfl, rfl, (h.1 rfl).1⟩

end AndinoBase
