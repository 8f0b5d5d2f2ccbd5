import Andino.Library.LineRpc
import Andino.System.RoundTrip

/-!
# Host and firmware on a serial line

The motor driver and the firmware, joined by two byte queues. The host is idle or
inside `ReadLine`, with what that has read so far; `ReadLine` takes bytes until a
line feed or until it times out, and after a timeout the bytes it has taken are
gone and the rest of the line is still to come. Replies are marked with the
request they answer and the counts the firmware held: nothing reads the marks.

For the calls answered by one line, the link is an instance of the machine of
`LineRpc`: `link_step` is the simulation.
-/
namespace AndinoBase

open CArith CString Decimal AndinoFirmware AndinoFirmware.App
open LineRpc (Origin Outcome)

/-- The two encoder counts. -/
abbrev Counts := Int × Int

/-- `firmware` is `none` once a handler has written past its array. -/
structure Link where
  host : Option (Call × List (Byte × Origin Counts))
  down : List Byte
  up : List (Byte × Origin Counts)
  firmware : Option App
  sent : Nat
  handled : Nat

namespace Link

inductive Action where
  | call (c : Call)
  | byte (env : Env)
  | pid (e : PidEnv)
  | autoStop (e : StopEnv)
  | receive
  | timeout

def initial (app : App) : Link := ⟨none, [], [], some app, 0, 0⟩

variable (t : Target)

/-- `SendMsg`: write the message, then read a line. -/
def sendMsg (l : Link) (c : Call) : Option (Link × List (Outcome Call Byte Counts)) :=
  match l.host with
  | some _ => none
  | none =>
    some ({ l with
      host := some (c, [])
      down := l.down ++ MotorDriver.msgToSend (MotorDriver.msg c)
      sent := l.sent + 1 }, [])

/-- The firmware takes the next byte from the line. -/
def firmwareByte (l : Link) (env : Env) : Option (Link × List (Outcome Call Byte Counts)) :=
  match l.firmware, l.down with
  | some app, c :: down =>
    match App.step t app (.byte c env) with
    | none => some ({ l with firmware := none, down := down }, [])
    | some (app', out) =>
      some ({ l with
        firmware := some app'
        down := down
        up := l.up ++ LineRpc.tagged
          ⟨l.handled + 1, (app'.leftEncoder.read, app'.rightEncoder.read)⟩ out
        handled := l.handled + if c = CR then 1 else 0 }, [])
  | _, _ => none

/-- `ReadLine` takes the next byte. -/
def receiveByte (l : Link) : Option (Link × List (Outcome Call Byte Counts)) :=
  match l.host, l.up with
  | some (c, line), b :: up =>
    if b.1 = LF then some ({ l with host := none, up := up }, [⟨l.sent, c, line ++ [b], true⟩])
    else some ({ l with host := some (c, line ++ [b]), up := up }, [])
  | _, _ => none

def readTimeout (l : Link) : Option (Link × List (Outcome Call Byte Counts)) :=
  match l.host with
  | none => none
  | some (c, line) => some ({ l with host := none }, [⟨l.sent, c, line, false⟩])

def step (l : Link) : Action → Option (Link × List (Outcome Call Byte Counts))
  | .call c => l.sendMsg c
  | .byte env => l.firmwareByte t env
  | .pid e => l.firmware.map (fun app => ({ l with firmware := some (app.pidTask t e) }, []))
  | .autoStop e => l.firmware.map (fun app => ({ l with firmware := some (app.autoStopTask t e) }, []))
  | .receive => l.receiveByte
  | .timeout => l.readTimeout

end Link

/-! ## Calls answered by one line -/

/-- Every call but `SetPidValues`. -/
def Call.OneLine : Call → Prop
  | .setPidValues _ _ _ _ => False
  | _ => True

instance (c : Call) : Decidable c.OneLine := by
  cases c <;> unfold Call.OneLine <;> infer_instance

def Link.Action.OneLine : Link.Action → Prop
  | .call c => c.OneLine
  | _ => True

/-- The line that answers a call, up to its line feed. -/
def Reply (c : Call) (counts : Counts) (body : List Byte) : Prop :=
  match c with
  | .readEncoderValues =>
    body = decimal counts.1 ++ SP :: (decimal counts.2 ++ [CR]) ∧ Fits 32 counts.1 ∧ Fits 32 counts.2
  | .setMotorValues _ _ => body = ascii "OK" ++ [CR]
  | .setPidValues _ _ _ _ => False

theorem Reply.plain {c : Call} {counts : Counts} {body : List Byte} (h : Reply c counts body) :
    LF ∉ body := by
  cases c with
  | readEncoderValues =>
    rw [h.1]
    exact countsLine_plain _ _
  | setMotorValues val1 val2 =>
    rw [show body = ascii "OK" ++ [CR] from h]
    decide
  | setPidValues => exact absurd h id

def server : LineRpc.Server Call Byte Counts where
  terminator := LF
  Answers := Reply
  plain := Reply.plain

/-- The messages are short lines. -/
theorem decimal_length_thirtyTwo (x : HostInt) : (decimal x.1).length ≤ 11 := by
  have h := (fits_thirtyTwo x.1).mp x.2
  exact decimal_length_le x.1 10 (by decide) (by omega)

/-- Every message fits the buffer of the shell. -/
theorem msg_length (c : Call) : (MotorDriver.msg c).length < Shell.kCommandPromptLengthMax := by
  have hmax : Shell.kCommandPromptLengthMax = 64 := rfl
  cases c with
  | readEncoderValues => decide
  | setMotorValues val1 val2 =>
    have h₁ := decimal_length_thirtyTwo val1
    have h₂ := decimal_length_thirtyTwo val2
    have hm : (ascii "m").length = 1 := rfl
    rw [MotorDriver.msg, setMotorValuesMsg_eq]
    simp only [List.length_append, List.length_cons]
    omega
  | setPidValues kp kd ki ko =>
    have h₁ := kp.length_le
    have h₂ := kd.length_le
    have h₃ := ki.length_le
    have h₄ := ko.length_le
    have hu : (ascii "u").length = 1 := rfl
    rw [MotorDriver.msg, setPidValuesMsg_eq, List.length_append, List.length_cons, gainsText_length]
    omega

/-- No message contains a line end. -/
theorem msg_plain (c : Call) : ∀ b ∈ MotorDriver.msg c, b ≠ CR ∧ b ≠ LF := by
  have hsp : SP ≠ CR ∧ SP ≠ LF := by decide
  cases c with
  | readEncoderValues => exact word_e.line
  | setMotorValues val1 val2 =>
    rw [MotorDriver.msg, setMotorValuesMsg_eq]
    exact forall_mem_append_cons word_m.line hsp
      (forall_mem_append_cons (word_decimal _).line hsp (word_decimal _).line)
  | setPidValues kp kd ki ko =>
    rw [MotorDriver.msg, setPidValuesMsg_eq]
    exact u_line_plain (word_gainsText kp.word kd.word ki.word ko.word)

/-- The firmware answers the carriage return of such a message with one line. -/
theorem step_oneLine (zeroQuot : Int → Int) {app : App} {c : Call} (hc : c.OneLine) (env : Env)
    (h : app.Ready (MotorDriver.msg c)) :
    ∃ app' body, App.step (avr zeroQuot) app (.byte CR env) = some (app', body ++ [LF]) ∧
      app'.Ready [] ∧ Reply c (app'.leftEncoder.read, app'.rightEncoder.read) body := by
  cases c with
  | readEncoderValues =>
    obtain ⟨app', hs, hr, hl, hrr⟩ := step_e (avr zeroQuot) env h
    refine ⟨app', _, ?_, hr, rfl, ?_, ?_⟩
    · have hsp : print " " = [SP] := rfl
      rw [hs, hsp]
      simp [println]
    · rw [hl]
      exact avr_long_fits zeroQuot _
    · rw [hrr]
      exact avr_long_fits zeroQuot _
  | setMotorValues val1 val2 =>
    rw [MotorDriver.msg, setMotorValuesMsg_eq] at h
    obtain ⟨app', hs, hr, -⟩ := step_m (avr zeroQuot) env (word_decimal val1.1)
      (word_decimal val2.1) h
    exact ⟨app', ascii "OK" ++ [CR], hs, hr, rfl⟩
  | setPidValues => exact absurd hc id

/-! ## The simulation -/

/-- The unhandled messages are on their way: partly in the shell, the rest on the line. -/
def InFlight (app : App) (down : List Byte) (queue : List Call) : Prop :=
  ∃ w, app.Ready w ∧ CR ∉ w ∧
    w ++ down = queue.flatMap (fun c => MotorDriver.msgToSend (MotorDriver.msg c))

structure Represents (l : Link) (s : LineRpc.State Call Byte Counts) : Prop where
  host : l.host = s.waiting
  up : l.up = s.replies
  sent : l.sent = s.sent
  handled : l.handled = s.handled
  oneLine : ∀ c ∈ s.queue, c.OneLine
  inFlight : ∃ app, l.firmware = some app ∧ InFlight app l.down s.queue

/-- Two texts before a carriage return: the first byte that differs in kind. -/
theorem split_line {w d m r : List Byte} {b : Byte} (h : w ++ b :: d = m ++ CR :: r) (hw : CR ∉ w)
    (hm : CR ∉ m) :
    (b = CR ∧ w = m ∧ d = r) ∨ (b ≠ CR ∧ ∃ m', m = w ++ b :: m' ∧ d = m' ++ CR :: r) := by
  rcases List.append_eq_append_iff.mp h with ⟨a, hma, ha⟩ | ⟨a, hwa, ha⟩
  · cases a with
    | nil =>
      obtain ⟨rfl, rfl⟩ := List.cons.inj ha
      exact .inl ⟨rfl, by simpa using hma.symm, rfl⟩
    | cons x a =>
      obtain ⟨rfl, rfl⟩ := List.cons.inj ha
      refine .inr ⟨?_, a, hma, rfl⟩
      rintro rfl
      exact hm (by rw [hma]; simp)
  · cases a with
    | nil =>
      obtain ⟨rfl, rfl⟩ := List.cons.inj ha
      exact .inl ⟨rfl, by simpa using hwa, rfl⟩
    | cons x a =>
      obtain ⟨rfl, -⟩ := List.cons.inj ha
      exact absurd (by rw [hwa]; simp) hw

theorem represents_initial (t : Target) (imu : Bool) (leftMove rightMove : Int) :
    Represents (Link.initial (setup t imu leftMove rightMove)) LineRpc.initial :=
  ⟨rfl, rfl, rfl, rfl, by simp [LineRpc.initial],
    _, rfl, [], ready_setup t imu leftMove rightMove, by simp, rfl⟩

theorem msgToSend_split (c : Call) (queue : List Call) :
    (c :: queue).flatMap (fun c => MotorDriver.msgToSend (MotorDriver.msg c)) =
      MotorDriver.msg c ++ CR :: queue.flatMap (fun c => MotorDriver.msgToSend (MotorDriver.msg c)) := by
  simp [MotorDriver.msgToSend]

/-- A byte is stored, or it is the carriage return of the oldest message. -/
theorem link_byte {zeroQuot : Int → Int} {l l' : Link} {s : LineRpc.State Call Byte Counts}
    {env : Env} {o : List (Outcome Call Byte Counts)} (h : Represents l s)
    (hs : l.firmwareByte (avr zeroQuot) env = some (l', o)) :
    ∃ s', LineRpc.Step server s o s' ∧ Represents l' s' := by
  obtain ⟨app, happ, w, hready, hw, hdown⟩ := h.inFlight
  cases hd : l.down with
  | nil => exact absurd hs (by simp [Link.firmwareByte, happ, hd])
  | cons b d =>
    rw [hd] at hdown
    cases hq : s.queue with
    | nil =>
      rw [hq] at hdown
      exact absurd hdown (by simp)
    | cons c queue =>
      rw [hq, msgToSend_split] at hdown
      have hcr : CR ∉ MotorDriver.msg c := fun hm => (msg_plain c CR hm).1 rfl
      rcases split_line hdown hw hcr with ⟨rfl, rfl, rfl⟩ | ⟨hb, m, hm, rfl⟩
      · -- the message is complete: the firmware answers it
        obtain ⟨app', body, hstep, hr, hbody⟩ :=
          step_oneLine zeroQuot (h.oneLine c (by rw [hq]; simp)) env hready
        simp only [Link.firmwareByte, happ, hd, hstep, ↓reduceIte, Option.some.injEq,
          Prod.mk.injEq] at hs
        obtain ⟨rfl, rfl⟩ := hs
        refine ⟨_, .handle s c queue _ body hq hbody, h.host, ?_, h.sent, ?_, ?_, app', rfl, [], hr,
          by simp, rfl⟩
        · dsimp only
          rw [h.up, h.handled]
          rfl
        · dsimp only
          rw [h.handled]
        · exact fun c' hc' => h.oneLine c' (by rw [hq]; exact List.mem_cons_of_mem _ hc')
      · have hlen := msg_length c
        have hplain := msg_plain c b (by rw [hm]; simp)
        rw [hm, List.length_append, List.length_cons] at hlen
        obtain ⟨shell, hstep, hr, -⟩ := step_store (avr zeroQuot) env hready (by omega)
          hplain.1 hplain.2
        simp only [Link.firmwareByte, happ, hd, hstep, if_neg hb, LineRpc.tagged, List.map_nil,
          List.append_nil, Nat.add_zero, Option.some.injEq, Prod.mk.injEq] at hs
        obtain ⟨rfl, rfl⟩ := hs
        refine ⟨s, .idle s, h.host, h.up, h.sent, h.handled, h.oneLine, _, rfl, w ++ [b], hr, ?_, ?_⟩
        · simpa [hw] using fun he => hb he.symm
        · rw [hq, msgToSend_split, hm]
          simp

/-- Every step of the link is a step of the abstract exchange. -/
theorem link_step {zeroQuot : Int → Int} {l l' : Link} {s : LineRpc.State Call Byte Counts}
    {a : Link.Action} {o : List (Outcome Call Byte Counts)} (h : Represents l s) (ha : a.OneLine)
    (hs : l.step (avr zeroQuot) a = some (l', o)) :
    ∃ s', LineRpc.Step server s o s' ∧ Represents l' s' := by
  cases a with
  | call c =>
    cases hh : l.host with
    | some r => exact absurd hs (by simp [Link.step, Link.sendMsg, hh])
    | none =>
      simp only [Link.step, Link.sendMsg, hh, Option.some.injEq, Prod.mk.injEq] at hs
      obtain ⟨rfl, rfl⟩ := hs
      obtain ⟨app, happ, w, hready, hw, hdown⟩ := h.inFlight
      refine ⟨_, .send s c (h.host ▸ hh), rfl, h.up, ?_, h.handled, ?_, app, happ, w, hready, hw, ?_⟩
      · dsimp only
        rw [h.sent]
      · intro c' hc'
        rcases List.mem_append.mp hc' with hc' | hc'
        · exact h.oneLine c' hc'
        · exact List.mem_singleton.mp hc' ▸ ha
      · dsimp only
        rw [← List.append_assoc, hdown]
        simp
  | byte env => exact link_byte h hs
  | pid e =>
    obtain ⟨app, happ, w, hready, hw, hdown⟩ := h.inFlight
    simp only [Link.step, happ, Option.map_some, Option.some.injEq, Prod.mk.injEq] at hs
    obtain ⟨rfl, rfl⟩ := hs
    exact ⟨s, .idle s, h.host, h.up, h.sent, h.handled, h.oneLine, _, rfl, w,
      hready.of_shell (shell_pidTask _ app e), hw, hdown⟩
  | autoStop e =>
    obtain ⟨app, happ, w, hready, hw, hdown⟩ := h.inFlight
    simp only [Link.step, happ, Option.map_some, Option.some.injEq, Prod.mk.injEq] at hs
    obtain ⟨rfl, rfl⟩ := hs
    exact ⟨s, .idle s, h.host, h.up, h.sent, h.handled, h.oneLine, _, rfl, w,
      hready.of_shell (shell_autoStopTask _ app e), hw, hdown⟩
  | receive =>
    cases hh : l.host with
    | none => exact absurd hs (by simp [Link.step, Link.receiveByte, hh])
    | some r =>
      cases hu : l.up with
      | nil => exact absurd hs (by simp [Link.step, Link.receiveByte, hh, hu])
      | cons b up =>
        simp only [Link.step, Link.receiveByte, hh, hu] at hs
        split at hs
        · rename_i hb
          simp only [Option.some.injEq, Prod.mk.injEq] at hs
          obtain ⟨rfl, rfl⟩ := hs
          rw [h.sent]
          exact ⟨_, .finish s r.1 r.2 up b (h.host ▸ hh) (h.up ▸ hu) hb, rfl, rfl, rfl, h.handled,
            h.oneLine, h.inFlight⟩
        · rename_i hb
          simp only [Option.some.injEq, Prod.mk.injEq] at hs
          obtain ⟨rfl, rfl⟩ := hs
          exact ⟨_, .read s r.1 r.2 up b (h.host ▸ hh) (h.up ▸ hu) hb, rfl, rfl, h.sent, h.handled,
            h.oneLine, h.inFlight⟩
  | timeout =>
    cases hh : l.host with
    | none => exact absurd hs (by simp [Link.step, Link.readTimeout, hh])
    | some r =>
      simp only [Link.step, Link.readTimeout, hh, Option.some.injEq, Prod.mk.injEq] at hs
      obtain ⟨rfl, rfl⟩ := hs
      rw [h.sent]
      exact ⟨_, .giveUp s r.1 r.2 (h.host ▸ hh), rfl, h.up, rfl, h.handled, h.oneLine, h.inFlight⟩

/-- Every run of the link is a run of the abstract exchange. -/
theorem link_run {zeroQuot : Int → Int} {imu : Bool} {leftMove rightMove : Int}
    {acts : List Link.Action} {l : Link} {out : List (Outcome Call Byte Counts)}
    (hone : ∀ a ∈ acts, a.OneLine)
    (hr : Steps.run (Link.step (avr zeroQuot))
      (Link.initial (setup (avr zeroQuot) imu leftMove rightMove)) acts = some (l, out)) :
    ∃ s, LineRpc.Run server out s ∧ Represents l s := by
  refine Steps.run_history (fun _ _ => ())
    (fun as _ l out => (∀ a ∈ as, a.OneLine) → ∃ s, LineRpc.Run server out s ∧ Represents l s)
    (fun _ => ⟨_, .start, represents_initial _ imu leftMove rightMove⟩) ?_ hr hone
  intro as _ l out a l' o ih hs hone
  obtain ⟨s, hrun, hrep⟩ := ih (fun a ha => hone a (List.mem_append_left _ ha))
  obtain ⟨s', hstep, hrep'⟩ := link_step hrep (hone a (by simp)) hs
  exact ⟨s', .step hrun hstep, hrep'⟩

end AndinoBase
