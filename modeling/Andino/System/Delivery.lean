import Andino.System.Pairing
import Andino.Firmware.InForce
import Andino.Firmware.DeadMan
import Andino.Firmware.ShellLines

/-!
# Delivery of the calls

What the firmware executes of what the host sends. The link is a FIFO of bytes and the
shell cuts it at the carriage returns, so the handlers run for a prefix of the host's
calls, each once and in order, whatever is delayed and whichever reads time out. The one
thing that ends this is a call whose gains do not fit the array of their handler. From
the order follows what is in force on the robot at any time, and that a host that falls
silent leaves it at rest.
-/
namespace AndinoBase

open CArith CString Decimal AndinoFirmware AndinoFirmware.App
open LineRpc (Origin Outcome)

/-- The call of the shell that a message asks for. -/
def Call.invocation : Call → Shell.Invocation Callback
  | .readEncoderValues => ⟨.readEncoders, 1, [some (ascii "e"), none]⟩
  | .setMotorValues val1 val2 =>
    ⟨.setMotorsSpeed, 3, [some (ascii "m"), some (decimal val1), some (decimal val2), none]⟩
  | .setPidValues kp kd ki ko =>
    ⟨.setPidTuningGains, 2,
      [some (ascii "u"), some (gainsText kp.bytes kd.bytes ki.bytes ko.bytes), none]⟩

/-- The gains of the call fit the array of their handler. -/
def Call.Fitting : Call → Prop
  | .setPidValues kp kd ki ko =>
    (gainsText kp.bytes kd.bytes ki.bytes ko.bytes).length < kArgSize
  | _ => True

instance : (c : Call) → Decidable c.Fitting
  | .setPidValues _ _ _ _ => Nat.decLt _ _
  | .readEncoderValues => .isTrue trivial
  | .setMotorValues _ _ => .isTrue trivial

theorem call_mem {c : Call} {acts : List Link.Action} (h : c ∈ calls acts) :
    Link.Action.call c ∈ acts := by
  induction acts with
  | nil => exact absurd h (by simp [calls])
  | cons a acts ih =>
    cases a with
    | call c' =>
      rcases List.mem_cons.mp h with rfl | hm
      · exact List.mem_cons_self
      · exact List.mem_cons_of_mem _ (ih hm)
    | _ => exact List.mem_cons_of_mem _ (ih h)

theorem fitting_of_oneLine {acts : List Link.Action} (hone : ∀ a ∈ acts, a.OneLine) :
    ∀ c ∈ calls acts, c.Fitting := by
  intro c hc
  have hc := hone _ (call_mem hc)
  cases c with
  | setPidValues => exact absurd hc id
  | _ => trivial

variable (t : Target)

namespace Link

/-- What an action of the link is for the firmware. -/
def firmwareAction (l : Link) : Link.Action → List App.Action
  | .byte env => (l.down.head?.map (fun c => App.Action.byte c env)).toList
  | .pid e => [.pid e]
  | .autoStop e => [.autoStop e]
  | .call _ | .receive | .timeout => []

/-- The actions of the firmware along a run of the link. -/
def firmwareActions (l : Link) (acts : List Link.Action) : List App.Action :=
  (Steps.labels (step t) firmwareAction l acts).flatten

end Link

/-- The carriage return of a message makes the call it asks for. -/
theorem step_invocation {app : App} {c : Call} (hc : c.Fitting) (env : Env)
    (h : app.Ready (MotorDriver.msg c)) :
    ∃ app' out, App.step t app (.byte CR env) = some (app', out) ∧ app'.Ready [] ∧
      app.invocation (.byte CR env) = some c.invocation := by
  cases c with
  | readEncoderValues =>
    obtain ⟨app', hs, hr, -⟩ := step_e t env h
    obtain ⟨-, -, -, hi⟩ := step_CR t env h
      (by rw [MotorDriver.msg, segmentTokens_one word_e]; exact lineInvocation_e _)
    exact ⟨app', _, hs, hr, hi⟩
  | setMotorValues val1 val2 =>
    rw [MotorDriver.msg, setMotorValuesMsg_eq] at h
    obtain ⟨app', hs, hr, -⟩ := step_m t env (word_decimal val1.1) (word_decimal val2.1) h
    obtain ⟨-, -, -, hi⟩ := step_CR t env h
      (by rw [segmentTokens_m (word_decimal _) (word_decimal _)]; exact lineInvocation_m _ _ _)
    exact ⟨app', _, hs, hr, hi⟩
  | setPidValues kp kd ki ko =>
    have hw := word_gainsText kp.word kd.word ki.word ko.word
    rw [MotorDriver.msg, setPidValuesMsg_eq] at h
    obtain ⟨app', hs, hr, -⟩ := step_u t env hw hc h
    obtain ⟨-, -, -, hi⟩ := step_CR t env h
      (by rw [segmentTokens_u hw]; exact lineInvocation_u _ _)
    exact ⟨app', _, hs, hr, hi⟩

/-- Or it has no next state, if its gains do not fit. -/
theorem step_overflow {app : App} {c : Call} (hc : ¬ c.Fitting) (env : Env)
    (h : app.Ready (MotorDriver.msg c)) : App.step t app (.byte CR env) = none := by
  cases c with
  | readEncoderValues => exact absurd trivial hc
  | setMotorValues val1 val2 => exact absurd trivial hc
  | setPidValues kp kd ki ko =>
    rw [MotorDriver.msg, setPidValuesMsg_eq] at h
    exact step_u_overflow t env (word_gainsText kp.word kd.word ki.word ko.word) hc h

/-- The first calls have been handled in order; the others are on their way. -/
structure Delivered (start : App) (cs : List Call) (fs : List App.Action) (l : Link) (app : App) :
    Prop where
  firmware : l.firmware = some app
  run : ∃ out, Steps.run (App.step t) start fs = some (app, out)
  handled_le : l.handled ≤ cs.length
  invocations : start.invocations t fs = (cs.take l.handled).map Call.invocation
  inFlight : InFlight app l.down (cs.drop l.handled)

/-- How far the calls have come: in order, or up to one that does not fit. -/
inductive Delivery (start : App) (cs : List Call) (fs : List App.Action) (l : Link) : Prop where
  | delivered (app : App) (h : Delivered t start cs fs l app)
  | ended (hf : l.firmware = none) (c : Call) (hc : cs[l.handled]? = some c) (hlong : ¬ c.Fitting)

variable {t : Target} {start app : App} {cs : List Call} {fs : List App.Action} {l l' : Link}

theorem delivered_initial (imu : Bool) (leftMove rightMove : Int) :
    Delivered t (setup t imu leftMove rightMove) [] []
      (Link.initial (setup t imu leftMove rightMove)) (setup t imu leftMove rightMove) where
  firmware := rfl
  run := ⟨[], rfl⟩
  handled_le := Nat.le_refl 0
  invocations := rfl
  inFlight := ⟨[], ready_setup t imu leftMove rightMove, by simp, rfl⟩

/-- What the host does on its own side leaves the delivery alone. -/
theorem Delivered.host (h : Delivered t start cs fs l app) (hf : l'.firmware = l.firmware)
    (hd : l'.down = l.down) (hh : l'.handled = l.handled) : Delivered t start cs fs l' app where
  firmware := hf.trans h.firmware
  run := h.run
  handled_le := hh ▸ h.handled_le
  invocations := hh ▸ h.invocations
  inFlight := by
    rw [hd, hh]
    exact h.inFlight

/-- A new call goes behind the others. -/
theorem Delivered.call (h : Delivered t start cs fs l app) (c : Call)
    (hf : l'.firmware = l.firmware)
    (hd : l'.down = l.down ++ MotorDriver.msgToSend (MotorDriver.msg c))
    (hh : l'.handled = l.handled) : Delivered t start (cs ++ [c]) fs l' app where
  firmware := hf.trans h.firmware
  run := h.run
  handled_le := by
    rw [hh, List.length_append]
    exact Nat.le_add_right_of_le h.handled_le
  invocations := by
    rw [hh, List.take_append_of_le_length h.handled_le]
    exact h.invocations
  inFlight := by
    obtain ⟨w, hready, hw, hdown⟩ := h.inFlight
    refine ⟨w, hready, hw, ?_⟩
    rw [hd, hh, List.drop_append_of_le_length h.handled_le, ← List.append_assoc, hdown]
    simp

/-- A task of the firmware makes no call. -/
theorem Delivered.task {app' : App} {a : App.Action} (h : Delivered t start cs fs l app)
    (ha : App.delivered [a] = []) (hs : App.step t app a = some (app', []))
    (hf : l'.firmware = some app') (hd : l'.down = l.down) (hh : l'.handled = l.handled) :
    Delivered t start cs (fs ++ [a]) l' app' := by
  obtain ⟨out, hrun⟩ := h.run
  obtain ⟨app₁, hs₁, hshell⟩ := step_task t app a ha
  obtain rfl : app₁ = app' := by simpa [hs] using hs₁.symm
  have hnone : app.invocation a = none := by
    cases a with
    | byte c env => exact absurd ha (by simp [App.delivered])
    | pid e | autoStop e => rfl
  refine ⟨hf, ⟨_, Steps.run_join hrun (Steps.run_step hs (Steps.run_nil _ _))⟩, hh ▸ h.handled_le,
    ?_, ?_⟩
  · rw [invocations_append t hrun, invocations_cons t hs, hnone, hh, h.invocations]
    exact List.append_nil _
  · obtain ⟨w, hready, hw, hdown⟩ := h.inFlight
    rw [hd, hh]
    exact ⟨w, hready.of_shell hshell, hw, hdown⟩

/-- A byte goes into the line of the oldest message, or it is that line's end. -/
theorem Delivered.byte {env : Env} {o : List (Outcome Call Byte Counts)}
    (h : Delivered t start cs fs l app) (hs : l.firmwareByte t env = some (l', o)) :
    Delivery t start cs (fs ++ l.firmwareAction (.byte env)) l' := by
  obtain ⟨out, hrun⟩ := h.run
  obtain ⟨w, hready, hw, hdown⟩ := h.inFlight
  cases hd : l.down with
  | nil => exact absurd hs (by simp [Link.firmwareByte, h.firmware, hd])
  | cons b d =>
    have hact : l.firmwareAction (.byte env) = [.byte b env] := by simp [Link.firmwareAction, hd]
    rw [hd] at hdown
    cases hq : cs.drop l.handled with
    | nil =>
      rw [hq] at hdown
      exact absurd hdown (by simp)
    | cons c queue =>
      obtain ⟨hlt, hget, hqueue⟩ : ∃ hlt : l.handled < cs.length, cs[l.handled] = c ∧
          queue = cs.drop (l.handled + 1) := by
        have hlt : l.handled < cs.length := by
          by_contra hge
          rw [List.drop_of_length_le (Nat.le_of_not_lt hge)] at hq
          exact absurd hq (by simp)
        rw [List.drop_eq_getElem_cons hlt, List.cons.injEq] at hq
        exact ⟨hlt, hq.1, hq.2.symm⟩
      rw [hq, msgToSend_split] at hdown
      have hcr : CR ∉ MotorDriver.msg c := fun hm => (msg_plain c CR hm).1 rfl
      rcases split_line hdown hw hcr with ⟨rfl, rfl, rfl⟩ | ⟨hb, m, hm, rfl⟩
      · by_cases hfit : c.Fitting
        · -- the line is complete: the call is made
          obtain ⟨app', out', hstep, hr, hi⟩ := step_invocation t hfit env hready
          simp only [Link.firmwareByte, h.firmware, hd, hstep, ↓reduceIte, Option.some.injEq,
            Prod.mk.injEq] at hs
          obtain ⟨rfl, rfl⟩ := hs
          rw [hact]
          refine .delivered app' ⟨rfl,
            ⟨_, Steps.run_join hrun (Steps.run_step hstep (Steps.run_nil _ _))⟩, hlt, ?_, [], hr,
            by simp, ?_⟩
          · rw [invocations_append t hrun, invocations_cons t hstep, hi, h.invocations,
              List.take_add_one, List.getElem?_eq_getElem hlt, hget]
            simp [App.invocations]
          · dsimp only
            rw [hqueue]
            rfl
        · -- the call does not return
          have hstep := step_overflow t hfit env hready
          simp only [Link.firmwareByte, h.firmware, hd, hstep, Option.some.injEq,
            Prod.mk.injEq] at hs
          obtain ⟨rfl, rfl⟩ := hs
          exact .ended rfl c ((List.getElem?_eq_getElem hlt).trans (congrArg some hget)) hfit
      · have hlen := msg_length c
        have hplain := msg_plain c b (by rw [hm]; simp)
        rw [hm, List.length_append, List.length_cons] at hlen
        obtain ⟨shell, hstep, hr, hnone⟩ := step_store t env hready (by omega) hplain.1 hplain.2
        simp only [Link.firmwareByte, h.firmware, hd, hstep, if_neg hb, Nat.add_zero,
          Option.some.injEq, Prod.mk.injEq] at hs
        obtain ⟨rfl, rfl⟩ := hs
        rw [hact]
        refine .delivered _ ⟨rfl,
          ⟨_, Steps.run_join hrun (Steps.run_step hstep (Steps.run_nil _ _))⟩, h.handled_le, ?_,
          w ++ [b], hr, ?_, ?_⟩
        · rw [invocations_append t hrun, invocations_cons t hstep, hnone, h.invocations]
          exact List.append_nil _
        · simpa [hw] using fun he => hb he.symm
        · dsimp only
          rw [hq, msgToSend_split, hm]
          simp

/-- Neither what the host does on its own side nor a new call concerns a firmware that is gone. -/
theorem Delivery.host (h : Delivery t start cs fs l) (hf : l'.firmware = l.firmware)
    (hd : l'.down = l.down) (hh : l'.handled = l.handled) : Delivery t start cs fs l' := by
  cases h with
  | delivered app h => exact .delivered app (h.host hf hd hh)
  | ended hnone c hc hlong => exact .ended (hf.trans hnone) c (hh ▸ hc) hlong

theorem Delivery.call (h : Delivery t start cs fs l) (c : Call) (hf : l'.firmware = l.firmware)
    (hd : l'.down = l.down ++ MotorDriver.msgToSend (MotorDriver.msg c))
    (hh : l'.handled = l.handled) : Delivery t start (cs ++ [c]) fs l' := by
  cases h with
  | delivered app h => exact .delivered app (h.call c hf hd hh)
  | ended hnone c' hc hlong =>
    have hlt := (List.getElem?_eq_some_iff.mp hc).1
    refine .ended (hf.trans hnone) c' ?_ hlong
    rw [hh, List.getElem?_append_left hlt]
    exact hc

theorem delivery_step {a : Link.Action} {o : List (Outcome Call Byte Counts)}
    (h : Delivery t start cs fs l) (hs : l.step t a = some (l', o)) :
    Delivery t start (cs ++ calls [a]) (fs ++ l.firmwareAction a) l' := by
  cases a with
  | call c =>
    simp only [Link.step, Link.sendMsg] at hs
    split at hs
    · exact absurd hs (by simp)
    · simp only [Option.some.injEq, Prod.mk.injEq] at hs
      obtain ⟨rfl, rfl⟩ := hs
      rw [Link.firmwareAction, List.append_nil]
      exact h.call c rfl rfl rfl
  | byte env =>
    rw [calls, calls, List.append_nil]
    cases h with
    | delivered app h => exact h.byte hs
    | ended hnone => exact absurd hs (by simp [Link.step, Link.firmwareByte, hnone])
  | pid e =>
    rw [calls, calls, List.append_nil]
    cases h with
    | delivered app h =>
      simp only [Link.step, h.firmware, Option.map_some, Option.some.injEq, Prod.mk.injEq] at hs
      obtain ⟨rfl, rfl⟩ := hs
      exact .delivered _ (h.task (a := .pid e) rfl rfl rfl rfl rfl)
    | ended hnone => exact absurd hs (by simp [Link.step, hnone])
  | autoStop e =>
    rw [calls, calls, List.append_nil]
    cases h with
    | delivered app h =>
      simp only [Link.step, h.firmware, Option.map_some, Option.some.injEq, Prod.mk.injEq] at hs
      obtain ⟨rfl, rfl⟩ := hs
      exact .delivered _ (h.task (a := .autoStop e) rfl rfl rfl rfl rfl)
    | ended hnone => exact absurd hs (by simp [Link.step, hnone])
  | receive =>
    rw [calls, calls, Link.firmwareAction, List.append_nil, List.append_nil]
    simp only [Link.step, Link.receiveByte] at hs
    split at hs
    · split at hs <;>
      · simp only [Option.some.injEq, Prod.mk.injEq] at hs
        obtain ⟨rfl, rfl⟩ := hs
        exact h.host rfl rfl rfl
    · exact absurd hs (by simp)
  | timeout =>
    rw [calls, calls, Link.firmwareAction, List.append_nil, List.append_nil]
    simp only [Link.step, Link.readTimeout] at hs
    split at hs
    · exact absurd hs (by simp)
    · simp only [Option.some.injEq, Prod.mk.injEq] at hs
      obtain ⟨rfl, rfl⟩ := hs
      exact h.host rfl rfl rfl

section Run

variable {imu : Bool} {leftMove rightMove : Int} {acts : List Link.Action}
  {o : List (Outcome Call Byte Counts)}

/-- Along every run. -/
theorem delivery_run
    (hr : Steps.run (Link.step t) (Link.initial (setup t imu leftMove rightMove)) acts =
      some (l, o)) :
    Delivery t (setup t imu leftMove rightMove) (calls acts)
      (Link.firmwareActions t (Link.initial (setup t imu leftMove rightMove)) acts) l := by
  refine Steps.run_history Link.firmwareAction
    (fun as ls l _ => Delivery t (setup t imu leftMove rightMove) (calls as) ls.flatten l)
    (.delivered _ (delivered_initial imu leftMove rightMove)) ?_ hr
  intro as ls l _ a l' _ ih hs
  rw [calls_append, List.flatten_append, List.flatten_singleton]
  exact delivery_step ih hs

/-- As long as the firmware runs. -/
theorem delivered_run
    (hr : Steps.run (Link.step t) (Link.initial (setup t imu leftMove rightMove)) acts =
      some (l, o)) (hf : l.firmware = some app) :
    Delivered t (setup t imu leftMove rightMove) (calls acts)
      (Link.firmwareActions t (Link.initial (setup t imu leftMove rightMove)) acts) l app := by
  cases delivery_run hr with
  | delivered app' h =>
    obtain rfl : app' = app := Option.some.inj (h.firmware.symm.trans hf)
    exact h
  | ended hnone => exact absurd (hnone.symm.trans hf) (by simp)

/-- It runs on if all gains fit. -/
theorem exists_firmware (hfit : ∀ c ∈ calls acts, c.Fitting)
    (hr : Steps.run (Link.step t) (Link.initial (setup t imu leftMove rightMove)) acts =
      some (l, o)) : ∃ app, l.firmware = some app := by
  cases delivery_run hr with
  | delivered app h => exact ⟨app, h.firmware⟩
  | ended hnone c hc hlong => exact absurd (hfit c (List.mem_of_getElem? hc)) hlong

end Run

/-! ## What the robot executes -/

/-- Whatever is delayed and whichever reads time out: as long as the firmware runs, its
handlers have run for the first calls of the host, each once, in order and with its own
arguments, and for nothing else. None is left exactly when the line and the shell are empty.
A firmware that no longer runs has stopped at a call whose gains do not fit. -/
theorem delivery_in_order (t : Target) (imu : Bool) (leftMove rightMove : Int)
    (acts : List Link.Action) (l : Link) (out : List (Outcome Call Byte Counts))
    (hrun : Steps.run (Link.step t) (Link.initial (setup t imu leftMove rightMove)) acts =
      some (l, out)) :
    (∀ app, l.firmware = some app →
      (∃ out', Steps.run (App.step t) (setup t imu leftMove rightMove)
        (Link.firmwareActions t (Link.initial (setup t imu leftMove rightMove)) acts) =
          some (app, out')) ∧
      (setup t imu leftMove rightMove).invocations t
          (Link.firmwareActions t (Link.initial (setup t imu leftMove rightMove)) acts) =
        ((calls acts).take l.handled).map Call.invocation ∧
      l.handled ≤ (calls acts).length ∧
      (l.handled = (calls acts).length ↔ l.down = [] ∧ app.shell.messageIndex = 0)) ∧
    (l.firmware = none → ∃ c, (calls acts)[l.handled]? = some c ∧ ¬ c.Fitting) := by
  refine ⟨fun app hf => ?_, fun hnone => ?_⟩
  · obtain ⟨-, hr, hle, hi, w, hready, -, hdown⟩ := delivered_run hrun hf
    have hindex : app.shell.messageIndex = w.length := hready.pending.1
    refine ⟨hr, hi, hle, ?_, ?_⟩
    · intro hall
      rw [List.drop_of_length_le (Nat.le_of_eq hall.symm), List.flatMap_nil] at hdown
      obtain ⟨rfl, hd⟩ := List.append_eq_nil_iff.mp hdown
      exact ⟨hd, hindex⟩
    · rintro ⟨hd, hw⟩
      rw [hd, List.length_eq_zero_iff.mp (hindex.symm.trans hw)] at hdown
      apply Nat.le_antisymm hle
      by_contra hlt
      rw [List.drop_eq_getElem_cons (Nat.lt_of_not_le hlt), msgToSend_split] at hdown
      exact absurd hdown (by simp)
  · cases delivery_run hrun with
    | delivered app h => exact absurd (h.firmware.symm.trans hnone) (by simp)
    | ended _ c hc hlong => exact ⟨c, hc, hlong⟩

/-- A speed command that is given up and a request behind it, of which no byte has been
handled when the firmware sets the speed. -/
def late : List Link.Action :=
  [.call (.setMotorValues ⟨100, by decide⟩ ⟨-100, by decide⟩), .timeout, .call .readEncoderValues] ++
    List.replicate 11 (.byte (Env.quiet 5))

theorem delivery_in_order_late :
    ∃ l out app, Steps.run (Link.step (avr fun _ => 0))
        (Link.initial (setup (avr fun _ => 0) false 0 0)) late = some (l, out) ∧
      l.firmware = some app ∧ l.handled = 1 ∧
      (setup (avr fun _ => 0) false 0 0).invocations (avr fun _ => 0)
          (Link.firmwareActions (avr fun _ => 0)
            (Link.initial (setup (avr fun _ => 0) false 0 0)) late) =
        [(Call.setMotorValues ⟨100, by decide⟩ ⟨-100, by decide⟩).invocation] := by
  have hany : (Steps.run (Link.step (avr fun _ => 0))
      (Link.initial (setup (avr fun _ => 0) false 0 0)) late).any
      (fun r => r.1.handled = 1 ∧ r.1.firmware.isSome = true) = true := by decide +kernel
  obtain ⟨⟨l, out⟩, hr, hp⟩ := Option.any_eq_true _ _ |>.mp hany
  obtain ⟨hone, hsome⟩ := of_decide_eq_true hp
  obtain ⟨app, hf⟩ := Option.isSome_iff_exists.mp hsome
  obtain ⟨-, hi, -⟩ := (delivery_in_order (avr fun _ => 0) false 0 0 late l out hr).1 app hf
  rw [hone] at hi
  exact ⟨l, out, app, hr, hf, hone, hi⟩

/-- What a call sets a side's controller to. -/
def Call.setpoint (t : Target) (side : Side) : Call → Option Int
  | .setMotorValues val1 val2 =>
    some (t.int ((t.int (match side with | .left => val1.1 | .right => val2.1)).tdiv
      Constants.kPidRate))
  | _ => none

def Call.gains (t : Target) : Call → Option Gains
  | .setPidValues kp kd ki ko =>
    some (requestedGains t (gainsText kp.bytes kd.bytes ki.bytes ko.bytes))
  | _ => none

/-- Whether a call tells both wheels to stand. -/
def Call.stands (t : Target) : Call → Option Bool
  | .setMotorValues val1 val2 => some (t.int val1.1 = 0 ∧ t.int val2.1 = 0)
  | _ => none

theorem atoi_of_decimal (t : Target) (x : Int) : App.atoi t (decimal x) = t.int x :=
  congrArg t.int (scanInt_decimal x)

theorem orderedSetpoint_invocation (t : Target) (side : Side) (c : Call) :
    orderedSetpoint t side c.invocation = c.setpoint t side := by
  cases c with
  | readEncoderValues | setPidValues => rfl
  | setMotorValues val1 val2 =>
    cases side with
    | left =>
      exact congrArg (fun x => some (t.int (x.tdiv Constants.kPidRate))) (atoi_of_decimal t val1.1)
    | right =>
      exact congrArg (fun x => some (t.int (x.tdiv Constants.kPidRate))) (atoi_of_decimal t val2.1)

theorem orderedGains_invocation (t : Target) (c : Call) :
    orderedGains t c.invocation = c.gains t := by
  cases c <;> rfl

theorem orderedStands_invocation (t : Target) (side : Side) (c : Call) :
    orderedStands t side c.invocation = c.stands t := by
  cases c with
  | readEncoderValues | setPidValues => rfl
  | setMotorValues val1 val2 =>
    rw [Call.stands, ← atoi_of_decimal t val1.1, ← atoi_of_decimal t val2.1]
    rfl

/-- The calls of the firmware order what the calls of the host ask for. -/
theorem Delivered.last {t : Target} {imu : Bool} {leftMove rightMove : Int} {cs : List Call}
    {fs : List App.Action} {l : Link} {app : App} {side : Side} {β : Type}
    (h : Delivered t (setup t imu leftMove rightMove) cs fs l app) (o : App.Order t side β)
    {asks : Call → Option β} (hasks : ∀ c, o.call c.invocation = asks c) :
    o.last ((setup t imu leftMove rightMove).invocations t fs) =
      ((cs.take l.handled).filterMap asks).getLast? := by
  have hcomp : o.call ∘ Call.invocation = asks := funext hasks
  rw [App.Order.last, h.invocations, List.filterMap_map, hcomp]

/-- An enabled controller follows the last speed that was delivered. -/
theorem Delivered.setpoint {t : Target} {imu : Bool} {leftMove rightMove : Int} {cs : List Call}
    {fs : List App.Action} {l : Link} {app : App}
    (h : Delivered t (setup t imu leftMove rightMove) cs fs l app) (side : Side)
    (hen : (app.channel side).pid.enabled = true) :
    ((cs.take l.handled).filterMap (Call.setpoint t side)).getLast? =
      some (app.channel side).pid.setpoint := by
  obtain ⟨_, hr⟩ := h.run
  rw [← h.last (setpointOrder t side) (orderedSetpoint_invocation t side)]
  exact setpoint_in_force hr side hen

/-- At any time of any run at which the firmware runs, an enabled controller follows the speed
of the last `SetMotorValues` that it has handled, and both use the gains of the last
`SetPidValues` that it has handled. -/
theorem settings_in_force (t : Target) (imu : Bool) (leftMove rightMove : Int)
    (acts : List Link.Action) (l : Link) (out : List (Outcome Call Byte Counts))
    (hrun : Steps.run (Link.step t) (Link.initial (setup t imu leftMove rightMove)) acts =
      some (l, out))
    (app : App) (hf : l.firmware = some app) (side : Side) :
    ((app.channel side).pid.enabled = true →
      (((calls acts).take l.handled).filterMap (Call.setpoint t side)).getLast? =
        some (app.channel side).pid.setpoint) ∧
    (app.channel side).pid.gains =
      (((calls acts).take l.handled).filterMap (Call.gains t)).getLast?.getD ⟨30, 10, 0, 10⟩ := by
  have h := delivered_run hrun hf
  obtain ⟨_, hr⟩ := h.run
  refine ⟨h.setpoint side, ?_⟩
  rw [← h.last (gainsOrder t side) (orderedGains_invocation t)]
  exact gains_in_force hr side

theorem settings_in_force_late :
    ∃ l out app, Steps.run (Link.step (avr fun _ => 0))
        (Link.initial (setup (avr fun _ => 0) false 0 0)) late = some (l, out) ∧
      l.firmware = some app ∧ app.rightPid.enabled = true ∧ app.rightPid.setpoint = -3 := by
  have hany : (Steps.run (Link.step (avr fun _ => 0))
      (Link.initial (setup (avr fun _ => 0) false 0 0)) late).any
      (fun r => r.1.handled = 1 ∧ r.1.firmware.any (fun app => app.rightPid.enabled) = true) =
      true := by decide +kernel
  obtain ⟨⟨l, out⟩, hr, hp⟩ := Option.any_eq_true _ _ |>.mp hany
  obtain ⟨hone, hany⟩ := of_decide_eq_true hp
  obtain ⟨app, hf, hen⟩ := Option.any_eq_true _ _ |>.mp hany
  have hset := (settings_in_force (avr fun _ => 0) false 0 0 late l out hr app hf .right).1 hen
  rw [hone] at hset
  exact ⟨l, out, app, hr, hf, hen, (Option.some.inj hset).symm⟩

/-- At any time of any run at which the firmware runs, whatever is on the line or was given up,
and whatever the wheels do: the robot is at rest if the firmware has handled no
`SetMotorValues` yet, or if the last one it has handled asks for two zeros. -/
theorem host_stop (t : Target) (imu : Bool) (leftMove rightMove : Int)
    (acts : List Link.Action) (l : Link) (out : List (Outcome Call Byte Counts))
    (hrun : Steps.run (Link.step t) (Link.initial (setup t imu leftMove rightMove)) acts =
      some (l, out))
    (app : App) (hf : l.firmware = some app)
    (hlast : (((calls acts).take l.handled).filterMap (Call.stands t)).getLast? ≠ some false)
    (side : Side) : (app.channel side).AtRest := by
  have h := delivered_run hrun hf
  obtain ⟨_, hr⟩ := h.run
  apply rest_in_force hr side
  rw [h.last (standsOrder t side) (orderedStands_invocation t side)]
  exact hlast

theorem fits_zero : Fits 32 0 := by decide

/-- A robot that drives is told to stop, and a request is still under way. -/
def halting : List Link.Action :=
  [.call (.setMotorValues ⟨400, by decide⟩ ⟨-400, by decide⟩)] ++
    List.replicate 11 (.byte (Env.quiet 5)) ++ [.pid ⟨40, 40, 3, -3⟩, .timeout,
      .call (.setMotorValues ⟨0, fits_zero⟩ ⟨0, fits_zero⟩), .timeout, .call .readEncoderValues] ++
    List.replicate 6 (.byte (Env.quiet 50)) ++ [.pid ⟨90, 90, 3, -3⟩]

theorem host_stop_halting :
    ∃ l out app, Steps.run (Link.step (avr fun _ => 0))
        (Link.initial (setup (avr fun _ => 0) false 0 0)) halting = some (l, out) ∧
      l.handled = 2 ∧ l.firmware = some app ∧ ∀ side, (app.channel side).AtRest := by
  have hany : (Steps.run (Link.step (avr fun _ => 0))
      (Link.initial (setup (avr fun _ => 0) false 0 0)) halting).any
      (fun r => r.1.handled = 2 ∧ r.1.firmware.isSome = true) = true := by decide +kernel
  obtain ⟨⟨l, out⟩, hr, hp⟩ := Option.any_eq_true _ _ |>.mp hany
  obtain ⟨htwo, hsome⟩ := of_decide_eq_true hp
  obtain ⟨app, hf⟩ := Option.isSome_iff_exists.mp hsome
  exact ⟨l, out, app, hr, htwo, hf, host_stop (avr fun _ => 0) false 0 0 halting l out hr app hf
    (by rw [htwo]; decide)⟩

/-- A motor command is a call, made by a carriage return. -/
theorem driveTime_event (t : Target) {app : App} {a : App.Action} {τ : Nat}
    (h : (app.event t a).driveTime = some τ) :
    ∃ env i, a = .byte CR env ∧ app.invocation (.byte CR env) = some i ∧ τ = env.now := by
  cases a with
  | byte c env =>
    cases hi : (app.shell.processByte env.nullEq c).2 with
    | none => exact absurd h (by simp [event, hi, Event.driveTime])
    | some i =>
      obtain rfl : c = CR := Shell.processByte_eq_some hi
      refine ⟨env, i, rfl, hi, ?_⟩
      rcases event_byte_cases t app CR env with ⟨l, r, he⟩ | ⟨l, r, he⟩ | ⟨s, he⟩ | he
      · rw [he] at h
        exact (Option.some.inj h).symm
      · rw [he] at h
        exact (Option.some.inj h).symm
      · rw [he] at h
        exact absurd h (by simp [Event.driveTime])
      · rw [he] at h
        exact absurd h (by simp [Event.driveTime])
  | pid e =>
    rw [event] at h
    split at h <;> exact absurd h (by simp [Event.driveTime])
  | autoStop e =>
    rw [event] at h
    split at h <;> exact absurd h (by simp [Event.driveTime])

/-- With a clock that never goes back and auto-stop checks less than `2 ^ 31` ms apart: a robot
that moves behind an auto-stop check has handled a `SetMotorValues` of the host at most the
window before. One that has heard nothing for longer is at rest, whatever is still on the
line. -/
theorem host_silence (t : Target) (imu : Bool) (leftMove rightMove : Int)
    (acts : List Link.Action) (e : StopEnv) (l : Link) (out : List (Outcome Call Byte Counts))
    (app : App) (hrun : Steps.run (Link.step t) (Link.initial (setup t imu leftMove rightMove))
      (acts ++ [.autoStop e]) = some (l, out))
    (htime : Timely 0 0 (Link.firmwareActions t (Link.initial (setup t imu leftMove rightMove))
      acts ++ [.autoStop e]))
    (hf : l.firmware = some app)
    (hmove : app.leftMotor.Active ∨ app.rightMotor.Active ∨ app.leftPid.enabled = true ∨
      app.rightPid.enabled = true) :
    ∃ (before after : List App.Action) (env : Env) (mid : App) (out' : List Byte)
      (val1 val2 : HostInt),
      Link.firmwareActions t (Link.initial (setup t imu leftMove rightMove)) acts =
        before ++ .byte CR env :: after ∧
      Steps.run (App.step t) (setup t imu leftMove rightMove) before = some (mid, out') ∧
      mid.invocation (.byte CR env) = some (Call.setMotorValues val1 val2).invocation ∧
      .setMotorValues val1 val2 ∈ calls acts ∧
      env.now ≤ e.check ∧ e.check ≤ env.now + Constants.kAutoStopWindow := by
  obtain ⟨mid, o₁, o₂, h₁, h₂, -⟩ := Steps.run_append_eq_some hrun
  rw [Steps.run_singleton] at h₂
  obtain ⟨u, hu⟩ : ∃ u, mid.firmware = some u := by
    cases hmid : mid.firmware with
    | none => exact absurd h₂ (by simp [Link.step, hmid])
    | some u => exact ⟨u, rfl⟩
  obtain ⟨-, ⟨out', hr⟩, -, hi, -⟩ := delivered_run h₁ hu
  obtain ⟨now, last, ⟨ht₁, ht₂, ht₃, -⟩, hw⟩ :=
    watched_run t htime (watched_setup t imu leftMove rightMove) hr
  simp only [Link.step, hu, Option.map_some, Option.some.injEq, Prod.mk.injEq] at h₂
  obtain rfl : u.autoStopTask t e = app := by
    rw [← h₂.1] at hf
    exact Option.some.inj hf
  obtain ⟨ev, hmem, τ, hτ, hlo, hhi⟩ := (watched_autoStop t hw ht₁ ht₂ ht₃).2 hmove
  -- the event is that of a call, and the calls are those of the host
  obtain ⟨before, a, after, v, o, hsplit, hv, rfl⟩ := Steps.mem_labels hmem
  obtain ⟨env, i, rfl, hinv, rfl⟩ := driveTime_event t hτ
  have hcalled : i ∈ ((calls acts).take mid.handled).map Call.invocation := by
    rw [← hi, hsplit]
    exact List.mem_filterMap.mpr ⟨some i, hinv ▸ Steps.label_mem invocation hv _ _, rfl⟩
  obtain ⟨c, hc, rfl⟩ := List.mem_map.mp hcalled
  cases c with
  | setMotorValues val1 val2 =>
    exact ⟨before, after, env, v, o, val1, val2, hsplit, hv, hinv, List.mem_of_mem_take hc, hlo, hhi⟩
  | readEncoderValues | setPidValues =>
    rw [event_of_invocation t hinv] at hτ
    exact absurd hτ (by simp [Call.invocation, invocationEvent, Event.driveTime])

theorem host_silence_late :
    ∃ (l : Link) (out : List (Outcome Call Byte Counts)) (app : App) (env : Env)
      (val1 val2 : HostInt),
      Steps.run (Link.step (avr fun _ => 0)) (Link.initial (setup (avr fun _ => 0) false 0 0))
        (late ++ [.autoStop ⟨3005, 3005⟩]) = some (l, out) ∧
      l.firmware = some app ∧ .setMotorValues val1 val2 ∈ calls late ∧
      3005 ≤ env.now + Constants.kAutoStopWindow := by
  have hany : (Steps.run (Link.step (avr fun _ => 0))
      (Link.initial (setup (avr fun _ => 0) false 0 0)) (late ++ [.autoStop ⟨3005, 3005⟩])).any
      (fun r => r.1.firmware.any (fun app => app.leftPid.enabled)) = true := by decide +kernel
  obtain ⟨⟨l, out⟩, hr, hp⟩ := Option.any_eq_true _ _ |>.mp hany
  obtain ⟨app, hf, hen⟩ := Option.any_eq_true _ _ |>.mp hp
  obtain ⟨-, -, env, -, -, val1, val2, -, -, -, hmem, -, hwin⟩ :=
    host_silence (avr fun _ => 0) false 0 0 late ⟨3005, 3005⟩ l out app hr (by decide +kernel) hf (.inr (.inr (.inl hen)))
  exact ⟨l, out, app, env, val1, val2, hr, hf, hmem, hwin⟩

end AndinoBase
