import Andino.System.Lag
import Andino.System.Delivery

/-!
# Calls come back

As long as the host reads counts and sets speeds only, a call is answered for certain,
whatever has been lost before: the firmware takes one byte after the other until the line is
empty, and then there are more lines on the way back than reads that have got one. So a read
that is not given up completes, and the host never waits for a line that does not come.
-/
namespace AndinoBase

open CArith CString Decimal AndinoFirmware AndinoFirmware.App
open LineRpc (Origin Outcome)

/-- The actions of the firmware. -/
def Link.Action.OnBoard : Link.Action → Bool
  | .byte _ => true
  | .pid _ => true
  | .autoStop _ => true
  | .call _ => false
  | .receive => false
  | .timeout => false

/-- How many bytes an action takes from the line. -/
def Link.Action.taken : Link.Action → Nat
  | .byte _ => 1
  | .pid _ => 0
  | .autoStop _ => 0
  | .call _ => 0
  | .receive => 0
  | .timeout => 0

variable {t : Target}

/-- The firmware can go on as long as the line has the bytes for it. -/
theorem step_onBoard {l : Link} {app : App} (hf : l.firmware = some app) {a : Link.Action}
    (ha : a.OnBoard = true) (hdown : a.taken ≤ l.down.length) :
    ∃ l', l.step t a = some (l', []) ∧ l'.host = l.host ∧ l'.sent = l.sent ∧
      l'.down.length + a.taken = l.down.length := by
  obtain ⟨host, down, up, f, sent, handled⟩ := l
  obtain rfl : f = some app := hf
  cases a with
  | byte env =>
    cases down with
    | nil => exact absurd hdown (by simp [Link.Action.taken])
    | cons c down =>
      simp only [Link.step, Link.firmwareByte]
      cases App.step t app (.byte c env) with
      | none => exact ⟨_, rfl, rfl, rfl, rfl⟩
      | some p => exact ⟨_, rfl, rfl, rfl, rfl⟩
  | pid e => exact ⟨_, rfl, rfl, rfl, rfl⟩
  | autoStop e => exact ⟨_, rfl, rfl, rfl, rfl⟩
  | call c => exact absurd ha Bool.false_ne_true
  | receive => exact absurd ha Bool.false_ne_true
  | timeout => exact absurd ha Bool.false_ne_true

theorem calls_onBoard {as : List Link.Action} (h : ∀ a ∈ as, a.OnBoard = true) :
    calls as = [] := by
  induction as with
  | nil => rfl
  | cons a as ih =>
    have hrest := ih (fun b hb => h b (List.mem_cons_of_mem _ hb))
    have ha := h a List.mem_cons_self
    cases a with
    | call c => exact absurd ha Bool.false_ne_true
    | _ => exact hrest

/-- The bytes that are on the line go away one by one, with any tasks in between. -/
theorem run_onBoard {imu : Bool} {leftMove rightMove : Int} {acts as : List Link.Action} {l : Link}
    {out : List (Outcome Call Byte Counts)} (hfit : ∀ c ∈ calls acts, c.Fitting)
    (hrun : Steps.run (Link.step t) (Link.initial (setup t imu leftMove rightMove)) acts =
      some (l, out))
    (has : ∀ a ∈ as, a.OnBoard = true)
    (htaken : (as.map Link.Action.taken).sum ≤ l.down.length) :
    ∃ l', Steps.run (Link.step t) l as = some (l', []) ∧ l'.host = l.host ∧ l'.sent = l.sent ∧
      l'.down.length + (as.map Link.Action.taken).sum = l.down.length := by
  induction as generalizing acts l out with
  | nil => exact ⟨l, rfl, rfl, rfl, rfl⟩
  | cons a as ih =>
    rw [List.map_cons, List.sum_cons] at htaken ⊢
    have ha := has a List.mem_cons_self
    obtain ⟨app, hf⟩ := exists_firmware hfit hrun
    obtain ⟨l₁, hs, hhost, hsent, hlength⟩ :=
      step_onBoard (t := t) hf ha (by omega)
    have hcalls : calls (acts ++ [a]) = calls acts := by
      have hone : calls [a] = [] := calls_onBoard (List.forall_mem_singleton.mpr ha)
      rw [calls_append, hone, List.append_nil]
    obtain ⟨l', hr, hhost', hsent', hlength'⟩ := ih (hcalls ▸ hfit)
      (Steps.run_join hrun (Steps.run_step hs (Steps.run_nil _ _)))
      (fun b hb => has b (List.mem_cons_of_mem _ hb)) (by omega)
    exact ⟨l', Steps.run_step hs hr, hhost'.trans hhost, hsent'.trans hsent, by omega⟩

/-- A line on the way back is enough for the read that waits. -/
theorem run_receive_line {up : List (Byte × Origin Counts)} (hup : ∃ b ∈ up, b.1 = LF) {l : Link}
    {c : Call} {line : List (Byte × Origin Counts)} (hh : l.host = some (c, line))
    (hu : l.up = up) :
    ∃ k l' line', Steps.run (Link.step t) l (List.replicate k .receive) =
      some (l', [⟨l.sent, c, line', true⟩]) := by
  induction up generalizing l line with
  | nil => exact absurd hup (by simp)
  | cons b up ih =>
    by_cases hb : b.1 = LF
    · have hs : l.step t .receive =
          some ({ l with host := none, up := up }, [⟨l.sent, c, line ++ [b], true⟩]) := by
        simp only [Link.step, Link.receiveByte, hh, hu, if_pos hb]
      exact ⟨1, _, _, (Steps.run_singleton _ _ _).trans hs⟩
    · have hs : l.step t .receive =
          some ({ l with host := some (c, line ++ [b]), up := up }, []) := by
        simp only [Link.step, Link.receiveByte, hh, hu, if_neg hb]
      have hrest : ∃ b' ∈ up, b'.1 = LF := by
        obtain ⟨b', hmem, hlf⟩ := hup
        rcases List.mem_cons.mp hmem with rfl | hmem
        · exact absurd hlf hb
        · exact ⟨b', hmem, hlf⟩
      obtain ⟨k, l', line', hr⟩ :=
        ih hrest (l := { l with host := some (c, line ++ [b]), up := up }) rfl rfl
      exact ⟨k + 1, l', line', Steps.run_step hs hr⟩

/-- With nothing left on the line there is a reply for the call that waits. -/
theorem reply_pending {zeroQuot : Int → Int} {imu : Bool} {leftMove rightMove : Int}
    {acts : List Link.Action} {l : Link} {out : List (Outcome Call Byte Counts)}
    (hone : ∀ a ∈ acts, a.OneLine)
    (hrun : Steps.run (Link.step (avr zeroQuot))
      (Link.initial (setup (avr zeroQuot) imu leftMove rightMove)) acts = some (l, out))
    (hdown : l.down = []) (hwait : l.host.isSome = true) : ∃ b ∈ l.up, b.1 = LF := by
  obtain ⟨s, hs, hrep⟩ := link_run hone hrun
  obtain ⟨hsent, hhandled, ⟨n, hunread, hn⟩, -⟩ := hs.counted
  have hqueue : s.queue = [] := by
    obtain ⟨app, -, w, -, hw, hflight⟩ := hrep.inFlight
    rw [hdown, List.append_nil] at hflight
    cases hq : s.queue with
    | nil => rfl
    | cons c queue =>
      rw [hq, msgToSend_split] at hflight
      exact absurd (by rw [hflight]; simp) hw
  rw [hrep.host] at hwait
  have hdone : LineRpc.done out ≤ out.length := List.countP_le_length
  rw [hqueue, List.length_nil] at hhandled
  rw [if_pos hwait] at hsent
  have hpos : 0 < n := by omega
  have hne : LineRpc.terminators server s.replies ≠ [] := by
    rw [hunread]
    exact fun h => absurd (List.range'_eq_nil_iff.mp h) (Nat.ne_of_gt hpos)
  obtain ⟨x, hx⟩ := List.exists_mem_of_ne_nil _ hne
  obtain ⟨b, hb, -⟩ := List.mem_map.mp hx
  obtain ⟨hmem, hlf⟩ := List.mem_filter.mp hb
  exact ⟨b, hrep.up ▸ hmem, of_decide_eq_true hlf⟩

/-- In a run of calls that are answered by one line, however many reads were given up and
whatever the firmware does meanwhile: once it has taken the bytes on the line, the read that
waits completes. -/
theorem answer_comes (zeroQuot : Int → Int) (imu : Bool) (leftMove rightMove : Int)
    (acts : List Link.Action) (l : Link) (out : List (Outcome Call Byte Counts))
    (hone : ∀ a ∈ acts, a.OneLine)
    (hrun : Steps.run (Link.step (avr zeroQuot))
      (Link.initial (setup (avr zeroQuot) imu leftMove rightMove)) acts = some (l, out))
    (c : Call) (line : List (Byte × Origin Counts)) (hwait : l.host = some (c, line))
    (as : List Link.Action) (has : ∀ a ∈ as, a.OnBoard = true)
    (htaken : (as.map Link.Action.taken).sum = l.down.length) :
    ∃ k l' line', Steps.run (Link.step (avr zeroQuot)) l (as ++ List.replicate k .receive) =
      some (l', [⟨l.sent, c, line', true⟩]) := by
  obtain ⟨l₁, hr₁, hhost, hsent, hlength⟩ :=
    run_onBoard (fitting_of_oneLine hone) hrun has (Nat.le_of_eq htaken)
  have hempty : l₁.down = [] := List.length_eq_zero_iff.mp (by omega)
  have hone₁ : ∀ a ∈ acts ++ as, a.OneLine := by
    intro a ha
    rcases List.mem_append.mp ha with ha | ha
    · exact hone a ha
    · have hboard := has a ha
      cases a with
      | call c => exact absurd hboard Bool.false_ne_true
      | _ => trivial
  have hreply := reply_pending hone₁ (Steps.run_join hrun hr₁) hempty
    (by rw [hhost, hwait]; rfl)
  obtain ⟨k, l', line', hr⟩ := run_receive_line hreply (hhost.trans hwait) rfl
  refine ⟨k, l', line', ?_⟩
  rw [← hsent]
  exact Steps.run_join hr₁ hr

/-- A request that was given up, and one that waits. -/
def twiceAsked : List Link.Action :=
  [.call .readEncoderValues, .timeout, .call .readEncoderValues]

theorem answer_comes_asking :
    ∃ l out k l' line', Steps.run (Link.step (avr fun _ => 0))
        (Link.initial (setup (avr fun _ => 0) false 0 0)) twiceAsked = some (l, out) ∧
      Steps.run (Link.step (avr fun _ => 0)) l
        ([.byte (Env.quiet 1), .pid ⟨40, 40, 7, 7⟩] ++ List.replicate 3 (.byte (Env.quiet 41)) ++
          List.replicate k .receive) =
        some (l', [⟨2, .readEncoderValues, line', true⟩]) := by
  have hany : (Steps.run (Link.step (avr fun _ => 0))
      (Link.initial (setup (avr fun _ => 0) false 0 0)) twiceAsked).any
      (fun r => r.1.host = some (.readEncoderValues, []) ∧ r.1.down.length = 4 ∧ r.1.sent = 2) =
      true := by decide +kernel
  obtain ⟨⟨l, out⟩, hr, hp⟩ := Option.any_eq_true _ _ |>.mp hany
  obtain ⟨hhost, hdown, hsent⟩ := of_decide_eq_true hp
  obtain ⟨k, l', line', hanswer⟩ := answer_comes (fun _ => 0) false 0 0 twiceAsked l out
    (by simp [twiceAsked, Link.Action.OneLine, Call.OneLine]) hr _ [] hhost
    ([.byte (Env.quiet 1), .pid ⟨40, 40, 7, 7⟩] ++ List.replicate 3 (.byte (Env.quiet 41)))
    (by simp [Link.Action.OnBoard]) (by rw [hdown]; rfl)
  rw [hsent] at hanswer
  exact ⟨l, out, k, l', line', hr, hanswer⟩

end AndinoBase
