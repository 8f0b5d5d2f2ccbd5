import Andino.System.Link

/-!
# Requests and replies

Whether a line that the host reads is the reply to its own request. Over calls
that are answered by one line and without timeouts it always is. `SetPidValues`
is answered by two lines and leaves one behind; a timeout leaves the whole late
reply behind, since `SendMsg` never discards input. In both cases every later
read is one line late.
-/
namespace AndinoBase

open CArith CString Decimal AndinoFirmware AndinoFirmware.App
open LineRpc (Origin Outcome Own)

/-- The line is the reply to this very request, and it is read as the counts that
the firmware held when it handled the request. -/
def EncodersRead (r : Outcome Call Byte Counts) : Prop :=
  ∃ counts, r.line = LineRpc.tagged ⟨r.number, counts⟩
      (decimal counts.1 ++ SP :: (decimal counts.2 ++ [CR, LF])) ∧
    MotorDriver.encoderValues (r.line.map Prod.fst) = counts

theorem tagged_fst (o : Origin Counts) (l : List Byte) :
    (LineRpc.tagged o l).map Prod.fst = l := by
  simp [LineRpc.tagged, Function.comp_def]

/-- For `ReadEncoderValues`, the whole reply to its own request is these counts. -/
theorem own_iff_encodersRead {r : Outcome Call Byte Counts} (hr : r.request = .readEncoderValues) :
    Own server r ↔ EncodersRead r := by
  have happ : ∀ counts : Counts, (decimal counts.1 ++ SP :: (decimal counts.2 ++ [CR])) ++ [LF] =
      decimal counts.1 ++ SP :: (decimal counts.2 ++ [CR, LF]) := by
    intro counts
    simp
  constructor
  · rintro ⟨counts, body, hans, hline⟩
    rw [hr] at hans
    obtain ⟨rfl, hl, hrr⟩ := hans
    have hline' : r.line = LineRpc.tagged ⟨r.number, counts⟩
        (decimal counts.1 ++ SP :: (decimal counts.2 ++ [CR, LF])) := hline.trans (by rw [← happ]; rfl)
    refine ⟨counts, hline', ?_⟩
    rw [hline', tagged_fst]
    exact encoderValues_counts hl hrr
  · rintro ⟨counts, hline, hval⟩
    refine ⟨counts, _, ?_, hline.trans (by rw [← happ]; rfl)⟩
    rw [hr]
    refine ⟨rfl, ?_, ?_⟩
    · rw [← hval]
      exact MotorDriver.atoi_fits _
    · rw [← hval]
      exact MotorDriver.atoi_fits _

/-- Over any run of `SetMotorValues` and `ReadEncoderValues` calls with any delays
and timeouts: a completed `ReadEncoderValues` reads the reply to its own request
if and only if no call before it has timed out. -/
theorem own_reply_iff_no_timeout (zeroQuot : Int → Int) (imu : Bool) (leftMove rightMove : Int)
    (acts : List Link.Action) (l : Link) (out : List (Outcome Call Byte Counts))
    (hone : ∀ a ∈ acts, a.OneLine)
    (hrun : Steps.run (Link.step (avr zeroQuot))
      (Link.initial (setup (avr zeroQuot) imu leftMove rightMove)) acts = some (l, out))
    (pre post : List (Outcome Call Byte Counts)) (r : Outcome Call Byte Counts)
    (hout : out = pre ++ r :: post) (hcall : r.request = .readEncoderValues)
    (hcomplete : r.complete = true) :
    EncodersRead r ↔ ∀ q ∈ pre, q.complete = true := by
  obtain ⟨s, hs, -⟩ := link_run hone hrun
  rw [← own_iff_encodersRead hcall]
  exact hs.own_iff hout hcomplete

/-- A prompt reply is read as the counts of its request. -/
theorem own_reply_prompt :
    ∃ l r, Steps.run (Link.step (avr fun _ => 0)) (Link.initial (setup (avr fun _ => 0) false 0 0))
        (.call .readEncoderValues ::
          List.replicate 2 (.byte { Env.quiet 0 with leftMove := 21, rightMove := -3 }) ++
          List.replicate 7 .receive) = some (l, [r]) ∧
      EncodersRead r := by
  have hrun : (Steps.run (Link.step (avr fun _ => 0))
      (Link.initial (setup (avr fun _ => 0) false 0 0))
      (.call .readEncoderValues ::
        List.replicate 2 (.byte { Env.quiet 0 with leftMove := 21, rightMove := -3 }) ++
        List.replicate 7 .receive)).map Prod.snd =
      some [⟨1, .readEncoderValues, LineRpc.tagged ⟨1, (42, -6)⟩ (ascii "42 -6\r\n"), true⟩] := by
    decide +kernel
  obtain ⟨⟨l, out⟩, hr, hout⟩ := Option.map_eq_some_iff.mp hrun
  subst hout
  refine ⟨l, _, hr, ?_⟩
  exact (own_reply_iff_no_timeout (fun _ => 0) false 0 0 _ l _
    (by simp [Link.Action.OneLine, Call.OneLine]) hr [] [] _ rfl rfl rfl).mpr (by simp)

/-- After an `m` that timed out, `e` reads the late `OK`. -/
theorem late_reply_read_as_counts :
    ∃ l r r', Steps.run (Link.step (avr fun _ => 0))
        (Link.initial (setup (avr fun _ => 0) false 0 0))
        ([.call (.setMotorValues ⟨0, by decide⟩ ⟨0, by decide⟩), .timeout, .call .readEncoderValues] ++
          List.replicate 8 (.byte (Env.quiet 0)) ++ List.replicate 4 .receive) =
        some (l, [r, r']) ∧
      r'.request = .readEncoderValues ∧ r'.complete = true ∧ ¬ EncodersRead r' := by
  have hrun : (Steps.run (Link.step (avr fun _ => 0))
      (Link.initial (setup (avr fun _ => 0) false 0 0))
      ([.call (.setMotorValues ⟨0, by decide⟩ ⟨0, by decide⟩), .timeout, .call .readEncoderValues] ++
        List.replicate 8 (.byte (Env.quiet 0)) ++ List.replicate 4 .receive)).map Prod.snd =
      some [⟨1, .setMotorValues ⟨0, by decide⟩ ⟨0, by decide⟩, [], false⟩,
        ⟨2, .readEncoderValues, LineRpc.tagged ⟨1, (0, 0)⟩ (ascii "OK\r\n"), true⟩] := by
    decide +kernel
  obtain ⟨⟨l, out⟩, hr, hout⟩ := Option.map_eq_some_iff.mp hrun
  subst hout
  refine ⟨l, _, _, hr, rfl, rfl, ?_⟩
  rintro ⟨counts, hline, -⟩
  have hmem : ∀ b ∈ LineRpc.tagged (⟨1, (0, 0)⟩ : Origin Counts) (ascii "OK\r\n"),
      b.2.request = 2 := by
    intro b hb
    dsimp only at hline
    rw [hline] at hb
    obtain ⟨c, -, rfl⟩ := List.mem_map.mp hb
    rfl
  exact absurd hmem (by decide)

/-! ## Loss-free runs -/

/-- The calls among the actions. -/
def calls : List Link.Action → List Call
  | [] => []
  | .call c :: as => c :: calls as
  | .byte _ :: as => calls as
  | .pid _ :: as => calls as
  | .autoStop _ :: as => calls as
  | .receive :: as => calls as
  | .timeout :: as => calls as

theorem calls_append (as bs : List Link.Action) : calls (as ++ bs) = calls as ++ calls bs := by
  induction as with
  | nil => rfl
  | cons a as ih => cases a <;> simp [calls, ih]

theorem mem_calls {c : Call} {as : List Link.Action} (h : .call c ∈ as) : c ∈ calls as := by
  induction as with
  | nil => exact absurd h (by simp)
  | cons a as ih =>
    rcases List.mem_cons.mp h with rfl | hm
    · exact List.mem_cons_self
    · cases a with
      | call c' => exact List.mem_cons_of_mem _ (ih hm)
      | _ => exact ih hm

/-- Every line read so far is the reply to its own call, `ReadEncoderValues` has
returned the counts of its request, no line is unread between two calls, and the
firmware has kept to its memory. -/
structure Paired (l : Link) (out : List (Outcome Call Byte Counts)) : Prop where
  own : ∀ r ∈ out, ∀ b ∈ r.line, b.2.request = r.number
  encoders : ∀ r ∈ out, r.request = .readEncoderValues → EncodersRead r
  read : l.host = none → l.up = []
  alive : l.firmware.isSome = true

theorem step_complete {t : Target} {l l' : Link} {a : Link.Action}
    {o : List (Outcome Call Byte Counts)} (ha : a ≠ .timeout) (hs : l.step t a = some (l', o)) :
    ∀ r ∈ o, r.complete = true := by
  cases a with
  | timeout => exact absurd rfl ha
  | call c =>
    simp only [Link.step, Link.sendMsg] at hs
    split at hs
    · exact absurd hs (by simp)
    · simp only [Option.some.injEq, Prod.mk.injEq] at hs
      simp [← hs.2]
  | byte env =>
    simp only [Link.step, Link.firmwareByte] at hs
    split at hs
    · split at hs
      · simp only [Option.some.injEq, Prod.mk.injEq] at hs
        simp [← hs.2]
      · simp only [Option.some.injEq, Prod.mk.injEq] at hs
        simp [← hs.2]
    · exact absurd hs (by simp)
  | pid e | autoStop e =>
    simp only [Link.step] at hs
    obtain ⟨app, -, hs⟩ := Option.map_eq_some_iff.mp hs
    simp [← (Prod.mk.inj hs).2]
  | receive =>
    simp only [Link.step, Link.receiveByte] at hs
    split at hs
    · split at hs
      · simp only [Option.some.injEq, Prod.mk.injEq] at hs
        simp [← hs.2]
      · simp only [Option.some.injEq, Prod.mk.injEq] at hs
        simp [← hs.2]
    · exact absurd hs (by simp)

/-- Without a timeout every read is completed. -/
theorem run_complete {t : Target} {l₀ l : Link} {acts : List Link.Action}
    {out : List (Outcome Call Byte Counts)} (hto : .timeout ∉ acts)
    (hr : Steps.run (Link.step t) l₀ acts = some (l, out)) : ∀ r ∈ out, r.complete = true := by
  refine Steps.run_history (fun _ _ => ())
    (fun as _ _ out => .timeout ∉ as → ∀ r ∈ out, r.complete = true) (by simp) ?_ hr hto
  intro as _ l out a l' o ih hs hto r hr
  rcases List.mem_append.mp hr with hr | hr
  · exact ih (fun h => hto (List.mem_append_left _ h)) r hr
  · exact step_complete (fun h => hto (by rw [h]; simp)) hs r hr

/-- Runs of one-line calls without a timeout are paired. -/
theorem paired_run {zeroQuot : Int → Int} {imu : Bool} {leftMove rightMove : Int}
    {acts : List Link.Action} {l : Link} {out : List (Outcome Call Byte Counts)}
    (hone : ∀ c ∈ calls acts, c.OneLine) (hto : .timeout ∉ acts)
    (hr : Steps.run (Link.step (avr zeroQuot))
      (Link.initial (setup (avr zeroQuot) imu leftMove rightMove)) acts = some (l, out)) :
    Paired l out := by
  have hall := run_complete hto hr
  have hacts : ∀ a ∈ acts, a.OneLine := by
    intro a ha
    cases a with
    | call c => exact hone c (mem_calls ha)
    | _ => trivial
  obtain ⟨s, hs, hrep⟩ := link_run hacts hr
  have hown : ∀ r ∈ out, Own server r := by
    intro r hr
    obtain ⟨pre, post, hsplit⟩ := List.append_of_mem hr
    exact (hs.own_iff hsplit (hall r hr)).mpr
      (fun q hq => hall q (by rw [hsplit]; exact List.mem_append_left _ hq))
  refine ⟨?_, ?_, ?_, ?_⟩
  · intro r hr b hb
    obtain ⟨i, body, -, hline⟩ := hown r hr
    rw [hline] at hb
    obtain ⟨c, -, rfl⟩ := List.mem_map.mp hb
    rfl
  · exact fun r hr hcall => (own_iff_encodersRead hcall).mp (hown r hr)
  · intro hhost
    rw [hrep.host] at hhost
    rw [hrep.up]
    cases hs.synced.phase hall with
    | idle => rfl
    | sent => exact absurd hhost (by simp)
    | answered => exact absurd hhost (by simp)
  · obtain ⟨app, happ, -⟩ := hrep.inFlight
    rw [happ]
    rfl

/-! ## A prompt exchange -/

/-- Nothing is under way. -/
structure Idle (l : Link) : Prop where
  host : l.host = none
  down : l.down = []
  up : l.up = []
  ready : ∃ app, l.firmware = some app ∧ app.Ready []

/-- A byte that the firmware handles. -/
theorem step_byte {t : Target} {l : Link} {app app' : App} {c : Byte} {down out : List Byte}
    {env : Env} (hf : l.firmware = some app) (hd : l.down = c :: down)
    (hs : App.step t app (.byte c env) = some (app', out)) :
    ∃ l' o, l.step t (.byte env) = some (l', []) ∧ l'.host = l.host ∧
      l'.up = l.up ++ LineRpc.tagged o out ∧ l'.down = down ∧ l'.firmware = some app' := by
  refine ⟨{ l with
    firmware := some app'
    down := down
    up := l.up ++ LineRpc.tagged
      ⟨l.handled + 1, (app'.leftEncoder.read, app'.rightEncoder.read)⟩ out
    handled := l.handled + if c = CR then 1 else 0 }, _, ?_, rfl, rfl, rfl, rfl⟩
  simp only [Link.step, Link.firmwareByte, hf, hd, hs]

/-- The firmware takes in a text without line ends. -/
theorem run_bytes (t : Target) (env : Env) (d rest : List Byte) (hplain : ∀ c ∈ d, c ≠ CR ∧ c ≠ LF)
    {l : Link} {app : App} {w : List Byte} (hf : l.firmware = some app) (hr : app.Ready w)
    (hd : l.down = d ++ rest) (hlen : (w ++ d).length < Shell.kCommandPromptLengthMax) :
    ∃ l' app', Steps.run (Link.step t) l (List.replicate d.length (.byte env)) = some (l', []) ∧
      l'.host = l.host ∧ l'.up = l.up ∧ l'.down = rest ∧ l'.firmware = some app' ∧
      app'.Ready (w ++ d) := by
  induction d generalizing l app w with
  | nil => exact ⟨l, app, rfl, rfl, rfl, hd, hf, by simpa using hr⟩
  | cons c d ih =>
    obtain ⟨hcr, hlf⟩ := hplain c List.mem_cons_self
    rw [List.append_cons] at hlen ⊢
    have hw : w.length + 1 < Shell.kCommandPromptLengthMax := by
      simp only [List.length_append, List.length_singleton] at hlen
      omega
    obtain ⟨shell, hs, hready, -⟩ := step_store t env hr hw hcr hlf
    obtain ⟨l₁, o, hstep, e₁, e₂, e₃, e₄⟩ := step_byte hf hd hs
    obtain ⟨l', app', hrun, h₁, h₂, h₃, h₄, h₅⟩ :=
      ih (fun b hb => hplain b (List.mem_cons_of_mem _ hb)) e₄ hready e₃ hlen
    refine ⟨l', app', Steps.run_step hstep hrun, h₁.trans e₁, ?_, h₃, h₄, h₅⟩
    rw [h₂, e₂]
    simp [LineRpc.tagged]

/-- The host reads up to the first line feed. -/
theorem run_receive (t : Target) (o : Origin Counts) (body : List Byte)
    (rest : List (Byte × Origin Counts)) (hbody : LF ∉ body) {l : Link} {c : Call}
    {line : List (Byte × Origin Counts)} (hh : l.host = some (c, line))
    (hu : l.up = LineRpc.tagged o body ++ (LF, o) :: rest) :
    ∃ l' out, Steps.run (Link.step t) l (List.replicate (body.length + 1) .receive) =
        some (l', out) ∧
      l'.host = none ∧ l'.up = rest ∧ l'.down = l.down ∧ l'.firmware = l.firmware := by
  induction body generalizing l line with
  | nil =>
    have hstep : l.step t .receive =
        some ({ l with host := none, up := rest }, [⟨l.sent, c, line ++ [(LF, o)], true⟩]) := by
      simp [Link.step, Link.receiveByte, hh, hu, LineRpc.tagged]
    exact ⟨_, _, Steps.run_step hstep (Steps.run_nil _ _), rfl, rfl, rfl, rfl⟩
  | cons b body ih =>
    have hb : b ≠ LF := fun h => hbody (by simp [h])
    have hstep : ∃ l₁, l.step t .receive = some (l₁, []) ∧ l₁.host = some (c, line ++ [(b, o)]) ∧
        l₁.up = LineRpc.tagged o body ++ (LF, o) :: rest ∧ l₁.down = l.down ∧
        l₁.firmware = l.firmware := by
      refine ⟨{ l with
        host := some (c, line ++ [(b, o)])
        up := LineRpc.tagged o body ++ (LF, o) :: rest }, ?_, rfl, rfl, rfl, rfl⟩
      simp [Link.step, Link.receiveByte, hh, hu, LineRpc.tagged, hb]
    obtain ⟨l₁, hstep, e₁, e₂, e₃, e₄⟩ := hstep
    obtain ⟨l', out, hrun, h₁, h₂, h₃, h₄⟩ :=
      ih (fun h => hbody (List.mem_cons_of_mem _ h)) e₁ e₂
    exact ⟨l', _, Steps.run_step hstep hrun, h₁, h₂, h₃.trans e₃, h₄.trans e₄⟩

/-- The call and the bytes of its message, up to the carriage return. -/
def request (env : Env) (c : Call) : List Link.Action :=
  .call c :: List.replicate (MotorDriver.msg c).length (.byte env)

theorem run_request (t : Target) (env : Env) (c : Call) {l : Link} (h : Idle l) :
    ∃ l' app', Steps.run (Link.step t) l (request env c) = some (l', []) ∧
      l'.host = some (c, []) ∧ l'.up = [] ∧ l'.down = [CR] ∧ l'.firmware = some app' ∧
      app'.Ready (MotorDriver.msg c) := by
  obtain ⟨app, hf, hr⟩ := h.ready
  have hcall : l.step t (.call c) = some ({ l with
      host := some (c, [])
      down := l.down ++ MotorDriver.msgToSend (MotorDriver.msg c)
      sent := l.sent + 1 }, []) := by
    simp only [Link.step, Link.sendMsg, h.host]
  obtain ⟨l', app', hrun, h₁, h₂, h₃, h₄, h₅⟩ := run_bytes t env (MotorDriver.msg c) [CR]
    (msg_plain c) (l := { l with
      host := some (c, [])
      down := l.down ++ MotorDriver.msgToSend (MotorDriver.msg c)
      sent := l.sent + 1 }) hf hr (by simp [h.down, MotorDriver.msgToSend]) (msg_length c)
  exact ⟨l', app', Steps.run_step hcall hrun, h₁, h₂.trans h.up, h₃, h₄, h₅⟩

theorem calls_replicate {a : Link.Action} (h : calls [a] = []) (n : Nat) :
    calls (List.replicate n a) = [] := by
  induction n with
  | zero => rfl
  | succ n ih =>
    rw [List.replicate_succ, ← List.singleton_append, calls_append, h, ih, List.append_nil]

/-- All that a prompt exchange consists of. -/
def exchange (env : Env) (c : Call) (n : Nat) : List Link.Action :=
  request env c ++ .byte env :: List.replicate n .receive

theorem calls_exchange (env : Env) (c : Call) (n : Nat) : calls (exchange env c n) = [c] := by
  rw [exchange, request, List.cons_append, calls, calls_append, calls_replicate rfl, calls,
    calls_replicate rfl, List.append_nil]

theorem timeout_exchange (env : Env) (c : Call) (n : Nat) : .timeout ∉ exchange env c n := by
  simp [exchange, request]

/-- A call that is answered by one line ends as it began. -/
theorem run_oneLine (zeroQuot : Int → Int) (env : Env) {c : Call} (hc : c.OneLine) {l : Link}
    (h : Idle l) :
    ∃ n l' out, Steps.run (Link.step (avr zeroQuot)) l (exchange env c n) = some (l', out) ∧
      Idle l' := by
  obtain ⟨l₁, app₁, hrun₁, hhost, hup, hdown, hf, hready⟩ := run_request (avr zeroQuot) env c h
  obtain ⟨app₂, body, hs, hr, hbody⟩ := step_oneLine zeroQuot hc env hready
  obtain ⟨l₂, o, hstep, e₁, e₂, e₃, e₄⟩ := step_byte hf hdown hs
  obtain ⟨l₃, out, hrun₂, h₁, h₂, h₃, h₄⟩ := run_receive (avr zeroQuot) o body [] hbody.plain
    (e₁.trans hhost) (by rw [e₂, hup]; simp [LineRpc.tagged])
  exact ⟨body.length + 1, l₃, _, Steps.run_join hrun₁ (Steps.run_step hstep hrun₂), h₁,
    h₃.trans e₃, h₂, app₂, h₄.trans e₄, hr⟩

/-- The gains handler prints two lines. -/
theorem gainsReply_split (g : Gains) :
    ∃ body, gainsReply g = body ++ LF :: println (print "OK") ∧ LF ∉ body := by
  refine ⟨print "PID Updated: " ++ decimal g.kp ++ print " " ++ decimal g.kd ++ print " " ++
    decimal g.ki ++ print " " ++ decimal g.ko ++ [CR], ?_, ?_⟩
  · simp [gainsReply, println]
  · have h₁ : LF ∉ print "PID Updated: " := by decide
    have h₂ : LF ∉ print " " := by decide
    have h₃ : LF ∉ [CR] := by decide
    simp only [List.mem_append, not_or]
    exact ⟨⟨⟨⟨⟨⟨⟨⟨h₁, decimal_not_LF _⟩, h₂⟩, decimal_not_LF _⟩, h₂⟩, decimal_not_LF _⟩, h₂⟩,
      decimal_not_LF _⟩, h₃⟩

/-- After `SetPidValues` the firmware has left its array, or a line is left unread. -/
theorem run_setPidValues (t : Target) (env : Env) {c : Call} (hc : ¬ c.OneLine) {l : Link}
    (h : Idle l) :
    ∃ n l' out, Steps.run (Link.step t) l (exchange env c n) = some (l', out) ∧
      (l'.firmware = none ∨ (l'.host = none ∧ l'.up ≠ [])) := by
  cases c with
  | readEncoderValues => exact absurd trivial hc
  | setMotorValues => exact absurd trivial hc
  | setPidValues kp kd ki ko =>
    obtain ⟨l₁, app₁, hrun₁, hhost, hup, hdown, hf, hready⟩ :=
      run_request t env (.setPidValues kp kd ki ko) h
    rw [MotorDriver.msg, setPidValuesMsg_eq] at hready
    have hw := word_gainsText kp.word kd.word ki.word ko.word
    by_cases hfit : (gainsText kp.bytes kd.bytes ki.bytes ko.bytes).length < kArgSize
    · obtain ⟨app₂, hs, -, -⟩ := step_u t env hw hfit hready
      obtain ⟨body, hsplit, hbody⟩ :=
        gainsReply_split (requestedGains t (gainsText kp.bytes kd.bytes ki.bytes ko.bytes))
      rw [hsplit] at hs
      obtain ⟨l₂, o, hstep, e₁, e₂, -, -⟩ := step_byte hf hdown hs
      obtain ⟨l₃, out, hrun₂, h₁, h₂, -, -⟩ := run_receive t o body
        (LineRpc.tagged o (println (print "OK"))) hbody (e₁.trans hhost)
        (by rw [e₂, hup]; simp [LineRpc.tagged])
      refine ⟨body.length + 1, l₃, _, Steps.run_join hrun₁ (Steps.run_step hstep hrun₂),
        .inr ⟨h₁, ?_⟩⟩
      rw [h₂]
      simp [LineRpc.tagged, println]
    · have hs := step_u_overflow t env hw hfit hready
      have hstep : l₁.step t (.byte env) = some ({ l₁ with firmware := none, down := [] }, []) := by
        simp only [Link.step, Link.firmwareByte, hf, hdown, hs]
      exact ⟨0, _, _, Steps.run_join hrun₁ (Steps.run_step hstep (Steps.run_nil _ _)), .inl rfl⟩

/-- The first `SetPidValues` of a sequence of calls breaks the pairing. -/
theorem run_unpaired (zeroQuot : Int → Int) (env : Env) (cs : List Call)
    (hcs : ∃ c ∈ cs, ¬ c.OneLine) {l : Link} (h : Idle l) :
    ∃ acts l' out, .timeout ∉ acts ∧ calls acts <+: cs ∧
      Steps.run (Link.step (avr zeroQuot)) l acts = some (l', out) ∧
      (l'.firmware = none ∨ (l'.host = none ∧ l'.up ≠ [])) := by
  induction cs generalizing l with
  | nil =>
    obtain ⟨c, hc, -⟩ := hcs
    exact absurd hc (by simp)
  | cons c cs ih =>
    by_cases hc : c.OneLine
    · obtain ⟨n, l₁, out₁, hrun₁, hidle⟩ := run_oneLine zeroQuot env hc h
      have hcs' : ∃ c ∈ cs, ¬ c.OneLine := by
        obtain ⟨c', hmem, hc'⟩ := hcs
        rcases List.mem_cons.mp hmem with rfl | hmem
        · exact absurd hc hc'
        · exact ⟨c', hmem, hc'⟩
      obtain ⟨acts, l', out, hto, hcalls, hrun, hbad⟩ := ih hcs' hidle
      refine ⟨exchange env c n ++ acts, l', _, ?_, ?_, Steps.run_join hrun₁ hrun, hbad⟩
      · intro hmem
        rcases List.mem_append.mp hmem with h | h
        · exact timeout_exchange env c n h
        · exact hto h
      · rw [calls_append, calls_exchange, List.singleton_append]
        exact List.cons_prefix_cons.mpr ⟨rfl, hcalls⟩
    · obtain ⟨n, l', out, hrun, hbad⟩ := run_setPidValues (avr zeroQuot) env hc h
      refine ⟨exchange env c n, l', out, timeout_exchange env c n, ?_, hrun, hbad⟩
      rw [calls_exchange]
      exact List.cons_prefix_cons.mpr ⟨rfl, List.nil_prefix⟩

/-- A sequence of calls is paired with its replies in every run without a timeout
if and only if it does not contain `SetPidValues`. -/
theorem paired_iff (zeroQuot : Int → Int) (imu : Bool) (leftMove rightMove : Int)
    (cs : List Call) :
    (∀ acts l out, .timeout ∉ acts → calls acts <+: cs →
      Steps.run (Link.step (avr zeroQuot))
        (Link.initial (setup (avr zeroQuot) imu leftMove rightMove)) acts = some (l, out) →
      Paired l out) ↔
    ∀ c ∈ cs, c.OneLine := by
  constructor
  · intro hall c hc
    by_contra hnot
    have hidle : Idle (Link.initial (setup (avr zeroQuot) imu leftMove rightMove)) :=
      ⟨rfl, rfl, rfl, _, rfl, ready_setup _ imu leftMove rightMove⟩
    obtain ⟨acts, l, out, hto, hcalls, hrun, hbad⟩ :=
      run_unpaired zeroQuot (Env.quiet 0) cs ⟨c, hc, hnot⟩ hidle
    have hp := hall acts l out hto hcalls hrun
    rcases hbad with hf | ⟨hh, hu⟩
    · have halive := hp.alive
      rw [hf] at halive
      exact absurd halive (by simp)
    · exact hu (hp.read hh)
  · intro hone acts l out hto hcalls hrun
    exact paired_run (fun c hc => hone c (hcalls.subset hc)) hto hrun

/-- The second line of the gains handler is what the next `ReadEncoderValues` reads. -/
theorem gains_reply_read_as_counts :
    ∃ l out, Steps.run (Link.step (avr fun _ => 0))
        (Link.initial (setup (avr fun _ => 0) false 0 0))
        (exchange (Env.quiet 0) (.setPidValues (.ofInt 30 (by decide)) (.ofInt 20 (by decide))
            (.ofInt 10 (by decide)) (.ofInt 50 (by decide))) 26 ++
          exchange (Env.quiet 0) .readEncoderValues 4) = some (l, out) ∧
      ¬ Paired l out := by
  have hrun : (Steps.run (Link.step (avr fun _ => 0))
      (Link.initial (setup (avr fun _ => 0) false 0 0))
      (exchange (Env.quiet 0) (.setPidValues (.ofInt 30 (by decide)) (.ofInt 20 (by decide))
          (.ofInt 10 (by decide)) (.ofInt 50 (by decide))) 26 ++
        exchange (Env.quiet 0) .readEncoderValues 4)).map Prod.snd =
      some [⟨1, .setPidValues (.ofInt 30 (by decide)) (.ofInt 20 (by decide))
          (.ofInt 10 (by decide)) (.ofInt 50 (by decide)),
          LineRpc.tagged ⟨1, (0, 0)⟩ (ascii "PID Updated: 30 20 10 50\r\n"), true⟩,
        ⟨2, .readEncoderValues, LineRpc.tagged ⟨1, (0, 0)⟩ (ascii "OK\r\n"), true⟩] := by
    decide +kernel
  obtain ⟨⟨l, out⟩, hr, hout⟩ := Option.map_eq_some_iff.mp hrun
  subst hout
  refine ⟨l, _, hr, fun hp => ?_⟩
  have hown := hp.own _ (List.mem_cons_of_mem _ List.mem_cons_self) (79, ⟨1, (0, 0)⟩) (by decide)
  exact absurd hown (by decide)

end AndinoBase
