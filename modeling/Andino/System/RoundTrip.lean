import Andino.Host.MotorDriver
import Andino.Firmware.Gains

/-!
# Round trips between the host and the firmware

`SetPidValues` prints four numbers with colons between them; the handler copies
the argument into an array of twenty characters before it splits it. For gains
that the host prints as integers the exchange is exact, as long as the text with
its terminator fits that array, and only then. Speeds arrive exactly whenever the
firmware's `int` holds them, and encoder counts are read back as they are.
-/
namespace AndinoBase

open CArith CString Decimal AndinoFirmware AndinoFirmware.App

theorem digit_mem (c : Byte) (h : isDigit c = true) : c ∈ ascii "0123456789+-.aefin" := by
  obtain ⟨h₁, h₂⟩ := (isDigit_iff c).mp h
  have hc : c = UInt8.ofNat c.toNat := UInt8.ofNat_toNat.symm
  rw [hc]
  generalize c.toNat = n at h₁ h₂
  have hn : n = 48 ∨ n = 49 ∨ n = 50 ∨ n = 51 ∨ n = 52 ∨ n = 53 ∨ n = 54 ∨ n = 55 ∨ n = 56 ∨
      n = 57 := by omega
  rcases hn with rfl | rfl | rfl | rfl | rfl | rfl | rfl | rfl | rfl | rfl <;> decide

theorem decimal_length_sixteen (x : Int) (h : Fits 16 x) : (decimal x).length ≤ 6 := by
  have h' := (fits_sixteen x).mp h
  exact decimal_length_le x 5 (by decide) (by omega)

/-- An integer of the firmware's `int` as a `float`, which prints as that integer. -/
def FloatText.ofInt (x : Int) (h : Fits 16 x) : FloatText where
  bytes := decimal x
  ne_nil := decimal_ne_nil x
  charset := by
    intro c hc
    rcases decimal_mem x c hc with rfl | hd
    · decide
    · exact digit_mem c hd
  length_le := (decimal_length_sixteen x h).trans (by decide)

/-- Four fields with colons between them. -/
def gainsText (kp kd ki ko : List Byte) : List Byte :=
  kp ++ COLON :: (kd ++ COLON :: (ki ++ COLON :: ko))

theorem setPidValuesMsg_eq (kp kd ki ko : List Byte) :
    MotorDriver.setPidValuesMsg kp kd ki ko = ascii "u" ++ SP :: gainsText kp kd ki ko := by
  have h₁ : ascii "u " = ascii "u" ++ [SP] := rfl
  have h₂ : ascii ":" = [COLON] := rfl
  simp [MotorDriver.setPidValuesMsg, gainsText, h₁, h₂]

theorem gainsText_length (kp kd ki ko : List Byte) :
    (gainsText kp kd ki ko).length = kp.length + kd.length + ki.length + ko.length + 3 := by
  simp only [gainsText, List.length_append, List.length_cons]
  omega

theorem FloatText.word (x : FloatText) : Word x.bytes := by
  refine ⟨x.ne_nil, fun c hc => ?_⟩
  have h : ∀ c ∈ ascii "0123456789+-.aefin", c ≠ 0 ∧ c ≠ LF ∧ c ≠ CR ∧ c ≠ SP :=
    forall_mem_of_all (by decide)
  exact h c (x.charset c hc)

theorem word_gainsText {kp kd ki ko : List Byte} (h₁ : Word kp) (h₂ : Word kd) (h₃ : Word ki)
    (h₄ : Word ko) : Word (gainsText kp kd ki ko) := by
  have hcolon : COLON ≠ 0 ∧ COLON ≠ LF ∧ COLON ≠ CR ∧ COLON ≠ SP := by decide
  refine ⟨by simp [gainsText], ?_⟩
  exact forall_mem_append_cons h₁.plain hcolon (forall_mem_append_cons h₂.plain hcolon
    (forall_mem_append_cons h₃.plain hcolon h₄.plain))

theorem decimal_not_colon (x : Int) : ∀ c ∈ decimal x, c ∉ [COLON] := by
  intro c hc hmem
  exact (decimal_plain x c hc).2.2.2.2 (List.mem_singleton.mp hmem)

theorem atoi_decimal (t : Target) {x : Int} (h : Fits 16 x) : atoi t (decimal x) = x := by
  rw [atoi, scanInt_decimal, t.int_of_fits x h]

/-- The firmware reads four printed integers as these integers. -/
theorem requestedGains_decimal (t : Target) (kp kd ki ko : Int) (h₁ : Fits 16 kp) (h₂ : Fits 16 kd)
    (h₃ : Fits 16 ki) (h₄ : Fits 16 ko) :
    requestedGains t (gainsText (decimal kp) (decimal kd) (decimal ki) (decimal ko)) =
      ⟨kp, kd, ki, ko⟩ := by
  have htok : tokens [COLON] (gainsText (decimal kp) (decimal kd) (decimal ki) (decimal ko)) =
      [decimal kp, decimal kd, decimal ki, decimal ko] := by
    have hmem : COLON ∈ [COLON] := List.mem_singleton_self COLON
    rw [gainsText, tokens_word_append _ _ _ _ (decimal_ne_nil kp) (decimal_not_colon kp) hmem,
      tokens_word_append _ _ _ _ (decimal_ne_nil kd) (decimal_not_colon kd) hmem,
      tokens_word_append _ _ _ _ (decimal_ne_nil ki) (decimal_not_colon ki) hmem,
      tokens_word _ _ (decimal_ne_nil ko) (decimal_not_colon ko)]
  simp [requestedGains, htok, kSizePidArgs, Gains.ofFields, atoi_decimal t h₁, atoi_decimal t h₂,
    atoi_decimal t h₃, atoi_decimal t h₄]

/-- From every state between two lines, the gains arrive exactly if and only if
their text and its terminator fit the array of the handler. Otherwise the copy
writes past the end of the array. -/
theorem gains_round_trip (t : Target) (imu : Bool) (leftMove rightMove : Int)
    (earlier : List Action) (app : App) (out₀ : List Byte)
    (hrun : Steps.run (step t) (setup t imu leftMove rightMove) earlier = some (app, out₀))
    (hidx : app.shell.messageIndex = 0) (kp kd ki ko : Int) (h₁ : Fits 16 kp) (h₂ : Fits 16 kd)
    (h₃ : Fits 16 ki) (h₄ : Fits 16 ko) (acts : List Action)
    (hd : delivered acts = MotorDriver.msgToSend (MotorDriver.msg (.setPidValues
      (.ofInt kp h₁) (.ofInt kd h₂) (.ofInt ki h₃) (.ofInt ko h₄)))) :
    (∃ app' out, Steps.run (step t) app acts = some (app', out) ∧
      app'.drive.gains = (⟨kp, kd, ki, ko⟩, ⟨kp, kd, ki, ko⟩)) ↔
    (decimal kp).length + (decimal kd).length + (decimal ki).length + (decimal ko).length + 3 <
      kArgSize := by
  have hready := ready_run t hrun hidx
  have hw := word_gainsText (word_decimal kp) (word_decimal kd) (word_decimal ki) (word_decimal ko)
  have hmsg : delivered acts = ascii "u" ++ SP :: gainsText (decimal kp) (decimal kd) (decimal ki)
      (decimal ko) ++ [CR] := by
    rw [hd, ← setPidValuesMsg_eq]
    rfl
  rw [← gainsText_length]
  constructor
  · rintro ⟨app', out, hr, -⟩
    by_contra hlong
    have hlen : (ascii "u" ++ SP :: gainsText (decimal kp) (decimal kd) (decimal ki)
        (decimal ko)).length < Shell.kCommandPromptLengthMax := by
      have hu : (ascii "u").length = 1 := rfl
      have hmax : Shell.kCommandPromptLengthMax = 64 := rfl
      have l₁ := decimal_length_sixteen kp h₁
      have l₂ := decimal_length_sixteen kd h₂
      have l₃ := decimal_length_sixteen ki h₃
      have l₄ := decimal_length_sixteen ko h₄
      rw [List.length_append, List.length_cons, gainsText_length]
      omega
    rw [run_u_overflow t hready hw hlong hlen hmsg] at hr
    exact absurd hr (by simp)
  · intro hfit
    obtain ⟨app', out, hr, -, hg, -⟩ := run_u t acts hready hw hfit hmsg
    rw [requestedGains_decimal t kp kd ki ko h₁ h₂ h₃ h₄] at hg
    exact ⟨app', out, hr, hg⟩

/-- The gains of the documentation arrive. -/
theorem gains_round_trip_documented :
    ∃ app' out, Steps.run (step exact) (setup exact false 0 0)
        (typed (Env.quiet 0) (MotorDriver.msgToSend (MotorDriver.msg (.setPidValues
          (.ofInt 30 (by decide)) (.ofInt 20 (by decide)) (.ofInt 10 (by decide))
          (.ofInt 50 (by decide)))))) = some (app', out) ∧
      app'.drive.gains = (⟨30, 20, 10, 50⟩, ⟨30, 20, 10, 50⟩) :=
  (gains_round_trip exact false 0 0 [] _ [] rfl rfl 30 20 10 50 (by decide) (by decide) (by decide)
    (by decide) _ (delivered_typed _ _)).mpr (by decide +kernel)

/-- Four gains of five digits leave the array. -/
theorem gains_overflow :
    ¬ ∃ app' out, Steps.run (step (avr fun _ => 0)) (setup (avr fun _ => 0) false 0 0)
        (typed (Env.quiet 0) (MotorDriver.msgToSend (MotorDriver.msg (.setPidValues
          (.ofInt 10000 (by decide)) (.ofInt 10000 (by decide)) (.ofInt 10000 (by decide))
          (.ofInt 10000 (by decide)))))) = some (app', out) ∧
      app'.drive.gains = (⟨10000, 10000, 10000, 10000⟩, ⟨10000, 10000, 10000, 10000⟩) := by
  have hnone : (Steps.run (step (avr fun _ => 0)) (setup (avr fun _ => 0) false 0 0)
      (typed (Env.quiet 0) (MotorDriver.msgToSend (MotorDriver.msg (.setPidValues
        (.ofInt 10000 (by decide)) (.ofInt 10000 (by decide)) (.ofInt 10000 (by decide))
        (.ofInt 10000 (by decide))))))).isNone = true := by decide +kernel
  rintro ⟨app', out, hr, -⟩
  rw [hr] at hnone
  exact absurd hnone (by simp)

/-! ## Speeds -/

theorem setMotorValuesMsg_eq (val1 val2 : Int) :
    MotorDriver.setMotorValuesMsg val1 val2 =
      ascii "m" ++ SP :: (decimal val1 ++ SP :: decimal val2) := by
  have h₁ : ascii "m " = ascii "m" ++ [SP] := rfl
  have h₂ : ascii " " = [SP] := rfl
  simp [MotorDriver.setMotorValuesMsg, h₁, h₂]

/-- What the handler of `m` has done to the state of its call when it returns. -/
structure SpeedsSet (left right : Int) (now : Nat) (app app' : App) : Prop where
  leftSetpoint : app'.leftPid.setpoint = left.tdiv Constants.kPidRate
  rightSetpoint : app'.rightPid.setpoint = right.tdiv Constants.kPidRate
  leftEnabled : app'.leftPid.enabled = true ↔ (left, right) ≠ (0, 0)
  rightEnabled : app'.rightPid.enabled = true ↔ (left, right) ≠ (0, 0)
  timer : app'.lastSetMotorsSpeedCmd = millis now
  gains : app'.drive.gains = app.drive.gains
  leftEncoder : app'.leftEncoder = app.leftEncoder
  rightEncoder : app'.rightEncoder = app.rightEncoder

theorem cmdSetMotorsSpeedCb_speedsSet (t : Target) (env : Env) (argc : Nat)
    (argv : List (Option (List Byte))) (app : App) {left right : Int} (hargc : ¬ argc < 3)
    (hl : atoi t (arg argv 1) = left) (hr : atoi t (arg argv 2) = right) (hleft : Fits 16 left)
    (hright : Fits 16 right) :
    (cmdSetMotorsSpeedCb t env argc argv app).2 = println (print "OK") ∧
      SpeedsSet left right env.now app (cmdSetMotorsSpeedCb t env argc argv app).1 := by
  have hl₁ := Constants.tdiv_kPidRate_le hleft
  have hr₁ := Constants.tdiv_kPidRate_le hright
  have hsl : t.int (left.tdiv Constants.kPidRate) = left.tdiv Constants.kPidRate :=
    t.int_of_fits _ ((fits_sixteen _).mpr (by omega))
  have hsr : t.int (right.tdiv Constants.kPidRate) = right.tdiv Constants.kPidRate :=
    t.int_of_fits _ ((fits_sixteen _).mpr (by omega))
  simp only [cmdSetMotorsSpeedCb, if_neg hargc, hl, hr, hsl, hsr]
  refine ⟨trivial, ?_⟩
  by_cases hz : left = 0 ∧ right = 0
  · rw [if_pos hz]
    obtain ⟨rfl, rfl⟩ := hz
    exact ⟨rfl, rfl, by simp [disablePids, Pid.disable, Pid.setSetpoint],
      by simp [disablePids, Pid.disable, Pid.setSetpoint], rfl, rfl, rfl, rfl⟩
  · rw [if_neg hz]
    have hne : (left, right) ≠ (0, 0) := fun h => hz (Prod.mk.inj h)
    exact ⟨rfl, rfl, iff_of_true rfl hne, iff_of_true rfl hne, rfl, rfl, rfl, rfl⟩

/-- The carriage return behind a speed command calls its handler, which finds the two
speeds. -/
theorem step_speeds (t : Target) {mid : App} (env : Env) {left right : Int} (hleft : Fits 16 left)
    (hright : Fits 16 right)
    (h : mid.Ready (ascii "m" ++ SP :: (decimal left ++ SP :: decimal right))) :
    ∃ (shell : Shell Callback) (entry app' : App) (i : Shell.Invocation Callback),
      entry = { mid.moveEncoders t env.leftMove env.rightMove with shell := shell } ∧
      step t mid (.byte CR env) = some (app', println (print "OK")) ∧
      invoke t env i entry = some (app', println (print "OK")) ∧
      mid.invocation (.byte CR env) = some i ∧ i.callback = .setMotorsSpeed ∧
      (atoi t (arg i.argv 1), atoi t (arg i.argv 2)) = (left, right) ∧
      SpeedsSet left right env.now entry app' ∧ app'.Ready [] := by
  have hl := atoi_decimal t hleft
  have hr := atoi_decimal t hright
  obtain ⟨shell, hstep, hready, hi⟩ := step_CR t env h
    (by rw [segmentTokens_m (word_decimal left) (word_decimal right)]; exact lineInvocation_m _ _ _)
  generalize hentry : ({ mid.moveEncoders t env.leftMove env.rightMove with shell := shell } : App) =
    entry at hstep hready
  obtain ⟨hok, hset⟩ := cmdSetMotorsSpeedCb_speedsSet t env 3
    [some (ascii "m"), some (decimal left), some (decimal right), none] entry (by decide) hl hr
    hleft hright
  have hinvoke : invoke t env
      ⟨.setMotorsSpeed, 3, [some (ascii "m"), some (decimal left), some (decimal right), none]⟩ entry =
      some ((cmdSetMotorsSpeedCb t env 3
        [some (ascii "m"), some (decimal left), some (decimal right), none] entry).1,
        println (print "OK")) := congrArg some (Prod.ext rfl hok)
  refine ⟨shell, entry, _, _, hentry.symm, hstep.trans hinvoke, hinvoke, hi, rfl,
    Prod.ext hl hr, hset, ?_⟩
  exact ready_invoke t env
    ⟨.setMotorsSpeed, 3, [some (ascii "m"), some (decimal left), some (decimal right), none]⟩
    (word_decimal left).ne_nul hready hinvoke

/-- From every state between two lines, and whatever tasks run while they arrive, the
bytes of `SetMotorValues` make one call: the handler of `m`, with the two speeds as they
were given. It sets both controllers and restarts the timer. -/
theorem speeds_round_trip (t : Target) (imu : Bool) (leftMove rightMove : Int)
    (earlier : List Action) (app : App) (out₀ : List Byte)
    (hrun : Steps.run (step t) (setup t imu leftMove rightMove) earlier = some (app, out₀))
    (hidx : app.shell.messageIndex = 0) (left right : HostInt) (hleft : Fits 16 left.1)
    (hright : Fits 16 right.1) (acts : List Action)
    (hd : delivered acts =
      MotorDriver.msgToSend (MotorDriver.msg (.setMotorValues left right))) :
    ∃ (before after : List Action) (env : Env) (mid entry app' : App) (shell : Shell Callback)
      (i : Shell.Invocation Callback),
      acts = before ++ .byte CR env :: after ∧
      Steps.run (step t) app before = some (mid, []) ∧
      step t mid (.byte CR env) = some (app', println (print "OK")) ∧
      app.invocations t acts = [i] ∧ i.callback = .setMotorsSpeed ∧
      (atoi t (arg i.argv 1), atoi t (arg i.argv 2)) = (left.1, right.1) ∧
      entry = { mid.moveEncoders t env.leftMove env.rightMove with shell := shell } ∧
      invoke t env i entry = some (app', println (print "OK")) ∧
      SpeedsSet left.1 right.1 env.now entry app' ∧ app'.drive.gains = app.drive.gains := by
  have hmsg : delivered acts =
      ascii "m" ++ SP :: (decimal left.1 ++ SP :: decimal right.1) ++ [CR] := by
    rw [hd, ← setMotorValuesMsg_eq]
    rfl
  have hlen : (ascii "m" ++ SP :: (decimal left.1 ++ SP :: decimal right.1)).length <
      Shell.kCommandPromptLengthMax := by
    have hm : (ascii "m").length = 1 := rfl
    have hmax : Shell.kCommandPromptLengthMax = 64 := rfl
    have h₁ := decimal_length_sixteen left.1 hleft
    have h₂ := decimal_length_sixteen right.1 hright
    simp only [List.length_append, List.length_cons]
    omega
  have hplain : ∀ c ∈ ascii "m" ++ SP :: (decimal left.1 ++ SP :: decimal right.1),
      c ≠ CR ∧ c ≠ LF :=
    forall_mem_append_cons word_m.line (by decide)
      (forall_mem_append_cons (word_decimal _).line (by decide) (word_decimal _).line)
  obtain ⟨before, after, env, mid, rfl, hafter, hbefore, hready, hquiet⟩ :=
    run_line t (ready_run t hrun hidx) hmsg hlen hplain
  obtain ⟨shell, entry, app', i, hentry, hstep, hinvoke, hi, hcallback, hparsed, hset, hready'⟩ :=
    step_speeds t env hleft hright hready
  -- the tasks behind the line make no call
  obtain ⟨final, -, -, hquiet'⟩ := run_text t after hready' (by rw [hafter]; decide)
    (by rw [hafter]; simp)
  have hcalls : app.invocations t (before ++ .byte CR env :: after) = [i] := by
    rw [invocations_append t hbefore, invocations_cons t hstep, hi, hquiet, hquiet']
    rfl
  have hgains : entry.drive.gains = mid.drive.gains := by
    rw [hentry]
    rfl
  have hkept := gains_run t hbefore (setTunings_notMem_events t hquiet)
  exact ⟨before, after, env, mid, entry, app', shell, i, rfl, hbefore, hstep, hcalls, hcallback,
    hparsed, hentry, hinvoke, hset, hset.gains.trans (hgains.trans hkept)⟩

/-- The two ends of the range of `int`. -/
theorem speeds_round_trip_extremes :
    ∃ (mid app' : App) (env : Env) (i : Shell.Invocation Callback),
      (setup (avr fun _ => 0) false 0 0).invocations (avr fun _ => 0) (typed (Env.quiet 0)
        (MotorDriver.msgToSend (MotorDriver.msg (.setMotorValues ⟨-32768, by decide⟩
          ⟨32767, by decide⟩)))) = [i] ∧
      step (avr fun _ => 0) mid (.byte CR env) = some (app', println (print "OK")) ∧
      app'.leftPid.setpoint = (-32768 : Int).tdiv Constants.kPidRate := by
  obtain ⟨_, _, env, mid, _, app', _, i, -, -, hstep, hcalls, -, -, -, -, hset, -⟩ :=
    speeds_round_trip (avr fun _ => 0) false 0 0 [] _ [] rfl rfl ⟨-32768, by decide⟩
      ⟨32767, by decide⟩ (by decide) (by decide) _ (delivered_typed (Env.quiet 0) _)
  exact ⟨mid, app', env, i, hcalls, hstep, hset.leftSetpoint⟩

/-! ## Counts -/

theorem decimal_not_LF (x : Int) : LF ∉ decimal x := fun h => (decimal_plain x LF h).2.1 rfl

theorem countsLine_plain (a b : Int) : LF ∉ decimal a ++ SP :: (decimal b ++ [CR]) := by
  simp only [List.mem_append, List.mem_cons, not_or]
  exact ⟨decimal_not_LF a, by decide, decimal_not_LF b, by decide⟩

/-- The handler of `e` prints one line, and from that line the host reads the two counts
the handler has read. -/
theorem counts_round_trip (app : App) (hl : Fits 32 app.leftEncoder.read)
    (hr : Fits 32 app.rightEncoder.read) :
    ∃ line, (cmdReadEncodersCb app).2 = line ++ [LF] ∧ LF ∉ line ∧
      MotorDriver.encoderValues (line ++ [LF]) = (app.leftEncoder.read, app.rightEncoder.read) := by
  refine ⟨decimal app.leftEncoder.read ++ SP :: (decimal app.rightEncoder.read ++ [CR]), ?_, ?_, ?_⟩
  · have hsp : print " " = [SP] := rfl
    simp [cmdReadEncodersCb, println, hsp]
  · exact countsLine_plain _ _
  · simpa using encoderValues_counts hl hr

/-- The two ends of the range of `long`. -/
theorem counts_round_trip_extremes :
    ∃ line, (cmdReadEncodersCb (setup exact false (-2 ^ 31) (2 ^ 31 - 1))).2 = line ++ [LF] ∧
      MotorDriver.encoderValues (line ++ [LF]) = (-2 ^ 31, 2 ^ 31 - 1) := by
  obtain ⟨line, hline, -, hvalues⟩ :=
    counts_round_trip (setup exact false (-2 ^ 31) (2 ^ 31 - 1)) (by decide) (by decide)
  exact ⟨line, hline, hvalues⟩

end AndinoBase
