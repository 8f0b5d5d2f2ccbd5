import Andino.Firmware.ShellDispatch

/-!
# Lines that do not fit and lines without a token

What happens to the lines that the specification of the dispatch leaves out. A
line that is longer than the array starts over in it, and its end is run as if
it were the whole line. A line without a token reaches the comparison of command
names with a null pointer. Both theorems say for which streams this does not
happen, and both hold for every chunking.
-/
namespace AndinoFirmware

open CString

namespace Shell

variable {κ : Type}

/-- The line that a stream leaves unfinished. -/
def unfinished (stream : List Byte) : List Byte := (segments stream).getLastD []

/-- After any chunks, the array holds what is kept of the unfinished line. -/
theorem processInputs_unfinished (messageBuffer : MessageBuffer) (default : Option κ)
    (regs : List (CommandName × κ)) (nullEq : List Byte → Bool) (chunks : List (List Byte)) :
    Pending ((build messageBuffer default regs).processInputs nullEq chunks).1
        (kept (unfinished chunks.flatten)) ∧
      ((build messageBuffer default regs).processInputs nullEq chunks).1.registry =
        (build messageBuffer default regs).registry := by
  obtain ⟨-, hpend, hreg⟩ := processInput_segments nullEq chunks.flatten
    (build messageBuffer default regs) [] (pending_build messageBuffer default regs) (by simp)
  rw [processInputs_flatten]
  exact ⟨hpend, hreg⟩

/-! ## Writes to the array -/

/-- The cells the tokenising loop overwrites. -/
def fillArgvWrites (m : List Byte) (p : Nat) : Nat → List Nat
  | 0 => (strtokRWrite [SP] m p).toList
  | n + 1 =>
    (strtokRWrite [SP] m p).toList ++
      match strtokR [SP] m p with
      | (none, _, _) => []
      | (some _, m', q) => fillArgvWrites m' q n

/-- The cells of the array that are written while a byte is processed. -/
def writes (s : Shell κ) (c : Byte) : List Nat :=
  if c = CR then
    s.messageIndex ::
      fillArgvWrites (s.messageBuffer.write s.messageIndex 0).1 0 (kCommandArgMax - 1)
  else if c = LF then []
  else [s.messageIndex]

theorem fillArgvWrites_lt (m : List Byte) (p n : Nat) : ∀ j ∈ fillArgvWrites m p n, j < m.length := by
  induction n generalizing m p with
  | zero =>
    intro j hj
    exact strtokRWrite_lt (Option.mem_toList.mp hj)
  | succ n ih =>
    intro j hj
    rw [fillArgvWrites] at hj
    rcases List.mem_append.mp hj with hj | hj
    · exact strtokRWrite_lt (Option.mem_toList.mp hj)
    · have hlen := strtokR_length [SP] m p
      split at hj
      · exact absurd hj (by simp)
      · rename_i s m' q heq
        rw [heq] at hlen
        rw [← hlen]
        exact ih m' q j hj

/-- Every write stays inside the array. -/
theorem writes_lt (s : Shell κ) (c : Byte) : ∀ j ∈ s.writes c, j < kCommandPromptLengthMax := by
  intro j hj
  unfold writes at hj
  split at hj
  · rcases List.mem_cons.mp hj with rfl | hj
    · exact s.index_lt
    · have h := fillArgvWrites_lt _ _ _ j hj
      rwa [(s.messageBuffer.write s.messageIndex 0).2] at h
  · split at hj
    · exact absurd hj (by simp)
    · rw [List.mem_singleton.mp hj]
      exact s.index_lt

theorem fillArgv_frame (m : List Byte) (p n : Nat) {j : Nat} (hj : j ∉ fillArgvWrites m p n) :
    (fillArgv m p n).2[j]? = m[j]? := by
  induction n generalizing m p with
  | zero => exact strtokR_frame (fun h => hj (Option.mem_toList.mpr h))
  | succ n ih =>
    rw [fillArgvWrites, List.mem_append, not_or] at hj
    have hframe := strtokR_frame (fun h => hj.1 (Option.mem_toList.mpr h))
    have hrest := hj.2
    rw [fillArgv]
    split
    · rename_i heq
      rw [heq] at hframe
      exact hframe
    · rename_i heq
      rw [heq] at hframe hrest
      exact (ih _ _ hrest).trans hframe

/-- A byte changes no other cell. -/
theorem processByte_frame (s : Shell κ) (nullEq : List Byte → Bool) (c : Byte) {j : Nat}
    (hj : j ∉ s.writes c) :
    (s.processByte nullEq c).1.messageBuffer.1[j]? = s.messageBuffer.1[j]? := by
  have hset : ∀ b, j ≠ s.messageIndex →
      (s.messageBuffer.write s.messageIndex b).1[j]? = s.messageBuffer.1[j]? :=
    fun b hne => List.getElem?_set_ne (Ne.symm hne)
  unfold writes at hj
  unfold processByte
  split at hj
  · rename_i hc
    rw [List.mem_cons, not_or] at hj
    rw [if_pos hc]
    exact (fillArgv_frame _ 0 _ hj.2).trans (hset 0 hj.1)
  · rename_i hc
    rw [if_neg hc]
    split at hj
    · rename_i hlf
      rw [if_pos hlf]
    · rename_i hlf
      rw [if_neg hlf]
      have hne := hset c (fun h => hj (by rw [h]; exact List.mem_singleton_self _))
      dsimp only
      split <;> exact hne

/-- While a byte is processed, the array is written inside its bounds, and no other cell of it
changes. -/
structure WritesInside (s : Shell κ) (nullEq : List Byte → Bool) (c : Byte) : Prop where
  inside : ∀ j ∈ s.writes c, j ≤ 63
  frame : ∀ j, j ∉ s.writes c →
    (s.processByte nullEq c).1.messageBuffer.1[j]? = s.messageBuffer.1[j]?

theorem writesInside (s : Shell κ) (nullEq : List Byte → Bool) (c : Byte) :
    s.WritesInside nullEq c :=
  ⟨fun j hj => Nat.le_of_lt_succ (writes_lt s c j hj), fun _ hj => processByte_frame s nullEq c hj⟩

/-! ## Whole lines -/

/-- The call is on the tokens of the line, as far as `argv` goes: those before its first NUL,
and the first 15 of these. -/
def Invocation.OnLine (i : Invocation κ) (line : List Byte) : Prop :=
  i.argc = min (segmentTokens line).length (kCommandArgMax - 1) ∧
    i.arguments = ((segmentTokens line).take (kCommandArgMax - 1)).map some

/-- A callback gets `argc` and `argv` as they are, whichever it is. -/
theorem executeCallback_args {s : Shell κ} {nullEq : List Byte → Bool} {argc : Nat}
    {argv : List (Option (List Byte))} {i : Invocation κ}
    (h : s.executeCallback nullEq argc argv = some i) : i.argc = argc ∧ i.argv = argv := by
  unfold executeCallback at h
  split at h
  · rw [← Option.some.inj h]
    exact ⟨rfl, rfl⟩
  · obtain ⟨k, -, rfl⟩ := Option.map_eq_some_iff.mp h
    exact ⟨rfl, rfl⟩

/-- The call made for a kept text is on its tokens. -/
theorem lineCall_onLine {s : Shell κ} {nullEq : List Byte → Bool} {w : List Byte}
    {i : Invocation κ} (h : s.lineCall nullEq w = some i) : i.OnLine w := by
  obtain ⟨hargc, hargv⟩ := executeCallback_args h
  refine ⟨hargc, ?_⟩
  rw [Invocation.arguments, hargc, hargv, argvOf_take]

/-- A call is on two lines exactly if these agree in the tokens that `argv` can hold. -/
theorem Invocation.OnLine.iff_take {i : Invocation κ} {v w : List Byte} (h : i.OnLine v) :
    i.OnLine w ↔
      (segmentTokens v).take (kCommandArgMax - 1) = (segmentTokens w).take (kCommandArgMax - 1) := by
  constructor
  · intro hw
    have hmap := h.2.symm.trans hw.2
    exact List.map_injective_iff.mpr (fun _ _ => Option.some.inj) hmap
  · intro htake
    have hlen := congrArg List.length htake
    rw [List.length_take, List.length_take] at hlen
    refine ⟨?_, by rw [h.2, htake]⟩
    rw [h.1]
    omega

/-- Only a carriage return makes a call. -/
theorem processByte_eq_some {s : Shell κ} {nullEq : List Byte → Bool} {c : Byte}
    {i : Invocation κ} (h : (s.processByte nullEq c).2 = some i) : c = CR := by
  by_contra hcr
  unfold processByte at h
  rw [if_neg hcr] at h
  split at h
  · exact absurd h (by simp)
  · dsimp only at h
    split at h <;> exact absurd h (by simp)

/-- Whatever is registered and however the stream is delivered, each call is made
by a carriage return, on the tokens of the whole line it ends, and every byte writes
inside the array only. -/
def WholeLines (κ : Type) (stream : List Byte) : Prop :=
  ∀ (messageBuffer : MessageBuffer) (default : Option κ) (regs : List (CommandName × κ))
    (nullEq : List Byte → Bool) (chunks : List (List Byte)) (c : Byte) (rest : List Byte),
    stream = chunks.flatten ++ c :: rest →
    (∀ i, (((build messageBuffer default regs).processInputs nullEq chunks).1.processByte
        nullEq c).2 = some i → c = CR ∧ i.OnLine (unfinished chunks.flatten)) ∧
    ((build messageBuffer default regs).processInputs nullEq chunks).1.WritesInside nullEq c

/-- The call for a line is the call for what the array has kept of it. -/
theorem processInputs_CR (messageBuffer : MessageBuffer) (default : Option κ)
    (regs : List (CommandName × κ)) (nullEq : List Byte → Bool) (chunks : List (List Byte)) :
    (((build messageBuffer default regs).processInputs nullEq chunks).1.processByte nullEq CR).2 =
      (build messageBuffer default regs).lineCall nullEq (kept (unfinished chunks.flatten)) := by
  obtain ⟨hpend, hreg⟩ := processInputs_unfinished messageBuffer default regs nullEq chunks
  rw [← lineCall_registry hreg]
  exact (processByte_CR _ nullEq _ hpend).2.2

/-- With a default callback alone, every line is called for. -/
theorem lineCall_default (messageBuffer : MessageBuffer) (k : κ) (nullEq : List Byte → Bool)
    (w : List Byte) : ∃ i, (build messageBuffer (some k) []).lineCall nullEq w = some i :=
  ⟨_, rfl⟩

/-- In a stream that is run by whole lines, no line loses a token to the array. -/
theorem WholeLines.take_eq {stream : List Byte} (k : κ) (h : WholeLines κ stream)
    {u rest : List Byte} (hs : stream = u ++ CR :: rest) :
    (segmentTokens (kept (unfinished u))).take (kCommandArgMax - 1) =
      (segmentTokens (unfinished u)).take (kCommandArgMax - 1) := by
  let m : MessageBuffer := ⟨List.replicate kCommandPromptLengthMax 0, List.length_replicate⟩
  have hu : [u].flatten = u := List.flatten_singleton
  obtain ⟨i, hi⟩ := lineCall_default m k (fun _ => false) (kept (unfinished u))
  have hcall := processInputs_CR m (some k) [] (fun _ => false) [u]
  rw [hu, hi] at hcall
  have hon := ((h m (some k) [] (fun _ => false) [u] CR rest (by rw [hu]; exact hs)).1 i hcall).2
  rw [hu] at hon
  exact (lineCall_onLine hi).iff_take.mp hon

/-- A stream is run by whole lines if and only if what the array keeps of each
finished line has the tokens of the line, as far as `argv` holds them: the tokens before
the first NUL, and the first 15 of these. Lines of up to 63 bytes are kept whole. -/
theorem wholeLines_iff (k : κ) (stream : List Byte) :
    WholeLines κ stream ↔
      ∀ u rest, stream = u ++ CR :: rest →
        (segmentTokens (kept (unfinished u))).take (kCommandArgMax - 1) =
          (segmentTokens (unfinished u)).take (kCommandArgMax - 1) := by
  constructor
  · exact fun h u rest hs => h.take_eq k hs
  · intro h messageBuffer default regs nullEq chunks c rest hs
    refine ⟨fun i hi => ?_, writesInside _ nullEq c⟩
    obtain rfl := processByte_eq_some hi
    rw [processInputs_CR] at hi
    exact ⟨rfl, (lineCall_onLine hi).iff_take.mpr (h _ rest hs)⟩

/-- Behind 64 other characters a motor command is run from the end of its line. -/
theorem wholeLines_tail :
    ¬ WholeLines Nat (List.replicate 64 120 ++ ascii "m 100 100\r") := by
  intro h
  have hs : List.replicate 64 120 ++ ascii "m 100 100\r" =
      (List.replicate 64 120 ++ ascii "m 100 100") ++ CR :: [] := by decide
  exact absurd (h.take_eq 0 hs) (by decide +kernel)

/-! ## Command names -/

theorem comparisons_head {s : Shell κ} {nullEq : List Byte → Bool}
    {argv : List (Option (List Byte))} {q : Option (List Byte) × List Byte}
    (h : q ∈ s.comparisons nullEq argv) : q.1 = argv.headD none ∧ s.commands ≠ [] := by
  obtain ⟨name, hname, rfl⟩ := List.mem_map.mp h
  refine ⟨rfl, fun hnil => ?_⟩
  rw [hnil] at hname
  exact absurd hname (by simp [findCommand])

/-- As soon as a command is registered, `argv[0]` is compared with its name. -/
theorem comparisons_first {s : Shell κ} (h : s.commands ≠ []) (nullEq : List Byte → Bool)
    (argv : List (Option (List Byte))) : ∃ q ∈ s.comparisons nullEq argv, q.1 = argv.headD none := by
  obtain ⟨c, cs, hc⟩ := List.exists_cons_of_ne_nil h
  refine ⟨(argv.headD none, c.name.bytes), ?_, rfl⟩
  rw [comparisons, hc, findCommand]
  split <;> exact List.mem_map.mpr ⟨c.name, List.mem_cons_self, rfl⟩

theorem argvOf_headD (ts : List (List Byte)) : (argvOf ts).headD none = ts.head? := by
  cases ts <;> rfl

theorem selected_token {s : Shell κ} {nullEq : List Byte → Bool} {w : List Byte} (h : Pending s w)
    (hw : segmentTokens w ≠ []) :
    s.selected nullEq s.tokenised = none ↔
      ∀ c ∈ s.commands, (segmentTokens w).head? ≠ some c.name.bytes := by
  obtain ⟨t, ts, ht⟩ := List.exists_cons_of_ne_nil hw
  rw [selected_eq, tokenised_eq h, argvOf_headD, ht, List.find?_eq_none]
  simp [nameMatches]

/-- However the stream is delivered, `argv[0]` is present in every comparison, every
element of `argv` below `argc` is present in every call, and a line without a token
runs no registered command. -/
def NamesPresent (messageBuffer : MessageBuffer) (default : Option κ)
    (regs : List (CommandName × κ)) (stream : List Byte) : Prop :=
  ∀ (nullEq : List Byte → Bool) (chunks : List (List Byte)) (rest : List Byte),
    stream = chunks.flatten ++ CR :: rest →
    let s := ((build messageBuffer default regs).processInputs nullEq chunks).1
    (∀ q ∈ s.comparisons nullEq s.tokenised, q.1 ≠ none) ∧
    (∀ i, (s.processByte nullEq CR).2 = some i → ∀ a ∈ i.arguments, a ≠ none) ∧
    (segmentTokens (unfinished chunks.flatten) = [] → s.selected nullEq s.tokenised = none)

/-- What the array must have kept of a finished line: a token, and no registered
name if the line itself is without a token. -/
def NamesLine (commands : List (Command κ)) (line : List Byte) : Prop :=
  segmentTokens (kept line) ≠ [] ∧
    (segmentTokens line = [] →
      ∀ c ∈ commands, (segmentTokens (kept line)).head? ≠ some c.name.bytes)

/-- The comparison at the end of a line without a token. -/
theorem NamesPresent.token {messageBuffer : MessageBuffer} {default : Option κ}
    {regs : List (CommandName × κ)} {stream u rest : List Byte}
    (h : NamesPresent messageBuffer default regs stream)
    (hregs : (build messageBuffer default regs).commands ≠ []) (hs : stream = u ++ CR :: rest) :
    segmentTokens (kept (unfinished u)) ≠ [] := by
  intro hnil
  have hu : [u].flatten = u := List.flatten_singleton
  obtain ⟨hcmp, -, -⟩ := h (fun _ => false) [u] rest (by rw [hu]; exact hs)
  obtain ⟨hpend, hreg⟩ := processInputs_unfinished messageBuffer default regs (fun _ => false) [u]
  rw [hu] at hpend
  obtain ⟨q, hq, hhead⟩ := comparisons_first ((Prod.mk.inj hreg).1 ▸ hregs) (fun _ => false)
    ((build messageBuffer default regs).processInputs (fun _ => false) [u]).1.tokenised
  refine hcmp q hq ?_
  rw [hhead, tokenised_eq hpend, argvOf_headD, hnil]
  rfl

/-- The dispatch only ever compares present command names if and only if nothing
is registered or the array keeps a token of every finished line, and of one without
a token no registered name. -/
theorem namesPresent_iff (messageBuffer : MessageBuffer) (default : Option κ)
    (regs : List (CommandName × κ)) (stream : List Byte) :
    NamesPresent messageBuffer default regs stream ↔
      (build messageBuffer default regs).commands = [] ∨
        ∀ u rest, stream = u ++ CR :: rest →
          NamesLine (build messageBuffer default regs).commands (unfinished u) := by
  constructor
  · intro h
    by_cases hregs : (build messageBuffer default regs).commands = []
    · exact .inl hregs
    · refine .inr (fun u rest hs => ⟨h.token hregs hs, fun hline => ?_⟩)
      have hu : [u].flatten = u := List.flatten_singleton
      obtain ⟨-, -, hsel⟩ := h (fun _ => false) [u] rest (by rw [hu]; exact hs)
      obtain ⟨hpend, hreg⟩ :=
        processInputs_unfinished messageBuffer default regs (fun _ => false) [u]
      rw [hu] at hpend hsel
      have hall := (selected_token hpend (h.token hregs hs)).mp (hsel hline)
      rwa [(Prod.mk.inj hreg).1] at hall
  · intro h nullEq chunks rest hs
    obtain ⟨hpend, hreg⟩ := processInputs_unfinished messageBuffer default regs nullEq chunks
    have hargs : ∀ i, (((build messageBuffer default regs).processInputs nullEq chunks).1.processByte
        nullEq CR).2 = some i → ∀ a ∈ i.arguments, a ≠ none := by
      intro i hi a ha
      rw [processInputs_CR] at hi
      rw [(lineCall_onLine hi).2] at ha
      obtain ⟨t, -, rfl⟩ := List.mem_map.mp ha
      simp
    rcases h with hnone | hline
    · rw [← (Prod.mk.inj hreg).1] at hnone
      refine ⟨fun q hq => absurd hnone (comparisons_head hq).2, hargs, fun _ => ?_⟩
      rw [selected_eq, hnone]
      rfl
    · obtain ⟨htok, hnames⟩ := hline _ rest hs
      refine ⟨fun q hq => ?_, hargs, fun hnil => ?_⟩
      · rw [(comparisons_head hq).1, tokenised_eq hpend, argvOf_headD]
        exact fun hnone => htok (List.head?_eq_none_iff.mp hnone)
      · rw [selected_token hpend htok, (Prod.mk.inj hreg).1]
        exact hnames hnil

/-- An empty line, as `SendEmptyMsg` sends it, compares a null pointer. -/
theorem namesPresent_empty_line :
    ¬ NamesPresent (κ := Nat) ⟨List.replicate 64 0, by decide⟩ (some 0)
      [(⟨ascii "m", by decide, forall_mem_of_all (by decide)⟩, 1)] [CR] := by
  intro h
  have hs : [CR] = [] ++ CR :: [] := rfl
  exact h.token (by decide) hs (by decide)

end Shell

end AndinoFirmware
