import Mathlib.Data.List.Basic
import Andino.Firmware.Shell

/-!
# Dispatch of a byte stream

The specification reads the stream as a whole: drop the line feeds, cut at every
carriage return, take the space-separated tokens of each segment up to its first
NUL. The induction over the bytes carries `Pending`: what is kept of the
unfinished segment is what the array holds below the index. Nothing above the
index is ever read, so bytes left over from longer messages do not matter.
-/
namespace AndinoFirmware

open CString

namespace Shell

variable {κ : Type}

/-- The array below the index is the unfinished segment `w`. -/
def Pending (s : Shell κ) (w : List Byte) : Prop :=
  s.messageIndex = w.length ∧ s.messageBuffer.1.take w.length = w

/-- The registered commands and the default callback. -/
def registry (s : Shell κ) : List (Command κ) × Option κ := (s.commands, s.defaultCallback)

/-- The tokens of a segment up to its first NUL. -/
def segmentTokens (w : List Byte) : List (List Byte) := tokens [SP] (w.takeWhile (· ≠ 0))

/-- The elements of `argv` that tokenising assigns: all the tokens and the null
pointer behind them, as far as the array goes. -/
def argvOf (ts : List (List Byte)) : List (Option (List Byte)) :=
  (ts.map some ++ [none]).take kCommandArgMax

/-- The tokenising loop leaves the tokens of the string in `argv`; the pointers
stay valid because later calls only write behind the saved pointer. -/
theorem fillArgv_tokens (m : List Byte) (p n : Nat) (h : Terminated m p) :
    (fillArgv m p n).1.map (Option.map (cstr (fillArgv m p n).2)) =
      ((tokens [SP] (cstr m p)).map some ++ [none]).take (n + 1) ∧
    ∀ i, i ≤ p → (fillArgv m p n).2[i]? = m[i]? := by
  induction n generalizing m p with
  | zero =>
    cases ht : tokens [SP] (cstr m p) with
    | nil =>
      obtain ⟨q, hq⟩ := strtokR_none h ht
      simp [fillArgv, hq]
    | cons w ws =>
      obtain ⟨s, m', q, hs, -, hw, -, -, -, -, hkeep⟩ := strtokR_some h ht
      simp only [fillArgv, hs, List.map_cons, Option.map_some, hw, List.map_nil, List.cons_append,
        Nat.zero_add, List.take_succ_cons, List.take_zero, true_and]
      exact hkeep
  | succ n ih =>
    cases ht : tokens [SP] (cstr m p) with
    | nil =>
      obtain ⟨q, hq⟩ := strtokR_none h ht
      simp [fillArgv, hq]
    | cons w ws =>
      obtain ⟨s, m', q, hs, hts, hw, hps, hle, htq, hws, hkeep⟩ := strtokR_some h ht
      obtain ⟨hargs, hkeep'⟩ := ih m' q htq
      have hfirst : cstr (fillArgv m' q n).2 s = w := by
        rw [cstr_congr hts (fun i hi => hkeep' i (by rw [hw] at hi; omega)), hw]
      simp only [fillArgv, hs, List.map_cons, Option.map_some, hfirst, hargs, hws, List.cons_append,
        List.take_succ_cons, true_and]
      intro i hi
      rw [hkeep' i (by omega), hkeep i hi]

theorem argvOf_length (ts : List (List Byte)) :
    (argvOf ts).length - 1 = min ts.length (kCommandArgMax - 1) := by
  simp only [argvOf, List.length_take, List.length_append, List.length_map, List.length_singleton,
    kCommandArgMax]
  omega

/-- The arguments a callback may look at are tokens, in order. -/
theorem argvOf_take (ts : List (List Byte)) :
    (argvOf ts).take (min ts.length (kCommandArgMax - 1)) =
      (ts.take (kCommandArgMax - 1)).map some := by
  have h : min (min ts.length (kCommandArgMax - 1)) kCommandArgMax = min ts.length (kCommandArgMax - 1) := by
    unfold kCommandArgMax
    omega
  rw [argvOf, List.take_take, h, List.take_append_of_le_length
    (by rw [List.length_map]; exact Nat.min_le_left _ _), ← List.map_take]
  congr 1
  rw [Nat.min_comm, ← List.take_eq_take_min]

/-- The array once the terminator is stored holds the segment up to its first NUL. -/
theorem write_cstr (s : Shell κ) (w : List Byte) (h : Pending s w) :
    cstr (s.messageBuffer.write s.messageIndex 0).1 0 = w.takeWhile (· ≠ 0) ∧
      Terminated (s.messageBuffer.write s.messageIndex 0).1 0 := by
  have hlen : w.length < s.messageBuffer.1.length := by
    rw [s.messageBuffer.2, ← h.1]
    exact s.index_lt
  have hset : (s.messageBuffer.write s.messageIndex 0).1 =
      w ++ 0 :: s.messageBuffer.1.drop (w.length + 1) := by
    change s.messageBuffer.1.set s.messageIndex 0 = _
    rw [h.1, List.set_eq_take_append_cons_drop, if_pos hlen, h.2]
  have hcstr : cstr (s.messageBuffer.write s.messageIndex 0).1 0 = w.takeWhile (· ≠ 0) := by
    rw [hset, cstr, List.drop_zero]
    exact takeWhile_append_nul w _
  refine ⟨hcstr, ?_⟩
  unfold Terminated
  have hle := (List.takeWhile_prefix (l := w) (fun c : Byte => decide (c ≠ 0))).length_le
  rw [hcstr, (s.messageBuffer.write s.messageIndex 0).2, ← s.messageBuffer.2]
  omega

/-- `argv` when a carriage return arrives. -/
def tokenised (s : Shell κ) : List (Option (List Byte)) :=
  (tokenise (s.messageBuffer.write s.messageIndex 0)).1

theorem tokenised_eq {s : Shell κ} {w : List Byte} (h : Pending s w) :
    s.tokenised = argvOf (segmentTokens w) := by
  obtain ⟨hc, ht⟩ := write_cstr s w h
  have hargs := (fillArgv_tokens _ 0 (kCommandArgMax - 1) ht).1
  rw [hc] at hargs
  exact hargs

/-- The loop stops at the last element of `argv`. -/
theorem fillArgv_fst_length_le (m : List Byte) (p n : Nat) : (fillArgv m p n).1.length ≤ n + 1 := by
  induction n generalizing m p with
  | zero => exact Nat.le_refl 1
  | succ n ih =>
    rw [fillArgv]
    split
    · exact Nat.succ_le_succ (Nat.zero_le _)
    · exact Nat.succ_le_succ (ih _ _)

theorem tokenised_length_le (s : Shell κ) : s.tokenised.length ≤ kCommandArgMax := by
  rw [tokenised, tokenise, List.length_map]
  exact fillArgv_fst_length_le _ 0 (kCommandArgMax - 1)

/-- A carriage return hands `argv` on as it is, with the number of its tokens. -/
theorem processByte_tokenised (s : Shell κ) (nullEq : List Byte → Bool) :
    (s.processByte nullEq CR).2 =
      s.executeCallback nullEq (s.tokenised.length - 1) s.tokenised := rfl

/-- Registrations are made before the first byte only. -/
theorem processByte_registry (s : Shell κ) (nullEq : List Byte → Bool) (c : Byte) :
    (s.processByte nullEq c).1.registry = s.registry := by
  unfold processByte
  split
  · rfl
  · split
    · rfl
    · dsimp only
      split <;> rfl

/-- A carriage return dispatches the pending segment and starts a new one. -/
theorem processByte_CR (s : Shell κ) (nullEq : List Byte → Bool) (w : List Byte)
    (h : Pending s w) :
    Pending (s.processByte nullEq CR).1 [] ∧
      (s.processByte nullEq CR).1.registry = s.registry ∧
      (s.processByte nullEq CR).2 =
        s.executeCallback nullEq (min (segmentTokens w).length (kCommandArgMax - 1))
          (argvOf (segmentTokens w)) := by
  refine ⟨⟨rfl, rfl⟩, rfl, ?_⟩
  rw [processByte_tokenised, tokenised_eq h, argvOf_length]

/-- Any other byte but a line feed extends the pending segment, as long as it fits. -/
theorem processByte_store (s : Shell κ) (nullEq : List Byte → Bool) (w : List Byte) (c : Byte)
    (h : Pending s w) (hw : w.length + 1 < kCommandPromptLengthMax) (hcr : c ≠ CR) (hlf : c ≠ LF) :
    Pending (s.processByte nullEq c).1 (w ++ [c]) ∧
      (s.processByte nullEq c).1.registry = s.registry ∧ (s.processByte nullEq c).2 = none := by
  have hi : ¬ s.messageIndex + 1 ≥ kCommandPromptLengthMax := by
    rw [h.1]
    omega
  have hlen : w.length < s.messageBuffer.1.length := by
    rw [s.messageBuffer.2]
    omega
  simp only [processByte, if_neg hcr, if_neg hlf, dif_neg hi]
  refine ⟨⟨?_, ?_⟩, rfl, trivial⟩
  · change s.messageIndex + 1 = _
    rw [h.1, List.length_append, List.length_singleton]
  · change (s.messageBuffer.1.set s.messageIndex c).take _ = _
    rw [h.1, List.set_eq_take_append_cons_drop, if_pos hlen, h.2, List.length_append,
      List.take_length_add_append]
    rfl

/-- What the array keeps of a line: whenever it is full, it starts over. -/
def kept (line : List Byte) : List Byte :=
  line.drop (kCommandPromptLengthMax * (line.length / kCommandPromptLengthMax))

theorem kept_length (line : List Byte) :
    (kept line).length = line.length % kCommandPromptLengthMax := by
  have h := Nat.div_add_mod line.length kCommandPromptLengthMax
  rw [kept, List.length_drop]
  omega

/-- A line that fits is kept whole. -/
theorem kept_of_lt {line : List Byte} (h : line.length < kCommandPromptLengthMax) :
    kept line = line := by
  rw [kept, Nat.div_eq_of_lt h, Nat.mul_zero, List.drop_zero]

theorem kept_append {line : List Byte} (c : Byte)
    (h : (kept line).length + 1 < kCommandPromptLengthMax) : kept (line ++ [c]) = kept line ++ [c] := by
  rw [kept_length] at h
  have hdiv : (line ++ [c]).length / kCommandPromptLengthMax = line.length / kCommandPromptLengthMax := by
    have hpos : 0 < kCommandPromptLengthMax := by decide
    have hm := Nat.div_add_mod line.length kCommandPromptLengthMax
    rw [List.length_append, List.length_singleton]
    refine Nat.div_eq_of_lt_le ?_ ?_
    · rw [Nat.mul_comm]
      omega
    · rw [Nat.mul_comm, Nat.mul_succ]
      omega
  have hle : kCommandPromptLengthMax * (line.length / kCommandPromptLengthMax) ≤ line.length :=
    Nat.mul_div_le _ _
  rw [kept, hdiv, List.drop_append_of_le_length hle, kept]

theorem kept_append_full {line : List Byte} (c : Byte)
    (h : ¬ (kept line).length + 1 < kCommandPromptLengthMax) : kept (line ++ [c]) = [] := by
  have hmod := Nat.mod_lt (line ++ [c]).length (show 0 < kCommandPromptLengthMax by decide)
  have hlen : (line ++ [c]).length % kCommandPromptLengthMax = 0 := by
    rw [kept_length] at h
    rw [List.length_append, List.length_singleton] at hmod ⊢
    unfold kCommandPromptLengthMax at *
    omega
  exact List.eq_nil_of_length_eq_zero ((kept_length _).trans hlen)

/-- The byte that fills the array empties it. -/
theorem processByte_full (s : Shell κ) (nullEq : List Byte → Bool) (w : List Byte) (c : Byte)
    (h : Pending s w) (hw : ¬ w.length + 1 < kCommandPromptLengthMax) (hcr : c ≠ CR) (hlf : c ≠ LF) :
    Pending (s.processByte nullEq c).1 [] ∧
      (s.processByte nullEq c).1.registry = s.registry ∧ (s.processByte nullEq c).2 = none := by
  have hi : s.messageIndex + 1 ≥ kCommandPromptLengthMax := by
    rw [h.1]
    omega
  simp only [processByte, if_neg hcr, if_neg hlf, dif_pos hi]
  exact ⟨⟨rfl, rfl⟩, rfl, trivial⟩

/-- Any byte but the line ends extends the line. -/
theorem processByte_extend (s : Shell κ) (nullEq : List Byte → Bool) (line : List Byte) (c : Byte)
    (h : Pending s (kept line)) (hcr : c ≠ CR) (hlf : c ≠ LF) :
    Pending (s.processByte nullEq c).1 (kept (line ++ [c])) ∧
      (s.processByte nullEq c).1.registry = s.registry ∧ (s.processByte nullEq c).2 = none := by
  by_cases hfit : (kept line).length + 1 < kCommandPromptLengthMax
  · rw [kept_append c hfit]
    exact processByte_store s nullEq _ c h hfit hcr hlf
  · rw [kept_append_full c hfit]
    exact processByte_full s nullEq _ c h hfit hcr hlf

theorem processByte_LF (s : Shell κ) (nullEq : List Byte → Bool) :
    s.processByte nullEq LF = (s, none) := by
  have h : LF ≠ CR := by decide
  simp [processByte, h]

/-- Chunk boundaries are invisible. -/
theorem processInput_append (nullEq : List Byte → Bool) (s : Shell κ) (xs ys : List Byte) :
    s.processInput nullEq (xs ++ ys) =
      ((processInput nullEq (s.processInput nullEq xs).1 ys).1,
        (s.processInput nullEq xs).2 ++ (processInput nullEq (s.processInput nullEq xs).1 ys).2) := by
  induction xs generalizing s with
  | nil => rfl
  | cons c xs ih => simp [processInput, ih]

theorem processInputs_flatten (nullEq : List Byte → Bool) (s : Shell κ) (chunks : List (List Byte)) :
    s.processInputs nullEq chunks = s.processInput nullEq chunks.flatten := by
  induction chunks generalizing s with
  | nil => rfl
  | cons chunk chunks ih => simp [processInputs, processInput_append, ih]

/-- What a caller of the callback can observe: `argc` and `argv[0..argc-1]`. -/
def Invocation.observed (i : Invocation κ) : κ × Nat × List (Option (List Byte)) :=
  (i.callback, i.argc, i.arguments)

/-- The segments of a stream; all but the last are ended by a carriage return. -/
def segments (stream : List Byte) : List (List Byte) := (stream.filter (· ≠ LF)).splitOn CR

/-- The call made for what has been kept of a line. -/
def lineCall (s : Shell κ) (nullEq : List Byte → Bool) (w : List Byte) : Option (Invocation κ) :=
  s.executeCallback nullEq (min (segmentTokens w).length (kCommandArgMax - 1))
    (argvOf (segmentTokens w))

/-- The call the specification asks for on a terminated segment. -/
def expected (registry : List (Command κ) × Option κ) (w : List Byte) :
    Option (κ × Nat × List (Option (List Byte))) :=
  let ts := segmentTokens w
  let callback :=
    match registry.1.find? (fun c => ts.head? = some c.name.bytes) with
    | some c => some c.callback
    | none => registry.2
  callback.map (fun k =>
    (k, min ts.length (kCommandArgMax - 1), (ts.take (kCommandArgMax - 1)).map some))

theorem lineCall_expected (s : Shell κ) (nullEq : List Byte → Bool) (w : List Byte)
    (h : segmentTokens w ≠ []) :
    (s.lineCall nullEq w).map Invocation.observed = expected s.registry w := by
  have htake := argvOf_take (segmentTokens w)
  unfold expected lineCall executeCallback
  dsimp only [registry]
  obtain ⟨t, ts, ht⟩ := List.exists_cons_of_ne_nil h
  have hhead : (argvOf (segmentTokens w)).headD none = some t := by
    rw [ht]
    rfl
  have hfind : (fun c : Command κ => nameMatches nullEq ((argvOf (segmentTokens w)).headD none) c.name) =
      (fun c : Command κ => decide ((segmentTokens w).head? = some c.name.bytes)) := by
    funext c
    rw [hhead, ht]
    simp [nameMatches]
  rw [selected_eq, hfind]
  cases s.commands.find? (fun c => decide ((segmentTokens w).head? = some c.name.bytes)) with
  | some c => simp only [Option.map_some, Invocation.observed, Invocation.arguments, htake]
  | none =>
    cases s.defaultCallback with
    | none => rfl
    | some k => simp only [Option.map_some, Invocation.observed, Invocation.arguments, htake]

theorem lineCall_registry {s s' : Shell κ} (h : s.registry = s'.registry)
    (nullEq : List Byte → Bool) (w : List Byte) : s.lineCall nullEq w = s'.lineCall nullEq w := by
  obtain ⟨hc, hd⟩ := Prod.mk.inj h
  rw [lineCall, lineCall, executeCallback, executeCallback, selected, selected, hc, hd]

/-- The loop invariant over the bytes of a stream, with `line` already received. -/
theorem processInput_segments (nullEq : List Byte → Bool) (stream : List Byte) (s : Shell κ)
    (line : List Byte) (h : Pending s (kept line)) (hl : CR ∉ line) :
    (s.processInput nullEq stream).2 =
      ((line ++ stream.filter (· ≠ LF)).splitOn CR).dropLast.filterMap
        (fun seg => s.lineCall nullEq (kept seg)) ∧
    Pending (s.processInput nullEq stream).1
      (kept (((line ++ stream.filter (· ≠ LF)).splitOn CR).getLastD [])) ∧
    (s.processInput nullEq stream).1.registry = s.registry := by
  induction stream generalizing s line with
  | nil =>
    have hs : (line ++ List.filter (· ≠ LF) []).splitOn CR = [line] := by
      rw [List.filter_nil, List.append_nil]
      exact List.splitOn_eq_singleton hl
    rw [hs]
    exact ⟨rfl, h, rfl⟩
  | cons c stream ih =>
    by_cases hlf : c = LF
    · subst hlf
      have hf : List.filter (· ≠ LF) (LF :: stream) = List.filter (· ≠ LF) stream := by simp
      rw [hf]
      simp only [processInput, processByte_LF, Option.toList_none, List.nil_append]
      exact ih s line h hl
    · have hf : List.filter (· ≠ LF) (c :: stream) = c :: List.filter (· ≠ LF) stream := by
        simp [hlf]
      rw [hf]
      by_cases hcr : c = CR
      · -- the line is dispatched and the next one starts empty
        subst hcr
        have hsplit : (line ++ CR :: List.filter (· ≠ LF) stream).splitOn CR =
            line :: (List.filter (· ≠ LF) stream).splitOn CR := by
          rw [List.splitOn_append_cons_self, List.splitOn_eq_singleton hl, List.singleton_append]
        have hne := List.splitOn_ne_nil CR (List.filter (· ≠ LF) stream)
        have hlast : (line :: (List.filter (· ≠ LF) stream).splitOn CR).getLastD [] =
            ((List.filter (· ≠ LF) stream).splitOn CR).getLastD [] := by
          rw [List.getLastD_cons]
          obtain ⟨a, segs, hs⟩ := List.exists_cons_of_ne_nil hne
          rw [hs, List.getLastD_cons, List.getLastD_cons]
        obtain ⟨hp, hreg, hinv⟩ := processByte_CR s nullEq (kept line) h
        obtain ⟨hcalls, hpend, hreg'⟩ := ih _ [] hp (by simp)
        rw [List.nil_append] at hcalls hpend
        rw [hsplit, hlast, List.dropLast_cons_of_ne_nil hne]
        refine ⟨?_, hpend, hreg'.trans hreg⟩
        simp only [processInput, hcalls, lineCall_registry hreg]
        rw [List.filterMap_cons, hinv]
        change (s.lineCall nullEq (kept line)).toList ++ _ = _
        cases s.lineCall nullEq (kept line) <;> rfl
      · have hassoc : line ++ c :: List.filter (· ≠ LF) stream =
            (line ++ [c]) ++ List.filter (· ≠ LF) stream := by simp
        have hl' : CR ∉ line ++ [c] := by simp [hl, Ne.symm hcr]
        obtain ⟨hp, hreg, hinv⟩ := processByte_extend s nullEq line c h hcr hlf
        obtain ⟨hcalls, hpend, hreg'⟩ := ih _ (line ++ [c]) hp hl'
        rw [hassoc]
        refine ⟨?_, hpend, hreg'.trans hreg⟩
        simp only [processInput, hinv, Option.toList_none, List.nil_append, hcalls,
          lineCall_registry hreg]

/-- A shell with its commands registered in order, and a default callback if any. -/
def build (messageBuffer : MessageBuffer) (default : Option κ) (regs : List (CommandName × κ)) :
    Shell κ :=
  regs.foldl (fun s r => s.registerCommand r.1 r.2)
    (match default with
      | none => construct messageBuffer
      | some callback => (construct messageBuffer).setDefaultCallback callback)

/-- Registering commands leaves the line alone. -/
theorem foldl_registerCommand_index (regs : List (CommandName × κ)) (s : Shell κ) :
    (regs.foldl (fun s r => s.registerCommand r.1 r.2) s).messageIndex = s.messageIndex := by
  induction regs generalizing s with
  | nil => rfl
  | cons r regs ih =>
    rw [List.foldl_cons, ih, registerCommand]
    split <;> rfl

theorem pending_build (messageBuffer : MessageBuffer) (default : Option κ)
    (regs : List (CommandName × κ)) : Pending (build messageBuffer default regs) [] := by
  refine ⟨?_, rfl⟩
  unfold build
  rw [foldl_registerCommand_index]
  cases default <;> rfl

/-- Up to the limit, registration appends. -/
theorem foldl_registerCommand (regs : List (CommandName × κ)) (s : Shell κ)
    (h : s.commands.length + regs.length ≤ kCommandsMax) :
    (regs.foldl (fun s r => s.registerCommand r.1 r.2) s).registry =
      (s.commands ++ regs.map (fun r => ⟨r.1, r.2⟩), s.defaultCallback) := by
  induction regs generalizing s with
  | nil => simp [registry]
  | cons r regs ih =>
    rw [List.length_cons] at h
    have hlt : ¬ s.commands.length ≥ kCommandsMax := by omega
    have hreg : (s.registerCommand r.1 r.2).commands = s.commands ++ [⟨r.1, r.2⟩] := by
      rw [registerCommand, dif_neg hlt]
    have hdef : (s.registerCommand r.1 r.2).defaultCallback = s.defaultCallback := by
      rw [registerCommand, dif_neg hlt]
    have h₁ := ih (s.registerCommand r.1 r.2)
      (by rw [hreg, List.length_append, List.length_singleton]; omega)
    rw [List.foldl_cons, h₁, hreg, hdef]
    simp

theorem build_registry (messageBuffer : MessageBuffer) (default : Option κ)
    (regs : List (CommandName × κ)) (h : regs.length ≤ kCommandsMax) :
    (build messageBuffer default regs).registry =
      (regs.map (fun r => ⟨r.1, r.2⟩), default) := by
  unfold build
  cases default with
  | none => exact foldl_registerCommand regs (construct messageBuffer) (by simpa [construct] using h)
  | some callback =>
    exact foldl_registerCommand regs ((construct messageBuffer).setDefaultCallback callback)
      (by simpa [construct, setDefaultCallback] using h)

theorem splitOn_length (l : List Byte) : (l.splitOn CR).length = l.count CR + 1 := by
  induction l with
  | nil => rfl
  | cons c l ih =>
    rw [List.splitOn_cons_eq_if_modifyHead, List.count_cons]
    split
    · rw [List.length_cons, ih]
    · rw [List.length_modifyHead, ih, Nat.add_zero]

/-- A stream has one terminated segment for each carriage return. -/
theorem segments_dropLast_length (stream : List Byte) :
    (segments stream).dropLast.length = stream.count CR := by
  have h : CR ≠ LF := by decide
  rw [segments, List.length_dropLast, splitOn_length, List.count_filter (by simpa using h)]
  rfl

/-- Dispatch equals its specification for every registry, stream and chunking:
one call for each carriage return, in order, on the tokens of its segment, and
the bytes behind the last one stay pending. -/
theorem dispatch_exact (messageBuffer : MessageBuffer) (default : Option κ)
    (regs : List (CommandName × κ)) (nullEq : List Byte → Bool) (chunks : List (List Byte))
    (hregs : regs.length ≤ kCommandsMax)
    (hlen : ∀ seg ∈ segments chunks.flatten, seg.length ≤ 63)
    (htok : ∀ seg ∈ (segments chunks.flatten).dropLast, ∃ c ∈ seg.takeWhile (· ≠ 0), c ≠ SP) :
    ((build messageBuffer default regs).processInputs nullEq chunks).2.map Invocation.observed =
      (segments chunks.flatten).dropLast.filterMap
        (expected (regs.map (fun r => ⟨r.1, r.2⟩), default)) ∧
    (default ≠ none →
      ((build messageBuffer default regs).processInputs nullEq chunks).2.length =
        chunks.flatten.count CR) ∧
    Pending ((build messageBuffer default regs).processInputs nullEq chunks).1
      ((segments chunks.flatten).getLastD []) := by
  have hreg := build_registry messageBuffer default regs hregs
  have hpend := pending_build messageBuffer default regs
  have htok' : ∀ seg ∈ (segments chunks.flatten).dropLast, segmentTokens seg ≠ [] := by
    intro seg hseg hnil
    obtain ⟨c, hc, hsp⟩ := htok seg hseg
    have hall := (tokens_eq_nil_iff [SP] _).mp hnil c hc
    exact hsp (List.mem_singleton.mp hall)
  have hfit : ∀ seg ∈ segments chunks.flatten, kept seg = seg :=
    fun seg hs => kept_of_lt (Nat.lt_of_le_of_lt (hlen seg hs) (by decide))
  obtain ⟨hcalls, hlast, -⟩ := processInput_segments nullEq chunks.flatten _ [] hpend (by simp)
  have hobserved : ((build messageBuffer default regs).processInputs nullEq chunks).2.map
      Invocation.observed = (segments chunks.flatten).dropLast.filterMap
        (expected (regs.map (fun r => ⟨r.1, r.2⟩), default)) := by
    rw [processInputs_flatten, hcalls, List.map_filterMap, ← hreg]
    refine List.filterMap_congr (fun seg hs => ?_)
    rw [hfit seg (List.dropLast_subset _ hs)]
    exact lineCall_expected _ nullEq seg (htok' seg hs)
  have hmem : (segments chunks.flatten).getLastD [] ∈ segments chunks.flatten := by
    obtain ⟨a, segs, hs⟩ := List.exists_cons_of_ne_nil
      (List.splitOn_ne_nil CR (chunks.flatten.filter (· ≠ LF)))
    rw [segments, hs, List.getLastD_cons]
    exact List.getLastD_mem_cons
  refine ⟨hobserved, ?_, ?_⟩
  · intro hdef
    -- with a default callback no terminated segment goes without a call
    have hsome : ∀ seg, (expected (regs.map (fun r => ⟨r.1, r.2⟩), default) seg).isSome = true := by
      intro seg
      obtain ⟨k, rfl⟩ := Option.ne_none_iff_exists'.mp hdef
      simp only [expected, Option.isSome_map]
      split <;> rfl
    have hl := congrArg List.length hobserved
    rw [List.length_map, List.length_filterMap_eq_countP] at hl
    rw [hl, ← segments_dropLast_length]
    exact List.countP_eq_length.mpr (fun seg _ => hsome seg)
  · rw [List.nil_append] at hlast
    rw [processInputs_flatten, ← hfit _ hmem]
    exact hlast

/-- Two lines in two chunks, the first one split in the middle of a token. -/
theorem dispatch_exact_two_chunks :
    ((build (κ := Nat) ⟨List.replicate 64 65, by decide⟩ (some 0)
        [(⟨ascii "a", by decide, forall_mem_of_all (by decide)⟩, 1)]).processInputs (fun _ => false)
        [ascii "a 1", ascii "2\r\nz\r"]).2.map Invocation.observed =
      [(1, 2, [some (ascii "a"), some (ascii "12")]), (0, 1, [some (ascii "z")])] := by
  have h := (dispatch_exact (κ := Nat) ⟨List.replicate 64 65, by decide⟩ (some 0)
    [(⟨ascii "a", by decide, forall_mem_of_all (by decide)⟩, 1)] (fun _ => false) [ascii "a 1", ascii "2\r\nz\r"]
    (by decide) (by decide) (by decide)).1
  exact h.trans (by decide)

end Shell

end AndinoFirmware
