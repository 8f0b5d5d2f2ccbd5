import Andino.Library.CString

/-!
# The command shell

Bytes are collected in a fixed array until a carriage return, then split in
place by `strtok` and dispatched on the first token. The shell is generic in the
callbacks, which stand for the function pointers of the source; processing a
byte returns the invocation it causes, if any.
-/
namespace AndinoFirmware

open CString

namespace Shell

/-- Maximum command name length, the NUL included. -/
def kCommandNameLengthMax : Nat := 8

/-- Maximum number of commands that can be registered. -/
def kCommandsMax : Nat := 16

/-- Maximum number of command arguments that can be processed. -/
def kCommandArgMax : Nat := 16

/-- Maximum command prompt message length. -/
def kCommandPromptLengthMax : Nat := 64

/-- A C string that fits the name array of a registry entry. -/
structure CommandName where
  bytes : List Byte
  fits : bytes.length < kCommandNameLengthMax
  noNul : ∀ c ∈ bytes, c ≠ 0

structure Command (κ : Type) where
  name : CommandName
  callback : κ

abbrev MessageBuffer := { m : List Byte // m.length = kCommandPromptLengthMax }

def MessageBuffer.write (m : MessageBuffer) (i : Nat) (c : Byte) : MessageBuffer :=
  ⟨m.1.set i c, by rw [List.length_set, m.2]⟩

/-- A call of a command callback: `argv` holds the elements that were assigned,
`none` standing for a null pointer. -/
structure Invocation (κ : Type) where
  callback : κ
  argc : Nat
  argv : List (Option (List Byte))
  deriving DecidableEq, Repr

/-- The elements of `argv` below `argc`. -/
def Invocation.arguments {κ : Type} (i : Invocation κ) : List (Option (List Byte)) :=
  i.argv.take i.argc

end Shell

/-- The index is inside the array at every call: writes need no further check. -/
structure Shell (κ : Type) where
  defaultCallback : Option κ
  commands : List (Shell.Command κ)
  commands_le : commands.length ≤ Shell.kCommandsMax
  messageBuffer : Shell.MessageBuffer
  messageIndex : Nat
  index_lt : messageIndex < Shell.kCommandPromptLengthMax

namespace Shell

variable {κ : Type}

/-- A constructed shell; the contents of the message array are not specified. -/
def construct (messageBuffer : MessageBuffer) : Shell κ where
  defaultCallback := none
  commands := []
  commands_le := Nat.zero_le _
  messageBuffer := messageBuffer
  messageIndex := 0
  index_lt := by decide

def setDefaultCallback (s : Shell κ) (callback : κ) : Shell κ :=
  { s with defaultCallback := some callback }

def registerCommand (s : Shell κ) (name : CommandName) (callback : κ) : Shell κ :=
  if h : s.commands.length ≥ kCommandsMax then s
  else
    { s with
      commands := s.commands ++ [⟨name, callback⟩]
      commands_le := by
        rw [List.length_append, List.length_singleton]
        omega }

/-- The loop of `parse_message`: this element of `argv`, then at most `n` more. -/
def fillArgv (m : List Byte) (p : Nat) : Nat → List (Option Nat) × List Byte
  | 0 =>
    let r := strtokR [SP] m p
    ([r.1], r.2.1)
  | n + 1 =>
    match strtokR [SP] m p with
    | (none, m', _) => ([none], m')
    | (some s, m', q) =>
      let r := fillArgv m' q n
      (some s :: r.1, r.2)

/-- `if (!strcmp(argv[0], name))`. What a null pointer compares equal to is not
defined and is left to `nullEq`. -/
def nameMatches (nullEq : List Byte → Bool) (arg : Option (List Byte)) (name : CommandName) : Bool :=
  match arg with
  | some w => w = name.bytes
  | none => nullEq name.bytes

/-- The loop of `execute_callback`: the names that `argv[0]` is compared with, and the command
of the first match. -/
def findCommand (nullEq : List Byte → Bool) (arg : Option (List Byte)) :
    List (Command κ) → List CommandName × Option (Command κ)
  | [] => ([], none)
  | c :: cs =>
    if nameMatches nullEq arg c.name then ([c.name], some c)
    else
      let r := findCommand nullEq arg cs
      (c.name :: r.1, r.2)

/-- The comparisons that `execute_callback` makes. -/
def comparisons (s : Shell κ) (nullEq : List Byte → Bool) (argv : List (Option (List Byte))) :
    List (Option (List Byte) × List Byte) :=
  (findCommand nullEq (argv.headD none) s.commands).1.map
    (fun name => (argv.headD none, name.bytes))

/-- The registered command that `execute_callback` runs, if any. -/
def selected (s : Shell κ) (nullEq : List Byte → Bool) (argv : List (Option (List Byte))) :
    Option (Command κ) :=
  (findCommand nullEq (argv.headD none) s.commands).2

def executeCallback (s : Shell κ) (nullEq : List Byte → Bool) (argc : Nat)
    (argv : List (Option (List Byte))) : Option (Invocation κ) :=
  match s.selected nullEq argv with
  | some c => some ⟨c.callback, argc, argv⟩
  | none => s.defaultCallback.map (fun callback => ⟨callback, argc, argv⟩)

/-- The loop finds the first command whose name matches. -/
theorem selected_eq (s : Shell κ) (nullEq : List Byte → Bool) (argv : List (Option (List Byte))) :
    s.selected nullEq argv =
      s.commands.find? (fun c => nameMatches nullEq (argv.headD none) c.name) := by
  unfold selected
  induction s.commands with
  | nil => rfl
  | cons c cs ih =>
    rw [findCommand, List.find?_cons]
    cases nameMatches nullEq (argv.headD none) c.name with
    | true => rfl
    | false => exact ih

theorem fillArgv_length (m : List Byte) (p n : Nat) : (fillArgv m p n).2.length = m.length := by
  induction n generalizing m p with
  | zero => exact strtokR_length [SP] m p
  | succ n ih =>
    have hl := strtokR_length [SP] m p
    rw [fillArgv]
    split
    · rename_i heq
      rw [heq] at hl
      exact hl
    · rename_i heq
      rw [heq] at hl
      exact (ih _ _).trans hl

/-- `argv` for the text in the array, and the array after tokenising. -/
def tokenise (m : MessageBuffer) : List (Option (List Byte)) × MessageBuffer :=
  let r := fillArgv m.1 0 (kCommandArgMax - 1)
  (r.1.map (Option.map (cstr r.2)), ⟨r.2, by rw [fillArgv_length, m.2]⟩)

def parseMessage (s : Shell κ) (nullEq : List Byte → Bool) : Shell κ × Option (Invocation κ) :=
  let r := tokenise s.messageBuffer
  ({ s with messageBuffer := r.2 }, s.executeCallback nullEq (r.1.length - 1) r.1)

/-- The body of the `process_input` loop. -/
def processByte (s : Shell κ) (nullEq : List Byte → Bool) (input : Byte) :
    Shell κ × Option (Invocation κ) :=
  if input = CR then
    -- Terminate command prompt message and parse it.
    let r := { s with messageBuffer := s.messageBuffer.write s.messageIndex 0 }.parseMessage nullEq
    ({ r.1 with messageIndex := 0, index_lt := by decide }, r.2)
  else if input = LF then (s, none)
  else
    let s' := { s with messageBuffer := s.messageBuffer.write s.messageIndex input }
    -- Prevent buffer overflow.
    if h : s.messageIndex + 1 ≥ kCommandPromptLengthMax then
      ({ s' with messageIndex := 0, index_lt := by decide }, none)
    else ({ s' with messageIndex := s.messageIndex + 1, index_lt := by omega }, none)

/-- One call of `process_input` with the bytes that arrive before it returns. -/
def processInput (nullEq : List Byte → Bool) (s : Shell κ) : List Byte → Shell κ × List (Invocation κ)
  | [] => (s, [])
  | c :: cs =>
    let r := s.processByte nullEq c
    let q := processInput nullEq r.1 cs
    (q.1, r.2.toList ++ q.2)

/-- Successive calls of `process_input`. -/
def processInputs (nullEq : List Byte → Bool) (s : Shell κ) :
    List (List Byte) → Shell κ × List (Invocation κ)
  | [] => (s, [])
  | chunk :: chunks =>
    let r := s.processInput nullEq chunk
    let q := processInputs nullEq r.1 chunks
    (q.1, r.2 ++ q.2)

end Shell

end AndinoFirmware
