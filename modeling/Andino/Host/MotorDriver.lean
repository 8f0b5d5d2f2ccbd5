import Andino.Library.Decimal

/-!
# The motor driver of the host

`MotorDriver` writes one line for each call and reads one line back. Modelled
are the messages, as `SendMsg` puts them on the line, and the parsing of the
reply, with `std::string` and `std::atoi` as the host's library has them.
-/
namespace AndinoBase

open CArith CString Decimal

/-- `int` of the host. -/
abbrev HostInt := { x : Int // Fits 32 x }

/-- The text `operator<<` prints for a `float` in the default format. -/
structure FloatText where
  bytes : List Byte
  ne_nil : bytes ≠ []
  charset : ∀ c ∈ bytes, c ∈ ascii "0123456789+-.aefin"
  length_le : bytes.length ≤ 12
  deriving DecidableEq

/-- The public calls that exchange a message. -/
inductive Call where
  | readEncoderValues
  | setMotorValues (val1 val2 : HostInt)
  | setPidValues (kp kd ki ko : FloatText)
  deriving DecidableEq

namespace MotorDriver

def setMotorValuesMsg (val1 val2 : Int) : List Byte :=
  ascii "m " ++ decimal val1 ++ ascii " " ++ decimal val2

def setPidValuesMsg (kp kd ki ko : List Byte) : List Byte :=
  ascii "u " ++ kp ++ ascii ":" ++ kd ++ ascii ":" ++ ki ++ ascii ":" ++ ko

def msg : Call → List Byte
  | .readEncoderValues => ascii "e"
  | .setMotorValues val1 val2 => setMotorValuesMsg val1 val2
  | .setPidValues kp kd ki ko => setPidValuesMsg kp.bytes kd.bytes ki.bytes ko.bytes

/-- `SendMsg` adds a carriage return. -/
def msgToSend (msg : List Byte) : List Byte := msg ++ [CR]

/-- `strtol` stops at the limits of a 64-bit `long`, and `atoi` converts to `int`. -/
def atoi (s : List Byte) : Int := wrap 32 (max (-2 ^ 63) (min (2 ^ 63 - 1) (scanInt s)))

/-- The position of the delimiter; `none` stands for `npos`. -/
def find (s : List Byte) (delimiter : Byte) : Option Nat := s.findIdx? (· = delimiter)

/-- A length of `npos` asks for the rest of the string. -/
def substr (s : List Byte) (pos : Nat) : Option Nat → List Byte
  | none => s.drop pos
  | some len => (s.drop pos).take len

/-- `del_pos + delimiter.length()`: past the largest `size_t`, `npos + 1` is zero. -/
def afterDelimiter : Option Nat → Nat
  | none => 0
  | some delPos => delPos + 1

/-- The string constructed from `c_str()` ends at the first NUL. -/
def cStr (s : List Byte) : List Byte := s.takeWhile (· ≠ 0)

/-- `ReadEncoderValues` once `SendMsg("e")` has returned `response`. -/
def encoderValues (response : List Byte) : Int × Int :=
  let delPos := find response SP
  let token1 := cStr (substr response 0 delPos)
  let token2 := cStr (substr response (afterDelimiter delPos) none)
  (atoi token1, atoi token2)

theorem atoi_of_fits (s : List Byte) (h : Fits 32 (scanInt s)) : atoi s = scanInt s := by
  have h' := (fits_thirtyTwo _).mp h
  have hmin : min (2 ^ 63 - 1) (scanInt s) = scanInt s := by omega
  have hmax : max (-2 ^ 63) (scanInt s) = scanInt s := by omega
  rw [atoi, hmin, hmax, wrap_of_fits 32 (by decide) _ h]

theorem atoi_fits (s : List Byte) : Fits 32 (atoi s) := wrap_fits 32 (by decide) _

/-- The two parts of a response around its first blank. -/
theorem encoderValues_split (u v : List Byte) (hu : SP ∉ u) :
    encoderValues (u ++ SP :: v) = (atoi (cStr u), atoi (cStr v)) := by
  have hnone : u.findIdx? (fun c => decide (c = SP)) = none :=
    List.findIdx?_eq_none_iff.mpr (fun c hc => decide_eq_false (fun he => hu (he ▸ hc)))
  have hfind : find (u ++ SP :: v) SP = some u.length := by
    rw [find, List.findIdx?_append, hnone, List.findIdx?_cons]
    simp
  have hdrop : (u ++ SP :: v).drop (u.length + 1) = v := by
    rw [List.drop_append, List.drop_of_length_le (by omega)]
    simp
  simp only [encoderValues, hfind, afterDelimiter, substr, List.drop_zero, List.take_left, hdrop]

theorem cStr_eq_self {s : List Byte} (h : ∀ c ∈ s, c ≠ 0) : cStr s = s :=
  List.takeWhile_eq_self_iff.mpr (by simpa using h)

end MotorDriver

/-! ## Well-formed replies -/

/-- What may follow the second number of a reply, cut off by a timeout or not. -/
def LineEnd (e : List Byte) : Prop := e = [] ∨ e = [CR] ∨ e = [CR, LF] ∨ e = [LF]

/-- Exactly two decimal integers in the range of `int`, separated by a blank. -/
def TwoIntegers (response : List Byte) (a b : Int) : Prop :=
  ∃ u v e, response = u ++ SP :: (v ++ e) ∧ Numeral u ∧ Numeral v ∧ LineEnd e ∧
    scanInt u = a ∧ scanInt v = b ∧ Fits 32 a ∧ Fits 32 b

/-- The driver reads such a response as it stands. -/
theorem encoderValues_twoIntegers {response : List Byte} {a b : Int}
    (h : TwoIntegers response a b) : MotorDriver.encoderValues response = (a, b) := by
  obtain ⟨u, v, e, rfl, hu, hv, he, rfl, rfl, ha, hb⟩ := h
  have hend : (∀ c ∈ e, c ≠ 0) ∧ ∀ c ∈ e.head?, isDigit c = false := by
    rcases he with rfl | rfl | rfl | rfl <;> simp [CR, LF, isDigit]
  have hzero : ∀ c ∈ v ++ e, c ≠ 0 := by
    intro c hc
    rcases List.mem_append.mp hc with h | h
    · exact (hv.plain c h).1
    · exact hend.1 c h
  have hscan : scanInt (v ++ e) = scanInt v := hv.scanInt_append e hend.2
  rw [MotorDriver.encoderValues_split u (v ++ e) (fun hm => (hu.plain SP hm).2 rfl),
    MotorDriver.cStr_eq_self (fun c hc => (hu.plain c hc).1), MotorDriver.cStr_eq_self hzero,
    MotorDriver.atoi_of_fits u ha, MotorDriver.atoi_of_fits (v ++ e) (by rw [hscan]; exact hb), hscan]

/-- Two printed counts on a line are such a response. -/
theorem encoderValues_counts {a b : Int} (ha : Fits 32 a) (hb : Fits 32 b) :
    MotorDriver.encoderValues (decimal a ++ SP :: (decimal b ++ [CR, LF])) = (a, b) :=
  encoderValues_twoIntegers ⟨decimal a, decimal b, [CR, LF], rfl, numeral_decimal a,
    numeral_decimal b, .inr (.inr (.inl rfl)), scanInt_decimal a, scanInt_decimal b, ha, hb⟩

end AndinoBase
