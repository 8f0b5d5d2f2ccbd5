import Mathlib.Data.Nat.Digits.Lemmas
import Andino.Library.CArith
import Andino.Library.CString

/-!
# Decimal text

`decimal` is the text a print of a signed integer produces, `scanInt` the number
`atoi` and `strtol` read before any conversion to a fixed width: blanks, one
optional sign, then digits up to the first other character.
-/
namespace Decimal

open CString CArith

def isDigit (c : Byte) : Bool := 48 ≤ c && c ≤ 57

/-- The characters `isspace` accepts. -/
def isSpace (c : Byte) : Bool := c = 32 || (9 ≤ c && c ≤ 13)

def digitByte (d : Nat) : Byte := UInt8.ofNat (48 + d)

def decimalNat (n : Nat) : List Byte :=
  if n = 0 then [48] else (Nat.digits 10 n).reverse.map digitByte

def decimal (x : Int) : List Byte :=
  if x < 0 then 45 :: decimalNat x.natAbs else decimalNat x.natAbs

def scanDigits (acc : Nat) : List Byte → Nat
  | [] => acc
  | c :: s => if isDigit c then scanDigits (10 * acc + (c.toNat - 48)) s else acc

/-- The integer at the front of a string, of any size; zero when there is none. -/
def scanInt (s : List Byte) : Int :=
  match s.dropWhile isSpace with
  | 45 :: r => -(scanDigits 0 r : Int)
  | 43 :: r => scanDigits 0 r
  | r => scanDigits 0 r

theorem digitByte_toNat (d : Nat) (h : d < 10) : (digitByte d).toNat = 48 + d := by
  rw [digitByte, UInt8.toNat_ofNat']
  omega

theorem isDigit_iff (c : Byte) : isDigit c = true ↔ 48 ≤ c.toNat ∧ c.toNat ≤ 57 := by
  simp [isDigit, UInt8.le_iff_toNat_le]

theorem isDigit_digitByte (d : Nat) (h : d < 10) : isDigit (digitByte d) = true := by
  rw [isDigit_iff, digitByte_toNat d h]
  omega

theorem decimalNat_ne_nil (n : Nat) : decimalNat n ≠ [] := by
  unfold decimalNat
  split
  · exact List.cons_ne_nil _ _
  · rename_i hn
    simp [Nat.digits_ne_nil_iff_ne_zero.mpr hn]

theorem decimalNat_isDigit (n : Nat) : ∀ c ∈ decimalNat n, isDigit c = true := by
  intro c hc
  unfold decimalNat at hc
  split at hc
  · rw [List.mem_singleton] at hc
    subst c
    decide
  · obtain ⟨d, hd, rfl⟩ := List.mem_map.mp hc
    exact isDigit_digitByte d (Nat.digits_lt_base (by decide) (List.mem_reverse.mp hd))

/-- The characters of a printed integer: digits, and a minus sign in front. -/
theorem decimal_mem (x : Int) : ∀ c ∈ decimal x, c = 45 ∨ isDigit c = true := by
  intro c hc
  unfold decimal at hc
  split at hc
  · rcases List.mem_cons.mp hc with h | h
    · exact Or.inl h
    · exact Or.inr (decimalNat_isDigit _ c h)
  · exact Or.inr (decimalNat_isDigit _ c hc)

theorem decimal_ne_nil (x : Int) : decimal x ≠ [] := by
  unfold decimal
  split
  · exact List.cons_ne_nil _ _
  · exact decimalNat_ne_nil _

/-- A printed integer contains no separator: neither NUL, blank, line end nor colon. -/
theorem decimal_plain (x : Int) (c : Byte) (hc : c ∈ decimal x) :
    c ≠ 0 ∧ c ≠ 10 ∧ c ≠ 13 ∧ c ≠ 32 ∧ c ≠ 58 := by
  rcases decimal_mem x c hc with rfl | h
  · decide
  · rw [isDigit_iff] at h
    refine ⟨?_, ?_, ?_, ?_, ?_⟩ <;> rintro rfl <;> simp at h

theorem decimalNat_length_le (n k : Nat) (hk : 0 < k) (h : n < 10 ^ k) :
    (decimalNat n).length ≤ k := by
  unfold decimalNat
  split
  · exact hk
  · rw [List.length_map, List.length_reverse]
    exact (Nat.digits_length_le_iff (by decide) n).mpr h

theorem decimal_length_le (x : Int) (k : Nat) (hk : 0 < k) (h : x.natAbs < 10 ^ k) :
    (decimal x).length ≤ k + 1 := by
  have hn := decimalNat_length_le x.natAbs k hk h
  unfold decimal
  split
  · simpa using hn
  · omega

/-- A scan reads all the digits in front of a non-digit. -/
theorem scanDigits_append (ds r : List Byte) (acc : Nat) (hd : ∀ c ∈ ds, isDigit c = true)
    (hr : ∀ c ∈ r.head?, isDigit c = false) :
    scanDigits acc (ds ++ r) = ds.foldl (fun a c => 10 * a + (c.toNat - 48)) acc := by
  induction ds generalizing acc with
  | nil =>
    cases r with
    | nil => rfl
    | cons c r => simp [scanDigits, hr c (by simp)]
  | cons c ds ih =>
    rw [List.cons_append, scanDigits, if_pos (hd c (by simp)), List.foldl_cons]
    exact ih _ (fun c hc => hd c (by simp [hc]))

theorem foldl_digits (l : List Nat) (h : ∀ d ∈ l, d < 10) :
    (l.reverse.map digitByte).foldl (fun a c => 10 * a + (c.toNat - 48)) 0 = Nat.ofDigits 10 l := by
  induction l with
  | nil => rfl
  | cons d l ih =>
    have hd := digitByte_toNat d (h d (by simp))
    simp only [List.reverse_cons, List.map_append, List.map_cons, List.map_nil, List.foldl_append,
      List.foldl_cons, List.foldl_nil, ih (fun e he => h e (by simp [he])), hd, Nat.ofDigits_cons]
    omega

theorem scanDigits_digits (ds : List Byte) (acc : Nat) (hd : ∀ c ∈ ds, isDigit c = true) :
    scanDigits acc ds = ds.foldl (fun a c => 10 * a + (c.toNat - 48)) acc := by
  have h := scanDigits_append ds [] acc hd (by simp)
  rwa [List.append_nil] at h

theorem scanDigits_decimalNat (n : Nat) : scanDigits 0 (decimalNat n) = n := by
  rw [scanDigits_digits _ _ (decimalNat_isDigit n)]
  unfold decimalNat
  split
  · rename_i hn
    simp [hn]
  · rw [foldl_digits _ (fun d hd => Nat.digits_lt_base (by decide) hd), Nat.ofDigits_digits]

/-- Blanks, signs and digits exclude each other. -/
theorem isDigit_not_special (c : Byte) (h : isDigit c = true) :
    isSpace c = false ∧ c ≠ 45 ∧ c ≠ 43 := by
  rw [isDigit_iff] at h
  refine ⟨?_, ?_, ?_⟩
  · simp only [isSpace, UInt8.le_iff_toNat_le, UInt8.reduceToNat, Bool.or_eq_false_iff,
      decide_eq_false_iff_not, Bool.and_eq_false_imp, decide_eq_true_eq]
    refine ⟨?_, by omega⟩
    rintro rfl
    simp at h
  · rintro rfl
    simp at h
  · rintro rfl
    simp at h

theorem scanInt_minus (s : List Byte) : scanInt (45 :: s) = -(scanDigits 0 s : Int) := rfl

theorem scanInt_plus (s : List Byte) : scanInt (43 :: s) = scanDigits 0 s := rfl

/-- In front of a digit there is neither a blank nor a sign to skip. -/
theorem scanInt_digit (c : Byte) (s : List Byte) (hc : isDigit c = true) :
    scanInt (c :: s) = scanDigits 0 (c :: s) := by
  obtain ⟨hsp, hminus, hplus⟩ := isDigit_not_special c hc
  rw [scanInt, List.dropWhile_cons_of_neg (by simp [hsp])]
  split
  · rename_i h
    exact absurd (List.cons.inj h).1 hminus
  · rename_i h
    exact absurd (List.cons.inj h).1 hplus
  · rfl

/-- Reading back a printed integer. -/
theorem scanInt_decimal (x : Int) : scanInt (decimal x) = x := by
  have hnat := scanDigits_decimalNat x.natAbs
  unfold decimal
  split
  · rw [scanInt_minus, hnat]
    omega
  · obtain ⟨c, s, hcs⟩ := List.exists_cons_of_ne_nil (decimalNat_ne_nil x.natAbs)
    have hc := decimalNat_isDigit x.natAbs c (by simp [hcs])
    rw [hcs] at hnat ⊢
    rw [scanInt_digit c s hc, hnat]
    omega

/-! ## Numerals -/

/-- The text of a decimal integer: an optional sign and at least one digit. -/
def Numeral (w : List Byte) : Prop :=
  ∃ sign ds, w = sign ++ ds ∧ (sign = [] ∨ sign = [45] ∨ sign = [43]) ∧ ds ≠ [] ∧
    ∀ c ∈ ds, isDigit c = true

theorem numeral_decimal (x : Int) : Numeral (decimal x) := by
  unfold decimal
  split
  · exact ⟨[45], _, rfl, .inr (.inl rfl), decimalNat_ne_nil _, decimalNat_isDigit _⟩
  · exact ⟨[], _, rfl, .inl rfl, decimalNat_ne_nil _, decimalNat_isDigit _⟩

theorem Numeral.plain {w : List Byte} (h : Numeral w) : ∀ c ∈ w, c ≠ 0 ∧ c ≠ SP := by
  obtain ⟨sign, ds, rfl, hsign, -, hds⟩ := h
  intro c hc
  rcases List.mem_append.mp hc with h | h
  · rcases hsign with rfl | rfl | rfl <;> simp at h <;> subst h <;> decide
  · have hd := (isDigit_iff c).mp (hds c h)
    constructor <;> rintro rfl <;> simp [SP] at hd

/-- A numeral is read whole, and nothing behind it but digits matters. -/
theorem Numeral.scanInt_append {w : List Byte} (h : Numeral w) (r : List Byte)
    (hr : ∀ c ∈ r.head?, isDigit c = false) : scanInt (w ++ r) = scanInt w := by
  obtain ⟨sign, ds, rfl, hsign, hne, hds⟩ := h
  have hscan : scanDigits 0 (ds ++ r) = scanDigits 0 ds := by
    rw [scanDigits_append ds r 0 hds hr, scanDigits_digits ds 0 hds]
  rcases hsign with rfl | rfl | rfl
  · obtain ⟨c, s, rfl⟩ := List.exists_cons_of_ne_nil hne
    have hc := hds c (by simp)
    rw [List.cons_append] at hscan
    rw [List.nil_append, List.cons_append, scanInt_digit c _ hc, scanInt_digit c _ hc, hscan]
  · rw [List.append_assoc, List.singleton_append, List.singleton_append, scanInt_minus,
      scanInt_minus, hscan]
  · rw [List.append_assoc, List.singleton_append, List.singleton_append, scanInt_plus,
      scanInt_plus, hscan]

end Decimal
