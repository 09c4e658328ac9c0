import Mathlib.Algebra.Group.Int.Defs
import Mathlib.Algebra.Group.Nat.Defs
import Mathlib.Data.List.TakeDrop

/-! Decimal text of machine numbers: `to_string` and the conversions `stoul` and
`stol` of the C++ library, with the number of characters they consume. -/

namespace DecText

/-- `to_string` of an unsigned number. -/
def toText (value : Nat) : List Char := Nat.toDigits 10 value

/-- The text of a signed number. -/
def intText (value : Int) : List Char := if value < 0 then '-' :: toText value.natAbs else toText value.toNat

inductive Failure where
  | invalidArgument
  | outOfRange
  deriving DecidableEq, Repr

/-- `isspace` in the C locale. -/
def isSpace (c : Char) : Bool :=
  c == ' ' || c == '\t' || c == '\n' || c == '\x0b' || c == '\x0c' || c == '\r'

/-- What `strtol` and `strtoul` read in base ten: blanks, one optional sign and
the longest run of digits. -/
structure Scan where
  negative : Bool
  digits : List Char
  taken : Nat
  deriving DecidableEq

def scan (text : List Char) : Scan :=
  let blanks := (text.takeWhile isSpace).length
  let body := text.drop blanks
  let sign := if body.head? = some '-' ∨ body.head? = some '+' then 1 else 0
  let digits := (body.drop sign).takeWhile Char.isDigit
  { negative := decide (body.head? = some '-'), digits, taken := blanks + sign + digits.length }

/-- `stoul`: a minus sign negates modulo 2^64, as `strtoul` does. -/
def stoul (text : List Char) : Except Failure (Nat × Nat) :=
  let found := scan text
  let magnitude := Nat.ofDigitChars 10 found.digits 0
  if found.digits = [] then .error .invalidArgument
  else if 2 ^ 64 ≤ magnitude then .error .outOfRange
  else .ok (if found.negative then (2 ^ 64 - magnitude) % 2 ^ 64 else magnitude, found.taken)

def stol (text : List Char) : Except Failure (Int × Nat) :=
  let found := scan text
  let magnitude := Nat.ofDigitChars 10 found.digits 0
  let value : Int := if found.negative then -magnitude else magnitude
  if found.digits = [] then .error .invalidArgument
  else if value < -2 ^ 63 ∨ 2 ^ 63 ≤ value then .error .outOfRange
  else .ok (value, found.taken)

/-- `stoi`, which reads a `long` and narrows it. -/
def stoi (text : List Char) : Except Failure (Int × Nat) :=
  match stol text with
  | .error failure => .error failure
  | .ok (value, taken) => if value < -2 ^ 31 ∨ 2 ^ 31 ≤ value then .error .outOfRange else .ok (value, taken)

theorem toText_ne_nil (value : Nat) : toText value ≠ [] := Nat.toDigits_ne_nil

theorem isDigit_of_mem_toText {value : Nat} {c : Char} (member : c ∈ toText value) : c.isDigit = true :=
  Nat.isDigit_of_mem_toDigits (by decide) (by decide) member

theorem toText_injective : Function.Injective toText := by
  intro first second same
  have read := congrArg (fun digits => Nat.ofDigitChars 10 digits 0) same
  simpa only [toText, Nat.ofDigitChars_ten_toDigits] using read

private theorem isDigit_not_special {c : Char} (digit : c.isDigit = true) :
    isSpace c = false ∧ c ≠ '-' ∧ c ≠ '+' := by
  have notThese : ∀ other : Char, other.isDigit = false → c ≠ other := by
    intro other plain same
    rw [same, plain] at digit
    cases digit
  refine ⟨?_, notThese _ (by decide), notThese _ (by decide)⟩
  simp only [isSpace, Bool.or_eq_false_iff, beq_eq_false_iff_ne]
  refine ⟨⟨⟨⟨⟨?_, ?_⟩, ?_⟩, ?_⟩, ?_⟩, ?_⟩ <;> exact notThese _ (by decide)

private theorem takeWhile_toText (value : Nat) {rest : List Char} (ends : ∀ c, rest.head? = some c → c.isDigit = false) :
    (toText value ++ rest).takeWhile Char.isDigit = toText value := by
  rw [List.takeWhile_append_of_pos (fun c member => isDigit_of_mem_toText member)]
  cases rest with
  | nil => simp
  | cons c rest => simp [ends c rfl]

/-- Text that begins with the digits of a number and goes on with no digit is
scanned as exactly that number. -/
theorem scan_toText (value : Nat) {rest : List Char} (ends : ∀ c, rest.head? = some c → c.isDigit = false) :
    scan (toText value ++ rest) = ⟨false, toText value, (toText value).length⟩ := by
  have run := takeWhile_toText value ends
  cases digits : toText value with
  | nil => exact absurd digits (toText_ne_nil value)
  | cons c digits' =>
    obtain ⟨notSpace, notMinus, notPlus⟩ :=
      isDigit_not_special (isDigit_of_mem_toText (by rw [digits]; simp : c ∈ toText value))
    rw [digits] at run
    simp [scan, List.takeWhile_cons, notSpace, notMinus, notPlus] at run ⊢
    simp [run]

theorem stoul_toText {value : Nat} {rest : List Char} (fits : value < 2 ^ 64)
    (ends : ∀ c, rest.head? = some c → c.isDigit = false) :
    stoul (toText value ++ rest) = .ok (value, (toText value).length) := by
  simp only [stoul, scan_toText value ends, toText_ne_nil, if_false]
  simp only [toText, Nat.ofDigitChars_ten_toDigits]
  rw [if_neg (by omega)]
  rfl

theorem stol_toText {value : Nat} {rest : List Char} (fits : value < 2 ^ 63)
    (ends : ∀ c, rest.head? = some c → c.isDigit = false) :
    stol (toText value ++ rest) = .ok ((value : Int), (toText value).length) := by
  simp only [stol, scan_toText value ends, toText_ne_nil, if_false]
  simp only [toText, Nat.ofDigitChars_ten_toDigits]
  rw [if_neg (by simp; omega)]
  rfl

/-- A number with the sign bit is out of range for `stol`. -/
theorem stol_toText_overflow {value : Nat} {rest : List Char} (large : 2 ^ 63 ≤ value)
    (ends : ∀ c, rest.head? = some c → c.isDigit = false) :
    stol (toText value ++ rest) = .error .outOfRange := by
  simp only [stol, scan_toText value ends, toText_ne_nil, if_false]
  simp only [toText, Nat.ofDigitChars_ten_toDigits]
  rw [if_pos (by simp; omega)]

theorem intText_ne_nil (value : Int) : intText value ≠ [] := by
  rw [intText]
  split
  · simp
  · exact toText_ne_nil _

theorem scan_minus (magnitude : Nat) {rest : List Char} (ends : ∀ c, rest.head? = some c → c.isDigit = false) :
    scan ('-' :: (toText magnitude ++ rest)) = ⟨true, toText magnitude, (toText magnitude).length + 1⟩ := by
  have notSpace : isSpace '-' = false := by decide
  simp [scan, notSpace, takeWhile_toText magnitude ends, Nat.add_comm]

theorem stol_intText {value : Int} {rest : List Char} (lower : -2 ^ 63 ≤ value) (upper : value < 2 ^ 63)
    (ends : ∀ c, rest.head? = some c → c.isDigit = false) :
    stol (intText value ++ rest) = .ok (value, (intText value).length) := by
  rw [intText]
  split
  · next negative =>
    have magnitude : Nat.ofDigitChars 10 (toText value.natAbs) 0 = value.natAbs := Nat.ofDigitChars_ten_toDigits
    have same : -(value.natAbs : Int) = value := by omega
    simp only [stol, List.cons_append, scan_minus value.natAbs ends, toText_ne_nil, if_false, magnitude, if_true, same,
      List.length_cons]
    rw [if_neg (by omega)]
  · next positive =>
    have read := @stol_toText value.toNat rest (by omega) ends
    rwa [Int.toNat_of_nonneg (by omega)] at read

/-- `stoul` reads a negative number back modulo 2^64. -/
theorem stoul_intText {value : Int} {rest : List Char} (lower : -2 ^ 63 ≤ value) (upper : value < 2 ^ 63)
    (ends : ∀ c, rest.head? = some c → c.isDigit = false) :
    stoul (intText value ++ rest) = .ok ((value % 2 ^ 64).toNat, (intText value).length) := by
  rw [intText]
  split
  · next negative =>
    have magnitude : Nat.ofDigitChars 10 (toText value.natAbs) 0 = value.natAbs := Nat.ofDigitChars_ten_toDigits
    have wrapped : (2 ^ 64 - value.natAbs) % 2 ^ 64 = (value % 2 ^ 64).toNat := by omega
    simp only [stoul, List.cons_append, scan_minus value.natAbs ends, toText_ne_nil, if_false, magnitude, if_true, wrapped,
      List.length_cons]
    rw [if_neg (by omega)]
  · next positive =>
    have same : (value % 2 ^ 64).toNat = value.toNat := by omega
    rw [same]
    exact stoul_toText (by omega) ends

end DecText
