import Rover.Numeric.Decimal
import Rover.Text.Blank

/-!
# Reading numbers

The numbers that a text denotes. A plain numeral has digits 0 to 9 only; a numeral of any script may also be surrounded
by blanks, use the decimal digits of other scripts, and group its digits by single underscores. In every script the ten
digits are consecutive code points. An integer of very many digits is not read at all.
-/

namespace Rover

/-- The code points of the digit zero of each script, in ascending order. -/
def zeroDigits : List Nat := [
    0x30, 0x660, 0x6f0, 0x7c0, 0x966, 0x9e6, 0xa66, 0xae6, 0xb66, 0xbe6, 0xc66, 0xce6, 0xd66, 0xde6, 0xe50,
    0xed0, 0xf20, 0x1040, 0x1090, 0x17e0, 0x1810, 0x1946, 0x19d0, 0x1a80, 0x1a90, 0x1b50, 0x1bb0, 0x1c40,
    0x1c50, 0xa620, 0xa8d0, 0xa900, 0xa9d0, 0xa9f0, 0xaa50, 0xabf0, 0xff10, 0x104a0, 0x10d30, 0x11066,
    0x110f0, 0x11136, 0x111d0, 0x112f0, 0x11450, 0x114d0, 0x11650, 0x116c0, 0x11730, 0x118e0, 0x11950,
    0x11c50, 0x11d50, 0x11da0, 0x16a60, 0x16ac0, 0x16b50, 0x1d7ce, 0x1d7d8, 0x1d7e2, 0x1d7ec, 0x1d7f6,
    0x1e140, 0x1e2f0, 0x1e950, 0x1fbf0]

/-- The value of a decimal digit. -/
def digitValue? (c : Char) : Option Nat :=
  if c.toNat < 128 then
    if 48 ≤ c.toNat ∧ c.toNat ≤ 57 then some (c.toNat - 48) else none
  else (zeroDigits.find? fun z => z ≤ c.toNat ∧ c.toNat < z + 10).map (c.toNat - ·)

def isDecimalDigit (c : Char) : Bool := (digitValue? c).isSome

namespace Reading

/-- The number denoted by decimal digits, read from the most significant one. -/
def natOf (digits : List Char) : Nat := digits.foldl (fun n c => 10 * n + (c.toNat - 48)) 0

def isPlainDigit (c : Char) : Bool := 48 ≤ c.toNat && c.toNat ≤ 57

/-- Splits off a leading sign; `true` is minus. -/
def sign : List Char → Bool × List Char
  | '-' :: rest => (true, rest)
  | '+' :: rest => (false, rest)
  | rest => (false, rest)

/-- A plain integer: a sign or none, and digits. -/
def plainInt? (text : List Char) : Option Int :=
  let (neg, ds) := sign text
  if ds ≠ [] ∧ ds.all isPlainDigit then some (if neg then -(natOf ds : Int) else natOf ds) else none

/-- An exponent part, or nothing at all. -/
def exponent? : List Char → Option Int
  | [] => some 0
  | c :: rest => if c = 'e' ∨ c = 'E' then
      let (neg, ds) := sign rest
      if ds ≠ [] ∧ ds.all isPlainDigit then some (if neg then -(natOf ds : Int) else natOf ds) else none
    else none

/-- An unsigned decimal: digits with at most one point among or around them, and an exponent or none. -/
def decimal? (text : List Char) : Option Decimal :=
  let whole := text.takeWhile isPlainDigit
  let rest := text.dropWhile isPlainDigit
  let (fraction, rest) := match rest with
    | '.' :: r => (r.takeWhile isPlainDigit, r.dropWhile isPlainDigit)
    | r => ([], r)
  if whole = [] ∧ fraction = [] then none
  else (exponent? rest).map fun e => ⟨natOf (whole ++ fraction), e - fraction.length⟩

/-- A plain floating-point numeral: a decimal, an infinity or not-a-number, with a sign or none. -/
def plainFloat? (text : List Char) : Option Float :=
  let (neg, rest) := sign text
  let word := String.ofList (rest.map Char.toLower)
  if word = "inf" ∨ word = "infinity" then some (infinity neg)
  else if word = "nan" then some notANumber
  else (decimal? rest).map (Decimal.toFloat neg)

/-- Removes the underscores if each of them stands between two digits. -/
def ungroup? (previous : Option Char) : List Char → Option (List Char)
  | [] => some []
  | c :: rest =>
    if c = '_' then
      if previous.any isPlainDigit ∧ rest.head?.any isPlainDigit then ungroup? (some c) rest else none
    else (ungroup? (some c) rest).map (c :: ·)

/-- A digit of any script as a plain one; other characters stand for themselves. -/
def plainChar (c : Char) : Char := (digitValue? c).elim c Nat.digitChar

/-- A numeral of any script made plain. -/
def plain? (text : List Char) : Option (List Char) := ungroup? none ((trimBlank text).map plainChar)

/-- The integer denoted by a numeral of any script. -/
def int? (text : String) : Option Int := (plain? text.toList).bind plainInt?

/-- The digits that a text begins with after its sign, leading zeros included. -/
def leadingDigits (text : List Char) : List Char :=
  let digits := (sign ((trimBlank text).map plainChar)).2.takeWhile fun c => isPlainDigit c || c == '_'
  (ungroup? none digits).getD []

/-- How many digits an integer may have for it to be read. -/
def maxDigits : Nat := 4300

end Reading

/-- More digits than an integer may have. -/
structure Oversize where
  digits : Nat
  long : Reading.maxDigits < digits
  deriving DecidableEq, Repr

def Oversize.message (e : Oversize) : String :=
  "Exceeds the limit (" ++ Numeral.ofNat Reading.maxDigits ++ " digits) for integer string conversion: value has " ++
    Numeral.ofNat e.digits ++
    " digits; use sys.set_int_max_str_digits() to increase the limit"

namespace Reading

/-- Reads the integer of a numeral, if the text is one. Too many digits are refused before anything else is looked at. -/
def int (text : String) : Except Oversize (Option Int) :=
  if h : maxDigits < (leadingDigits text.toList).length then .error ⟨_, h⟩ else .ok (int? text)

/-- The double nearest to what a numeral of any script denotes. -/
def float? (text : String) : Option Float := (plain? text.toList).bind plainFloat?

end Reading

end Rover
