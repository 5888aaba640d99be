import Rover.Numeric.Decimal

/-!
# Number texts

Which digits a number gets and where they stand are two decisions. The digits come from `Rover.Numeric.Decimal`; a
`Layout` says which decimal exponents are written positionally and how an exponent is written.
-/

namespace Rover

structure Layout where
  /-- The least decimal exponent that is written positionally. -/
  plainFrom : Int
  /-- The first decimal exponent that is no longer written positionally. -/
  plainBelow : Int
  /-- The least number of digits of a written exponent. -/
  exponentWidth : Nat

namespace Layout

/-- Programs write `0.0001` and `1e-05`, and go over to exponents at `1e+16`. -/
def program : Layout := ⟨-4, 16, 2⟩

/-- Snapshots write `0.00001` and `1e-6`, and go over to exponents at `1e+16`. -/
def snapshot : Layout := ⟨-5, 16, 1⟩

/-- Digits with the point after the first `point` of them; a point at the end is followed by a zero. -/
def plain (digits : List Char) (point : Int) : List Char :=
  if point ≤ 0 then ['0', '.'] ++ List.replicate (-point).toNat '0' ++ digits
  else if digits.length ≤ point.toNat then
    digits ++ List.replicate (point.toNat - digits.length) '0' ++ ['.', '0']
  else digits.take point.toNat ++ ['.'] ++ digits.drop point.toNat

/-- Digits with the point after the first of them, and a decimal exponent. -/
def scientific (l : Layout) (digits : List Char) (exponent : Int) : List Char :=
  let fraction := digits.drop 1
  digits.take 1 ++ (if fraction.isEmpty then [] else '.' :: fraction) ++
    ['e', if exponent < 0 then '-' else '+'] ++ Numeral.padded l.exponentWidth exponent.natAbs

def render (l : Layout) (neg : Bool) (d : Decimal) : String :=
  let d := d.trim
  let digits := Numeral.digits d.coefficient
  let point := digits.length + d.exponent
  let text := if l.plainFrom < point ∧ point ≤ l.plainBelow then plain digits point else l.scientific digits (point - 1)
  String.ofList (if neg then '-' :: text else text)

end Layout

/-- The quotient `m * 2 ^ q` as numerator and denominator. -/
def quotient (m : Nat) (q : Int) : Nat × Nat := (m <<< q.toNat, 1 <<< (-q).toNat)

/-- Writes a number that is not finite, and leaves the others to `finite neg num den`. -/
def writeFloat (finite : Bool → Nat → Nat → String) (x : Float) : String :=
  match parts x with
  | .nan => "nan"
  | .infinite neg => if neg then "-inf" else "inf"
  | .finite neg m q => finite neg (quotient m q).1 (quotient m q).2

/-- The shortest digits of the double `x` in this layout, for a finite `x`. -/
def Layout.double (l : Layout) (x : Float) (neg : Bool) (num den : Nat) : String :=
  l.render neg (if num = 0 then ⟨0, 0⟩ else Decimal.shortest neg x num den)

/-- The shortest text that reads back as the same double. -/
def doubleText (x : Float) : String := writeFloat (Layout.program.double x) x

/-- The text of the least number of digits, nine at most, whose rounding reads back as the same single; a number that no
single equals is written as a double. -/
def singleText (x : Float) : String :=
  writeFloat (fun neg num den =>
    if num = 0 then Layout.program.render neg ⟨0, 0⟩
    else
      let rounded? (n : Nat) : Option Float :=
        let y := (Decimal.significant n num den).toFloat neg
        if toSingle y == x then some y else none
      match (List.range' 1 9).findSome? rounded? with
      | some y => doubleText y
      | none => doubleText x) x

/-- The text with exactly `places` digits after the point, ties to even on the exact value. -/
def fixedText (places : Nat) (x : Float) : String :=
  writeFloat (fun neg num den =>
    let digits := Numeral.padded (places + 1) (roundDiv (num * Nat.pow 10 places) den)
    let whole := digits.length - places
    let text := digits.take whole ++ ['.'] ++ digits.drop whole
    String.ofList (if neg then '-' :: text else text)) x

end Rover
