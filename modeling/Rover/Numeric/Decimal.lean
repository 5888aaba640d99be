import Rover.Numeric.Binary

/-!
# Decimals

How natural numbers and integers are written, and numbers with a decimal exponent. A `Decimal` is `coefficient * 10 ^ exponent`.
Here are the decimals chosen for a quotient (rounded to so many significant digits, or the shortest that reads back) and the
double nearest to a decimal. All comparisons are exact.
-/

namespace Rover.Numeral

/-- The decimal digits of `n`, most significant first, without leading zeros. -/
def digits (n : Nat) : List Char :=
  if n < 10 then [n.digitChar] else digits (n / 10) ++ [(n % 10).digitChar]

def ofNat (n : Nat) : String := String.ofList (digits n)

def ofInt (n : Int) : String :=
  if n < 0 then "-" ++ ofNat n.natAbs else ofNat n.natAbs

/-- The numeral of `n` with at least `width` digits. -/
def padded (width n : Nat) : List Char :=
  let ds := digits n
  List.replicate (width - ds.length) '0' ++ ds

end Rover.Numeral

namespace Rover

structure Decimal where
  coefficient : Nat
  exponent : Int
  deriving DecidableEq, Repr

/-- The largest `k` with `10 ^ k ≤ num / den`, for positive `num` and `den`. -/
def floorLog10 (num den : Nat) : Int :=
  if den ≤ num then ((Numeral.digits (num / den)).length : Int) - 1
  else -((Numeral.digits ((den + num - 1) / num - 1)).length : Int)

namespace Decimal

/-- The same number without trailing zeros in the coefficient; zero has the exponent zero. -/
def trim (d : Decimal) : Decimal :=
  if d.coefficient = 0 then ⟨0, 0⟩
  else if d.coefficient % 10 = 0 then trim ⟨d.coefficient / 10, d.exponent + 1⟩
  else d
termination_by d.coefficient

/-- The double nearest to `± d`. The two cut-offs lie beyond every finite double and below half the least one. -/
def toFloat (neg : Bool) (d : Decimal) : Float :=
  let size := ((Numeral.digits d.coefficient).length : Int) + d.exponent
  if d.coefficient = 0 ∨ size < -330 then ofFields neg 0 0
  else if 320 < size then infinity neg
  else Format.double.nearest neg (d.coefficient * Nat.pow 10 d.exponent.toNat) (Nat.pow 10 (-d.exponent).toNat)

/-- The decimal of `n` significant digits nearest to `num / den`, ties to even. -/
def significant (n num den : Nat) : Decimal :=
  let e := floorLog10 num den + 1 - n
  ⟨roundDiv (num * Nat.pow 10 (-e).toNat) (den * Nat.pow 10 e.toNat), e⟩

/-- Of the two neighbours of `num / den` with `n` significant digits, the nearer one that passes the test. -/
def neighbour? (passes : Decimal → Bool) (n num den : Nat) : Option Decimal :=
  let e := floorLog10 num den + 1 - n
  let num' := num * Nat.pow 10 (-e).toNat
  let den' := den * Nat.pow 10 e.toNat
  let below : Decimal := ⟨num' / den', e⟩
  let above : Decimal := ⟨num' / den' + 1, e⟩
  match passes below, passes above with
  | true, true => some ⟨roundDiv num' den', e⟩
  | true, false => some below
  | false, true => some above
  | false, false => none

/-- The decimal with the fewest digits that reads back as the double `± num / den`, the nearest of those. Seventeen
digits always read back. -/
def shortest (neg : Bool) (x : Float) (num den : Nat) : Decimal :=
  let readsBack (d : Decimal) : Bool := (d.toFloat neg).toBits == x.toBits
  ((List.range' 1 17).findSome? (neighbour? readsBack · num den)).getD (significant 17 num den)

end Decimal

end Rover
