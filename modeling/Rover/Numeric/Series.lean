import Rover.Numeric.Binary

/-!
# Elementary functions in fixed point

Sine, cosine, logarithm and exponential of a few rational arguments, with 256 bits after the point. The power series are cut
off where their terms vanish, so a result is off by less than a few hundred units of the last bit.
-/

namespace Rover.Series

/-- How many bits stand after the point. -/
def bits : Nat := 256

/-- The fixed-point number one. -/
def one : Nat := 1 <<< bits

/-- The first `terms` terms of `term - term * square / (k * (k + 1)) + …`, each term made from the one before. -/
def alternating (square : Nat) : (terms : Nat) → (k term : Nat) → Int
  | 0, _, _ => 0
  | terms + 1, k, term => term - alternating square terms (k + 2) ((term * square) >>> bits / (k * (k + 1)))

/-- The cosine of an angle from 0 to 1. -/
def cos (angle : Nat) : Int := alternating ((angle * angle) >>> bits) 40 1 one

/-- The sine of an angle from 0 to 1. -/
def sin (angle : Nat) : Int := alternating ((angle * angle) >>> bits) 40 2 angle

/-- The first `terms` terms of `term + term * x / k + …`, each term made from the one before. -/
def exponentialFrom (x : Nat) : (terms : Nat) → (k term : Nat) → Nat
  | 0, _, _ => 0
  | terms + 1, k, term => term + exponentialFrom x terms (k + 1) ((term * x) >>> bits / k)

/-- The exponential of a number from 0 to 1. -/
def exp (x : Nat) : Nat := exponentialFrom x 60 1 one

/-- The first `terms` terms of `power / odd + power * (num / den) ^ 2 / (odd + 2) + …`. -/
def arctanhFrom (num den : Nat) : (terms : Nat) → (power odd : Nat) → Nat
  | 0, _, _ => 0
  | terms + 1, power, odd => power / odd + arctanhFrom num den terms (power * (num * num) / (den * den)) (odd + 2)

/-- The logarithm of `a / b`, for an `a` from `b` to `2 * b`: twice the inverse hyperbolic tangent of
`(a - b) / (a + b)`. -/
def log (a b : Nat) : Nat := 2 * arctanhFrom (a - b) (a + b) 90 (one * (a - b) / (a + b)) 1

/-- The double nearest to a fixed-point number. -/
def toFloat (value : Int) : Float := Format.double.nearest (decide (value < 0)) value.natAbs one

/-- A double as a fixed-point number; bits beyond the last are cut off. -/
def ofFloat (x : Float) : Int :=
  match parts x with
  | .finite neg m q =>
    let n : Nat := m <<< (q + bits).toNat >>> (-(q + bits)).toNat
    if neg then -(n : Int) else n
  | _ => 0

/-- What the double nearest to a fixed-point number leaves over, as a double. -/
def restFloat (value : Int) : Float := toFloat (value - ofFloat (toFloat value))

end Rover.Series
