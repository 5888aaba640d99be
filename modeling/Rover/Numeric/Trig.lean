import Rover.Numeric.Binary
import Rover.Numeric.Series

/-!
# Sine and cosine

The sine and cosine of a double, off by at most 0.55 units of the last bit. An angle is brought within an eighth of a turn
of zero, by quarter turns, and kept as a double and a small correction. A small angle goes through an odd polynomial; any
other one is split into a multiple of 1/128, where sine and cosine are known to twice the precision, and a rest, and the two
are joined by the addition theorems. The last bit depends on which products are fused with a sum, so each step says so.
-/

namespace Rover.Trig

/-- Sine and cosine of an angle, each as a double and what the double leaves over. -/
structure Point where
  sin : Float
  sinRest : Float
  cos : Float
  cosRest : Float

/-- The point at `k / 128`. -/
def point (k : Nat) : Point :=
  let angle := k * Series.one / 128
  let s := Series.sin angle
  let c := Series.cos angle
  ⟨Series.toFloat s, Series.restFloat s, Series.toFloat c, Series.restFloat c⟩

/-- The points up to `110 / 128`, which is as far as reduced angles go. -/
@[noinline]
def points : Array Point := (Array.range 111).map point

/-- A double so large that adding it rounds to a multiple of 1/128. -/
def shift : Float := 52776558133248.0

/-- The number of the nearest point to an angle of at least zero, and the rest of the angle. -/
def split (x : Float) : Nat × Float :=
  let shifted := x + shift
  ((shifted.toBits % 4294967296).toNat, x - (shifted - shift))

def pointAt (k : Nat) : Point := points.getD k ⟨0.0, 0.0, 1.0, 0.0⟩

/-- The sine of a small rest without the rest itself, divided by its cube; `square` is the square of the rest. -/
def restSin (square : Float) : Float := fusedMulAdd square 0.008333332142857223 (-0.16666666666666488)

/-- One less the cosine of a small rest. -/
def restCos (square : Float) : Float :=
  square * fusedMulAdd square (fusedMulAdd square 0.001388888740079376 (-0.04166666666666644)) 0.5

/-- The sine of `x + dx` by its Taylor polynomial. -/
def taylorSin (x dx : Float) : Float :=
  let square := x * x
  let p := fusedMulAdd square (-2.5022014848318398e-08) 2.755729806860771e-06
  let p := fusedMulAdd square p (-0.00019841269834414642)
  let p := fusedMulAdd square p 0.008333333333332329
  let p := fusedMulAdd square p (-0.16666666666666666)
  let p := fusedMulAdd p x (-(0.5 * dx))
  x + fusedMulAdd square p dx

/-- The sine of `x + dx`, for an `x` of at least zero, from the point next to it. -/
def tableSin (x dx : Float) : Float :=
  let (k, r) := split x
  let p := pointAt k
  let square := r * r
  let s := r + fusedMulAdd (r * square) (restSin square) dx
  let c := fusedMulAdd r dx (restCos square)
  let correction := fusedMulAdd s p.cosRest p.sinRest
  let correction := fusedMulAdd (-c) p.sin correction
  p.sin + fusedMulAdd s p.cos correction

/-- The cosine of `x + dx`, for an `x` of at least zero, from the point next to it. -/
def tableCos (x dx : Float) : Float :=
  let (k, r) := split x
  let p := pointAt k
  let r := r + dx
  let square := r * r
  let s := fusedMulAdd (r * square) (restSin square) r
  let c := restCos square
  let correction := fusedMulAdd (-s) p.sinRest p.cosRest
  let correction := fusedMulAdd (-c) p.cos correction
  p.cos + fusedMulAdd (-s) p.sin correction

/-- Below this an angle is its own sine. -/
def leastSine : Float := 1.4901161193847656e-08

/-- Below this the cosine of an angle is one. -/
def leastCosine : Float := 7.450580596923828e-09

/-- Up to here the polynomial is close enough. -/
def taylorLimit : Float := 0.126

/-- The largest angle that is not reduced, a little above an eighth of a turn. -/
def nearLimit : Float := 0.85546875

/-- The largest angle that is reduced by one quarter turn. -/
def quarterLimit : Float := 2.4262638092041016

/-- The sine of `x + dx`, for an `x` near zero. -/
def sinNear (x dx : Float) : Float :=
  if x.abs < taylorLimit then taylorSin x dx
  else if x < 0.0 then -tableSin x.abs (-dx)
  else tableSin x dx

/-- The cosine of `x + dx`, for an `x` near zero. -/
def cosNear (x dx : Float) : Float := if x < 0.0 then tableCos x.abs (-dx) else tableCos x dx

/-- A quarter turn as a double, and what it leaves over. -/
def quarter : Float := 1.5707963267948966

def quarterRest : Float := 6.123233995736766e-17

/-- A double so large that adding it rounds to a whole number. -/
def wholeShift : Float := 6755399441055744.0

/-- An angle without the nearest whole number of quarter turns. -/
structure Reduced where
  /-- The number of quarter turns, of which only the remainder by four counts. -/
  turns : Nat
  x : Float
  dx : Float

/-- Takes quarter turns off an angle. A quarter turn is given in four parts, the first three short enough for their products
to be exact. -/
def reduce (x : Float) : Reduced :=
  let shifted := fusedMulAdd x 0.6366197723675814 wholeShift
  let n := shifted - wholeShift
  let y := fusedMulAdd (-n) 1.5707963407039642 x
  let y := fusedMulAdd (-n) (-1.3909067564377153e-08) y
  let third : Float := -4.97899623147991e-17
  let fourth : Float := -1.9034889620193266e-25
  let z := fusedMulAdd (-n) third y
  let w := fusedMulAdd (-n) fourth z
  let dx := fusedMulAdd (-n) third (y - z) + fusedMulAdd (-n) fourth (z - w)
  ⟨(shifted.toBits % 4).toNat, w, dx⟩

/-- The sine of `x + dx` and some quarter turns. -/
def sinTurned (turns : Nat) (x dx : Float) : Float :=
  match turns % 4 with
  | 0 => sinNear x dx
  | 1 => cosNear x dx
  | 2 => -sinNear x dx
  | _ => -cosNear x dx

end Rover.Trig

namespace Rover

open Trig

/-- The sine of an angle in radians of less than `10 ^ 8`. -/
def sine (x : Float) : Float :=
  if !x.isFinite then notANumber
  else if x.abs < leastSine then x
  else if x.abs < nearLimit then sinNear x 0.0
  else if x.abs < quarterLimit then
    let y := cosNear (quarter - x.abs) quarterRest
    if x < 0.0 then -y else y
  else
    let r := reduce x
    sinTurned r.turns r.x r.dx

/-- The cosine of an angle in radians of less than `10 ^ 8`. -/
def cosine (x : Float) : Float :=
  if !x.isFinite then notANumber
  else if x.abs < leastCosine then 1.0
  else if x.abs < nearLimit then cosNear x 0.0
  else if x.abs < quarterLimit then
    let y := quarter - x.abs
    let a := y + quarterRest
    sinNear a ((y - a) + quarterRest)
  else
    let r := reduce x
    sinTurned (r.turns + 1) r.x r.dx

end Rover
