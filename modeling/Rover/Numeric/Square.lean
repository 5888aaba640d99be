import Rover.Numeric.Binary
import Rover.Numeric.Series

/-!
# Squares

The square of a double as the exponential of twice its logarithm, off by at most 0.52 units of the last bit. Both functions
look up the nearest of 128 points, where they are known to more than the precision of a double, and add a short polynomial.
The last bit depends on which products are fused with a sum, so each step says so.
-/

namespace Rover.Square

/-! ### The logarithm -/

/-- A number near the middle of an interval: its inverse, which has few bits, and its logarithm, as a multiple of `2 ^ -43`
and what that leaves over. -/
structure LogPoint where
  inverse : Float
  log : Float
  logRest : Float

/-- The bits of the least number that is not halved before its logarithm is taken, about 0.7057. -/
def least : UInt64 := 0x3fe6955500000000

/-- The start of the interval `i` of 128, in units of `2 ^ -53`. -/
def intervalStart (i : Nat) : Nat :=
  match parts (Float.ofBits (least + UInt64.ofNat (i <<< 45))) with
  | .finite _ m q => m <<< (q + 53).toNat
  | _ => 0

/-- The inverse of the middle of the interval `i`, in units of 1/256: to the nearest 1/128 if it is above one, and to the
nearest 1/256 if not. -/
def inverse256 (i : Nat) : Nat :=
  let middle := intervalStart i + intervalStart (i + 1)
  if middle < 1 <<< 54 then 2 * roundDiv (1 <<< 61) middle else roundDiv (1 <<< 62) middle

/-- Minus the logarithm of `n / 256`, as a fixed-point number. -/
def minusLog256 (n : Nat) : Int := if n ≤ 256 then Series.log 256 n else -(Series.log n 256 : Int)

def logPoint (i : Nat) : LogPoint :=
  let n := inverse256 i
  let log := minusLog256 n
  let unit : Nat := 1 <<< (Series.bits - 43)
  let near : Int := (log + unit / 2) / unit * unit
  ⟨Format.double.nearest false n 256, Series.toFloat near, Series.toFloat (log - near)⟩

@[noinline]
def logPoints : Array LogPoint := (Array.range 128).map logPoint

/-- A number as a double and a correction. -/
structure Pair where
  high : Float
  low : Float

/-- The logarithm of the positive double with these bits; `k` is the number of its doublings from the first interval. A
subnormal number is given by the bits that it would have with a wider exponent. -/
def logOfBits (b : UInt64) : Pair :=
  let offset := b - least
  let p := logPoints.getD (offset >>> 45 % 128).toNat ⟨1.0, 0.0, 0.0⟩
  let k := ofWord (offset.toInt64.toInt / 4503599627370496)
  let z := Float.ofBits (b - (offset &&& 0xfff0000000000000))
  let r := fusedMulAdd z p.inverse (-1.0)
  let t := fusedMulAdd k 0.6931471805598903 p.log
  let u := t + r
  let half := r * -0.5
  let second := r * half
  let third := r * second
  let high := u + second
  let q := fusedMulAdd r 1.0000415263675542 (-1.142909628459501)
  let q := fusedMulAdd q second (fusedMulAdd r (-0.6666666663487739) 0.7999999995323976)
  let q := fusedMulAdd second q (fusedMulAdd r 0.5000000000000007 (-0.6666666666666679))
  let low := fusedMulAdd k 5.497923018708371e-14 p.logRest + (t - u + r)
  let low := low + fusedMulAdd half r (-second) + (u - high + second)
  let low := fusedMulAdd third q low
  let log := high + low
  ⟨log, high - log + low⟩

/-- The logarithm of a positive double. -/
def log (x : Float) : Pair :=
  if x.toBits < 0x0010000000000000 then logOfBits ((x * 4503599627370496.0).toBits - 0x0340000000000000)
  else logOfBits x.toBits

/-! ### The exponential -/

/-- The power `2 ^ (i / 128)` as a double, by its bits less those that `i` itself takes in the exponent, and what the double
leaves over, relative to it. -/
structure Power where
  bits : UInt64
  rest : Float

def power (i : Nat) : Power :=
  let value := Series.exp (Series.log 2 1 * i / 128)
  let high := Series.toFloat value
  let known := Series.ofFloat high
  let rest := (value : Int) - known
  ⟨high.toBits - UInt64.ofNat (i <<< 45), Format.double.nearest (decide (rest < 0)) rest.natAbs known.toNat⟩

@[noinline]
def powers : Array Power := (Array.range 128).map power

/-- A double so large that adding it rounds to a whole number. -/
def shift : Float := 6755399441055744.0

/-- The least normal double, `2 ^ -1022`. -/
def leastNormal : Float := 2.2250738585072014e-308

/-- The power `2 ^ 1009`. -/
def largePower : Float := 5.486124068793689e+303

/-- The number `scale + scale * t`, where the exponent of `scale` has been raised by 1022 to hold it; the result may be
subnormal and is rounded once to the bits that it keeps. -/
def scaleDown (scale t : Float) : Float :=
  let p := t * scale
  let y := scale + p
  let y :=
    if y.abs < 1.0 then
      let high := 1.0 + y
      (1.0 - high + y + (scale - y + p)) + high - 1.0
    else y
  y * leastNormal

/-- The exponential of a number and a correction, for a number of less than 1024. -/
def exp (x : Pair) : Float :=
  let shifted := fusedMulAdd x.high 184.6649652337873 shift
  let k := shifted - shift
  let p := powers.getD (shifted.toBits % 128).toNat ⟨0, 0.0⟩
  let scale := p.bits + shifted.toBits <<< 45
  let r := fusedMulAdd k (-0.005415212348111709) x.high
  let r := x.low + fusedMulAdd k (-1.2864023111638346e-14) r
  let square := r * r
  let t := fusedMulAdd (fusedMulAdd r 0.16666666666665886 0.49999999999996786) square (r + p.rest)
  let t := fusedMulAdd (fusedMulAdd r 0.008333335853059549 0.0416666808410674) (square * square) t
  if x.high.abs < 512.0 then fusedMulAdd t (Float.ofBits scale) (Float.ofBits scale)
  else if x.high < 0.0 then scaleDown (Float.ofBits (scale + 0x3fe0000000000000)) t
  else
    let scale := Float.ofBits (scale - 0x3f10000000000000)
    fusedMulAdd scale t scale * largePower

end Rover.Square

namespace Rover

/-- The least magnitude whose square is too large for a double, `2 ^ 512`. -/
def squareLimit : Float := 1.3407807929942597e+154

/-- The square of a double; it is infinite from `squareLimit` on. -/
def square (x : Float) : Float :=
  if !x.isFinite || x == 0.0 || x.abs ≥ squareLimit then x * x
  else
    let log := Square.log x.abs
    if log.high ≤ -512.0 then 0.0
    else if log.high == 0.0 then 1.0
    else Square.exp ⟨2.0 * log.high, 2.0 * log.low⟩

end Rover
