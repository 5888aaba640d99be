/-!
# Binary floating-point formats

A finite double is `± m * 2 ^ q`. This module takes doubles apart and puts them together, and rounds a quotient of
natural numbers to the nearest value of a binary format, a tie going to the even neighbour. Single precision, reading a
decimal and the trigonometric functions all round by `Format.round`. The floats of the language and the coordinates of the
arena are doubles that hold a single-precision value (`toSingle`).
-/

namespace Rover

/-- A double by its kind: `finite neg m q` is `± m * 2 ^ q`. -/
inductive Parts where
  | nan
  | infinite (neg : Bool)
  | finite (neg : Bool) (m : Nat) (q : Int)
  deriving DecidableEq, Repr

/-- The fields of a double: sign bit, eleven bits of exponent and 52 bits of fraction. -/
def parts (x : Float) : Parts :=
  let bits := x.toBits
  let neg := bits / 9223372036854775808 == 1
  let exponent := (bits / 4503599627370496 % 2048).toNat
  let fraction := (bits % 4503599627370496).toNat
  if exponent = 2047 then
    if fraction = 0 then .infinite neg else .nan
  else if exponent = 0 then .finite neg fraction (-1074)
  else .finite neg (4503599627370496 + fraction) (exponent - 1075)

/-- The double with this sign, exponent field and fraction field. -/
def ofFields (neg : Bool) (exponent fraction : Nat) : Float :=
  let magnitude := UInt64.ofNat (exponent * 4503599627370496 + fraction)
  Float.ofBits (if neg then magnitude + 9223372036854775808 else magnitude)

def infinity (neg : Bool) : Float := ofFields neg 2047 0

def notANumber : Float := ofFields false 2047 2251799813685248

/-- The double `± n * 2 ^ u`, for an `n` of at most 53 bits (or `2 ^ 53`) and a `u` from -1074 on. -/
def assemble (neg : Bool) (n : Nat) (u : Int) : Float :=
  if n = 0 then ofFields neg 0 0
  else
    let top := n.log2
    let exponent := top + u
    if exponent ≥ 1024 then infinity neg
    else if exponent < -1022 then ofFields neg 0 (n <<< (u + 1074).toNat)
    else ofFields neg (exponent + 1023).toNat (n <<< (52 - top) >>> (top - 52) - 4503599627370496)

/-- The integer nearest to `num / den`, a half going to the even neighbour. -/
def roundDiv (num den : Nat) : Nat :=
  let q := num / den
  let r := num % den
  if 2 * r < den ∨ (2 * r = den ∧ q % 2 = 0) then q else q + 1

/-- The largest `k` with `2 ^ k ≤ num / den`, for positive `num` and `den`. -/
def floorLog2 (num den : Nat) : Int :=
  let k : Int := (num.log2 : Int) - den.log2
  if num <<< (-k).toNat < den <<< k.toNat then k - 1 else k

/-- A binary format: `precision` significant bits, no bit below `2 ^ least`, and infinity from `2 ^ limit` on. -/
structure Format where
  precision : Nat
  least : Int
  limit : Int

namespace Format

def single : Format := ⟨24, -149, 128⟩

def double : Format := ⟨53, -1074, 1024⟩

/-- The exponent of the last bit that the format keeps of `num / den`. -/
def unit (f : Format) (num den : Nat) : Int :=
  max (floorLog2 num den + 1 - f.precision) f.least

/-- The multiple of the last kept bit nearest to `num / den`, as `(n, u)` for `n * 2 ^ u`. -/
def round (f : Format) (num den : Nat) : Nat × Int :=
  let u := f.unit num den
  (roundDiv (num <<< (-u).toNat) (den <<< u.toNat), u)

/-- The value of the format nearest to `± num / den`, as a double. -/
def nearest (f : Format) (neg : Bool) (num den : Nat) : Float :=
  if num = 0 then ofFields neg 0 0
  else
    let (n, u) := f.round num den
    if (n.log2 : Int) + u ≥ f.limit then infinity neg else assemble neg n u

/-- The value of the format nearest to `± n * 2 ^ q`, as a double. -/
def nearestScaled (f : Format) (neg : Bool) (n : Nat) (q : Int) : Float :=
  if n = 0 then ofFields neg 0 0
  else
    let u := max ((n.log2 : Int) + q + 1 - f.precision) f.least
    let m := if u ≤ q then n <<< (q - u).toNat else roundDiv n (1 <<< (u - q).toNat)
    if (m.log2 : Int) + u ≥ f.limit then infinity neg else assemble neg m u

end Format

/-- The double equal to a word. -/
def ofWord (n : Int) : Float := assemble (decide (n < 0)) n.natAbs 0

/-- The single-precision value nearest to `x`, ties to even; too large a magnitude becomes the infinity of its sign. -/
def toSingle (x : Float) : Float :=
  match parts x with
  | .finite neg m q => Format.single.nearest neg (m <<< q.toNat) (1 <<< (-q).toNat)
  | _ => x

/-- The doubles that hold a single-precision value, not-a-number included. -/
def IsSingle (x : Float) : Prop := x.isNaN ∨ toSingle x = x

/-! ### Fused multiplication and addition -/

/-- The integer of a sign and a magnitude. -/
def signed (neg : Bool) (n : Nat) : Int := if neg then -(n : Int) else n

/-- The double nearest to `a * b + c`. The product and the sum are exact; a sum of zero is negative only if both of its
parts are. -/
def fusedMulAdd (a b c : Float) : Float :=
  match parts a, parts b, parts c with
  | .finite negA ma qa, .finite negB mb qb, .finite negC mc qc =>
    let negProduct := negA != negB
    let q := min (qa + qb) qc
    let sum := signed negProduct ((ma * mb) <<< (qa + qb - q).toNat) + signed negC (mc <<< (qc - q).toNat)
    if sum = 0 then ofFields (negProduct && negC) 0 0 else Format.double.nearestScaled (decide (sum < 0)) sum.natAbs q
  | _, _, _ => a * b + c

end Rover
