import Rover.Numeric.Layout
import Rover.Numeric.Reading

/-!
# Values

The scalars that programs compute with, and the operators on them. Integers are signed 32-bit words and floats are
single-precision values; `ofInt` and `ofFloat` bring any number into range, and every operator keeps it there.

Words are held as `Int` and every operation folds its exact result back by `wrap`, so that a law about words is a law about
integers modulo `2 ^ 32`.
-/

namespace Rover

/-! ### Words -/

def leastWord : Int := -2147483648

/-- How many words there are. -/
def wordCount : Int := 4294967296

/-- The word congruent to `n` modulo `2 ^ 32`: its distance from the least word is folded into the range of words. -/
def wrap (n : Int) : Int := (n - leastWord) % wordCount + leastWord

/-- The integers that a word can hold. -/
def IsWord (n : Int) : Prop := -2147483648 ≤ n ∧ n ≤ 2147483647

instance (n : Int) : Decidable (IsWord n) := inferInstanceAs (Decidable (_ ∧ _))

theorem isWord_wrap (n : Int) : IsWord (wrap n) := by
  unfold wrap IsWord leastWord wordCount
  omega

theorem wrap_eq_self_iff {n : Int} : wrap n = n ↔ IsWord n := by
  unfold wrap IsWord leastWord wordCount
  omega

/-- Folding from the least word on is the remainder that is balanced around zero. -/
theorem wrap_eq_bmod (n : Int) : wrap n = n.bmod 4294967296 := by
  unfold wrap leastWord wordCount
  rw [Int.bmod_def]
  omega

/-! What an operation forgets of its operands by wrapping them, wrapping its result would forget as well. -/

theorem wrap_add_wrap (a b : Int) : wrap (wrap a + wrap b) = wrap (a + b) := by
  simp only [wrap_eq_bmod, Int.add_bmod_bmod, Int.bmod_add_bmod]

theorem wrap_sub_wrap (a b : Int) : wrap (wrap a - wrap b) = wrap (a - b) := by
  simp only [wrap_eq_bmod, Int.sub_bmod_bmod, Int.bmod_sub_bmod]

theorem wrap_mul_wrap (a b : Int) : wrap (wrap a * wrap b) = wrap (a * b) := by
  simp only [wrap_eq_bmod, Int.mul_bmod_bmod, Int.bmod_mul_bmod]

theorem wrap_neg_wrap (a : Int) : wrap (-wrap a) = wrap (-a) := by
  have h := wrap_sub_wrap 0 a
  rwa [wrap_eq_self_iff.2 (by decide : IsWord 0), Int.zero_sub, Int.zero_sub] at h

/-- The quotient of two integers, truncated toward zero: the quotient of their magnitudes, with the sign put right. -/
def truncatedQuotient (a b : Int) : Int :=
  let q : Int := (a.natAbs / b.natAbs : Nat)
  if decide (a < 0) ≠ decide (b < 0) then -q else q

/-- What the truncated quotient leaves over. -/
def truncatedRest (a b : Int) : Int := a - b * truncatedQuotient a b

/-! ### Values -/

inductive ValueType where
  | void
  | boolean
  | integer
  | float
  | string
  deriving DecidableEq, Repr

def ValueType.name : ValueType → String
  | void => "void"
  | boolean => "boolean"
  | integer => "integer"
  | float => "float"
  | string => "string"

inductive Value where
  | void
  | boolean (b : Bool)
  | integer (n : Int)
  | float (x : Float)
  | string (s : String)
  deriving DecidableEq

inductive ArithmeticOp where
  | add
  | sub
  | mul
  | div
  | mod
  deriving DecidableEq, Repr

def ArithmeticOp.symbol : ArithmeticOp → String
  | add => "+"
  | sub => "-"
  | mul => "*"
  | div => "/"
  | mod => "%"

def ArithmeticOp.ofSymbol? (symbol : String) : Option ArithmeticOp :=
  [add, sub, mul, div, mod].find? (·.symbol == symbol)

inductive RelationalOp where
  | eq
  | ne
  | lt
  | le
  | gt
  | ge
  deriving DecidableEq, Repr

def RelationalOp.symbol : RelationalOp → String
  | eq => "=="
  | ne => "!="
  | lt => "<"
  | le => "<="
  | gt => ">"
  | ge => ">="

def RelationalOp.ofSymbol? (symbol : String) : Option RelationalOp :=
  [eq, ne, lt, le, gt, ge].find? (·.symbol == symbol)

/-- Why an operator cannot be applied to its operands. -/
inductive OperandError where
  | arithmeticTypes (left : ValueType) (symbol : String) (right : ValueType)
  | notArithmetic (type : ValueType)
  | notNumerical
  | notInteger
  | notBoolean
  | divisionByZero
  | unknownArithmetic (symbol : String)
  | relationalTypes
  | voidComparison
  | notOrdered (symbol : String) (type : ValueType)
  | unknownRelational (symbol : String)
  deriving DecidableEq, Repr

def OperandError.message : OperandError → String
  | arithmeticTypes left symbol right =>
    "Incompatible types in arithmetic expression (" ++ left.name ++ " " ++ symbol ++ " " ++ right.name ++ ")"
  | notArithmetic type => "Expecting numerical expression, got " ++ type.name
  | notNumerical => "Expecting numerical expression"
  | notInteger => "Expecting integer number"
  | notBoolean => "Expecting Boolean expression"
  | divisionByZero => "Division by zero"
  | unknownArithmetic symbol => "Unknown arithmetic operator " ++ symbol
  | relationalTypes => "Incompatible types in relational expression"
  | voidComparison => "Cannot compare void values"
  | notOrdered symbol type => "Operator " ++ symbol ++ " not supported for " ++ type.name ++ " values"
  | unknownRelational symbol => "Unknown relational operator " ++ symbol

namespace Value

def type : Value → ValueType
  | void => .void
  | boolean _ => .boolean
  | integer _ => .integer
  | float _ => .float
  | string _ => .string

def isVoid : Value → Bool
  | void => true
  | _ => false

def isNumeric : Value → Bool
  | integer _ => true
  | float _ => true
  | _ => false

/-- The integer value congruent to `n`. -/
def ofInt (n : Int) : Value := integer (wrap n)

/-- The float value nearest to `x`. -/
def ofFloat (x : Float) : Value := float (toSingle x)

/-- The text that a program writes for a value. -/
def text : Value → String
  | void => ""
  | boolean b => if b then "true" else "false"
  | integer n => Numeral.ofInt n
  | float x => singleText x
  | string s => s

/-- Division truncates toward zero, and the remainder takes the sign of the dividend. -/
def wordArithmetic (op : ArithmeticOp) (a b : Int) : Except OperandError Int :=
  match op with
  | .add => .ok (a + b)
  | .sub => .ok (a - b)
  | .mul => .ok (a * b)
  | .div => if b = 0 then .error .divisionByZero else .ok (truncatedQuotient a b)
  | .mod => if b = 0 then .error .divisionByZero else .ok (truncatedRest a b)

/-- Floats have no remainder. -/
def floatArithmetic (op : ArithmeticOp) (a b : Float) : Except OperandError Float :=
  match op with
  | .add => .ok (a + b)
  | .sub => .ok (a - b)
  | .mul => .ok (a * b)
  | .div => if b == 0.0 then .error .divisionByZero else .ok (a / b)
  | .mod => .error .notInteger

/-- The error of an arithmetic operator for operands that are not two integers or two floats. -/
def operandsError (symbol : String) (a b : Value) : OperandError :=
  if a.type = b.type then .notArithmetic a.type else .arithmeticTypes a.type symbol b.type

/-- Both operands have to be integers, or both floats. -/
def arithmetic (op : ArithmeticOp) : Value → Value → Except OperandError Value
  | integer a, integer b => (wordArithmetic op a b).map ofInt
  | float a, float b => (floatArithmetic op a b).map ofFloat
  | a, b => .error (operandsError op.symbol a b)

/-- Arithmetic by a symbol that may be no operator; the operands are checked first. -/
def arithmeticSymbol (symbol : String) (a b : Value) : Except OperandError Value :=
  match ArithmeticOp.ofSymbol? symbol with
  | some op => arithmetic op a b
  | none =>
    if a.type = b.type ∧ a.isNumeric then .error (.unknownArithmetic symbol) else .error (operandsError symbol a b)

/-- Values of the same type are equal or not; floats compare as numbers. -/
def equals : Value → Value → Bool
  | boolean a, boolean b => a == b
  | integer a, integer b => a == b
  | float a, float b => a == b
  | string a, string b => a == b
  | _, _ => false

/-- The order of two numbers, by `lt` and `le` on each type. -/
def ordered (op : RelationalOp) (a b : Value) : Except OperandError Bool :=
  match op, a, b with
  | .lt, integer a, integer b => .ok (a < b)
  | .le, integer a, integer b => .ok (a ≤ b)
  | .gt, integer a, integer b => .ok (b < a)
  | .ge, integer a, integer b => .ok (b ≤ a)
  | .lt, float a, float b => .ok (a < b)
  | .le, float a, float b => .ok (a ≤ b)
  | .gt, float a, float b => .ok (b < a)
  | .ge, float a, float b => .ok (b ≤ a)
  | op, a, _ => .error (.notOrdered op.symbol a.type)

/-- The checks that come before every comparison. -/
def comparable (a b : Value) : Except OperandError Unit :=
  if a.type ≠ b.type then .error .relationalTypes
  else if a.isVoid then .error .voidComparison
  else .ok ()

def relational (op : RelationalOp) (a b : Value) : Except OperandError Value := do
  comparable a b
  match op with
  | .eq => return boolean (equals a b)
  | .ne => return boolean (!equals a b)
  | _ => return boolean (← ordered op a b)

/-- Comparison by a symbol that may be no operator; the operands are checked first. -/
def relationalSymbol (symbol : String) (a b : Value) : Except OperandError Value :=
  match RelationalOp.ofSymbol? symbol with
  | some op => relational op a b
  | none => do
    comparable a b
    .error (if a.isNumeric then .unknownRelational symbol else .notOrdered symbol a.type)

def negate : Value → Except OperandError Value
  | integer n => .ok (ofInt (-n))
  | float x => .ok (ofFloat (-x))
  | _ => .error .notNumerical

def not : Value → Except OperandError Value
  | boolean b => .ok (boolean !b)
  | _ => .error .notBoolean

/-- An operator applied in place: it replaces the value that it is applied to, or fails and leaves it as it was. -/
def inPlace (operator : Value → Except OperandError Value) : EStateM OperandError Value Unit := fun v =>
  match operator v with
  | .ok w => .ok () w
  | .error e => .error e v

/-- A token that is a sign or none and decimal digits. -/
def isWholeToken (token : List Char) : Bool :=
  let digits := (Reading.sign token).2
  !digits.isEmpty && digits.all isDecimalDigit

/-- The integer that an input token is, if it is one. -/
def wholeOfToken (token : String) : Except Oversize (Option Int) :=
  if isWholeToken token.toList then Reading.int token else .ok none

/-- The value of an input token: an integer if it is one and fits a word, else a float if it reads as one, else the text
itself. Underscores never belong to a number here. -/
def ofToken (token : String) : Except Oversize Value := do
  let whole? ← wholeOfToken token
  let float? := if '_' ∈ token.toList then none else Reading.float? token
  match whole?.filter (IsWord ·), float? with
  | some n, _ => return integer n
  | none, some x => return ofFloat x
  | none, none => return string token

end Value

end Rover
