import Rover.Program
import Rover.Stack
import Rover.World.Basic

/-!
# Faults

Why a run fails. A cause has a message and belongs to a category; a fault is a cause with the line and the call stack where
it came up, filled in by the innermost function that it leaves.
-/

namespace Rover

inductive Category where
  | general
  | undefined
  | arity
  | type
  | division
  | simulation
  | input
  /-- Not an error of the language: it is reported without a line and a call stack. -/
  | internal
  deriving DecidableEq, Repr

inductive Cause where
  | noProgram
  /-- A function is looked up, and there is no program to have it. -/
  | noFunctions
  | stackOverflow
  | unsupportedStatement (kind : Kind)
  | unsupportedExpression (kind : Kind)
  | unknownUnary (kind : Kind)
  | unresolvedLiteral (kind : Kind)
  | undeclaredFunction (name : String)
  | parameterCount (function : String)
  | referenceArgument
  | argumentCount
  | argumentType
  | voidResult
  | noInput
  /-- A token has more digits than an integer may have. -/
  | oversize (e : Oversize)
  | operand (e : OperandError)
  | stack (e : StackError)
  | world (e : WorldError)
  /-- A node lacks a child that its kind needs. -/
  | missingPart
  /-- A loop has not exactly a condition and a body. -/
  | loopParts (count : Nat)
  deriving DecidableEq, Repr

namespace Cause

def message : Cause → String
  | noProgram => "No program loaded"
  | noFunctions => "'NoneType' object has no attribute 'get'"
  | stackOverflow => "stack overflow"
  | unsupportedStatement kind => "Unsupported statement: " ++ kind.name
  | unsupportedExpression kind => "Unsupported expression node: " ++ kind.name
  | unknownUnary kind => "Unknown unary " ++ kind.name
  | unresolvedLiteral kind => "Unresolved " ++ kind.name ++ " literal"
  | undeclaredFunction name => "function " ++ name ++ " not declared"
  | parameterCount function => "Incorrect number of parameters calling function " ++ function
  | referenceArgument => "Wrong argument for pass by reference"
  | argumentCount => "incorrect number of arguments"
  | argumentType => "incorrect argument type"
  | voidResult => "function expected to return a value"
  | noInput => "no more input to read"
  | oversize e => e.message
  | operand e => e.message
  | stack e => e.message
  | world e => e.message
  | missingPart => "list index out of range"
  | loopParts count =>
    if count < 2 then "not enough values to unpack (expected 2, got " ++ Numeral.ofNat count ++ ")"
    else "too many values to unpack (expected 2)"

def category : Cause → Category
  | noFunctions => .internal
  | undeclaredFunction _ => .undefined
  | parameterCount _ => .arity
  | referenceArgument => .arity
  | argumentCount => .arity
  | argumentType => .type
  | voidResult => .type
  | noInput => .input
  | oversize _ => .internal
  | operand .divisionByZero => .division
  | operand _ => .type
  | stack (.undefinedVariable _) => .undefined
  | stack _ => .general
  | world .squareOverflow => .internal
  | world .infiniteAngle => .internal
  | world _ => .simulation
  | missingPart => .internal
  | loopParts _ => .internal
  | _ => .general

end Cause

structure Fault where
  cause : Cause
  line : Option Int
  /-- The call stack, innermost first. -/
  frames : List String

namespace Fault

/-- A fault that has not been located yet. -/
def bare (cause : Cause) : Fault := ⟨cause, none, []⟩

/-- Fills in what is not known yet. -/
def locate (f : Fault) (line : Int) (frames : List String) : Fault :=
  if f.cause.category = .internal then f
  else ⟨f.cause, some (f.line.getD line), if f.frames.isEmpty then frames else f.frames⟩

end Fault

/-- A message with its line, if it has one. -/
def locatedText (message : String) (line : Option Int) : String :=
  match line with
  | some n => if n < 0 then message else message ++ " (line " ++ Numeral.ofInt n ++ ")"
  | none => message

end Rover
