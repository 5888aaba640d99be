import Rover.Node

/-!
# Loaded programs

Loading turns a tree into a table of functions, in the order of their definitions. Names are distinct, and every literal in
a body carries its constant, so that running a program never reads the text of a literal again.
-/

namespace Rover

structure Param where
  name : String
  byRef : Bool
  deriving DecidableEq, Repr

structure Function where
  name : String
  params : List Param
  body : Node
  line : Int

structure Program where
  functions : List Function

/-- Why a tree cannot be loaded. -/
inductive LoadError where
  | notFunctionList (kind : Kind) (line : Int)
  | notFunction (kind : Kind) (line : Int)
  | duplicate (name : String) (line : Int)
  | literalRange (text : String) (line : Int)
  | notInt (text : String)
  | oversize (e : Oversize)
  | notFloat (text : String)
  | missingPart
  deriving DecidableEq, Repr

namespace LoadError

def message : LoadError → String
  | notFunctionList kind _ => "Expected a function list, got " ++ kind.name
  | notFunction kind _ => "Malformed function node: " ++ kind.name
  | duplicate name _ => "Multiple definitions of function " ++ name
  | literalRange text _ => "Integer literal out of range: " ++ text
  | notInt text => "invalid literal for int() with base 10: " ++ String.ofList ((quoted text).toList.take 200)
  | oversize e => e.message
  | notFloat text => "could not convert string to float: " ++ quoted text
  | missingPart => "list index out of range"

/-- The place of an error that has one. -/
def line? : LoadError → Option Int
  | notFunctionList _ line => some line
  | notFunction _ line => some line
  | duplicate _ line => some line
  | literalRange _ line => some line
  | _ => none

end LoadError

/-- The constant that a literal denotes; other nodes denote none. -/
def constant? (kind : Kind) (line : Int) (text : String) : Except LoadError (Option Value) :=
  match kind with
  | .int => do
    match ← (Reading.int text).mapError .oversize with
    | none => .error (.notInt text)
    | some n => if IsWord n then .ok (some (.integer n)) else .error (.literalRange text line)
  | .float =>
    match Reading.float? text with
    | none => .error (.notFloat text)
    | some x => .ok (some (.ofFloat x))
  | .boolean => .ok (some (.boolean (text == "true")))
  | .string => .ok (some (.string text))
  | _ => .ok none

namespace Node

mutual

/-- The tree with the constant of every literal filled in; the first literal without one, in source order, is the
error. -/
def resolve : Node → Except LoadError Node
  | ⟨kind, line, text, value, children⟩ => do
    let constant ← constant? kind line text
    let children ← resolveAll children
    return ⟨kind, line, text, constant <|> value, children⟩

def resolveAll : List Node → Except LoadError (List Node)
  | [] => .ok []
  | n :: ns => do
    let n ← resolve n
    let ns ← resolveAll ns
    return n :: ns

end

end Node

namespace Program

def get? (p : Program) (name : String) : Option Function := p.functions.find? (·.name == name)

def names (p : Program) : List String := p.functions.map (·.name)

def param (n : Node) : Param := ⟨n.text, n.kind == .paramRef⟩

/-- Adds the function of a node after those already defined. -/
def define (done : List Function) (n : Node) : Except LoadError (List Function) :=
  if n.kind ≠ .function then .error (.notFunction n.kind n.line)
  else if done.any (·.name == n.text) then .error (.duplicate n.text n.line)
  else match n.children with
    | params :: body :: _ => do
      let body ← body.resolve
      return done ++ [⟨n.text, params.children.map param, body, n.line⟩]
    | _ => .error .missingPart

def ofTree (tree : Node) : Except LoadError Program :=
  if tree.kind ≠ .functionList then .error (.notFunctionList tree.kind tree.line)
  else do return ⟨← tree.children.foldlM define []⟩

end Program

end Rover
