import Rover.Text.Quoted
import Rover.Value

/-!
# Program trees

A program is a tree of uniform nodes: a kind, the line of the source where it starts, a text (a name, or the text of a
literal), the constant of a literal once it is known, and children. What children a kind needs is checked where the tree is
loaded and run, so that trees built by hand can be held too.
-/

namespace Rover

inductive Kind where
  | functionList
  | function
  | paramList
  | paramValue
  | paramRef
  | block
  | assign
  | ifElse
  | whileDo
  | ret
  | read
  | write
  | call
  | argList
  | id
  | int
  | float
  | boolean
  | string
  | arithmetic (op : ArithmeticOp)
  | relational (op : RelationalOp)
  | and
  | or
  | not
  deriving DecidableEq, Repr

namespace Kind

def name : Kind → String
  | functionList => "function_list"
  | function => "function"
  | paramList => "param_list"
  | paramValue => "param_value"
  | paramRef => "param_ref"
  | block => "block"
  | assign => "assign"
  | ifElse => "if"
  | whileDo => "while"
  | ret => "return"
  | read => "read"
  | write => "write"
  | call => "funcall"
  | argList => "arg_list"
  | id => "id"
  | int => "int"
  | float => "float"
  | boolean => "boolean"
  | string => "string"
  | arithmetic op => op.symbol
  | relational op => op.symbol
  | and => "and"
  | or => "or"
  | not => "not"

def all : List Kind :=
  [functionList, function, paramList, paramValue, paramRef, block, assign, ifElse, whileDo, ret, read, write, call,
    argList, id, int, float, boolean, string, and, or, not] ++
  [ArithmeticOp.add, .sub, .mul, .div, .mod].map arithmetic ++
  [RelationalOp.eq, .ne, .lt, .le, .gt, .ge].map relational

def ofName? (name : String) : Option Kind := all.find? (·.name == name)

end Kind

structure Node where
  kind : Kind
  line : Int
  text : String
  value : Option Value
  children : List Node

namespace Node

/-- A node without a text. -/
def branch (kind : Kind) (line : Int) (children : List Node) : Node := ⟨kind, line, "", none, children⟩

/-- A node without children. -/
def leaf (kind : Kind) (line : Int) (text : String) : Node := ⟨kind, line, text, none, []⟩

/-- The line that shows a node itself: two blanks for each level, the kind, the quoted text if there is one, the line. -/
def label (indent : Int) (n : Node) : String :=
  String.join (List.replicate indent.toNat "  ") ++ n.kind.name ++
    (if n.text.isEmpty then "" else " " ++ quoted n.text) ++ " <line " ++ Numeral.ofInt n.line ++ ">"

mutual

/-- The lines that show a tree, each node before its children and each level further to the right. -/
def outline (indent : Int) : Node → List String
  | ⟨kind, line, text, value, children⟩ =>
    label indent ⟨kind, line, text, value, []⟩ :: outlineAll (indent + 1) children

def outlineAll (indent : Int) : List Node → List String
  | [] => []
  | n :: ns => outline indent n ++ outlineAll indent ns

end

mutual

/-- Whether a tree has a node of a kind. -/
def has (k : Kind) : Node → Bool
  | ⟨kind, _, _, _, children⟩ => kind = k || anyHas k children

def anyHas (k : Kind) : List Node → Bool
  | [] => false
  | n :: ns => has k n || anyHas k ns

end

/-- The tree as text. -/
def pretty (indent : Int) (n : Node) : String := "\n".intercalate (n.outline indent)

end Node

end Rover
