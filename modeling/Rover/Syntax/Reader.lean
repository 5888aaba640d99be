import Rover.Node
import Rover.Syntax.Terminal

/-!
# The reader

A program is read token by token. The `Reader` after some tokens is the list of finished functions, a spine of the
constructs that are still open, innermost first, and the spot where the next token goes. `Reader.takes` says which terminals
are tried next, `Reader.feed` takes a token or refuses it, and `Reader.finish?` is the program once nothing is open.

Operators wait on the spine until a token shows that nothing binds tighter: a new operator first closes the waiting ones
of at least its own level, and what ends an expression closes them all. Comparisons do not chain.
-/

namespace Rover

structure Token where
  terminal : Terminal
  text : String
  line : Nat
  column : Nat
  deriving DecidableEq, Repr

/-- The construct that a block of statements belongs to. -/
inductive Owner where
  | function (line : Nat) (name : String) (params : Node)
  | thenPart (line : Nat) (condition : Node)
  | elsePart (line : Nat) (condition consequent : Node)
  | loop (line : Nat) (condition : Node)

/-- An open construct. Finished parts of a sequence are held last first. -/
inductive Open where
  | block (owner : Owner) (done : List Node)
  | assign (target : Token)
  | ifCondition (line : Nat)
  | whileCondition (line : Nat)
  | ret (line : Nat)
  | write (line : Nat)
  | group
  | arguments (callee : Token) (isStatement : Bool) (done : List Node)
  | unary (kind : Kind)
  | binary (kind : Kind) (left : Node)

/-- The part of a function that stands before its parameters' end; the parameters are held last first. -/
structure Header where
  line : Nat
  name : String
  params : List Node

/-- Where the next token goes. -/
inductive Spot where
  /-- Between functions. -/
  | outside
  | functionName (line : Nat)
  | paramsOpen (line : Nat) (name : String)
  | firstParam (header : Header)
  | nextParam (header : Header)
  | refParam (header : Header)
  | afterParam (header : Header)
  /-- Where a statement may start; `fresh` just after the token that opened the block. -/
  | statement (fresh : Bool)
  | afterTarget (target : Token)
  | readTarget (line : Nat)
  /-- Before the semicolon of a finished statement. -/
  | statementEnd (statement : Node)
  | returnOperand
  | operand
  | firstArgument
  /-- After an operand; a name may still turn out to be called. -/
  | afterName (name : Token)
  | afterOperand (operand : Node)

structure Reader where
  functions : List Node
  spine : List Open
  spot : Spot

namespace Token

def id (t : Token) : Node := .leaf .id t.line t.text

end Token

namespace Reader

def initial : Reader := ⟨[], [], .outside⟩

/-! ### Nodes -/

/-- The line of a sequence is that of its first part. -/
def lineOf (default : Int) : List Node → Int
  | [] => default
  | n :: _ => n.line

/-- A block from its statements, last first. -/
def blockNode (done : List Node) : Node := .branch .block (lineOf 0 done.reverse) done.reverse

def paramsNode (header : Header) : Node :=
  .branch .paramList (lineOf header.line header.params.reverse) header.params.reverse

def callNode (callee : Token) (done : List Node) : Node :=
  .branch .call callee.line [callee.id, .branch .argList (lineOf callee.line done.reverse) done.reverse]

/-- An operator stands on the line of its first operand. -/
def unaryNode (kind : Kind) (operand : Node) : Node := .branch kind operand.line [operand]

def binaryNode (kind : Kind) (left right : Node) : Node := .branch kind left.line [left, right]

/-- The text of a string literal between its quotes, with escapes replaced. -/
def literalText (text : String) : String := String.ofList (Escape.decode (text.toList.drop 1).dropLast)

/-! ### Operators -/

def unaryKind? : Terminal → Option Kind
  | .keyword .kwNot => some .not
  | .mark .minus => some (.arithmetic .sub)
  | .mark .plus => some (.arithmetic .add)
  | _ => none

def binaryKind? : Terminal → Option Kind
  | .keyword .kwOr => some .or
  | .keyword .kwAnd => some .and
  | .mark .equalEqual => some (.relational .eq)
  | .mark .notEqual => some (.relational .ne)
  | .mark .less => some (.relational .lt)
  | .mark .lessEqual => some (.relational .le)
  | .mark .greater => some (.relational .gt)
  | .mark .greaterEqual => some (.relational .ge)
  | .mark .plus => some (.arithmetic .add)
  | .mark .minus => some (.arithmetic .sub)
  | .mark .star => some (.arithmetic .mul)
  | .mark .slash => some (.arithmetic .div)
  | .mark .percent => some (.arithmetic .mod)
  | _ => none

/-- How tightly a binary operator binds. -/
def level : Kind → Nat
  | .or => 1
  | .and => 2
  | .relational _ => 3
  | .arithmetic .add => 4
  | .arithmetic .sub => 4
  | _ => 5

/-- Closes the waiting operators of at least the level `least` over a finished operand. -/
def collapse (least : Nat) (operand : Node) : List Open → Node × List Open
  | .unary kind :: spine => collapse least (unaryNode kind operand) spine
  | .binary kind left :: spine =>
    if least ≤ level kind then collapse least (binaryNode kind left operand) spine
    else (operand, .binary kind left :: spine)
  | spine => (operand, spine)

/-! ### Which terminals are tried -/

def startsStatement : Terminal → Bool
  | .name => true
  | .keyword k => [.kwIf, .kwRead, .kwReturn, .kwWhile, .kwWrite].contains k
  | .mark m => m == .semicolon
  | _ => false

def startsOperand : Terminal → Bool
  | .name => true
  | .int => true
  | .float => true
  | .string => true
  | .keyword k => [.kwTrue, .kwFalse, .kwNot].contains k
  | .mark m => [.lpar, .minus, .plus].contains m

/-- What can follow an operand somewhere: a binary operator or the end of an expression. -/
def followsOperand (t : Terminal) : Bool :=
  (binaryKind? t).isSome || match t with
    | .keyword k => [.kwThen, .kwDo].contains k
    | .mark m => [.comma, .rpar, .semicolon].contains m
    | _ => false

/-- The keywords that can end a block just opened. -/
def closers : Owner → List Keyword
  | .function _ _ _ => [.kwEndfunc]
  | .thenPart _ _ => [.kwElse, .kwEndif]
  | .elsePart _ _ _ => [.kwEndif]
  | .loop _ _ => [.kwEndwhile]

/-- The keywords tried at the end of a block. Once a statement or an empty one has been read, all of them are. -/
def blockEnds (fresh : Bool) : List Open → List Keyword
  | .block owner _ :: _ => if fresh then closers owner else [.kwElse, .kwEndfunc, .kwEndif, .kwEndwhile]
  | _ => []

/-- The terminals that are tried at the place of the next token. -/
def takes (s : Reader) (t : Terminal) : Bool :=
  match s.spot with
  | .outside => t == .keyword .kwFunc
  | .functionName _ => t == .name
  | .paramsOpen _ _ => t == .mark .lpar
  | .firstParam _ => t == .mark .ampersand || t == .name || t == .mark .rpar
  | .nextParam _ => t == .mark .ampersand || t == .name
  | .refParam _ => t == .name
  | .afterParam _ => t == .mark .comma || t == .mark .rpar
  | .statement fresh => startsStatement t || match t with
    | .keyword k => (blockEnds fresh s.spine).contains k
    | _ => false
  | .afterTarget _ => t == .mark .equal || t == .mark .lpar
  | .readTarget _ => t == .name
  | .statementEnd _ => t == .mark .semicolon
  | .returnOperand => startsOperand t || t == .mark .semicolon
  | .operand => startsOperand t
  | .firstArgument => startsOperand t || t == .mark .rpar
  | .afterName _ => followsOperand t || t == .mark .lpar
  | .afterOperand _ => followsOperand t

/-! ### Taking a token -/

def goto (s : Reader) (spot : Spot) : Reader := { s with spot }

/-- Opens a construct and goes to a spot inside it. -/
def enter (s : Reader) (construct : Open) (spot : Spot) : Reader := { s with spine := construct :: s.spine, spot }

/-- Adds a finished statement to the innermost block. -/
def addStatement (s : Reader) (spine : List Open) (statement : Node) : Option Reader :=
  match spine with
  | .block owner done :: outer => some { s with spine := .block owner (statement :: done) :: outer, spot := .statement false }
  | _ => none

def openBody (s : Reader) (header : Header) : Reader :=
  s.enter (.block (.function header.line header.name (paramsNode header)) []) (.statement true)

/-- Ends the innermost block by a keyword. -/
def closeBlock (s : Reader) (k : Keyword) : Option Reader :=
  match s.spine, k with
  | .block (.function line name params) done :: [], .kwEndfunc =>
    let body := blockNode done
    some ⟨⟨.function, line, name, none, [params, body]⟩ :: s.functions, [], .outside⟩
  | .block (.thenPart line condition) done :: outer, .kwElse =>
    some { s with spine := .block (.elsePart line condition (blockNode done)) [] :: outer, spot := .statement true }
  | .block (.thenPart line condition) done :: outer, .kwEndif =>
    s.addStatement outer (.branch .ifElse line [condition, blockNode done])
  | .block (.elsePart line condition consequent) done :: outer, .kwEndif =>
    s.addStatement outer (.branch .ifElse line [condition, consequent, blockNode done])
  | .block (.loop line condition) done :: outer, .kwEndwhile =>
    s.addStatement outer (.branch .whileDo line [condition, blockNode done])
  | _, _ => none

def feedStatement (s : Reader) (t : Token) : Option Reader :=
  match t.terminal with
  | .mark .semicolon => some (s.goto (.statement false))
  | .name => some (s.goto (.afterTarget t))
  | .keyword .kwIf => some (s.enter (.ifCondition t.line) .operand)
  | .keyword .kwWhile => some (s.enter (.whileCondition t.line) .operand)
  | .keyword .kwReturn => some (s.enter (.ret t.line) .returnOperand)
  | .keyword .kwWrite => some (s.enter (.write t.line) .operand)
  | .keyword .kwRead => some (s.goto (.readTarget t.line))
  | .keyword k => s.closeBlock k
  | _ => none

def feedOperand (s : Reader) (t : Token) : Option Reader :=
  match t.terminal with
  | .name => some (s.goto (.afterName t))
  | .int => some (s.goto (.afterOperand (.leaf .int t.line t.text)))
  | .float => some (s.goto (.afterOperand (.leaf .float t.line t.text)))
  | .string => some (s.goto (.afterOperand (.leaf .string t.line (literalText t.text))))
  | .keyword .kwTrue => some (s.goto (.afterOperand (.leaf .boolean t.line "true")))
  | .keyword .kwFalse => some (s.goto (.afterOperand (.leaf .boolean t.line "false")))
  | .mark .lpar => some (s.enter .group .operand)
  | terminal => (unaryKind? terminal).map fun kind => s.enter (.unary kind) .operand

/-- A call whose closing parenthesis has been read is a statement or an operand. -/
def endCall (s : Reader) (spine : List Open) (callee : Token) (isStatement : Bool) (done : List Node) : Reader :=
  let node := callNode callee done
  { s with spine, spot := if isStatement then .statementEnd node else .afterOperand node }

/-- Whether the innermost waiting operator is a comparison. -/
def comparisonWaits : List Open → Bool
  | .binary (.relational _) _ :: _ => true
  | _ => false

/-- Puts a binary operator after an operand. -/
def feedOperator (s : Reader) (operand : Node) (kind : Kind) : Option Reader :=
  let isComparison := level kind == 3
  let (left, spine) := collapse (if isComparison then 4 else level kind) operand s.spine
  if isComparison && comparisonWaits spine then none
  else some { s with spine := .binary kind left :: spine, spot := .operand }

/-- Ends an expression by the token that follows it. -/
def feedEnd (s : Reader) (operand : Node) (t : Terminal) : Option Reader :=
  let (expression, spine) := collapse 0 operand s.spine
  match spine, t with
  | .assign target :: outer, .mark .semicolon =>
    s.addStatement outer (.branch .assign target.line [target.id, expression])
  | .ret line :: outer, .mark .semicolon => s.addStatement outer (.branch .ret line [expression])
  | .write line :: outer, .mark .semicolon => s.addStatement outer (.branch .write line [expression])
  | .ifCondition line :: outer, .keyword .kwThen =>
    some { s with spine := .block (.thenPart line expression) [] :: outer, spot := .statement true }
  | .whileCondition line :: outer, .keyword .kwDo =>
    some { s with spine := .block (.loop line expression) [] :: outer, spot := .statement true }
  | .group :: outer, .mark .rpar => some { s with spine := outer, spot := .afterOperand expression }
  | .arguments callee isStatement done :: outer, .mark .rpar =>
    some (s.endCall outer callee isStatement (expression :: done))
  | .arguments callee isStatement done :: outer, .mark .comma =>
    some { s with spine := .arguments callee isStatement (expression :: done) :: outer, spot := .operand }
  | _, _ => none

def feedAfterOperand (s : Reader) (operand : Node) (t : Token) : Option Reader :=
  match binaryKind? t.terminal with
  | some kind => s.feedOperator operand kind
  | none => s.feedEnd operand t.terminal

/-- A parameter name, or the mark of a reference parameter. -/
def feedParam (s : Reader) (header : Header) (t : Token) : Option Reader :=
  match t.terminal with
  | .name => some (s.goto (.afterParam { header with params := .leaf .paramValue t.line t.text :: header.params }))
  | .mark .ampersand => some (s.goto (.refParam header))
  | _ => none

/-- The state after one more token, unless the token cannot stand here. -/
def feed (s : Reader) (t : Token) : Option Reader :=
  match s.spot, t.terminal with
  | .outside, .keyword .kwFunc => some (s.goto (.functionName t.line))
  | .functionName line, .name => some (s.goto (.paramsOpen line t.text))
  | .paramsOpen line name, .mark .lpar => some (s.goto (.firstParam ⟨line, name, []⟩))
  | .firstParam header, .mark .rpar => some (s.openBody header)
  | .firstParam header, _ => s.feedParam header t
  | .nextParam header, _ => s.feedParam header t
  | .refParam header, .name =>
    some (s.goto (.afterParam { header with params := .leaf .paramRef t.line t.text :: header.params }))
  | .afterParam header, .mark .comma => some (s.goto (.nextParam header))
  | .afterParam header, .mark .rpar => some (s.openBody header)
  | .statement _, _ => s.feedStatement t
  | .afterTarget target, .mark .equal => some (s.enter (.assign target) .operand)
  | .afterTarget target, .mark .lpar => some (s.enter (.arguments target true []) .firstArgument)
  | .readTarget line, .name => some (s.goto (.statementEnd (.branch .read line [t.id])))
  | .statementEnd statement, .mark .semicolon => s.addStatement s.spine statement
  | .returnOperand, .mark .semicolon =>
    match s.spine with
    | .ret line :: outer => s.addStatement outer (.branch .ret line [])
    | _ => none
  | .returnOperand, _ => s.feedOperand t
  | .operand, _ => s.feedOperand t
  | .firstArgument, .mark .rpar =>
    match s.spine with
    | .arguments callee isStatement done :: outer => some (s.endCall outer callee isStatement done)
    | _ => none
  | .firstArgument, _ => s.feedOperand t
  | .afterName name, .mark .lpar => some (s.enter (.arguments name false []) .firstArgument)
  | .afterName name, _ => s.feedAfterOperand name.id t
  | .afterOperand operand, _ => s.feedAfterOperand operand t
  | _, _ => none

/-- The program that has been read, if nothing is open. -/
def finish? (s : Reader) : Option Node :=
  match s.spot, s.spine with
  | .outside, [] => some (.branch .functionList (lineOf 0 s.functions.reverse) s.functions.reverse)
  | _, _ => none

end Reader

end Rover
