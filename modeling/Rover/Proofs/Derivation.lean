import Rover.Syntax.Reader

/-!
# The grammar

The language is given by a grammar, and a derivation in it is a tree: a node for each use of a production, and a leaf for
each token. A derivation has the sequence of its tokens (`Derivation.tokens`) and denotes a piece of a program tree
(`Derivation.image`). Nothing here says how to find a derivation.

A part in brackets, which may be missing, is a symbol of its own with two productions, and so is a repetition.
-/

namespace Rover

/-- A token of a known terminal. -/
structure Leaf (terminal : Terminal) where
  text : String
  line : Nat
  column : Nat

/-- The operators between two operands. -/
inductive Binary where
  | or
  | and
  | compare (op : RelationalOp)
  | add
  | sub
  | mul
  | div
  | mod
  deriving DecidableEq, Repr

/-- The operators in front of an operand. -/
inductive Unary where
  | not
  | neg
  | pos
  deriving DecidableEq, Repr

namespace Binary

def terminal : Binary → Terminal
  | or => .keyword .kwOr
  | and => .keyword .kwAnd
  | compare .eq => .mark .equalEqual
  | compare .ne => .mark .notEqual
  | compare .lt => .mark .less
  | compare .le => .mark .lessEqual
  | compare .gt => .mark .greater
  | compare .ge => .mark .greaterEqual
  | add => .mark .plus
  | sub => .mark .minus
  | mul => .mark .star
  | div => .mark .slash
  | mod => .mark .percent

def kind : Binary → Kind
  | or => .or
  | and => .and
  | compare op => .relational op
  | add => .arithmetic .add
  | sub => .arithmetic .sub
  | mul => .arithmetic .mul
  | div => .arithmetic .div
  | mod => .arithmetic .mod

/-- The level of the expressions that the operator makes. -/
def level : Binary → Nat
  | or => 0
  | and => 1
  | compare _ => 2
  | add => 3
  | sub => 3
  | mul => 4
  | div => 4
  | mod => 4

/-- The level of the left operand: operators associate to the left, and comparisons do not associate. -/
def leftLevel : Binary → Nat
  | compare _ => 3
  | op => op.level

end Binary

namespace Unary

def terminal : Unary → Terminal
  | not => .keyword .kwNot
  | neg => .mark .minus
  | pos => .mark .plus

def kind : Unary → Kind
  | not => .not
  | neg => .arithmetic .sub
  | pos => .arithmetic .add

end Unary

inductive Symbol where
  | start
  | functions
  | function
  | params
  | paramList
  | param
  | block
  | statements
  | statement
  | alternative
  | result
  | args
  | argList
  /-- Expressions by how tight they bind: disjunctions, conjunctions, comparisons, sums, terms and factors, from 0 to 5. -/
  | expression (level : Nat)
  | atom

/-- The derivations from a symbol, one constructor for each production. -/
inductive Derivation : Symbol → Type
  | start (functions : Derivation .functions) : Derivation .start
  | noFunctions : Derivation .functions
  | functions (before : Derivation .functions) (f : Derivation .function) : Derivation .functions
  | function (func : Leaf (.keyword .kwFunc)) (name : Leaf .name) (lpar : Leaf (.mark .lpar)) (params : Derivation .params)
      (rpar : Leaf (.mark .rpar)) (body : Derivation .block) (endfunc : Leaf (.keyword .kwEndfunc)) : Derivation .function
  | noParams : Derivation .params
  | params (ps : Derivation .paramList) : Derivation .params
  | firstParam (p : Derivation .param) : Derivation .paramList
  | nextParam (before : Derivation .paramList) (comma : Leaf (.mark .comma)) (p : Derivation .param) : Derivation .paramList
  | paramValue (name : Leaf .name) : Derivation .param
  | paramRef (ampersand : Leaf (.mark .ampersand)) (name : Leaf .name) : Derivation .param
  | block (ss : Derivation .statements) : Derivation .block
  | noStatements : Derivation .statements
  | statements (before : Derivation .statements) (s : Derivation .statement) : Derivation .statements
  | assign (name : Leaf .name) (equal : Leaf (.mark .equal)) (e : Derivation (.expression 0))
      (semicolon : Leaf (.mark .semicolon)) : Derivation .statement
  | ifElse (kwIf : Leaf (.keyword .kwIf)) (condition : Derivation (.expression 0)) (kwThen : Leaf (.keyword .kwThen))
      (consequent : Derivation .block) (alternative : Derivation .alternative) (kwEndif : Leaf (.keyword .kwEndif)) :
      Derivation .statement
  | noAlternative : Derivation .alternative
  | alternative (kwElse : Leaf (.keyword .kwElse)) (body : Derivation .block) : Derivation .alternative
  | whileDo (kwWhile : Leaf (.keyword .kwWhile)) (condition : Derivation (.expression 0)) (kwDo : Leaf (.keyword .kwDo))
      (body : Derivation .block) (kwEndwhile : Leaf (.keyword .kwEndwhile)) : Derivation .statement
  | ret (kwReturn : Leaf (.keyword .kwReturn)) (result : Derivation .result) (semicolon : Leaf (.mark .semicolon)) :
      Derivation .statement
  | noResult : Derivation .result
  | result (e : Derivation (.expression 0)) : Derivation .result
  | read (kwRead : Leaf (.keyword .kwRead)) (name : Leaf .name) (semicolon : Leaf (.mark .semicolon)) : Derivation .statement
  | write (kwWrite : Leaf (.keyword .kwWrite)) (e : Derivation (.expression 0)) (semicolon : Leaf (.mark .semicolon)) :
      Derivation .statement
  | call (name : Leaf .name) (lpar : Leaf (.mark .lpar)) (args : Derivation .args) (rpar : Leaf (.mark .rpar))
      (semicolon : Leaf (.mark .semicolon)) : Derivation .statement
  | empty (semicolon : Leaf (.mark .semicolon)) : Derivation .statement
  | noArgs : Derivation .args
  | args (es : Derivation .argList) : Derivation .args
  | firstArg (e : Derivation (.expression 0)) : Derivation .argList
  | nextArg (before : Derivation .argList) (comma : Leaf (.mark .comma)) (e : Derivation (.expression 0)) :
      Derivation .argList
  | binary (op : Binary) (left : Derivation (.expression op.leftLevel)) (mark : Leaf op.terminal)
      (right : Derivation (.expression (op.level + 1))) : Derivation (.expression op.level)
  | tighter {level : Nat} (e : Derivation (.expression (level + 1))) : Derivation (.expression level)
  | unary (op : Unary) (mark : Leaf op.terminal) (e : Derivation (.expression 5)) : Derivation (.expression 5)
  | atom (a : Derivation .atom) : Derivation (.expression 5)
  | float (number : Leaf .float) : Derivation .atom
  | int (number : Leaf .int) : Derivation .atom
  | true (word : Leaf (.keyword .kwTrue)) : Derivation .atom
  | false (word : Leaf (.keyword .kwFalse)) : Derivation .atom
  | string (text : Leaf .string) : Derivation .atom
  | funcall (name : Leaf .name) (lpar : Leaf (.mark .lpar)) (args : Derivation .args) (rpar : Leaf (.mark .rpar)) :
      Derivation .atom
  | var (name : Leaf .name) : Derivation .atom
  | group (lpar : Leaf (.mark .lpar)) (e : Derivation (.expression 0)) (rpar : Leaf (.mark .rpar)) : Derivation .atom

namespace Leaf

variable {terminal : Terminal}

def token (l : Leaf terminal) : Token := ⟨terminal, l.text, l.line, l.column⟩

def id (l : Leaf terminal) : Node := .leaf .id l.line l.text

end Leaf

/-- The line of the first node of a sequence. -/
def firstLine (default : Int) (nodes : List Node) : Int := (nodes.head?.map Node.line).getD default

/-- What a derivation from a symbol denotes. -/
@[reducible] def Symbol.Image : Symbol → Type
  | .functions => List Node
  | .params => Option Node
  | .paramList => List Node
  | .statements => List (Option Node)
  | .statement => Option Node
  | .alternative => Option Node
  | .result => Option Node
  | .args => Option Node
  | .argList => List Node
  | _ => Node

namespace Derivation

/-- The tokens of a derivation, in order. -/
def tokens : {s : Symbol} → Derivation s → List Token
  | _, start fs => fs.tokens
  | _, noFunctions => []
  | _, functions before f => before.tokens ++ f.tokens
  | _, function func name lpar ps rpar body endfunc =>
    [func.token, name.token, lpar.token] ++ ps.tokens ++ rpar.token :: body.tokens ++ [endfunc.token]
  | _, noParams => []
  | _, params ps => ps.tokens
  | _, firstParam p => p.tokens
  | _, nextParam before comma p => before.tokens ++ comma.token :: p.tokens
  | _, paramValue name => [name.token]
  | _, paramRef ampersand name => [ampersand.token, name.token]
  | _, block ss => ss.tokens
  | _, noStatements => []
  | _, statements before s => before.tokens ++ s.tokens
  | _, assign name equal e semicolon => [name.token, equal.token] ++ e.tokens ++ [semicolon.token]
  | _, ifElse kwIf condition kwThen consequent other kwEndif =>
    kwIf.token :: condition.tokens ++ kwThen.token :: consequent.tokens ++ other.tokens ++ [kwEndif.token]
  | _, noAlternative => []
  | _, alternative kwElse body => kwElse.token :: body.tokens
  | _, whileDo kwWhile condition kwDo body kwEndwhile =>
    kwWhile.token :: condition.tokens ++ kwDo.token :: body.tokens ++ [kwEndwhile.token]
  | _, ret kwReturn r semicolon => kwReturn.token :: r.tokens ++ [semicolon.token]
  | _, noResult => []
  | _, result e => e.tokens
  | _, read kwRead name semicolon => [kwRead.token, name.token, semicolon.token]
  | _, write kwWrite e semicolon => kwWrite.token :: e.tokens ++ [semicolon.token]
  | _, call name lpar es rpar semicolon => [name.token, lpar.token] ++ es.tokens ++ [rpar.token, semicolon.token]
  | _, empty semicolon => [semicolon.token]
  | _, noArgs => []
  | _, args es => es.tokens
  | _, firstArg e => e.tokens
  | _, nextArg before comma e => before.tokens ++ comma.token :: e.tokens
  | _, binary _ left mark right => left.tokens ++ mark.token :: right.tokens
  | _, tighter e => e.tokens
  | _, unary _ mark e => mark.token :: e.tokens
  | _, atom a => a.tokens
  | _, float number => [number.token]
  | _, int number => [number.token]
  | _, true word => [word.token]
  | _, false word => [word.token]
  | _, string text => [text.token]
  | _, funcall name lpar es rpar => [name.token, lpar.token] ++ es.tokens ++ [rpar.token]
  | _, var name => [name.token]
  | _, group lpar e rpar => lpar.token :: e.tokens ++ [rpar.token]

/-- A call; without arguments the list of them stands on the line of the name. -/
def callImage (name : Leaf .name) (arguments : Option Node) : Node :=
  .branch .call name.line [name.id, arguments.getD (.branch .argList name.line [])]

/-- What a derivation denotes. A missing part is no node, an empty statement is dropped from its block, and parentheses and
the steps between levels leave no trace. -/
def image : {s : Symbol} → Derivation s → s.Image
  | _, start fs => Node.branch .functionList (firstLine 0 fs.image) fs.image
  | _, noFunctions => []
  | _, functions before f => before.image ++ [f.image]
  | _, function func name _ ps _ body _ =>
    (⟨.function, func.line, name.text, none,
      [ps.image.getD (.branch .paramList func.line []), body.image]⟩ : Node)
  | _, noParams => none
  | _, params ps => some (Node.branch .paramList (firstLine 0 ps.image) ps.image)
  | _, firstParam p => [p.image]
  | _, nextParam before _ p => before.image ++ [p.image]
  | _, paramValue name => Node.leaf .paramValue name.line name.text
  | _, paramRef _ name => Node.leaf .paramRef name.line name.text
  | _, block ss => Node.branch .block (firstLine 0 ss.image.reduceOption) ss.image.reduceOption
  | _, noStatements => []
  | _, statements before s => before.image ++ [s.image]
  | _, assign name _ e _ => some (Node.branch .assign name.line [name.id, e.image])
  | _, ifElse kwIf condition _ consequent other _ =>
    some (Node.branch .ifElse kwIf.line ([condition.image, consequent.image] ++ other.image.toList))
  | _, noAlternative => none
  | _, alternative _ body => some body.image
  | _, whileDo kwWhile condition _ body _ => some (Node.branch .whileDo kwWhile.line [condition.image, body.image])
  | _, ret kwReturn r _ => some (Node.branch .ret kwReturn.line r.image.toList)
  | _, noResult => none
  | _, result e => some e.image
  | _, read kwRead name _ => some (Node.branch .read kwRead.line [name.id])
  | _, write kwWrite e _ => some (Node.branch .write kwWrite.line [e.image])
  | _, call name _ es _ _ => some (callImage name es.image)
  | _, empty _ => none
  | _, noArgs => none
  | _, args es => some (Node.branch .argList (firstLine 0 es.image) es.image)
  | _, firstArg e => [e.image]
  | _, nextArg before _ e => before.image ++ [e.image]
  | _, binary op left _ right => Node.branch op.kind left.image.line [left.image, right.image]
  | _, tighter e => e.image
  | _, unary op _ e => Node.branch op.kind e.image.line [e.image]
  | _, atom a => a.image
  | _, float number => Node.leaf .float number.line number.text
  | _, int number => Node.leaf .int number.line number.text
  | _, true word => Node.leaf .boolean word.line "true"
  | _, false word => Node.leaf .boolean word.line "false"
  | _, string text => Node.leaf .string text.line (String.ofList (Escape.decode (text.text.toList.drop 1).dropLast))
  | _, funcall name _ es _ => callImage name es.image
  | _, var name => name.id
  | _, group _ e _ => e.image

end Derivation

end Rover
