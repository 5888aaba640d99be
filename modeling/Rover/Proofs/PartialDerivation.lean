import Rover.Proofs.Derivation

/-!
# Derivations under way

A second reader, which builds derivations and not program trees. What it holds after some tokens is a derivation whose right
part is still missing: the productions that have been begun, with what has been derived of them. An operand is read into a
`Hole`, a place for an expression that binds at least as tight as its level; the next operator either fits into the hole
together with what it binds, or the hole has to be closed first.
-/

namespace Rover

/-- A token taken for a terminal. -/
def Token.as (t : Token) (terminal : Terminal) : Leaf terminal := ⟨t.text, t.line, t.column⟩

theorem Token.token_as {t : Token} {terminal : Terminal} (h : t.terminal = terminal) : (t.as terminal).token = t := by
  subst h
  rfl

namespace Binary

def ofTerminal? : Terminal → Option Binary
  | .keyword .kwOr => some or
  | .keyword .kwAnd => some and
  | .mark .equalEqual => some (compare .eq)
  | .mark .notEqual => some (compare .ne)
  | .mark .less => some (compare .lt)
  | .mark .lessEqual => some (compare .le)
  | .mark .greater => some (compare .gt)
  | .mark .greaterEqual => some (compare .ge)
  | .mark .plus => some add
  | .mark .minus => some sub
  | .mark .star => some mul
  | .mark .slash => some div
  | .mark .percent => some mod
  | _ => none

theorem level_le (op : Binary) : op.level ≤ 4 := by
  cases op <;> simp [level]

theorem leftLevel_le (op : Binary) : op.leftLevel ≤ 4 := by
  cases op <;> simp [leftLevel, level]

theorem level_le_leftLevel (op : Binary) : op.level ≤ op.leftLevel := by
  cases op <;> simp [leftLevel, level]

end Binary

/-! ### Levels -/

namespace Derivation

/-- An expression as one that may bind less tight. -/
def lift {level : Nat} : {tight : Nat} → level ≤ tight → Derivation (.expression tight) → Derivation (.expression level)
  | 0, h, e => Nat.le_zero.1 h ▸ e
  | tight + 1, h, e =>
    if heq : level = tight + 1 then heq ▸ e
    else lift (Nat.le_of_lt_succ (Nat.lt_of_le_of_ne h heq)) e.tighter

variable {level tight : Nat}

@[simp] theorem lift_self (h : level ≤ level) (e : Derivation (.expression level)) : e.lift h = e := by
  cases level with
  | zero => rfl
  | succ level => simp [lift]

theorem lift_tighter (h : level ≤ tight) (e : Derivation (.expression (tight + 1))) :
    e.lift (Nat.le_succ_of_le h) = e.tighter.lift h := by
  rw [lift, dif_neg (by omega)]

theorem tokens_lift (h : level ≤ tight) (e : Derivation (.expression tight)) : (e.lift h).tokens = e.tokens := by
  induction tight with
  | zero =>
      cases Nat.le_zero.1 h
      rw [lift_self]
  | succ tight ih =>
      rcases Nat.eq_or_lt_of_le h with rfl | hlt
      · rw [lift_self]
      · rw [lift_tighter (Nat.le_of_lt_succ hlt), ih, tokens]

theorem image_lift (h : level ≤ tight) (e : Derivation (.expression tight)) : (e.lift h).image = e.image := by
  induction tight with
  | zero =>
      cases Nat.le_zero.1 h
      rw [lift_self]
  | succ tight ih =>
      rcases Nat.eq_or_lt_of_le h with rfl | hlt
      · rw [lift_self]
      · rw [lift_tighter (Nat.le_of_lt_succ hlt), ih, image]

end Derivation

/-! ### What is under way -/

/-- A function up to its parameters, and the functions before it. -/
structure Heading where
  before : Derivation .functions
  func : Leaf (.keyword .kwFunc)
  name : Leaf .name
  lpar : Leaf (.mark .lpar)

/-- The construct whose block is being read; `before` are the statements in front of it. -/
inductive Scope where
  | function (heading : Heading) (ps : Derivation .params) (rpar : Leaf (.mark .rpar))
  | thenPart (outer : Scope) (before : Derivation .statements) (kwIf : Leaf (.keyword .kwIf))
      (condition : Derivation (.expression 0)) (kwThen : Leaf (.keyword .kwThen))
  | elsePart (outer : Scope) (before : Derivation .statements) (kwIf : Leaf (.keyword .kwIf))
      (condition : Derivation (.expression 0)) (kwThen : Leaf (.keyword .kwThen)) (consequent : Derivation .statements)
      (kwElse : Leaf (.keyword .kwElse))
  | loop (outer : Scope) (before : Derivation .statements) (kwWhile : Leaf (.keyword .kwWhile))
      (condition : Derivation (.expression 0)) (kwDo : Leaf (.keyword .kwDo))

mutual

/-- What a whole expression is a part of. -/
inductive Host where
  | assign (scope : Scope) (before : Derivation .statements) (name : Leaf .name) (equal : Leaf (.mark .equal))
  | ifCondition (scope : Scope) (before : Derivation .statements) (kwIf : Leaf (.keyword .kwIf))
  | whileCondition (scope : Scope) (before : Derivation .statements) (kwWhile : Leaf (.keyword .kwWhile))
  | ret (scope : Scope) (before : Derivation .statements) (kwReturn : Leaf (.keyword .kwReturn))
  | write (scope : Scope) (before : Derivation .statements) (kwWrite : Leaf (.keyword .kwWrite))
  | group {level : Nat} (hole : Hole level) (lpar : Leaf (.mark .lpar))
  | argument (caller : Caller) (before : Option (Derivation .argList × Leaf (.mark .comma)))

/-- A call up to its arguments. -/
inductive Caller where
  | statement (scope : Scope) (before : Derivation .statements) (name : Leaf .name) (lpar : Leaf (.mark .lpar))
  | operand {level : Nat} (hole : Hole level) (name : Leaf .name) (lpar : Leaf (.mark .lpar))

/-- A place for an expression of a level. -/
inductive Hole : Nat → Type where
  | host (b : Host) : Hole 0
  | unary {level : Nat} (hole : Hole level) (op : Unary) (mark : Leaf op.terminal) : Hole 5
  | binary {level : Nat} (hole : Hole level) (op : Binary) (fits : level ≤ op.level)
      (left : Derivation (.expression op.leftLevel)) (mark : Leaf op.terminal) : Hole (op.level + 1)

end

/-- What has been derived, and what comes next. -/
inductive Stage where
  | outside (fs : Derivation .functions)
  | functionName (fs : Derivation .functions) (func : Leaf (.keyword .kwFunc))
  | paramsOpen (fs : Derivation .functions) (func : Leaf (.keyword .kwFunc)) (name : Leaf .name)
  | param (heading : Heading) (before : Option (Derivation .paramList × Leaf (.mark .comma)))
  | refParam (heading : Heading) (before : Option (Derivation .paramList × Leaf (.mark .comma)))
      (ampersand : Leaf (.mark .ampersand))
  | afterParam (heading : Heading) (ps : Derivation .paramList)
  | statement (scope : Scope) (before : Derivation .statements)
  | afterTarget (scope : Scope) (before : Derivation .statements) (name : Leaf .name)
  | readTarget (scope : Scope) (before : Derivation .statements) (kwRead : Leaf (.keyword .kwRead))
  | readEnd (scope : Scope) (before : Derivation .statements) (kwRead : Leaf (.keyword .kwRead)) (name : Leaf .name)
  | callEnd (scope : Scope) (before : Derivation .statements) (name : Leaf .name) (lpar : Leaf (.mark .lpar))
      (es : Derivation .args) (rpar : Leaf (.mark .rpar))
  | returnOperand (scope : Scope) (before : Derivation .statements) (kwReturn : Leaf (.keyword .kwReturn))
  | firstArgument (caller : Caller)
  | operand {level : Nat} (hole : Hole level)
  | after {level : Nat} (hole : Hole level) (a : Derivation .atom)

/-! ### Holes -/

/-- An operand of a level in a hole that it fits into. -/
structure Fitting (least : Nat) where
  {level : Nat}
  hole : Hole level
  fits : level ≤ least
  operand : Derivation (.expression least)

namespace Hole

theorem level_le {level : Nat} (hole : Hole level) : level ≤ 5 := by
  cases hole with
  | host b => exact Nat.zero_le 5
  | unary hole op mark => exact Nat.le_refl 5
  | binary hole op fits left mark => exact Nat.succ_le_succ op.level_le

/-- Closes the holes that are too tight for an expression of a level. -/
def close (least : Nat) (hfour : least ≤ 4) : {level tight : Nat} → Hole level → Derivation (.expression tight) →
    level ≤ tight → least ≤ tight → Fitting least
  | _, _, host b, e, _, hleast => ⟨host b, Nat.zero_le least, e.lift hleast⟩
  | _, _, unary hole op mark, e, h, _ =>
    hole.close least hfour (.unary op mark (e.lift h)) hole.level_le (Nat.le_succ_of_le hfour)
  | _, _, binary hole op fits left mark, e, h, hleast =>
    if hop : least ≤ op.level then hole.close least hfour (.binary op left mark (e.lift h)) fits hop
    else ⟨binary hole op fits left mark, Nat.lt_of_not_le hop, e.lift hleast⟩

section

variable {least level tight : Nat} (hfour : least ≤ 4) (hole : Hole level) (op : Binary) (fits : level ≤ op.level)
  (left : Derivation (.expression op.leftLevel)) (mark : Leaf op.terminal) (e : Derivation (.expression tight))
  (h : op.level + 1 ≤ tight) (hleast : least ≤ tight)

theorem close_binary_of_le (hop : least ≤ op.level) :
    (hole.binary op fits left mark).close least hfour e h hleast =
      hole.close least hfour (.binary op left mark (e.lift h)) fits hop := by
  rw [close, dif_pos hop]

theorem close_binary_of_not_le (hop : ¬ least ≤ op.level) :
    (hole.binary op fits left mark).close least hfour e h hleast =
      ⟨hole.binary op fits left mark, Nat.lt_of_not_le hop, e.lift hleast⟩ := by
  rw [close, dif_neg hop]

end

/-- Closes all holes around an expression. -/
def finish : {level tight : Nat} → Hole level → Derivation (.expression tight) → level ≤ tight →
    Host × Derivation (.expression 0)
  | _, _, host b, e, h => (b, e.lift h)
  | _, _, unary hole op mark, e, h => hole.finish (.unary op mark (e.lift h)) hole.level_le
  | _, _, binary hole op fits left mark, e, h => hole.finish (.binary op left mark (e.lift h)) fits

end Hole

/-! ### Taking a token -/

namespace Derivation

def addParam : Option (Derivation .paramList × Leaf (.mark .comma)) → Derivation .param → Derivation .paramList
  | none, p => firstParam p
  | some (before, comma), p => nextParam before comma p

def addArg : Option (Derivation .argList × Leaf (.mark .comma)) → Derivation (.expression 0) → Derivation .argList
  | none, e => firstArg e
  | some (before, comma), e => nextArg before comma e

end Derivation

/-- A call whose closing parenthesis has been read. -/
def Caller.called (es : Derivation .args) (rpar : Leaf (.mark .rpar)) : Caller → Stage
  | statement scope before name lpar => .callEnd scope before name lpar es rpar
  | operand hole name lpar => .after hole (.funcall name lpar es rpar)

/-- Ends a block by a keyword. -/
def Scope.closed (ss : Derivation .statements) (t : Token) : Scope → Keyword → Option Stage
  | function heading ps rpar, .kwEndfunc =>
    some (.outside (.functions heading.before
      (.function heading.func heading.name heading.lpar ps rpar (.block ss) (t.as _))))
  | thenPart outer before kwIf condition kwThen, .kwElse =>
    some (.statement (.elsePart outer before kwIf condition kwThen ss (t.as _)) .noStatements)
  | thenPart outer before kwIf condition kwThen, .kwEndif =>
    some (.statement outer (before.statements (.ifElse kwIf condition kwThen (.block ss) .noAlternative (t.as _))))
  | elsePart outer before kwIf condition kwThen consequent kwElse, .kwEndif =>
    some (.statement outer (before.statements
      (.ifElse kwIf condition kwThen (.block consequent) (.alternative kwElse (.block ss)) (t.as _))))
  | loop outer before kwWhile condition kwDo, .kwEndwhile =>
    some (.statement outer (before.statements (.whileDo kwWhile condition kwDo (.block ss) (t.as _))))
  | _, _ => none

/-- Ends an expression by the token that follows it. -/
def Host.ended (e : Derivation (.expression 0)) (t : Token) : Host → Terminal → Option Stage
  | assign scope before name equal, .mark .semicolon =>
    some (.statement scope (before.statements (.assign name equal e (t.as _))))
  | ret scope before kwReturn, .mark .semicolon =>
    some (.statement scope (before.statements (.ret kwReturn (.result e) (t.as _))))
  | write scope before kwWrite, .mark .semicolon =>
    some (.statement scope (before.statements (.write kwWrite e (t.as _))))
  | ifCondition scope before kwIf, .keyword .kwThen =>
    some (.statement (.thenPart scope before kwIf e (t.as _)) .noStatements)
  | whileCondition scope before kwWhile, .keyword .kwDo =>
    some (.statement (.loop scope before kwWhile e (t.as _)) .noStatements)
  | group hole lpar, .mark .rpar => some (.after hole (.group lpar e (t.as _)))
  | argument caller before, .mark .rpar => some (caller.called (.args (.addArg before e)) (t.as _))
  | argument caller before, .mark .comma =>
    some (.operand (.host (.argument caller (some (.addArg before e, t.as _)))))
  | _, _ => none

namespace Stage

def feedStatement (scope : Scope) (before : Derivation .statements) (t : Token) : Option Stage :=
  match t.terminal with
  | .mark .semicolon => some (statement scope (before.statements (.empty (t.as _))))
  | .name => some (afterTarget scope before (t.as _))
  | .keyword .kwIf => some (operand (.host (.ifCondition scope before (t.as _))))
  | .keyword .kwWhile => some (operand (.host (.whileCondition scope before (t.as _))))
  | .keyword .kwReturn => some (returnOperand scope before (t.as _))
  | .keyword .kwWrite => some (operand (.host (.write scope before (t.as _))))
  | .keyword .kwRead => some (readTarget scope before (t.as _))
  | .keyword k => scope.closed before t k
  | _ => none

def feedOperand {level : Nat} (hole : Hole level) (t : Token) : Option Stage :=
  match t.terminal with
  | .name => some (after hole (.var (t.as _)))
  | .int => some (after hole (.int (t.as _)))
  | .float => some (after hole (.float (t.as _)))
  | .string => some (after hole (.string (t.as _)))
  | .keyword .kwTrue => some (after hole (.true (t.as _)))
  | .keyword .kwFalse => some (after hole (.false (t.as _)))
  | .mark .lpar => some (operand (.host (.group hole (t.as _))))
  | .keyword .kwNot => some (operand (.unary hole .not (t.as _)))
  | .mark .minus => some (operand (.unary hole .neg (t.as _)))
  | .mark .plus => some (operand (.unary hole .pos (t.as _)))
  | _ => none

/-- Puts a binary operator after an operand, if the hole around what it binds takes an expression of its level. -/
def feedOperator {level : Nat} (hole : Hole level) (a : Derivation .atom) (op : Binary) (t : Token) : Option Stage :=
  let left := hole.close op.leftLevel op.leftLevel_le (.atom a) hole.level_le (Nat.le_succ_of_le op.leftLevel_le)
  if fits : left.level ≤ op.level then some (operand (left.hole.binary op fits left.operand (t.as op.terminal))) else none

def feedAfter {level : Nat} (hole : Hole level) (a : Derivation .atom) (t : Token) : Option Stage :=
  match Binary.ofTerminal? t.terminal with
  | some op => feedOperator hole a op t
  | none =>
    let (b, e) := hole.finish (.atom a) hole.level_le
    b.ended e t t.terminal

def feedParam (heading : Heading) (before : Option (Derivation .paramList × Leaf (.mark .comma))) (t : Token) :
    Option Stage :=
  match t.terminal with
  | .name => some (afterParam heading (.addParam before (.paramValue (t.as _))))
  | .mark .ampersand => some (refParam heading before (t.as _))
  | _ => none

/-- What is under way after one more token, unless the token cannot stand here. -/
def feed (p : Stage) (t : Token) : Option Stage :=
  match p, t.terminal with
  | outside fs, .keyword .kwFunc => some (functionName fs (t.as _))
  | functionName fs func, .name => some (paramsOpen fs func (t.as _))
  | paramsOpen fs func name, .mark .lpar => some (param ⟨fs, func, name, t.as _⟩ none)
  | param heading none, .mark .rpar => some (statement (.function heading .noParams (t.as _)) .noStatements)
  | param heading before, _ => feedParam heading before t
  | refParam heading before ampersand, .name =>
    some (afterParam heading (.addParam before (.paramRef ampersand (t.as _))))
  | afterParam heading ps, .mark .comma => some (param heading (some (ps, t.as _)))
  | afterParam heading ps, .mark .rpar => some (statement (.function heading (.params ps) (t.as _)) .noStatements)
  | statement scope before, _ => feedStatement scope before t
  | afterTarget scope before name, .mark .equal => some (operand (.host (.assign scope before name (t.as _))))
  | afterTarget scope before name, .mark .lpar => some (firstArgument (.statement scope before name (t.as _)))
  | readTarget scope before kwRead, .name => some (readEnd scope before kwRead (t.as _))
  | readEnd scope before kwRead name, .mark .semicolon =>
    some (statement scope (before.statements (.read kwRead name (t.as _))))
  | callEnd scope before name lpar es rpar, .mark .semicolon =>
    some (statement scope (before.statements (.call name lpar es rpar (t.as _))))
  | returnOperand scope before kwReturn, .mark .semicolon =>
    some (statement scope (before.statements (.ret kwReturn .noResult (t.as _))))
  | returnOperand scope before kwReturn, _ => feedOperand (.host (.ret scope before kwReturn)) t
  | operand hole, _ => feedOperand hole t
  | firstArgument caller, .mark .rpar => some (caller.called .noArgs (t.as _))
  | firstArgument caller, _ => feedOperand (.host (.argument caller none)) t
  | after hole (.var name), .mark .lpar => some (firstArgument (.operand hole name (t.as _)))
  | after hole a, _ => feedAfter hole a t
  | _, _ => none

end Stage

/-! ### The tokens so far -/

/-- The tokens of a sequence up to the next item. -/
def Derivation.tokensBefore {s : Symbol} {terminal : Terminal} : Option (Derivation s × Leaf terminal) → List Token
  | none => []
  | some (before, comma) => before.tokens ++ [comma.token]

def Heading.tokens (heading : Heading) : List Token :=
  heading.before.tokens ++ [heading.func.token, heading.name.token, heading.lpar.token]

def Scope.tokens : Scope → List Token
  | function heading ps rpar => heading.tokens ++ ps.tokens ++ [rpar.token]
  | thenPart outer before kwIf condition kwThen =>
    outer.tokens ++ before.tokens ++ kwIf.token :: condition.tokens ++ [kwThen.token]
  | elsePart outer before kwIf condition kwThen consequent kwElse =>
    outer.tokens ++ before.tokens ++ kwIf.token :: condition.tokens ++ kwThen.token :: consequent.tokens ++ [kwElse.token]
  | loop outer before kwWhile condition kwDo =>
    outer.tokens ++ before.tokens ++ kwWhile.token :: condition.tokens ++ [kwDo.token]

mutual

def Host.tokens : Host → List Token
  | .assign scope before name equal => scope.tokens ++ before.tokens ++ [name.token, equal.token]
  | .ifCondition scope before kwIf => scope.tokens ++ before.tokens ++ [kwIf.token]
  | .whileCondition scope before kwWhile => scope.tokens ++ before.tokens ++ [kwWhile.token]
  | .ret scope before kwReturn => scope.tokens ++ before.tokens ++ [kwReturn.token]
  | .write scope before kwWrite => scope.tokens ++ before.tokens ++ [kwWrite.token]
  | .group hole lpar => hole.tokens ++ [lpar.token]
  | .argument caller before => caller.tokens ++ Derivation.tokensBefore before

def Caller.tokens : Caller → List Token
  | .statement scope before name lpar => scope.tokens ++ before.tokens ++ [name.token, lpar.token]
  | .operand hole name lpar => hole.tokens ++ [name.token, lpar.token]

def Hole.tokens : {level : Nat} → Hole level → List Token
  | _, .host b => b.tokens
  | _, .unary hole _ mark => hole.tokens ++ [mark.token]
  | _, .binary hole _ _ left mark => hole.tokens ++ left.tokens ++ [mark.token]

end

/-- The tokens of what has been derived. -/
def Stage.tokens : Stage → List Token
  | outside fs => fs.tokens
  | functionName fs func => fs.tokens ++ [func.token]
  | paramsOpen fs func name => fs.tokens ++ [func.token, name.token]
  | param heading before => heading.tokens ++ Derivation.tokensBefore before
  | refParam heading before ampersand => heading.tokens ++ Derivation.tokensBefore before ++ [ampersand.token]
  | afterParam heading ps => heading.tokens ++ ps.tokens
  | statement scope before => scope.tokens ++ before.tokens
  | afterTarget scope before name => scope.tokens ++ before.tokens ++ [name.token]
  | readTarget scope before kwRead => scope.tokens ++ before.tokens ++ [kwRead.token]
  | readEnd scope before kwRead name => scope.tokens ++ before.tokens ++ [kwRead.token, name.token]
  | callEnd scope before name lpar es rpar =>
    scope.tokens ++ before.tokens ++ [name.token, lpar.token] ++ es.tokens ++ [rpar.token]
  | returnOperand scope before kwReturn => scope.tokens ++ before.tokens ++ [kwReturn.token]
  | firstArgument caller => caller.tokens
  | operand hole => hole.tokens
  | after hole a => hole.tokens ++ a.tokens

theorem Binary.terminal_of_ofTerminal? {terminal : Terminal} {op : Binary} (h : ofTerminal? terminal = some op) :
    terminal = op.terminal := by
  unfold ofTerminal? at h
  split at h <;> cases h <;> rfl

namespace Hole

theorem tokens_close {least : Nat} (hfour : least ≤ 4) : ∀ {level tight : Nat} (hole : Hole level)
    (e : Derivation (.expression tight)) (h : level ≤ tight) (hleast : least ≤ tight),
    (hole.close least hfour e h hleast).hole.tokens ++ (hole.close least hfour e h hleast).operand.tokens =
      hole.tokens ++ e.tokens
  | _, _, host b, e, h, hleast => by
      simp only [close, Derivation.tokens_lift]
  | _, _, unary hole op mark, e, h, hleast => by
      rw [close, tokens_close hfour hole]
      simp [Hole.tokens, Derivation.tokens, Derivation.tokens_lift]
  | _, _, binary hole op fits left mark, e, h, hleast => by
      by_cases hop : least ≤ op.level
      · rw [close_binary_of_le hfour hole op fits left mark e h hleast hop, tokens_close hfour hole]
        simp [Hole.tokens, Derivation.tokens, Derivation.tokens_lift]
      · rw [close_binary_of_not_le hfour hole op fits left mark e h hleast hop, Derivation.tokens_lift]

theorem tokens_finish : ∀ {level tight : Nat} (hole : Hole level) (e : Derivation (.expression tight)) (h : level ≤ tight),
    (hole.finish e h).1.tokens ++ (hole.finish e h).2.tokens = hole.tokens ++ e.tokens
  | _, _, host b, e, h => by
      simp only [finish, Hole.tokens, Derivation.tokens_lift]
  | _, _, unary hole op mark, e, h => by
      rw [finish, tokens_finish hole]
      simp [Hole.tokens, Derivation.tokens, Derivation.tokens_lift]
  | _, _, binary hole op fits left mark, e, h => by
      rw [finish, tokens_finish hole]
      simp [Hole.tokens, Derivation.tokens, Derivation.tokens_lift]

end Hole

section

variable {t : Token} {p : Stage}

namespace Derivation

theorem tokens_addParam (before : Option (Derivation .paramList × Leaf (.mark .comma))) (q : Derivation .param) :
    (addParam before q).tokens = tokensBefore before ++ q.tokens := by
  rcases before with _ | ⟨before, comma⟩ <;> simp [addParam, tokensBefore, tokens]

theorem tokens_addArg (before : Option (Derivation .argList × Leaf (.mark .comma))) (e : Derivation (.expression 0)) :
    (addArg before e).tokens = tokensBefore before ++ e.tokens := by
  rcases before with _ | ⟨before, comma⟩ <;> simp [addArg, tokensBefore, tokens]

end Derivation

theorem Caller.tokens_called (caller : Caller) (es : Derivation .args) (rpar : Leaf (.mark .rpar)) :
    (caller.called es rpar).tokens = caller.tokens ++ es.tokens ++ [rpar.token] := by
  cases caller <;> simp [called, Stage.tokens, Caller.tokens, Derivation.tokens]

theorem Scope.tokens_closed {scope : Scope} {ss : Derivation .statements} {k : Keyword} (ht : t.terminal = .keyword k)
    (h : scope.closed ss t k = some p) : p.tokens = scope.tokens ++ ss.tokens ++ [t] := by
  unfold closed at h
  split at h <;> cases h <;>
    simp [Stage.tokens, Scope.tokens, Heading.tokens, Derivation.tokens, Token.token_as ht]

theorem Host.tokens_ended {b : Host} {e : Derivation (.expression 0)} (h : b.ended e t t.terminal = some p) :
    p.tokens = b.tokens ++ e.tokens ++ [t] := by
  generalize ht : t.terminal = terminal at h
  unfold ended at h
  split at h <;> cases h
  case h_7 caller before =>
      rw [Caller.tokens_called, Derivation.tokens, Derivation.tokens_addArg, Token.token_as ht]
      simp [Host.tokens]
  all_goals
    simp [Stage.tokens, Host.tokens, Hole.tokens, Scope.tokens, Derivation.tokens, Derivation.tokens_addArg,
      Derivation.tokensBefore, Token.token_as ht]

namespace Stage

theorem tokens_feedStatement {scope : Scope} {ss : Derivation .statements} (h : feedStatement scope ss t = some p) :
    p.tokens = scope.tokens ++ ss.tokens ++ [t] := by
  unfold feedStatement at h
  generalize ht : t.terminal = terminal at h
  split at h
  case h_8 k _ _ _ _ _ => exact scope.tokens_closed ht h
  all_goals cases h <;> simp [tokens, Hole.tokens, Host.tokens, Derivation.tokens, Token.token_as ht]

theorem tokens_feedOperand {level : Nat} {hole : Hole level} (h : feedOperand hole t = some p) :
    p.tokens = hole.tokens ++ [t] := by
  unfold feedOperand at h
  generalize ht : t.terminal = terminal at h
  split at h <;> cases h <;>
    simp [tokens, Hole.tokens, Host.tokens, Derivation.tokens, Token.token_as ht, Unary.terminal]

theorem tokens_feedAfter {level : Nat} {hole : Hole level} {a : Derivation .atom} (h : feedAfter hole a t = some p) :
    p.tokens = hole.tokens ++ a.tokens ++ [t] := by
  unfold feedAfter at h
  split at h
  case h_1 op hop =>
      have hclose := hole.tokens_close op.leftLevel_le (.atom a) hole.level_le (Nat.le_succ_of_le op.leftLevel_le)
      simp only [feedOperator] at h
      split at h <;> cases h
      simp only [tokens, Hole.tokens, Token.token_as (Binary.terminal_of_ofTerminal? hop), hclose, Derivation.tokens]
  case h_2 =>
      have hfinish := hole.tokens_finish (.atom a) hole.level_le
      rw [Host.tokens_ended h, hfinish, Derivation.tokens]

theorem tokens_feedParam {heading : Heading} {before : Option (Derivation .paramList × Leaf (.mark .comma))}
    (h : feedParam heading before t = some p) :
    p.tokens = heading.tokens ++ Derivation.tokensBefore before ++ [t] := by
  unfold feedParam at h
  generalize ht : t.terminal = terminal at h
  split at h <;> cases h <;> simp [tokens, Derivation.tokens_addParam, Derivation.tokens, Token.token_as ht]

/-- A token that is taken is the next token of what has been derived. -/
theorem tokens_feed {q : Stage} (h : p.feed t = some q) : q.tokens = p.tokens ++ [t] := by
  unfold feed at h
  generalize ht : t.terminal = terminal at h
  split at h
  -- The stages that hand the token on: parameters, statements, and the places before and after an operand.
  case h_5 => exact tokens_feedParam h
  case h_9 => exact tokens_feedStatement h
  case h_16 => simpa [tokens, Hole.tokens, Host.tokens] using tokens_feedOperand h
  case h_17 => exact tokens_feedOperand h
  case h_18 caller =>
      cases h
      rw [caller.tokens_called, Token.token_as ht]
      simp [tokens, Derivation.tokens]
  case h_19 => simpa [tokens, Hole.tokens, Host.tokens, Derivation.tokensBefore] using tokens_feedOperand h
  case h_21 => exact tokens_feedAfter h
  all_goals cases h <;> simp [tokens, Heading.tokens, Scope.tokens, Hole.tokens, Host.tokens, Caller.tokens,
    Derivation.tokens, Derivation.tokensBefore, Derivation.tokens_addParam, Token.token_as ht]

end Stage

end

end Rover
