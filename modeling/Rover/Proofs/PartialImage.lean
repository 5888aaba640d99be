import Rover.Proofs.PartialDerivation
import Mathlib.Data.List.ReduceOption

/-!
# The program tree of a derivation under way

The state of the reader is the image of what has been derived (`Stage.reader`), and stays so when both take a token
(`Stage.feed_reader`): the two readers take and refuse the same tokens. The operators that wait on the spine are the holes
that are open, and the levels at which they are closed agree.
-/

namespace Rover

/-! ### The program tree under way -/

namespace Derivation

/-- The statements of a block, last first. -/
def done (ss : Derivation .statements) : List Node := ss.image.reduceOption.reverse

def isFresh : Derivation .statements → Bool
  | noStatements => Bool.true
  | statements _ _ => Bool.false

/-- The arguments before the next one, last first. -/
def argsDone (before : Option (Derivation .argList × Leaf (.mark .comma))) : List Node :=
  ((before.map fun (es, _) => es.image).getD []).reverse

def paramsDone (before : Option (Derivation .paramList × Leaf (.mark .comma))) : List Node :=
  ((before.map fun (ps, _) => ps.image).getD []).reverse

end Derivation

def Scope.reader : Scope → Derivation .statements → Reader
  | function heading ps _, ss =>
    (⟨heading.before.image.reverse, [], .outside⟩ : Reader).enter
      (.block (.function heading.func.line heading.name.text (ps.image.getD (.branch .paramList heading.func.line []))) ss.done)
      (.statement ss.isFresh)
  | thenPart outer before kwIf condition _, ss =>
    (outer.reader before).enter (.block (.thenPart kwIf.line condition.image) ss.done) (.statement ss.isFresh)
  | elsePart outer before kwIf condition _ consequent _, ss =>
    (outer.reader before).enter (.block (.elsePart kwIf.line condition.image (Derivation.block consequent).image) ss.done)
      (.statement ss.isFresh)
  | loop outer before kwWhile condition _, ss =>
    (outer.reader before).enter (.block (.loop kwWhile.line condition.image) ss.done) (.statement ss.isFresh)

mutual

def Host.reader : Host → Reader
  | .assign scope before name _ => (scope.reader before).enter (.assign name.token) .operand
  | .ifCondition scope before kwIf => (scope.reader before).enter (.ifCondition kwIf.line) .operand
  | .whileCondition scope before kwWhile => (scope.reader before).enter (.whileCondition kwWhile.line) .operand
  | .ret scope before kwReturn => (scope.reader before).enter (.ret kwReturn.line) .operand
  | .write scope before kwWrite => (scope.reader before).enter (.write kwWrite.line) .operand
  | .group hole _ => hole.reader.enter .group .operand
  | .argument caller before => caller.reader (Derivation.argsDone before)

def Caller.reader : Caller → List Node → Reader
  | .statement scope before name _, done => (scope.reader before).enter (.arguments name.token true done) .operand
  | .operand hole name _, done => hole.reader.enter (.arguments name.token false done) .operand

def Hole.reader : {level : Nat} → Hole level → Reader
  | _, .host b => b.reader
  | _, .unary hole op _ => hole.reader.enter (.unary op.kind) .operand
  | _, .binary hole op _ left _ => hole.reader.enter (.binary op.kind left.image) .operand

end

/-- Where the reader is after an operand: a name may still turn out to be called. -/
def Derivation.spot : Derivation .atom → Spot
  | var name => .afterName name.token
  | a => .afterOperand a.image

/-- The state of the reader when this much has been derived. -/
def Stage.reader : Stage → Reader
  | outside fs => ⟨fs.image.reverse, [], .outside⟩
  | functionName fs func => ⟨fs.image.reverse, [], .functionName func.line⟩
  | paramsOpen fs func name => ⟨fs.image.reverse, [], .paramsOpen func.line name.text⟩
  | param heading none =>
    ⟨heading.before.image.reverse, [], .firstParam ⟨heading.func.line, heading.name.text, []⟩⟩
  | param heading (some (ps, _)) =>
    ⟨heading.before.image.reverse, [], .nextParam ⟨heading.func.line, heading.name.text, ps.image.reverse⟩⟩
  | refParam heading before _ =>
    ⟨heading.before.image.reverse, [], .refParam ⟨heading.func.line, heading.name.text, Derivation.paramsDone before⟩⟩
  | afterParam heading ps =>
    ⟨heading.before.image.reverse, [], .afterParam ⟨heading.func.line, heading.name.text, ps.image.reverse⟩⟩
  | statement scope before => scope.reader before
  | afterTarget scope before name => (scope.reader before).goto (.afterTarget name.token)
  | readTarget scope before kwRead => (scope.reader before).goto (.readTarget kwRead.line)
  | readEnd scope before kwRead name =>
    (scope.reader before).goto (.statementEnd (.branch .read kwRead.line [name.id]))
  | callEnd scope before name _ es _ => (scope.reader before).goto (.statementEnd (Derivation.callImage name es.image))
  | returnOperand scope before kwReturn => (scope.reader before).enter (.ret kwReturn.line) .returnOperand
  | firstArgument caller => (caller.reader []).goto .firstArgument
  | operand hole => hole.reader
  | after hole a => hole.reader.goto a.spot

/-! ### Blocks -/

theorem Reader.lineOf_eq (default : Int) (nodes : List Node) : lineOf default nodes = firstLine default nodes := by
  cases nodes <;> rfl

namespace Derivation

theorem done_statements (ss : Derivation .statements) (s : Derivation .statement) :
    (ss.statements s).done = s.image.toList ++ ss.done := by
  simp only [done, image, List.reduceOption_append, List.reverse_append]
  cases s.image <;> rfl

theorem image_block (ss : Derivation .statements) : (block ss).image = Reader.blockNode ss.done := by
  simp only [image, Reader.blockNode, done, List.reverse_reverse, Reader.lineOf_eq]

end Derivation

theorem Reader.addStatement_scope {r : Reader} {scope : Scope} {ss : Derivation .statements} {s : Derivation .statement}
    {n : Node} (hr : r.functions = (scope.reader ss).functions) (hs : s.image = some n) :
    r.addStatement (scope.reader ss).spine n = some (scope.reader (ss.statements s)) := by
  obtain ⟨functions, spine, spot⟩ := r
  cases hr
  cases scope <;>
    simp only [Scope.reader, enter, addStatement, Derivation.done_statements, hs, Option.toList_some, List.cons_append,
      List.nil_append, Derivation.isFresh]

namespace Scope

variable (scope : Scope) (ss : Derivation .statements)

theorem closeBlock_reader (t : Token) (k : Keyword) :
    (scope.reader ss).closeBlock k = (scope.closed ss t k).map Stage.reader := by
  cases scope with
  | function heading ps rpar =>
      cases k with
      | kwEndfunc =>
          simp only [reader, Reader.closeBlock, Reader.enter, closed, Option.map_some, Stage.reader, Derivation.image,
            List.reverse_append, List.reverse_singleton, ← Derivation.image_block]
          rfl
      | _ => rfl
  | thenPart outer before kwIf condition kwThen =>
      cases k with
      | kwElse =>
          simp only [reader, Reader.closeBlock, Reader.enter, closed, Option.map_some, Stage.reader, ← Derivation.image_block]
          rfl
      | kwEndif => exact Reader.addStatement_scope rfl (by rw [← Derivation.image_block]; rfl)
      | _ => rfl
  | elsePart outer before kwIf condition kwThen consequent kwElse =>
      cases k with
      | kwEndif => exact Reader.addStatement_scope rfl (by rw [← Derivation.image_block]; rfl)
      | _ => rfl
  | loop outer before kwWhile condition kwDo =>
      cases k with
      | kwEndwhile => exact Reader.addStatement_scope rfl (by rw [← Derivation.image_block]; rfl)
      | _ => rfl

theorem reader_empty (t : Leaf (.mark .semicolon)) :
    (scope.reader ss).goto (.statement false) = scope.reader (ss.statements (.empty t)) := by
  cases scope <;>
    simp only [reader, Reader.goto, Reader.enter, Derivation.done_statements, Derivation.image, Option.toList_none,
      List.nil_append, Derivation.isFresh]

theorem feedStatement_reader (t : Token) :
    (scope.reader ss).feedStatement t = (Stage.feedStatement scope ss t).map Stage.reader := by
  unfold Reader.feedStatement Stage.feedStatement
  cases ht : t.terminal with
  | name => rw [← Token.token_as ht]; rfl
  | mark m =>
      cases m with
      | semicolon => exact congrArg some (scope.reader_empty ss _)
      | _ => rfl
  | keyword k =>
      cases k with
      | kwIf | kwWhile | kwReturn | kwWrite | kwRead => rfl
      | _ => exact scope.closeBlock_reader ss t _
  | _ => rfl

end Scope

/-! ### Operators -/

theorem Binary.level_kind (op : Binary) : Reader.level op.kind = op.level + 1 := by
  cases op <;> rfl

theorem Binary.binaryKind?_eq (t : Terminal) : Reader.binaryKind? t = (ofTerminal? t).map kind := by
  cases t with
  | keyword k => cases k <;> rfl
  | mark m => cases m <;> rfl
  | _ => rfl

theorem Reader.collapse_host (b : Host) (least : Nat) (n : Node) :
    collapse least n b.reader.spine = (n, b.reader.spine) := by
  cases b with
  | argument caller before => cases caller <;> simp only [Host.reader, Caller.reader, enter, collapse]
  | _ => simp only [Host.reader, enter, collapse]

namespace Hole

/-- A new operator closes the operators that wait for an operand at least as tight. -/
theorem collapse_close {least : Nat} (hfour : least ≤ 4) : ∀ {level tight : Nat} (hole : Hole level)
    (e : Derivation (.expression tight)) (h : level ≤ tight) (hleast : least ≤ tight),
    Reader.collapse (least + 1) e.image hole.reader.spine =
        ((hole.close least hfour e h hleast).operand.image, (hole.close least hfour e h hleast).hole.reader.spine) ∧
      (hole.close least hfour e h hleast).hole.reader.functions = hole.reader.functions
  | _, _, host b, e, h, hleast => by
      simp only [close, Hole.reader, Reader.collapse_host, Derivation.image_lift, and_self]
  | _, _, unary hole op mark, e, h, hleast => by
      have ih := collapse_close hfour hole (.unary op mark (e.lift h)) hole.level_le (Nat.le_succ_of_le hfour)
      simp only [Derivation.image, Derivation.image_lift] at ih
      exact ih
  | _, _, binary hole op fits left mark, e, h, hleast => by
      have hlevel : least + 1 ≤ Reader.level op.kind ↔ least ≤ op.level := by
        rw [op.level_kind, Nat.succ_le_succ_iff]
      by_cases hop : least ≤ op.level
      · rw [close_binary_of_le hfour hole op fits left mark e h hleast hop, Hole.reader, Reader.enter, Reader.collapse,
          if_pos (hlevel.2 hop)]
        have ih := collapse_close hfour hole (.binary op left mark (e.lift h)) fits hop
        simp only [Derivation.image, Derivation.image_lift] at ih
        exact ih
      · rw [close_binary_of_not_le hfour hole op fits left mark e h hleast hop]
        simp only [Hole.reader, Reader.enter, Reader.collapse, if_neg (mt hlevel.1 hop), Derivation.image_lift, and_self]

/-- What ends an expression closes all operators that wait. -/
theorem collapse_finish : ∀ {level tight : Nat} (hole : Hole level) (e : Derivation (.expression tight)) (h : level ≤ tight),
    Reader.collapse 0 e.image hole.reader.spine = ((hole.finish e h).2.image, (hole.finish e h).1.reader.spine) ∧
      (hole.finish e h).1.reader.functions = hole.reader.functions
  | _, _, host b, e, h => by
      simp only [finish, Hole.reader, Reader.collapse_host, Derivation.image_lift, and_self]
  | _, _, unary hole op mark, e, h => by
      have ih := collapse_finish hole (.unary op mark (e.lift h)) hole.level_le
      simp only [Derivation.image, Derivation.image_lift] at ih
      exact ih
  | _, _, binary hole op fits left mark, e, h => by
      have ih := collapse_finish hole (.binary op left mark (e.lift h)) fits
      simp only [Derivation.image, Derivation.image_lift] at ih
      exact ih

/-- Only a comparison waits for an operand of the level of sums. -/
theorem comparisonWaits_iff {level : Nat} (hole : Hole level) :
    Reader.comparisonWaits hole.reader.spine = true ↔ level = 3 := by
  cases hole with
  | host b =>
      cases b with
      | argument caller before =>
          cases caller <;> simp [Hole.reader, Host.reader, Caller.reader, Reader.enter, Reader.comparisonWaits]
      | _ => simp [Hole.reader, Host.reader, Reader.enter, Reader.comparisonWaits]
  | unary hole op mark => simp [Hole.reader, Reader.enter, Reader.comparisonWaits]
  | binary hole op fits left mark =>
      cases op <;> simp [Hole.reader, Reader.enter, Reader.comparisonWaits, Binary.kind, Binary.level]

end Hole

theorem Binary.waits_iff (op : Binary) {tight : Nat} (hole : Hole tight) (hfits : tight ≤ op.leftLevel) :
    (Reader.level op.kind == 3 && Reader.comparisonWaits hole.reader.spine) = true ↔ ¬ tight ≤ op.level := by
  rw [Bool.and_eq_true, beq_iff_eq, hole.comparisonWaits_iff]
  cases op <;> simp only [kind, Reader.level, level, leftLevel, true_and] at hfits ⊢ <;> omega

theorem Binary.least_eq (op : Binary) :
    (if Reader.level op.kind == 3 then 4 else Reader.level op.kind) = op.leftLevel + 1 := by
  cases op <;> rfl

namespace Hole

variable {level : Nat} (hole : Hole level) (spot : Spot) (a : Derivation .atom) (t : Token)

theorem feedOperator_reader (op : Binary) :
    (hole.reader.goto spot).feedOperator a.image op.kind = (Stage.feedOperator hole a op t).map Stage.reader := by
  unfold Stage.feedOperator Reader.feedOperator
  generalize hfit : hole.close op.leftLevel op.leftLevel_le (.atom a) hole.level_le _ = fit
  have hclose := hole.collapse_close op.leftLevel_le (.atom a) hole.level_le (Nat.le_succ_of_le op.leftLevel_le)
  rw [hfit, Derivation.image] at hclose
  have hwaits := op.waits_iff fit.hole fit.fits
  simp only [op.least_eq, Reader.goto, hclose.1]
  split
  case isTrue hrefused =>
      rw [dif_neg (hwaits.1 hrefused)]
      rfl
  case isFalse htaken =>
      rw [dif_pos (Decidable.not_not.1 (mt hwaits.2 htaken))]
      simp only [Option.map_some, Stage.reader, Hole.reader, Reader.enter, hclose.2]

theorem feedOperand_reader : (hole.reader.goto spot).feedOperand t = (Stage.feedOperand hole t).map Stage.reader := by
  unfold Stage.feedOperand Reader.feedOperand
  cases ht : t.terminal with
  | name => rw [← Token.token_as ht]; rfl
  | keyword k => cases k <;> rfl
  | mark m => cases m <;> rfl
  | _ => rfl

end Hole

/-! ### The end of an expression -/

namespace Derivation

theorem image_addArg (before : Option (Derivation .argList × Leaf (.mark .comma))) (e : Derivation (.expression 0)) :
    (addArg before e).image.reverse = e.image :: argsDone before := by
  rcases before with _ | ⟨before, comma⟩ <;> simp [addArg, argsDone, image]

theorem image_addParam (before : Option (Derivation .paramList × Leaf (.mark .comma))) (p : Derivation .param) :
    (addParam before p).image.reverse = p.image :: paramsDone before := by
  rcases before with _ | ⟨before, comma⟩ <;> simp [addParam, paramsDone, image]

theorem firstLine_of_ne_nil {nodes : List Node} (h : nodes ≠ []) (default default' : Int) :
    firstLine default nodes = firstLine default' nodes := by
  cases nodes with
  | nil => exact absurd rfl h
  | cons n nodes => rfl

theorem callNode_args (name : Leaf .name) (es : Derivation .argList) :
    Reader.callNode name.token es.image.reverse = callImage name (args es).image := by
  have hne : es.image ≠ [] := by
    cases es <;> simp [image]
  rw [Reader.callNode, List.reverse_reverse, Reader.lineOf_eq, firstLine_of_ne_nil hne _ 0]
  rfl

end Derivation

/-- What ends an expression ends it in both readers alike. -/
theorem Host.ended_reader (b : Host) (e : Derivation (.expression 0)) (t : Token) {r : Reader} (n : Node)
    (hcollapse : Reader.collapse 0 n r.spine = (e.image, b.reader.spine)) (hr : b.reader.functions = r.functions) :
    r.feedEnd n t.terminal = (b.ended e t t.terminal).map Stage.reader := by
  obtain ⟨functions, spine, spot⟩ := r
  cases hr
  unfold Reader.feedEnd
  simp only [hcollapse]
  cases b with
  | assign scope before name equal =>
      cases t.terminal with
      | mark m =>
          cases m with
          | semicolon => exact Reader.addStatement_scope rfl rfl
          | _ => rfl
      | _ => rfl
  | ifCondition scope before kwIf =>
      cases t.terminal with
      | keyword k => cases k <;> rfl
      | _ => rfl
  | whileCondition scope before kwWhile =>
      cases t.terminal with
      | keyword k => cases k <;> rfl
      | _ => rfl
  | ret scope before kwReturn =>
      cases t.terminal with
      | mark m =>
          cases m with
          | semicolon => exact Reader.addStatement_scope rfl rfl
          | _ => rfl
      | _ => rfl
  | write scope before kwWrite =>
      cases t.terminal with
      | mark m =>
          cases m with
          | semicolon => exact Reader.addStatement_scope rfl rfl
          | _ => rfl
      | _ => rfl
  | group hole lpar =>
      cases t.terminal with
      | mark m => cases m <;> rfl
      | _ => rfl
  | argument caller before =>
      cases t.terminal with
      | mark m =>
          cases m with
          | rpar =>
              have hcall (name : Leaf .name) : Reader.callNode name.token (e.image :: Derivation.argsDone before) =
                  Derivation.callImage name (Derivation.args (.addArg before e)).image := by
                rw [← Derivation.image_addArg, Derivation.callNode_args]
              cases caller with
              | statement scope ss name lpar =>
                  exact congrArg (fun n => some ((scope.reader ss).goto (.statementEnd n))) (hcall name)
              | operand hole name lpar =>
                  exact congrArg (fun n => some (hole.reader.goto (.afterOperand n))) (hcall name)
          | comma =>
              have hdone : (Host.argument caller (some (.addArg before e, t.as (.mark .comma)))).reader =
                  caller.reader (e.image :: Derivation.argsDone before) := by
                rw [← Derivation.image_addArg]
                rfl
              cases caller <;> exact congrArg some hdone.symm
          | _ => cases caller <;> rfl
      | _ => cases caller <;> rfl

theorem Hole.feedAfter_reader {level : Nat} (hole : Hole level) (spot : Spot) (a : Derivation .atom) (t : Token) :
    (hole.reader.goto spot).feedAfterOperand a.image t = (Stage.feedAfter hole a t).map Stage.reader := by
  unfold Reader.feedAfterOperand Stage.feedAfter
  rw [Binary.binaryKind?_eq]
  cases Binary.ofTerminal? t.terminal with
  | some op => exact hole.feedOperator_reader spot a t op
  | none =>
      have hfinish := hole.collapse_finish (.atom a) hole.level_le
      exact (hole.finish (.atom a) hole.level_le).1.ended_reader _ t a.image hfinish.1 hfinish.2

/-! ### Both readers -/

theorem Scope.spot_reader (scope : Scope) (ss : Derivation .statements) :
    (scope.reader ss).spot = .statement ss.isFresh := by
  cases scope <;> rfl

theorem Hole.spot_reader {level : Nat} (hole : Hole level) : hole.reader.spot = .operand := by
  cases hole with
  | host b =>
      cases b with
      | argument caller before => cases caller <;> rfl
      | _ => rfl
  | _ => rfl

theorem Hole.goto_operand {level : Nat} (hole : Hole level) : hole.reader.goto .operand = hole.reader := by
  rw [← hole.spot_reader]
  rfl

theorem Derivation.paramsNode_params (heading : Heading) (ps : Derivation .paramList) :
    Reader.paramsNode ⟨heading.func.line, heading.name.text, ps.image.reverse⟩ =
      (params ps).image.getD (.branch .paramList heading.func.line []) := by
  have hne : ps.image ≠ [] := by
    cases ps <;> simp [image]
  rw [Reader.paramsNode, List.reverse_reverse, Reader.lineOf_eq, firstLine_of_ne_nil hne _ 0]
  rfl

namespace Stage

theorem feedParam_reader (heading : Heading) (before : Option (Derivation .paramList × Leaf (.mark .comma))) (spot : Spot)
    (t : Token) :
    (⟨heading.before.image.reverse, [], spot⟩ : Reader).feedParam
        ⟨heading.func.line, heading.name.text, Derivation.paramsDone before⟩ t =
      (feedParam heading before t).map reader := by
  unfold feedParam Reader.feedParam
  cases t.terminal with
  | name => simp [reader, Derivation.image_addParam, Reader.goto, Derivation.image, Token.as]
  | mark m => cases m <;> rfl
  | _ => rfl

/-- A token is taken or refused in both readers alike. -/
theorem feed_reader (p : Stage) (t : Token) : p.reader.feed t = (p.feed t).map reader := by
  unfold feed Reader.feed
  cases p with
  | outside fs =>
      cases t.terminal with
      | keyword k => cases k <;> rfl
      | _ => rfl
  | functionName fs func => cases t.terminal <;> rfl
  | paramsOpen fs func name =>
      cases t.terminal with
      | mark m => cases m <;> rfl
      | _ => rfl
  | param heading before =>
      rcases before with _ | ⟨ps, comma⟩
      · cases t.terminal with
        | mark m =>
            cases m with
            | rpar => rfl
            | _ => exact feedParam_reader heading none _ t
        | _ => exact feedParam_reader heading none _ t
      · exact feedParam_reader heading (some (ps, comma)) _ t
  | refParam heading before ampersand =>
      cases t.terminal with
      | name => simp [reader, Derivation.image_addParam, Reader.goto, Derivation.image, Token.as]
      | _ => rfl
  | afterParam heading ps =>
      cases t.terminal with
      | mark m =>
          cases m with
          | comma => rfl
          | rpar =>
              exact congrArg (fun n => some ((⟨heading.before.image.reverse, [], .outside⟩ : Reader).enter
                (.block (.function heading.func.line heading.name.text n) []) (.statement true)))
                (Derivation.paramsNode_params heading ps)
          | _ => rfl
      | _ => rfl
  | statement scope before =>
      rw [reader, scope.spot_reader]
      exact scope.feedStatement_reader before t
  | afterTarget scope before name =>
      cases t.terminal with
      | mark m => cases m <;> rfl
      | _ => rfl
  | readTarget scope before kwRead => cases t.terminal <;> rfl
  | readEnd scope before kwRead name =>
      cases t.terminal with
      | mark m =>
          cases m with
          | semicolon => exact Reader.addStatement_scope rfl rfl
          | _ => rfl
      | _ => rfl
  | callEnd scope before name lpar es rpar =>
      cases t.terminal with
      | mark m =>
          cases m with
          | semicolon => exact Reader.addStatement_scope rfl rfl
          | _ => rfl
      | _ => rfl
  | returnOperand scope before kwReturn =>
      have hoperand := (Hole.host (.ret scope before kwReturn)).feedOperand_reader .returnOperand t
      cases t.terminal with
      | mark m =>
          cases m with
          | semicolon => exact Reader.addStatement_scope rfl rfl
          | _ => exact hoperand
      | _ => exact hoperand
  | firstArgument caller =>
      have hoperand := (Hole.host (.argument caller none)).feedOperand_reader .firstArgument t
      cases t.terminal with
      | mark m =>
          cases m with
          | rpar => cases caller <;> rfl
          | _ => exact hoperand
      | _ => exact hoperand
  | operand hole =>
      have hoperand := hole.feedOperand_reader .operand t
      rw [hole.goto_operand] at hoperand
      rw [reader, hole.spot_reader]
      exact hoperand
  | after hole a =>
      have hafter := hole.feedAfter_reader a.spot a t
      cases a with
      | var name =>
          cases t.terminal with
          | mark m =>
              cases m with
              | lpar => rfl
              | _ => exact hafter
          | _ => exact hafter
      | _ => cases t.terminal <;> exact hafter

end Stage

end Rover
