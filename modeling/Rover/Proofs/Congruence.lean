import Mathlib.Tactic.SplitIfs
import Rover.Machine.Run

/-!
# Relations between runs of one tree

A relation between computations is a congruence if every primitive step of a run is related to itself, and if steps that are
related may follow each other. What the evaluator does with some fuel is then related to what it does with another amount of it
(`Related`), one step after another. The steps are the same for all congruences but for two: what a robot operation does with the
fuel, and what a call does with the stack. `Congruence.related_succ` asks for these two.
-/

namespace Rover

/-- A relation between computations that the primitive steps of a run keep, but for robot operations and calls. -/
structure Congruence (C : ∀ {α : Type}, Eval α → Eval α → Prop) : Prop where
  pure {α : Type} (a : α) : C (Pure.pure a) (Pure.pure a)
  fail {α : Type} (cause : Cause) : C (Eval.fail cause : Eval α) (Eval.fail cause)
  bind {α β : Type} {x x' : Eval α} {f f' : α → Eval β} : C x x' → (∀ a, C (f a) (f' a)) → C (x >>= f) (x' >>= f')
  exchangeLine (line : Int) : C (Eval.exchangeLine line) (Eval.exchangeLine line)
  setLine (line : Int) : C (Eval.setLine line) (Eval.setLine line)
  variableValue (name : String) : C (Eval.variableValue name) (Eval.variableValue name)
  variableCell (name : String) : C (Eval.variableCell name) (Eval.variableCell name)
  assign (name : String) (v : Value) : C (Eval.assign name v) (Eval.assign name v)
  alloc (v : Value) : C (Eval.alloc v) (Eval.alloc v)
  nextToken : C Eval.nextToken Eval.nextToken
  write (text : String) : C (Eval.emit (.wrote text)) (Eval.emit (.wrote text))
  ask {α : Type} (question : World → Except WorldError α) : C (Eval.ask question) (Eval.ask question)
  function (name : String) : C (Eval.function name) (Eval.function name)

/-- The functions of the evaluator with one amount of fuel and with another are related. -/
structure Related (C : ∀ {α : Type}, Eval α → Eval α → Prop) (fuel fuel' : Nat) : Prop where
  evaluate (n : Node) : C (Rover.evaluate fuel n) (Rover.evaluate fuel' n)
  evaluateNode (n : Node) : C (Rover.evaluateNode fuel n) (Rover.evaluateNode fuel' n)
  invoke (name : String) (nodes : List Node) : C (Rover.invoke fuel name nodes) (Rover.invoke fuel' name nodes)
  evaluateArguments (types : List ArgumentType) (nodes : List Node) :
    C (Rover.evaluateArguments fuel types nodes) (Rover.evaluateArguments fuel' types nodes)
  invokeFunction (f : Function) (nodes : List Node) : C (Rover.invokeFunction fuel f nodes) (Rover.invokeFunction fuel' f nodes)
  bindArguments (params : List Param) (nodes : List Node) :
    C (Rover.bindArguments fuel params nodes) (Rover.bindArguments fuel' params nodes)
  runBlock (nodes : List Node) : C (Rover.runBlock fuel nodes) (Rover.runBlock fuel' nodes)
  runStatement (n : Node) : C (Rover.runStatement fuel n) (Rover.runStatement fuel' n)
  runLoop (condition : Node) (body : List Node) : C (Rover.runLoop fuel condition body) (Rover.runLoop fuel' condition body)

namespace Congruence

variable {C : ∀ {α : Type}, Eval α → Eval α → Prop} (hC : Congruence C) {α β : Type}

include hC

theorem ofExcept {ε : Type} {cause : ε → Cause} (r : Except ε α) : C (Eval.ofExcept cause r) (Eval.ofExcept cause r) := by
  cases r with
  | ok a => exact hC.pure a
  | error e => exact hC.fail (cause e)

/-- A value that has to be a truth value. -/
theorem test {x x' : Eval Value} {f f' : Value → Bool → Eval β} (hx : C x x') (hf : ∀ v b, C (f v b) (f' v b)) :
    C (x >>= fun v => Eval.ofExcept id v.asBoolean >>= f v) (x' >>= fun v => Eval.ofExcept id v.asBoolean >>= f' v) :=
  hC.bind hx fun v => hC.bind (hC.ofExcept v.asBoolean) (hf v)

theorem guard {c : Prop} [Decidable c] {cause : Cause} {x x' : Unit → Eval α} (hx : C (x ()) (x' ())) :
    C (if c then Eval.fail cause >>= x else x ()) (if c then Eval.fail cause >>= x' else x' ()) := by
  split_ifs
  · exact hC.bind (hC.fail cause) fun _ => hx
  · exact hx

theorem atLine (line : Int) {x x' : Eval α} (hx : C x x') : C (Eval.atLine line x) (Eval.atLine line x') :=
  hC.bind (hC.exchangeLine line) fun before => hC.bind hx fun a => hC.bind (hC.setLine before) fun _ => hC.pure a

theorem precheck (b : Builtin) (count : Nat) : C (b.precheck count) (b.precheck count) := by
  unfold Builtin.precheck
  dsimp only
  split_ifs
  · exact hC.bind (hC.ask _) fun _ => hC.fail _
  · exact hC.bind (hC.ask _) fun _ => hC.pure ()
  · exact hC.fail _
  · exact hC.pure ()

section Step

variable {fuel fuel' : Nat} (ih : Related C fuel fuel')

include ih

theorem evaluateNode_step (n : Node) : C (evaluateNode (fuel + 1) n) (evaluateNode (fuel' + 1) n) := by
  obtain ⟨kind, line, text, value, children⟩ := n
  have htruth (n : Node) := hC.test (ih.evaluate n) fun _ b => hC.pure (Value.boolean b)
  unfold evaluateNode
  dsimp only
  split
  · exact hC.variableValue text
  iterate 4
    · cases value with
      | none => exact hC.fail _
      | some v => exact hC.pure v
  · refine hC.bind (hC.ofExcept _) fun call => hC.bind (ih.invoke call.1 call.2) fun v => ?_
    split_ifs
    · exact hC.fail _
    · exact hC.pure v
  · rcases children with _ | ⟨a, _ | ⟨b, children⟩⟩
    · exact hC.fail _
    · exact hC.bind (ih.evaluate a) fun v => hC.ofExcept _
    · dsimp only
      split
      · refine hC.test (ih.evaluate a) fun l c => ?_
        split_ifs
        · exact htruth b
        · exact hC.pure l
      · refine hC.test (ih.evaluate a) fun l c => ?_
        split_ifs
        · exact hC.pure l
        · exact htruth b
      · exact hC.bind (ih.evaluate a) fun l => hC.bind (ih.evaluate b) fun r => hC.ofExcept _

theorem invoke_step (hperform : ∀ (b : Builtin) values, C (b.perform fuel values) (b.perform fuel' values)) (name : String)
    (nodes : List Node) : C (invoke (fuel + 1) name nodes) (invoke (fuel' + 1) name nodes) := by
  unfold invoke
  cases Builtin.ofName? name with
  | some b =>
      exact hC.bind (hC.precheck b _) fun _ => hC.bind (ih.evaluateArguments b.arguments nodes) fun values =>
        hperform b values
  | none => exact hC.bind (hC.function name) fun f => ih.invokeFunction f nodes

theorem evaluateArguments_step (types : List ArgumentType) (nodes : List Node) :
    C (evaluateArguments (fuel + 1) types nodes) (evaluateArguments (fuel' + 1) types nodes) := by
  rcases types with _ | ⟨t, types⟩
  · exact hC.pure []
  rcases nodes with _ | ⟨n, nodes⟩
  · exact hC.pure []
  rw [evaluateArguments, evaluateArguments]
  exact hC.bind (ih.evaluate n) fun v => hC.bind (hC.ofExcept (t.check v)) fun v =>
    hC.bind (ih.evaluateArguments types nodes) fun rest => hC.pure (v :: rest)

theorem bindArguments_step (params : List Param) (nodes : List Node) :
    C (bindArguments (fuel + 1) params nodes) (bindArguments (fuel' + 1) params nodes) := by
  rcases params with _ | ⟨p, params⟩
  · exact hC.pure []
  rcases nodes with _ | ⟨n, nodes⟩
  · exact hC.pure []
  have hrest (cell : Cell) := hC.bind (ih.bindArguments params nodes) fun rest => hC.pure ((p, cell) :: rest)
  rw [bindArguments, bindArguments]
  refine hC.bind (hC.setLine n.line) fun _ => ?_
  dsimp only
  split_ifs
  · exact hC.bind (hC.variableCell n.text) hrest
  · exact hC.bind (hC.fail _) hrest
  · exact hC.bind (ih.evaluate n) fun v => hC.bind (hC.alloc v) hrest

theorem runBlock_step (nodes : List Node) : C (runBlock (fuel + 1) nodes) (runBlock (fuel' + 1) nodes) := by
  cases nodes with
  | nil => exact hC.pure none
  | cons n rest =>
      rw [runBlock, runBlock]
      refine hC.bind (ih.runStatement n) fun r => ?_
      cases r with
      | some v => exact hC.pure (some v)
      | none => exact ih.runBlock rest

theorem runLoop_step (condition : Node) (body : List Node) :
    C (runLoop (fuel + 1) condition body) (runLoop (fuel' + 1) condition body) := by
  unfold runLoop
  refine hC.test (ih.evaluate condition) fun v b => ?_
  split_ifs
  · refine hC.bind (ih.runBlock body) fun r => ?_
    cases r with
    | some v => exact hC.pure (some v)
    | none => exact ih.runLoop condition body
  · exact hC.pure none

theorem runStatement_step (n : Node) : C (runStatement (fuel + 1) n) (runStatement (fuel' + 1) n) := by
  obtain ⟨kind, line, text, value, children⟩ := n
  unfold runStatement
  refine hC.bind (hC.setLine line) fun _ => ?_
  cases kind with
  | assign =>
      rcases children with _ | ⟨x, _ | ⟨e, children⟩⟩
      · exact hC.fail _
      · exact hC.fail _
      · exact hC.bind (ih.evaluate e) fun v => hC.bind (hC.assign x.text v) fun _ => hC.pure none
  | ifElse =>
      rcases children with _ | ⟨c, branches⟩
      · exact hC.fail _
      refine hC.test (ih.evaluate c) fun v b => ?_
      split_ifs
      · cases branches with
        | nil => exact hC.fail _
        | cons b branches => exact ih.runBlock b.children
      · rcases branches with _ | ⟨a, _ | ⟨b, _ | ⟨d, branches⟩⟩⟩
        · exact hC.pure none
        · exact hC.pure none
        · exact ih.runBlock b.children
        · exact hC.pure none
  | whileDo =>
      rcases children with _ | ⟨c, _ | ⟨b, _ | ⟨d, children⟩⟩⟩
      · exact hC.fail _
      · exact hC.fail _
      · exact ih.runLoop c b.children
      · exact hC.fail _
  | ret =>
      cases children with
      | nil => exact hC.pure (some Value.void)
      | cons e children => exact hC.bind (ih.evaluate e) fun v => hC.pure (some v)
  | read =>
      refine hC.bind hC.nextToken fun token => hC.bind (hC.ofExcept _) fun v => ?_
      cases children with
      | nil => exact hC.fail _
      | cons x children => exact hC.bind (hC.assign x.text v) fun _ => hC.pure none
  | write =>
      cases children with
      | nil => exact hC.fail _
      | cons e children =>
          dsimp only
          split
          · exact hC.bind (hC.write _) fun _ => hC.pure none
          · exact hC.bind (ih.evaluate e) fun v => hC.bind (hC.write v.text) fun _ => hC.pure none
  | call => exact hC.bind (hC.ofExcept _) fun call => hC.bind (ih.invoke call.1 call.2) fun _ => hC.pure none
  | _ => exact hC.fail _

/-- One step of the induction over the evaluator. -/
theorem related_succ (hperform : ∀ (b : Builtin) values, C (b.perform fuel values) (b.perform fuel' values))
    (hcall : ∀ f nodes, C (invokeFunction (fuel + 1) f nodes) (invokeFunction (fuel' + 1) f nodes)) :
    Related C (fuel + 1) (fuel' + 1) :=
  ⟨fun n => hC.atLine n.line (ih.evaluateNode n), hC.evaluateNode_step ih, hC.invoke_step ih hperform,
    hC.evaluateArguments_step ih, hcall, hC.bindArguments_step ih, hC.runBlock_step ih, hC.runStatement_step ih,
    hC.runLoop_step ih⟩

end Step

end Congruence

end Rover
