import Rover.Proofs.Matching

/-!
# Runs of variants

The run of a tree is matched by the run of a variant: `RunsMatched.all`, by induction on the fuel of the one run; for the
other run there is always enough fuel. Where the trees have the same form, the two runs go step by step. The rewritten places
are where they do not: a negated conjunction and a disjunction of negations are brought to one form (`Eval.both`), and the
body of a loop with the loop behind it is run as a block with one statement more.
-/

namespace Rover

/-! ### Conjunctions and disjunctions -/

namespace Eval

variable {α β : Type}

/-- The truth value that a computation has to give. -/
def truth (x : Eval Value) : Eval Bool := x >>= fun v => Eval.ofExcept id v.asBoolean

/-- Whether both hold; the second computation is run only if the first one says so. -/
def both (x y : Eval Bool) : Eval Bool := x >>= fun b => if b then y else Pure.pure false

/-- The negation of a truth value. -/
def negated (x : Eval Bool) : Eval Value := x >>= fun b => Pure.pure (.boolean !b)

theorem atLine_map (line : Int) (x : Eval α) (f : α → β) :
    atLine line (x >>= fun a => Pure.pure (f a)) = atLine line x >>= fun a => Pure.pure (f a) := by
  funext m
  change Eval.bind (Eval.bind x fun a => Eval.pure (f a)) _ { m with line } =
    Eval.bind (Eval.bind x fun a => Eval.bind (setLine m.line) fun _ => Eval.pure a) _ { m with line }
  unfold Eval.bind
  cases x { m with line } <;> rfl

theorem bind_not (x : Eval Value) : (x >>= fun v => Eval.ofExcept id (unaryValue .not v)) = x.truth.negated := by
  rw [negated, truth, bind_assoc]
  congr 1
  funext v
  cases v <;> rfl

theorem bind_and (x y : Eval Value) :
    (x >>= fun l => Eval.ofExcept id l.asBoolean >>= fun b =>
      if b then y >>= fun r => Eval.ofExcept id r.asBoolean >>= fun c => Pure.pure (Value.boolean c) else Pure.pure l) =
      both x.truth y.truth >>= fun b => Pure.pure (.boolean b) := by
  rw [both, truth, truth, bind_assoc, bind_assoc]
  congr 1
  funext l
  cases l with
  | boolean b =>
      cases b with
      | false => rfl
      | true => exact (bind_assoc y _ _).symm
  | _ => rfl

theorem bind_or (x y : Eval Bool) :
    (x.negated >>= fun l => Eval.ofExcept id l.asBoolean >>= fun b =>
      if b then Pure.pure l
      else y.negated >>= fun r => Eval.ofExcept id r.asBoolean >>= fun c => Pure.pure (Value.boolean c)) =
      (both x y).negated := by
  rw [negated, negated, negated, both, bind_assoc x, bind_assoc x]
  congr 1
  funext b
  cases b with
  | false => rfl
  | true => exact bind_assoc y _ _

end Eval

section Negation

variable {fuel : Nat} {l i i₁ i₂ : Int} {p q : Node}

/-- The negation of a conjunction. -/
theorem evaluateNode_notAnd :
    evaluateNode (fuel + 3) (.branch .not l [.branch .and i [p, q]]) =
      Eval.atLine i (Eval.both (evaluate fuel p).truth (evaluate fuel q).truth).negated := by
  have hand : evaluate (fuel + 2) (.branch .and i [p, q]) =
      Eval.atLine i (Eval.both (evaluate fuel p).truth (evaluate fuel q).truth) >>= fun b => pure (.boolean b) := by
    rw [← Eval.atLine_map, ← Eval.bind_and, evaluate, Node.branch, evaluateNode_operator rfl]
    rfl
  rw [Node.branch, evaluateNode_operator rfl, Eval.negated, Eval.atLine_map]
  change evaluate (fuel + 2) (.branch .and i [p, q]) >>= _ = _
  rw [hand, Eval.bind_assoc]
  rfl

/-- The disjunction of negations. -/
theorem evaluateNode_orNot :
    evaluateNode (fuel + 3) (.branch .or l [.branch .not i₁ [p], .branch .not i₂ [q]]) =
      (Eval.both (Eval.atLine i₁ (evaluate fuel p).truth) (Eval.atLine i₂ (evaluate fuel q).truth)).negated := by
  have hnot (i : Int) (n : Node) :
      evaluate (fuel + 2) (.branch .not i [n]) = (Eval.atLine i (evaluate fuel n).truth).negated := by
    rw [Eval.negated, ← Eval.atLine_map, evaluate, Node.branch, evaluateNode_operator rfl]
    exact congrArg (Eval.atLine i) (Eval.bind_not _)
  rw [← Eval.bind_or, ← hnot, ← hnot, Node.branch, evaluateNode_operator rfl]
  rfl

end Negation

namespace MatchedBy

theorem truth {x : Eval Value} {x' : Nat → Eval Value} (hx : MatchedBy x x') :
    MatchedBy x.truth fun fuel => (x' fuel).truth :=
  hx.bind fun v => .ofExcept v.asBoolean

theorem negated {x : Eval Bool} {x' : Nat → Eval Bool} (hx : MatchedBy x x') :
    MatchedBy x.negated fun fuel => (x' fuel).negated :=
  hx.bind fun b => .pure (Value.boolean !b)

theorem both {x y : Eval Bool} {x' y' : Nat → Eval Bool} (hx : MatchedBy x x') (hy : MatchedBy y y') :
    MatchedBy (Eval.both x y) fun fuel => Eval.both (x' fuel) (y' fuel) := by
  refine hx.bind fun b => ?_
  cases b with
  | true => exact hy
  | false => exact .pure false

end MatchedBy

/-! ### Runs of variants -/

/-- The functions of the evaluator with this fuel, applied to a tree, are matched by them applied to a variant. -/
structure RunsMatched (fuel : Nat) : Prop where
  evaluate {n n' : Node} : Variant .expression n n' → MatchedBy (Rover.evaluate fuel n) (Rover.evaluate · n')
  evaluateNode {n n' : Node} : Variant .expression n n' → MatchedBy (Rover.evaluateNode fuel n) (Rover.evaluateNode · n')
  invoke {ns ns' : List Node} (name : String) : List.Forall₂ (Variant .expression) ns ns' →
    MatchedBy (Rover.invoke fuel name ns) (Rover.invoke · name ns')
  evaluateArguments {ns ns' : List Node} (types : List ArgumentType) : List.Forall₂ (Variant .expression) ns ns' →
    MatchedBy (Rover.evaluateArguments fuel types ns) (Rover.evaluateArguments · types ns')
  invokeFunction {f f' : Function} {ns ns' : List Node} : f.Variant f' → List.Forall₂ (Variant .expression) ns ns' →
    MatchedBy (Rover.invokeFunction fuel f ns) (Rover.invokeFunction · f' ns')
  bindArguments {ns ns' : List Node} (params : List Param) : List.Forall₂ (Variant .expression) ns ns' →
    MatchedBy (Rover.bindArguments fuel params ns) (Rover.bindArguments · params ns')
  runBlock {ns ns' : List Node} : VariantBlock ns ns' → MatchedBy (Rover.runBlock fuel ns) (Rover.runBlock · ns')
  runStatement {n n' : Node} : Variant .statement n n' → MatchedBy (Rover.runStatement fuel n) (Rover.runStatement · n')
  runLoop {c c' : Node} {ns ns' : List Node} : Variant .expression c c' → VariantBlock ns ns' →
    MatchedBy (Rover.runLoop fuel c ns) (Rover.runLoop · c' ns')

namespace RunsMatched

theorem zero : RunsMatched 0 :=
  ⟨fun _ => .of_unfinished fun _ => rfl, fun _ => .of_unfinished fun _ => rfl, fun _ _ => .of_unfinished fun _ => rfl,
    fun _ _ => .of_unfinished fun _ => rfl, fun _ _ => .of_unfinished fun _ => rfl, fun _ _ => .of_unfinished fun _ => rfl,
    fun _ => .of_unfinished fun _ => rfl, fun _ => .of_unfinished fun _ => rfl, fun _ _ => .of_unfinished fun _ => rfl⟩

section Step

variable {fuel : Nat} (ih : ∀ f ≤ fuel, RunsMatched f)

include ih

theorem evaluate_step {n n' : Node} (hn : Variant .expression n n') :
    MatchedBy (Rover.evaluate (fuel + 1) n) (Rover.evaluate · n') :=
  .shift 1 ((((ih fuel le_rfl).evaluateNode hn).atLine_left n.line).atLine_right n'.line)

/-! #### Expressions -/

theorem operation_matched {k : Kind} {ns ns' : List Node} (hns : List.Forall₂ (Variant .expression) ns ns') :
    MatchedBy (operation fuel k ns) fun fuel => operation fuel k ns' := by
  have hfuel := ih fuel le_rfl
  cases hns with
  | nil => exact .fail _
  | cons ha hrest =>
      cases hrest with
      | nil => exact (hfuel.evaluate ha).bind fun _ => .ofExcept _
      | cons hb _ =>
          have htruth := (hfuel.evaluate hb).test fun _ c => .pure (Value.boolean c)
          unfold operation
          dsimp only
          split
          · refine (hfuel.evaluate ha).test fun v b => ?_
            cases b with
            | true => exact htruth
            | false => exact .pure v
          · refine (hfuel.evaluate ha).test fun v b => ?_
            cases b with
            | true => exact .pure v
            | false => exact htruth
          · exact (hfuel.evaluate ha).bind fun _ => (hfuel.evaluate hb).bind fun _ => .ofExcept _

/-- A node with the children of a variant. -/
theorem evaluateNode_node {k : Kind} {l l' : Int} {t : String} {v : Option Value} {cs cs' : List Node}
    (hall : VariantAll (Position.child .expression k) cs cs') :
    MatchedBy (Rover.evaluateNode (fuel + 1) ⟨k, l, t, v, cs⟩) (Rover.evaluateNode · ⟨k, l', t, v, cs'⟩) := by
  refine .shift 1 ?_
  cases k.evaluated with
  | id => exact .variableValue t
  | literal hliteral =>
      simp only [evaluateNode_literal hliteral]
      cases v with
      | none => exact .fail _
      | some x => exact .pure x
  | call =>
      cases hall with
      | nil => exact .fail .missingPart
      | cons hcallee hrest =>
          cases hrest with
          | nil => exact .fail .missingPart
          | cons harguments _ =>
              simp only [evaluateNode_call, hcallee.text_eq]
              refine ((ih fuel le_rfl).invoke _ harguments.expressions).bind fun x => ?_
              split_ifs
              · exact .fail _
              · exact .pure x
  | operator hoperator =>
      have hcall : k ≠ .call := by
        rintro rfl
        cases hoperator
      simp only [evaluateNode_operator hoperator]
      exact operation_matched ih (hall.forall₂ (Position.child_expression hcall))

theorem evaluateNode_step {n n' : Node} (hn : Variant .expression n n') :
    MatchedBy (Rover.evaluateNode (fuel + 1) n) (Rover.evaluateNode · n') := by
  cases hn with
  | node hall => exact evaluateNode_node ih hall
  | @disjunction l l' i i₁ i₂ p p' q q' hp hq =>
      -- Two nodes lie between this one and the operands: with less fuel none of them is reached.
      match fuel, ih with
      | 0, _ => exact .of_unfinished fun _ => rfl
      | 1, _ => exact .of_unfinished fun _ => rfl
      | fuel + 2, ih =>
          have hfuel := ih fuel (Nat.le_add_right fuel 2)
          refine .shift 3 ?_
          simp only [evaluateNode_notAnd, evaluateNode_orNot]
          have hp := (hfuel.evaluate hp).truth.atLine_right i₁
          have hq := (hfuel.evaluate hq).truth.atLine_right i₂
          exact (hp.both hq).negated.atLine_left i
  | @conjunction l l' i i₁ i₂ p p' q q' hp hq =>
      match fuel, ih with
      | 0, _ => exact .of_unfinished fun _ => rfl
      | 1, _ => exact .of_unfinished fun _ => rfl
      | fuel + 2, ih =>
          have hfuel := ih fuel (Nat.le_add_right fuel 2)
          refine .shift 3 ?_
          simp only [evaluateNode_notAnd, evaluateNode_orNot]
          have hp := (hfuel.evaluate hp).truth.atLine_left i₁
          have hq := (hfuel.evaluate hq).truth.atLine_left i₂
          exact (hp.both hq).negated.atLine_right i

/-! #### Calls -/

theorem evaluateArguments_step {ns ns' : List Node} (types : List ArgumentType)
    (hns : List.Forall₂ (Variant .expression) ns ns') :
    MatchedBy (Rover.evaluateArguments (fuel + 1) types ns) (Rover.evaluateArguments · types ns') := by
  have hfuel := ih fuel le_rfl
  refine .shift 1 ?_
  cases types with
  | nil => exact .pure []
  | cons t types =>
      cases hns with
      | nil => exact .pure []
      | cons hn hns =>
          refine (hfuel.evaluate hn).bind fun v => ?_
          refine (MatchedBy.ofExcept (t.check v)).bind fun u => ?_
          exact (hfuel.evaluateArguments types hns).bind fun us => .pure (u :: us)

theorem invoke_step {ns ns' : List Node} (name : String) (hns : List.Forall₂ (Variant .expression) ns ns') :
    MatchedBy (Rover.invoke (fuel + 1) name ns) (Rover.invoke · name ns') := by
  have hfuel := ih fuel le_rfl
  refine .shift 1 ?_
  cases hname : Builtin.ofName? name with
  | some b =>
      simp only [invoke_operation hname, ← hns.length_eq]
      refine (MatchedBy.precheck b ns.length).bind fun _ => ?_
      exact (hfuel.evaluateArguments b.arguments hns).bind fun values => .perform fuel b values
  | none =>
      simp only [invoke_function hname]
      exact .function fun f f' hf => hfuel.invokeFunction hf hns

theorem argumentCell_matched (p : Param) {n n' : Node} (hn : Variant .expression n n') :
    MatchedBy (argumentCell fuel p n) fun fuel => argumentCell fuel p n' := by
  by_cases href : p.byRef = true
  · simp only [argumentCell, if_pos href]
    cases hn with
    | node =>
        dsimp only
        split_ifs
        · exact .variableCell _
        · exact .fail _
    | disjunction => exact .fail .referenceArgument
    | conjunction => exact .fail .referenceArgument
  · simp only [argumentCell, if_neg href]
    exact ((ih fuel le_rfl).evaluate hn).bind fun v => .alloc v

theorem bindArguments_step {ns ns' : List Node} (params : List Param)
    (hns : List.Forall₂ (Variant .expression) ns ns') :
    MatchedBy (Rover.bindArguments (fuel + 1) params ns) (Rover.bindArguments · params ns') := by
  refine .shift 1 ?_
  cases params with
  | nil => exact .pure []
  | cons p params =>
      cases hns with
      | nil => exact .pure []
      | @cons n n' _ _ hn hns =>
          simp only [bindArguments_cons]
          refine (MatchedBy.setLine n.line n'.line).bind fun _ => ?_
          refine (argumentCell_matched ih p hn).bind fun c => ?_
          exact ((ih fuel le_rfl).bindArguments params hns).bind fun rest => .pure ((p, c) :: rest)

theorem callWith_matched {f f' : Function} (hf : f.Variant f') (l l' : Int) (depth : Nat)
    (bound : List (Param × Cell)) :
    MatchedBy (callWith fuel f l depth bound) fun fuel => callWith fuel f' l' depth bound := by
  intro m m' hm hends
  have htold := hm.tellCall hf l l' depth bound
  have hbody := (ih fuel le_rfl).runBlock hf.body.statements _ _ (htold.enter hf l l' bound)
  simp only [callWith_eq, hm.options, hf.params_eq] at hends ⊢
  split_ifs at hends ⊢
  · generalize Rover.runBlock fuel f.body.children _ = o at hends hbody ⊢
    obtain ⟨o', ho, hrun⟩ := hbody fun h => hends (by rw [h])
    dsimp only at hrun
    cases ho with
    | unfinished => exact absurd rfl hends
    | @failed e e' n n' h =>
        obtain ⟨he, hn⟩ := h
        refine ⟨_, .failed ⟨?_, hn.leave⟩, hrun.mono fun _ h => by rw [h]⟩
        rw [cause_report, cause_report, he]
    | @done r r' n n' h =>
        obtain ⟨rfl, hn⟩ := h
        exact ⟨_, .done ⟨rfl, (hn.tellReturn hf _ depth bound).leave.setLine l l'⟩, hrun.mono fun _ h => by rw [h]⟩
  · exact ⟨_, .failed ⟨rfl, htold⟩, .of_forall fun _ => rfl⟩
  · exact ⟨_, .failed ⟨rfl, hm⟩, .of_forall fun _ => rfl⟩

theorem invokeFunction_step {f f' : Function} {ns ns' : List Node} (hf : f.Variant f')
    (hns : List.Forall₂ (Variant .expression) ns ns') :
    MatchedBy (Rover.invokeFunction (fuel + 1) f ns) (Rover.invokeFunction · f' ns') := by
  refine .shift 1 ?_
  simp only [invokeFunction_eq, hf.name_eq, hf.params_eq, ← hns.length_eq]
  split_ifs
  · exact .fail (.parameterCount f.name)
  · intro m m' hm hends
    have hcall := ((ih fuel le_rfl).bindArguments f.params hns).bind
      fun bound => callWith_matched ih hf m.line m'.line m'.stack.depth bound
    rw [hm.depth_eq] at hcall
    obtain ⟨o, ho, hrun⟩ := hcall m m' hm hends
    rw [← hm.depth_eq] at hrun
    exact ⟨o, ho, hrun⟩

/-! #### Statements -/

omit ih in
/-- A return returns, if it ends. -/
theorem returns {n : Node} (hn : n.kind = .ret) (m m' : Machine) : Rover.runStatement fuel n m ≠ .done none m' := by
  obtain ⟨k, l, t, v, cs⟩ := n
  cases hn
  cases fuel with
  | zero => nofun
  | succ fuel =>
      intro h
      cases cs with
      | nil => cases h
      | cons e cs =>
          obtain ⟨x, n, -, h⟩ := Eval.done_of_bind (m := { m with line := l }) h
          cases h

theorem runBlock_step {ns ns' : List Node} (hns : VariantBlock ns ns') :
    MatchedBy (Rover.runBlock (fuel + 1) ns) (Rover.runBlock · ns') := by
  have hfuel := ih fuel le_rfl
  refine .shift 1 ?_
  cases hns with
  | nil => exact .pure none
  | cons hn hns => exact (hfuel.runStatement hn).next (hfuel.runBlock hns)
  | ret ns ns' hret hn => exact (hfuel.runStatement hn).next_of_returns (returns hret) _

theorem runLoop_step {c c' : Node} {ns ns' : List Node} (hc : Variant .expression c c') (hns : VariantBlock ns ns') :
    MatchedBy (Rover.runLoop (fuel + 1) c ns) (Rover.runLoop · c' ns') := by
  have hfuel := ih fuel le_rfl
  refine .shift 1 ((hfuel.evaluate hc).test fun v b => ?_)
  cases b with
  | true => exact (hfuel.runBlock hns).next (hfuel.runLoop hc hns)
  | false => exact .pure none

theorem writeNode_matched {n n' : Node} (hn : Variant .expression n n') :
    MatchedBy (writeNode fuel n) fun fuel => writeNode fuel n' := by
  have hsilent (text : String) : MatchedBy (Eval.emit (.wrote text) >>= fun _ => pure (none : Option Value))
      fun _ => Eval.emit (.wrote text) >>= fun _ => pure none :=
    (MatchedBy.write text).bind fun _ => .pure none
  have hvalue : MatchedBy (Rover.evaluate fuel n >>= fun v => Eval.emit (.wrote v.text) >>= fun _ => pure none)
      fun fuel => Rover.evaluate fuel n' >>= fun v => Eval.emit (.wrote v.text) >>= fun _ => pure none :=
    ((ih fuel le_rfl).evaluate hn).bind fun v => hsilent v.text
  cases hn with
  | node =>
      unfold writeNode
      dsimp only
      split
      · exact hsilent _
      · exact hvalue
  | disjunction => exact hvalue
  | conjunction => exact hvalue

/-- A last statement, on the side of the variant. -/
theorem runBlock_append_right {f : Nat} (hf : f ≤ fuel) {ns ns' : List Node} (hns : VariantBlock ns ns')
    {x : Eval (Option Value)} {last : Node} (hx : MatchedBy x (Rover.runStatement · last)) :
    MatchedBy ((Rover.runBlock f ns).next x) (Rover.runBlock · (ns' ++ [last])) := by
  -- The fuel of the one run goes down with every statement, while `x` stays what it is.
  induction ns generalizing f ns' with
  | nil =>
      cases f with
      | zero => exact .of_unfinished fun _ => rfl
      | succ f =>
          cases hns
          have hlast := hx.next (.shift 1 (.pure none) : MatchedBy (pure none) (Rover.runBlock · []))
          rw [Eval.next_pure] at hlast
          exact .shift 1 hlast
  | cons n ns ihn =>
      cases f with
      | zero => exact .of_unfinished fun _ => rfl
      | succ f =>
          have hle : f ≤ fuel := Nat.le_of_succ_le hf
          refine .shift 1 ?_
          change MatchedBy (((Rover.runStatement f n).next (Rover.runBlock f ns)).next x) _
          rw [Eval.next_assoc]
          cases hns with
          | cons hn hns => exact ((ih f hle).runStatement hn).next (ihn hle hns)
          | ret _ ns' hret hn => exact ((ih f hle).runStatement hn).next_of_returns (returns hret) _

/-- A last statement, on the other side. -/
theorem runBlock_append_left {f : Nat} (hf : f ≤ fuel) {ns ns' : List Node} (hns : VariantBlock ns ns')
    {last : Node} {x' : Nat → Eval (Option Value)} (hx : ∀ g ≤ fuel, MatchedBy (Rover.runStatement g last) x') :
    MatchedBy (Rover.runBlock f (ns ++ [last])) fun k => (Rover.runBlock k ns').next (x' k) := by
  -- How much fuel is left for the last statement depends on the statements before it, so `hx` is for all of it.
  induction ns generalizing f ns' x' with
  | nil =>
      cases f with
      | zero => exact .of_unfinished fun _ => rfl
      | succ f =>
          have hle : f ≤ fuel := Nat.le_of_succ_le hf
          cases hns
          have hend : MatchedBy (Rover.runBlock f []) fun _ => pure none := by
            cases f with
            | zero => exact .of_unfinished fun _ => rfl
            | succ f => exact .pure none
          have hlast := ((hx f hle).later 1).next hend
          simp only [Eval.next_pure] at hlast
          exact .shift 1 hlast
  | cons n ns ihn =>
      cases f with
      | zero => exact .of_unfinished fun _ => rfl
      | succ f =>
          have hle : f ≤ fuel := Nat.le_of_succ_le hf
          refine .shift 1 ?_
          cases hns with
          | @cons _ n' _ ns' hn hns =>
              change MatchedBy _ fun k => ((Rover.runStatement k n').next (Rover.runBlock k ns')).next (x' (k + 1))
              simp only [Eval.next_assoc]
              exact ((ih f hle).runStatement hn).next (ihn hle hns fun g hg => (hx g hg).later 1)
          | @ret _ n' _ ns' hret hn =>
              change MatchedBy _ fun k => ((Rover.runStatement k n').next (Rover.runBlock k ns')).next (x' (k + 1))
              simp only [Eval.next_assoc]
              exact ((ih f hle).runStatement hn).next_of_returns (returns hret) _

/-- A loop, and the loop unrolled once. -/
theorem unroll_matched {l l' i i' : Int} {c c₁ c₂ b b₁ b₂ : Node} (hc₁ : Variant .expression c c₁)
    (hc₂ : Variant .expression c c₂) (hb₁ : Variant .block b b₁) (hb₂ : Variant .block b b₂) :
    MatchedBy (Rover.runStatement (fuel + 1) (.branch .whileDo l [c, b]))
      (Rover.runStatement ·
        (.branch .ifElse l' [c₁, .branch .block i (b₁.children ++ [.branch .whileDo i' [c₂, b₂]])])) := by
  cases fuel with
  | zero => exact .of_unfinished fun _ => rfl
  | succ fuel =>
      have hle : fuel ≤ fuel + 1 := Nat.le_succ fuel
      have hfuel := ih fuel hle
      -- After its first round the loop is matched by the loop that ends the unrolled block.
      have hloop : MatchedBy (Rover.runLoop fuel c b.children) (Rover.runStatement · (.branch .whileDo i' [c₂, b₂])) :=
        .shift 1 ((hfuel.runLoop hc₂ hb₂.statements).setLine_right i')
      refine .shift 1 ((MatchedBy.setLine l l').bind fun _ => ?_)
      refine (hfuel.evaluate hc₁).test fun v t => ?_
      cases t with
      | true => exact runBlock_append_right ih hle hb₁.statements hloop
      | false => exact .pure none

theorem roll_matched {l l' i i' : Int} {c c₁ c₂ b b₁ b₂ : Node} (hc₁ : Variant .expression c₁ c)
    (hc₂ : Variant .expression c₂ c) (hb₁ : Variant .block b₁ b) (hb₂ : Variant .block b₂ b) :
    MatchedBy
      (Rover.runStatement (fuel + 1)
        (.branch .ifElse l' [c₁, .branch .block i (b₁.children ++ [.branch .whileDo i' [c₂, b₂]])]))
      (Rover.runStatement · (.branch .whileDo l [c, b])) := by
  have hloop (g : Nat) (hg : g ≤ fuel) :
      MatchedBy (Rover.runStatement g (.branch .whileDo i' [c₂, b₂])) (Rover.runLoop · c b.children) := by
    cases g with
    | zero => exact .of_unfinished fun _ => rfl
    | succ g => exact ((ih g (Nat.le_of_succ_le hg)).runLoop hc₂ hb₂.statements).setLine_left i'
  refine .shift 2 ((MatchedBy.setLine l' l).bind fun _ => ?_)
  refine ((ih fuel le_rfl).evaluate hc₁).test fun v t => ?_
  cases t with
  | true => exact runBlock_append_left ih le_rfl hb₁.statements hloop
  | false => exact .pure none

theorem ifElse_matched {l l' : Int} {t : String} {v : Option Value} {c c' : Node} {bs bs' : List Node}
    (hc : Variant .expression c c') (hbs : List.Forall₂ (Variant .block) bs bs') :
    MatchedBy (Rover.runStatement (fuel + 1) ⟨.ifElse, l, t, v, c :: bs⟩)
      (Rover.runStatement · ⟨.ifElse, l', t, v, c' :: bs'⟩) := by
  have hfuel := ih fuel le_rfl
  refine .shift 1 ((MatchedBy.setLine l l').bind fun _ => ?_)
  refine (hfuel.evaluate hc).test fun v b => ?_
  cases b with
  | true =>
      cases hbs with
      | nil => exact .fail .missingPart
      | cons hb _ => exact hfuel.runBlock hb.statements
  | false =>
      cases hbs with
      | nil => exact .pure none
      | cons _ hbs =>
          cases hbs with
          | nil => exact .pure none
          | cons hb hbs =>
              cases hbs with
              | nil => exact hfuel.runBlock hb.statements
              | cons => exact .pure none

/-- A statement with the children of a variant. -/
theorem runStatement_node {k : Kind} {l l' : Int} {t : String} {v : Option Value} {cs cs' : List Node}
    (hall : VariantAll (Position.child .statement k) cs cs') :
    MatchedBy (Rover.runStatement (fuel + 1) ⟨k, l, t, v, cs⟩) (Rover.runStatement · ⟨k, l', t, v, cs'⟩) := by
  have hfuel := ih fuel le_rfl
  have hline := MatchedBy.setLine l l'
  -- A statement that lacks a part fails for it on both sides.
  have hdefect {cs cs' : List Node} {c : Cause} (h : statementDefect? k cs = some c) (h' : statementDefect? k cs' = some c) :
      MatchedBy (Rover.runStatement (fuel + 1) ⟨k, l, t, v, cs⟩) (Rover.runStatement · ⟨k, l', t, v, cs'⟩) := by
    refine .shift 1 ?_
    simp only [runStatement_defect h, runStatement_defect h']
    exact hline.bind fun _ => .fail c
  cases k with
  | assign =>
      cases hall with
      | nil => exact hdefect rfl rfl
      | cons htarget hrest =>
          cases hrest with
          | nil => exact hdefect rfl rfl
          | cons he _ =>
              refine .shift 1 (hline.bind fun _ => (hfuel.evaluate he).bind fun x => ?_)
              rw [htarget.text_eq]
              exact (MatchedBy.assign _ x).bind fun _ => .pure none
  | ifElse =>
      cases hall with
      | nil => exact hdefect rfl rfl
      | cons hc hbs => exact ifElse_matched ih hc (hbs.forall₂ fun _ => rfl)
  | whileDo =>
      cases hall with
      | nil => exact hdefect rfl rfl
      | cons hc hrest =>
          cases hrest with
          | nil => exact hdefect rfl rfl
          | cons hb hrest =>
              cases hrest with
              | nil => exact .shift 1 (hline.bind fun _ => hfuel.runLoop hc hb.statements)
              | cons _ hrest =>
                  refine hdefect rfl ?_
                  simp only [statementDefect?, List.length_cons, hrest.length_eq]
  | ret =>
      cases hall with
      | nil => exact .shift 1 (hline.bind fun _ => .pure (some Value.void))
      | cons he _ => exact .shift 1 (hline.bind fun _ => (hfuel.evaluate he).bind fun x => .pure (some x))
  | read =>
      refine .shift 1 (hline.bind fun _ => MatchedBy.nextToken.bind fun token => ?_)
      refine (MatchedBy.ofExcept (Value.ofToken token)).bind fun v => ?_
      cases hall with
      | nil => exact .fail .missingPart
      | cons htarget _ =>
          dsimp only
          rw [htarget.text_eq]
          exact (MatchedBy.assign _ _).bind fun _ => .pure none
  | write =>
      cases hall with
      | nil => exact hdefect rfl rfl
      | cons he _ =>
          refine .shift 1 ?_
          simp only [runStatement_write]
          exact hline.bind fun _ => writeNode_matched ih he
  | call =>
      cases hall with
      | nil => exact hdefect rfl rfl
      | cons hcallee hrest =>
          cases hrest with
          | nil => exact hdefect rfl rfl
          | cons harguments _ =>
              refine .shift 1 ?_
              simp only [runStatement_call, hcallee.text_eq]
              exact hline.bind fun _ => (hfuel.invoke _ harguments.expressions).bind fun _ => .pure none
  | _ => exact hdefect rfl rfl

theorem runStatement_step {n n' : Node} (hn : Variant .statement n n') :
    MatchedBy (Rover.runStatement (fuel + 1) n) (Rover.runStatement · n') := by
  cases hn with
  | node hall => exact runStatement_node ih hall
  | unroll hc₁ hc₂ hb₁ hb₂ => exact unroll_matched ih hc₁ hc₂ hb₁ hb₂
  | roll hc₁ hc₂ hb₁ hb₂ => exact roll_matched ih hc₁ hc₂ hb₁ hb₂

end Step

/-- The induction over the evaluator, on the fuel of the one run. -/
theorem all (fuel : Nat) : RunsMatched fuel := by
  induction fuel using Nat.strong_induction_on with
  | h fuel ih =>
      cases fuel with
      | zero => exact zero
      | succ fuel =>
          have ih (f : Nat) (hf : f ≤ fuel) : RunsMatched f := ih f (Nat.lt_succ_of_le hf)
          exact ⟨evaluate_step ih, evaluateNode_step ih, invoke_step ih, evaluateArguments_step ih, invokeFunction_step ih,
            bindArguments_step ih, runBlock_step ih, runStatement_step ih, runLoop_step ih⟩

end RunsMatched

theorem run_matched (fuel : Nat) (entry : String) : MatchedBy (Machine.run fuel entry) (Machine.run · entry) := by
  intro m m' hm hends
  obtain ⟨p, p', hp, hp', -⟩ := hm.program
  have hinvoke := (RunsMatched.all fuel).invoke entry .nil m m' hm
  simp only [Machine.run, Machine.call, hp, hp'] at hends ⊢
  generalize invoke fuel entry [] m = o at hends hinvoke ⊢
  obtain ⟨o', ho, hrun⟩ := hinvoke fun h => hends (by rw [h])
  dsimp only at hrun
  cases ho with
  | unfinished => exact absurd rfl hends
  | failed h =>
      refine ⟨_, .failed ⟨?_, h.2⟩, hrun.mono fun _ h => by rw [h]⟩
      rw [cause_locate, cause_locate, h.1]
  | done h => exact ⟨_, .done h, hrun.mono fun _ h => by rw [h]⟩

end Rover
