import Rover.Proofs.Simulation

/-!
# Whole runs side by side

If the primitive steps of two runs correspond, so do the runs: `follows_runs`. The two runs need not be of the same tree, so
this is the induction over the evaluator for nodes that correspond; an invariant of a single run is the case of a machine that
corresponds to itself.
-/

namespace Rover

namespace Simulation

variable {W : Type} (S : Simulation W)

/-- With this fuel the functions of the evaluator, applied to what corresponds, follow each other. -/
structure Runs (fuel : Nat) : Prop where
  evaluate {w : W} {n n' : Node} : S.expression w n n' →
    S.Follows w S.sameValue (Rover.evaluate fuel n) (Rover.evaluate fuel n')
  evaluateNode {w : W} {n n' : Node} : S.expression w n n' →
    S.Follows w S.sameValue (Rover.evaluateNode fuel n) (Rover.evaluateNode fuel n')
  invoke {w : W} {ns ns' : List Node} (name : String) : S.expressions w ns ns' →
    S.Follows w S.sameResult (Rover.invoke fuel name ns) (Rover.invoke fuel name ns')
  evaluateArguments {w : W} {ns ns' : List Node} (types : List ArgumentType) : S.expressions w ns ns' →
    S.Follows w same (Rover.evaluateArguments fuel types ns) (Rover.evaluateArguments fuel types ns')
  invokeFunction {w : W} {f f' : Function} {ns ns' : List Node} : S.function f f' → S.expressions w ns ns' →
    S.Follows w S.sameResult (Rover.invokeFunction fuel f ns) (Rover.invokeFunction fuel f' ns')
  bindArguments {w : W} {f : Function} {ps ps' : List Param} {ns ns' : List Node} : List.Forall₂ (S.param f) ps ps' →
    S.expressions w ns ns' →
    S.Follows w (S.bound f) (Rover.bindArguments fuel ps ns) (Rover.bindArguments fuel ps' ns')
  runBlock {w : W} {ns ns' : List Node} : List.Forall₂ (S.statement w) ns ns' →
    S.Follows w S.sameReturn (Rover.runBlock fuel ns) (Rover.runBlock fuel ns')
  runStatement {w : W} {n n' : Node} : S.statement w n n' →
    S.Follows w S.sameReturn (Rover.runStatement fuel n) (Rover.runStatement fuel n')
  runLoop {w : W} {c c' : Node} {ns ns' : List Node} : S.expression w c c' → List.Forall₂ (S.statement w) ns ns' →
    S.Follows w S.sameReturn (Rover.runLoop fuel c ns) (Rover.runLoop fuel c' ns')

theorem ExpressionForm.kind_eq {w : W} {n n' : Node} (h : S.ExpressionForm w n n') : n'.kind = n.kind := by
  cases h <;> rfl

theorem ExpressionForm.name_of_id {w : W} {n n' : Node} (h : S.ExpressionForm w n n') (hid : n.kind = .id) :
    S.name w n.text n'.text := by
  cases h with
  | id hname => exact hname
  | literal hk => cases hid; cases hk
  | call => cases hid
  | callDefect => cases hid
  | unary hk => cases hid; cases hk
  | binary hk => cases hid; cases hk
  | operandDefect hk => cases hid; cases hk

theorem ExpressionForm.value_eq {w : W} {n n' : Node} (h : S.ExpressionForm w n n') (hk : n.kind.isLiteral = true) :
    n'.value = n.value := by
  cases h with
  | id => cases hk
  | literal => rfl
  | call => cases hk
  | callDefect => cases hk
  | unary hop => simp [Kind.isOperator, hk] at hop
  | binary hop => simp [Kind.isOperator, hk] at hop
  | operandDefect hop => simp [Kind.isOperator, hk] at hop

namespace Lawful

section Step

variable {S} (hS : S.Lawful) {fuel : Nat} (ih : S.Runs fuel) {w : W}

include hS ih

theorem evaluate_step {n n' : Node} (hn : S.expression w n n') :
    S.Follows w S.sameValue (evaluate (fuel + 1) n) (evaluate (fuel + 1) n') := by
  rw [evaluate, evaluate]
  exact hS.atLine (hS.expression_line hn) (ih.evaluateNode hn)

/-- An operand that has to be a truth value. -/
theorem test {β β' : Type} {B : W → β → β' → Prop} {n n' : Node} {f : Value → Bool → Eval β} {f' : Value → Bool → Eval β'}
    (hn : S.expression w n n') (hf : ∀ w₁ v b, S.later w w₁ → S.value v → S.Follows w₁ B (f v b) (f' v b)) :
    S.Follows w B (evaluate fuel n >>= fun v => Eval.ofExcept id v.asBoolean >>= f v)
      (evaluate fuel n' >>= fun v => Eval.ofExcept id v.asBoolean >>= f' v) := by
  refine hS.bind (ih.evaluate hn) fun w₁ v v' hw₁ hv => ?_
  obtain ⟨rfl, hv⟩ := hv
  exact hS.ofExcept_bind (fun _ => hS.asBoolean_cause) fun b _ => hf w₁ v' b hw₁ hv

theorem truth {n n' : Node} (hn : S.expression w n n') :
    S.Follows w S.sameValue
      (evaluate fuel n >>= fun v => Eval.ofExcept id v.asBoolean >>= fun b => Pure.pure (Value.boolean b))
      (evaluate fuel n' >>= fun v => Eval.ofExcept id v.asBoolean >>= fun b => Pure.pure (Value.boolean b)) :=
  hS.test ih hn fun _ _ b _ _ => hS.pure ⟨rfl, hS.value_boolean b⟩

theorem operation_binary {k : Kind} {a a' b b' : Node} {cs cs' : List Node} (ha : S.expression w a a')
    (hb : S.expression w b b') (hk : k ≠ .and → k ≠ .or → ∀ x y c, binaryValue k x y = .error c → S.cause c) :
    S.Follows w S.sameValue (operation fuel k (a :: b :: cs)) (operation fuel k (a' :: b' :: cs')) := by
  unfold operation
  dsimp only
  split
  · refine hS.test ih ha fun w₁ v c hw₁ hv => ?_
    split_ifs
    · exact hS.truth ih (hS.expression_later hw₁ hb)
    · exact hS.pure ⟨rfl, hv⟩
  · refine hS.test ih ha fun w₁ v c hw₁ hv => ?_
    split_ifs
    · exact hS.pure ⟨rfl, hv⟩
    · exact hS.truth ih (hS.expression_later hw₁ hb)
  · rename_i hand hor
    refine hS.bind (ih.evaluate ha) fun w₁ x x' hw₁ hx => ?_
    obtain ⟨rfl, hx⟩ := hx
    refine hS.bind (ih.evaluate (hS.expression_later hw₁ hb)) fun w₂ y y' hw₂ hy => ?_
    obtain ⟨rfl, -⟩ := hy
    exact hS.ofExcept (hk hand hor _ _) fun v hv => ⟨rfl, hS.value_binary hv⟩

theorem evaluateNode_step {n n' : Node} (hn : S.expression w n n') :
    S.Follows w S.sameValue (evaluateNode (fuel + 1) n) (evaluateNode (fuel + 1) n') := by
  cases hS.expression_form hn with
  | id hname => exact hS.variableValue hname
  | @literal k _ _ _ _ v _ _ hk hvalue hnone =>
      rw [evaluateNode_literal hk, evaluateNode_literal hk]
      cases v with
      | none => exact hS.fail (hnone rfl)
      | some x => exact hS.pure ⟨rfl, hvalue x rfl⟩
  | call hcallee harguments =>
      rw [evaluateNode_call, evaluateNode_call, hcallee]
      refine hS.bind (ih.invoke _ harguments) fun w₁ v v' _ hv => ?_
      obtain ⟨rfl, hvoid | hv⟩ := hv
      · subst hvoid
        exact hS.fail (hS.ordinary rfl nofun)
      · split_ifs
        · exact hS.fail (hS.ordinary rfl nofun)
        · exact hS.pure ⟨rfl, hv⟩
  | callDefect hcs hcs' hcause =>
      rw [evaluateNode_callDefect hcs, evaluateNode_callDefect hcs']
      exact hS.fail hcause
  | unary hk ha hcause =>
      rw [evaluateNode_operator hk, evaluateNode_operator hk]
      refine hS.bind (ih.evaluate ha) fun w₁ x x' _ hx => ?_
      obtain ⟨rfl, hx⟩ := hx
      exact hS.ofExcept (hcause x') fun y hy => ⟨rfl, hS.value_unary hx hy⟩
  | binary hk ha hb hcause =>
      rw [evaluateNode_operator hk, evaluateNode_operator hk]
      exact hS.operation_binary ih ha hb hcause
  | operandDefect hk hcause =>
      rw [evaluateNode_operator hk, evaluateNode_operator hk]
      exact hS.fail hcause

theorem invoke_step {ns ns' : List Node} (name : String) (hns : S.expressions w ns ns') :
    S.Follows w S.sameResult (invoke (fuel + 1) name ns) (invoke (fuel + 1) name ns') := by
  unfold invoke
  split
  · rename_i b _
    rw [← hns.length_eq]
    refine hS.bind (hS.precheck b _) fun w₁ _ _ hw₁ _ => ?_
    refine hS.bind (ih.evaluateArguments _ (hS.expressions_later hw₁ hns)) fun w₂ values values' _ hvalues => ?_
    cases hvalues
    exact hS.perform fuel b values
  · refine hS.bind (hS.lookup w name) fun w₁ f f' hw₁ hf => ?_
    exact ih.invokeFunction hf (hS.expressions_later hw₁ hns)

theorem evaluateArguments_step {ns ns' : List Node} (types : List ArgumentType) (hns : S.expressions w ns ns') :
    S.Follows w same (evaluateArguments (fuel + 1) types ns) (evaluateArguments (fuel + 1) types ns') := by
  cases types with
  | nil => exact hS.pure rfl
  | cons t types =>
      cases hns with
      | nil => exact hS.pure rfl
      | cons hn hns =>
          refine hS.bind (ih.evaluate hn) fun w₁ v v' hw₁ hv => ?_
          obtain ⟨rfl, -⟩ := hv
          refine hS.ofExcept_bind (fun _ => hS.check_cause) fun u _ => ?_
          refine hS.bind (ih.evaluateArguments types (hS.expressions_later hw₁ hns)) fun _ us us' _ hus => ?_
          exact hS.pure (congrArg (u :: ·) hus)

theorem argumentCell_follows {p p' : Param} {n n' : Node} (hp : p'.byRef = p.byRef) (hn : S.expression w n n') :
    S.Follows w S.cell (argumentCell fuel p n) (argumentCell fuel p' n') := by
  have hform := hS.expression_form hn
  unfold argumentCell
  rw [hp, hform.kind_eq]
  split_ifs with href hid
  · exact hS.variableCell (hform.name_of_id S hid)
  · exact hS.fail (hS.ordinary rfl nofun)
  · refine hS.bind (ih.evaluate hn) fun w₁ v v' _ hv => ?_
    obtain ⟨rfl, hv⟩ := hv
    exact hS.alloc hv

theorem bindArguments_step {f : Function} {ps ps' : List Param} {ns ns' : List Node}
    (hps : List.Forall₂ (S.param f) ps ps') (hns : S.expressions w ns ns') :
    S.Follows w (S.bound f) (bindArguments (fuel + 1) ps ns) (bindArguments (fuel + 1) ps' ns') := by
  cases hps with
  | nil => exact hS.pure .nil
  | @cons p p' ps ps' hp hps =>
      cases hns with
      | nil => exact hS.pure .nil
      | @cons n n' ns ns' hn hns =>
          rw [bindArguments_cons, bindArguments_cons]
          refine hS.bind (hS.moveTo (hS.expression_line hn)) fun w₁ _ _ hw₁ _ => ?_
          refine hS.bind (hS.argumentCell_follows ih (hS.param_byRef hp) (hS.expression_later hw₁ hn))
            fun w₂ c c' hw₂ hc => ?_
          have hns := hS.expressions_later hw₂ (hS.expressions_later hw₁ hns)
          refine hS.bind (ih.bindArguments hps hns) fun w₃ rest rest' hw₃ hrest => ?_
          exact hS.pure (.cons ⟨hp, hS.cell_later hw₃ hc⟩ hrest)

theorem callWith_follows {f f' : Function} {l l' : Int} {bound bound' : List (Param × Cell)} (depth : Nat)
    (hf : S.function f f') (hl : S.line l l') (hbound : S.bound f w bound bound') :
    S.Follows w S.sameResult (callWith fuel f l depth bound) (callWith fuel f' l' depth bound') := by
  intro m m' hm
  have hcall := hS.tellCall depth hm hf hl hbound
  have hoverflow : S.cause .stackOverflow := hS.ordinary rfl nofun
  rw [callWith_eq, callWith_eq, hS.machine_options hm, ← (hS.function_params hf).length_eq]
  split_ifs
  · obtain ⟨w₁, henter, hblock, hbound₁, hleave⟩ := hS.enter hcall hf hl hbound
    have hrun := ih.runBlock hblock _ _ henter
    generalize runBlock fuel f.body.children _ = o at hrun ⊢
    generalize runBlock fuel f'.body.children _ = o' at hrun ⊢
    cases hrun with
    | unfinished => exact .unfinished
    | failed h =>
        obtain ⟨w₂, he, hw₂, hn⟩ := h
        obtain ⟨w₃, hw₃, hn₃⟩ := hleave w₂ _ _ hw₂ hn
        exact .failed ⟨w₃, hS.report hn he w₃, hw₃, hn₃⟩
    | @done r r' n n' h =>
        obtain ⟨w₂, hw₂, hn, rfl, hr⟩ := h
        have hvalue : r'.getD .void = .void ∨ S.value (r'.getD .void) := by
          cases r' with
          | none => exact .inl rfl
          | some v => exact hr v rfl
        have hreturn := hS.tellReturn depth hn hf hvalue (hS.bound_later hw₂ hbound₁)
        obtain ⟨w₃, hw₃, hn₃⟩ := hleave w₂ _ _ hw₂ hreturn
        exact .done ⟨w₃, hw₃, hS.setLine hn₃ hl, rfl, hvalue⟩
  · exact .failed ⟨w, hoverflow w, hS.refl w, hcall⟩
  · exact .failed ⟨w, hoverflow w, hS.refl w, hm⟩

theorem invokeFunction_step {f f' : Function} {ns ns' : List Node} (hf : S.function f f')
    (hns : S.expressions w ns ns') :
    S.Follows w S.sameResult (invokeFunction (fuel + 1) f ns) (invokeFunction (fuel + 1) f' ns') := by
  have hparams := hS.function_params hf
  rw [invokeFunction_eq, invokeFunction_eq, ← hparams.length_eq, ← hns.length_eq, hS.function_name hf]
  refine hS.guard (hS.ordinary rfl nofun) ?_
  refine hS.bind hS.site fun w₁ site site' hw₁ hsite => ?_
  obtain ⟨hl, hdepth⟩ := hsite
  refine hS.bind (ih.bindArguments hparams (hS.expressions_later hw₁ hns)) fun w₂ bound bound' _ hbound => ?_
  rw [hdepth]
  exact hS.callWith_follows ih site.2 hf hl hbound

theorem runBlock_step {ns ns' : List Node} (hns : List.Forall₂ (S.statement w) ns ns') :
    S.Follows w S.sameReturn (runBlock (fuel + 1) ns) (runBlock (fuel + 1) ns') := by
  cases hns with
  | nil => exact hS.pure ⟨rfl, nofun⟩
  | cons hn hns =>
      rw [runBlock, runBlock]
      refine hS.bind (ih.runStatement hn) fun w₁ r r' hw₁ hr => ?_
      obtain ⟨rfl, hr⟩ := hr
      cases r' with
      | some v => exact hS.pure ⟨rfl, hr⟩
      | none => exact ih.runBlock (hS.statements_later hw₁ hns)

theorem runLoop_step {c c' : Node} {ns ns' : List Node} (hc : S.expression w c c')
    (hns : List.Forall₂ (S.statement w) ns ns') :
    S.Follows w S.sameReturn (runLoop (fuel + 1) c ns) (runLoop (fuel + 1) c' ns') := by
  rw [runLoop, runLoop]
  refine hS.test ih hc fun w₁ v b hw₁ _ => ?_
  split_ifs
  · refine hS.bind (ih.runBlock (hS.statements_later hw₁ hns)) fun w₂ r r' hw₂ hr => ?_
    obtain ⟨rfl, hr⟩ := hr
    have hlater := hS.trans hw₁ hw₂
    cases r' with
    | some v => exact hS.pure ⟨rfl, hr⟩
    | none => exact ih.runLoop (hS.expression_later hlater hc) (hS.statements_later hlater hns)
  · exact hS.pure ⟨rfl, nofun⟩

theorem write_follows {n n' : Node} (hn : S.expression w n n') :
    S.Follows w S.sameReturn (writeNode fuel n) (writeNode fuel n') := by
  have hform := hS.expression_form hn
  have hgeneral : S.Follows w S.sameReturn
      (evaluate fuel n >>= fun v => Eval.emit (.wrote v.text) >>= fun _ => Pure.pure none)
      (evaluate fuel n' >>= fun v => Eval.emit (.wrote v.text) >>= fun _ => Pure.pure none) := by
    refine hS.bind (ih.evaluate hn) fun w₁ v v' _ hv => ?_
    obtain ⟨rfl, -⟩ := hv
    exact hS.silent (hS.write v'.text)
  unfold writeNode
  rw [hform.kind_eq]
  cases hkind : n.kind with
  | string =>
      rw [hform.value_eq S (by rw [hkind]; rfl)]
      cases n.value with
      | none => exact hgeneral
      | some v => exact hS.silent (hS.write v.text)
  | _ => exact hgeneral

theorem runBranch_follows (b : Bool) {bs bs' : List Node} (hbs : List.Forall₂ (S.block w) bs bs')
    (hnone : bs = [] → S.cause .missingPart) :
    S.Follows w S.sameReturn (runBranch fuel b bs) (runBranch fuel b bs') := by
  have hskip : S.Follows w S.sameReturn (Pure.pure none) (Pure.pure none) := hS.pure ⟨rfl, by simp⟩
  cases b with
  | true =>
      cases hbs with
      | nil => exact hS.fail (hnone rfl)
      | cons hb _ => exact ih.runBlock hb
  | false =>
      rcases hbs with _ | ⟨_, _ | ⟨hb, _ | _⟩⟩
      · exact hskip
      · exact hskip
      · exact ih.runBlock hb
      · exact hskip

theorem runStatement_step {n n' : Node} (hn : S.statement w n n') :
    S.Follows w S.sameReturn (runStatement (fuel + 1) n) (runStatement (fuel + 1) n') := by
  have hline := hS.statement_line hn
  cases hS.statement_form hn with
  | assign htarget he =>
      rw [runStatement_assign, runStatement_assign]
      refine hS.bind (hS.moveTo hline) fun w₁ _ _ hw₁ _ => ?_
      refine hS.bind (ih.evaluate (hS.expression_later hw₁ he)) fun w₂ v v' hw₂ hv => ?_
      obtain ⟨rfl, hv⟩ := hv
      exact hS.silent (hS.assign (hS.target_later (hS.trans hw₁ hw₂) htarget) hv)
  | ifElse hc hbs hnone =>
      rw [runStatement_ifElse, runStatement_ifElse]
      refine hS.bind (hS.moveTo hline) fun w₁ _ _ hw₁ _ => ?_
      refine hS.test ih (hS.expression_later hw₁ hc) fun w₂ v b hw₂ _ => ?_
      exact hS.runBranch_follows ih b (hbs.imp fun _ _ => hS.statements_later (hS.trans hw₁ hw₂)) hnone
  | whileDo hc hb =>
      rw [runStatement_whileDo, runStatement_whileDo]
      refine hS.bind (hS.moveTo hline) fun w₁ _ _ hw₁ _ => ?_
      exact ih.runLoop (hS.expression_later hw₁ hc) (hS.statements_later hw₁ hb)
  | retVoid => exact hS.bind (hS.moveTo hline) fun w₁ _ _ _ _ => hS.pure ⟨rfl, by simp⟩
  | ret he =>
      rw [runStatement_ret, runStatement_ret]
      refine hS.bind (hS.moveTo hline) fun w₁ _ _ hw₁ _ => ?_
      refine hS.bind (ih.evaluate (hS.expression_later hw₁ he)) fun w₂ v v' hw₂ hv => ?_
      obtain ⟨rfl, hv⟩ := hv
      exact hS.pure ⟨rfl, by simpa using .inr hv⟩
  | read htarget =>
      rw [runStatement_read, runStatement_read]
      refine hS.bind (hS.moveTo hline) fun w₁ _ _ hw₁ _ => ?_
      refine hS.bind (hS.nextToken w₁) fun w₂ token token' hw₂ htoken => ?_
      cases htoken
      refine hS.ofExcept_bind (fun _ _ => hS.ordinary rfl nofun) fun v hv => ?_
      exact hS.silent (hS.assign (hS.target_later (hS.trans hw₁ hw₂) htarget) (hS.value_ofToken hv))
  | readDefect hcause =>
      rw [runStatement_read, runStatement_read]
      refine hS.bind (hS.moveTo hline) fun w₁ _ _ hw₁ _ => ?_
      refine hS.bind (hS.nextToken w₁) fun w₂ token token' _ htoken => ?_
      cases htoken
      exact hS.ofExcept_bind (fun _ _ => hS.ordinary rfl nofun) fun _ _ => hS.fail hcause
  | write he =>
      rw [runStatement_write, runStatement_write]
      exact hS.bind (hS.moveTo hline) fun w₁ _ _ hw₁ _ => hS.write_follows ih (hS.expression_later hw₁ he)
  | call hcallee harguments =>
      rw [runStatement_call, runStatement_call, hcallee]
      refine hS.bind (hS.moveTo hline) fun w₁ _ _ hw₁ _ => ?_
      exact hS.silent (ih.invoke _ (hS.expressions_later hw₁ harguments))
  | defect hdefect hdefect' hcause =>
      rw [runStatement_defect hdefect, runStatement_defect hdefect']
      exact hS.bind (hS.moveTo hline) fun w₁ _ _ _ _ => hS.fail hcause

end Step

theorem runs_zero (S : Simulation W) : S.Runs 0 :=
  ⟨fun _ _ _ _ => .unfinished, fun _ _ _ _ => .unfinished, fun _ _ _ _ _ => .unfinished,
    fun _ _ _ _ _ => .unfinished, fun _ _ _ _ _ => .unfinished, fun _ _ _ _ _ => .unfinished,
    fun _ _ _ _ => .unfinished, fun _ _ _ _ => .unfinished, fun _ _ _ _ _ => .unfinished⟩

/-- The induction over the evaluator, on the fuel. -/
theorem follows_runs {S : Simulation W} (hS : S.Lawful) (fuel : Nat) : S.Runs fuel := by
  induction fuel with
  | zero => exact runs_zero S
  | succ fuel ih =>
      exact ⟨hS.evaluate_step ih, hS.evaluateNode_step ih, hS.invoke_step ih, hS.evaluateArguments_step ih,
        hS.invokeFunction_step ih, hS.bindArguments_step ih, hS.runBlock_step ih, hS.runStatement_step ih,
        hS.runLoop_step ih⟩

/-- Runs of the same entry end alike, and their faults are located alike. -/
theorem follows_run {S : Simulation W} (hS : S.Lawful) {w : W} {m m' : Machine} (h : S.machine w m m') {p p' : Program}
    (hp : m.program = some p) (hp' : m'.program = some p') (fuel : Nat) (entry : String) :
    Outcome.Alike (fun v v' n n' => ∃ w', S.later w w' ∧ S.machine w' n n' ∧ v' = v)
      (fun e e' n n' => ∃ w', S.fault w e e' ∧ S.later w w' ∧ S.machine w' n n')
      (Machine.run fuel entry m) (Machine.run fuel entry m') := by
  have hinvoke := (hS.follows_runs fuel).invoke entry .nil m m' h
  rw [Machine.run, Machine.call_of_program hp, Machine.call_of_program hp']
  generalize invoke fuel entry [] m = o at hinvoke ⊢
  generalize invoke fuel entry [] m' = o' at hinvoke ⊢
  cases hinvoke with
  | unfinished => exact .unfinished
  | done hdone =>
      obtain ⟨w', hw', hn, hv, -⟩ := hdone
      exact .done ⟨w', hw', hn, hv⟩
  | failed hfailed =>
      obtain ⟨w', he, hw', hn⟩ := hfailed
      exact .failed ⟨w', hS.locate hn he w, hw', hn⟩

end Lawful

end Simulation

end Rover
