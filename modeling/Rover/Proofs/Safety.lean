import Rover.Proofs.Cells
import Rover.Proofs.Grammar
import Rover.Proofs.Points
import Rover.Proofs.Range

/-!
# Programs that are read run safely

A program that has been read from a text fails only in the ways of the language: by a name that is not defined, by a wrong
number of arguments or a wrong type, by a division by zero, by a request to the robot, by reading beyond the input
(`run_fault_expected`). Whatever else the evaluator can fail with is ruled out by an invariant of the run: the nodes have
the shape of a program and their literals are known, a record is open wherever a node is evaluated, and the numbers of the
world are in range.
-/

namespace Rover

/-! ### Operators -/

theorem isOrdinary_operand (e : OperandError) : (Cause.operand e).isOrdinary = true := by cases e <;> rfl

theorem mapError_operand {α : Type} {r : Except OperandError α} {c : Cause}
    (h : r.mapError Cause.operand = .error c) : c.isOrdinary = true := by
  cases r with
  | ok a => cases h
  | error e =>
      cases h
      exact isOrdinary_operand e

theorem isOrdinary_unaryValue {k : Kind} (hk : k.isUnary = true) {x : Value} {c : Cause}
    (h : unaryValue k x = .error c) : c.isOrdinary = true := by
  unfold unaryValue at h
  split at h
  · split at h
    · cases h
    · cases h
      rfl
  · exact mapError_operand h
  · exact mapError_operand h
  · rename_i hadd hsub hnot
    unfold Kind.isUnary at hk
    split at hk
    · exact absurd rfl hnot
    · exact absurd rfl hadd
    · exact absurd rfl hsub
    · cases hk

theorem isOrdinary_arithmeticOperand {op : ArithmeticOp} {x : Value} {c : Cause}
    (h : arithmeticOperand op x = .error c) : c.isOrdinary = true := by
  unfold arithmeticOperand at h
  split at h <;> cases h <;> rfl

theorem isOrdinary_binaryValue {k : Kind} (hk : k.isBinary = true) (hand : k ≠ .and) (hor : k ≠ .or) {x y : Value}
    {c : Cause} (h : binaryValue k x y = .error c) : c.isOrdinary = true := by
  cases k with
  | relational op => exact mapError_operand h
  | arithmetic op =>
      unfold binaryValue at h
      dsimp only at h
      cases hx : arithmeticOperand op x with
      | error e =>
          rw [hx] at h
          cases h
          exact isOrdinary_arithmeticOperand hx
      | ok u =>
          cases hy : arithmeticOperand op y with
          | error e =>
              rw [hx, hy] at h
              cases h
              exact isOrdinary_arithmeticOperand hy
          | ok u =>
              rw [hx, hy] at h
              exact mapError_operand h
  | and => exact absurd rfl hand
  | or => exact absurd rfl hor
  | _ => cases hk

theorem isOperator_of_isUnary {k : Kind} (h : k.isUnary = true) : k.isOperator = true := by
  cases k with
  | arithmetic op => simp [Kind.isOperator, Kind.isLiteral]
  | not => rfl
  | _ => cases h

theorem isOperator_of_isBinary {k : Kind} (h : k.isBinary = true) : k.isOperator = true := by
  cases k with
  | arithmetic op => simp [Kind.isOperator, Kind.isLiteral]
  | relational op => simp [Kind.isOperator, Kind.isLiteral]
  | and => rfl
  | or => rfl
  | _ => cases h

theorem isOrdinary_world {err : WorldError} (h : err.isNumeric = false) : (Cause.world err).isOrdinary = true := by
  cases err with
  | squareOverflow => cases h
  | infiniteAngle => cases h
  | _ => rfl

/-! ### The invariant -/

namespace Invariant

/-- What is known is how many records are open. -/
def safe : Invariant Nat where
  holds d s v := s.depth = d ∧ v.InRange
  later := (· = ·)
  value _ := True
  cell _ _ := True
  reads d := 0 < d
  writes d := 0 < d
  cause c := c.isOrdinary = true
  function f := f.body.IsBlock ∧ f.body.Resolved
  expression d n := 0 < d ∧ n.IsExpression ∧ n.Resolved
  statement d n := 0 < d ∧ n.IsStatement ∧ n.Resolved

variable {p : Option Program} {d : Nat} {n : Node}

theorem expression_safe (h : safe.expression d n) : (safe.toSimulation p).ExpressionForm d n n := by
  obtain ⟨hd, hshape, hresolved⟩ := h
  obtain ⟨k, l, t, v, cs⟩ := n
  have hchild {a : Node} (hmem : a ∈ cs) (ha : a.IsExpression) : (safe.toSimulation p).expression d a a :=
    ⟨rfl, hd, ha, hresolved.children a hmem⟩
  cases hshape with
  | id hkind =>
      cases hkind
      exact .id ⟨rfl, hd⟩
  | literal hkind =>
      obtain ⟨x, hx, -⟩ := hresolved.constant hkind
      cases hx
      exact .literal hkind (fun _ _ => trivial) nofun
  | @unary _ a hkind hchildren ha =>
      cases hchildren
      refine .unary (isOperator_of_isUnary hkind) (hchild List.mem_cons_self ha) fun x c hc _ => ⟨rfl, ?_⟩
      exact isOrdinary_unaryValue hkind hc
  | @binary _ a b hkind hchildren ha hb =>
      cases hchildren
      refine .binary (isOperator_of_isBinary hkind) (hchild List.mem_cons_self ha) (hchild (by simp) hb) ?_
      exact fun hand hor x y c hc _ => ⟨rfl, isOrdinary_binaryValue hkind hand hor hc⟩
  | @call _ callee arguments hkind hchildren harguments =>
      cases hkind
      cases hchildren
      have hresolved' := hresolved.children arguments (by simp)
      exact .call rfl (expressions_self.2 fun a ha => ⟨hd, harguments a ha, hresolved'.children a ha⟩)

theorem statement_safe (h : safe.statement d n) : (safe.toSimulation p).StatementForm d n n := by
  obtain ⟨hd, hshape, hresolved⟩ := h
  obtain ⟨k, l, t, v, cs⟩ := n
  have hchild {a : Node} (hmem : a ∈ cs) (ha : a.IsExpression) : (safe.toSimulation p).expression d a a :=
    ⟨rfl, hd, ha, hresolved.children a hmem⟩
  have hblock {b : Node} (hmem : b ∈ cs) (hb : b.IsBlock) : (safe.toSimulation p).block d b b :=
    statements_self.2 fun s hs => ⟨hd, hb s hs, (hresolved.children b hmem).children s hs⟩
  cases hshape with
  | @assign _ target e hkind hchildren he =>
      cases hkind
      cases hchildren
      exact .assign ⟨rfl, hd⟩ (hchild (by simp) he)
  | @ifElse _ c b bs hkind hchildren hc hbranches =>
      cases hkind
      cases hchildren
      refine .ifElse (hchild List.mem_cons_self hc) (List.forall₂_same.2 fun b' hb' => ?_) nofun
      exact hblock (List.mem_cons_of_mem c hb') (hbranches b' hb')
  | @whileDo _ c b hkind hchildren hc hbody =>
      cases hkind
      cases hchildren
      exact .whileDo (hchild List.mem_cons_self hc) (hblock (by simp) hbody)
  | ret hkind he =>
      cases hkind
      cases cs with
      | nil => exact .retVoid
      | cons e cs => exact .ret (hchild List.mem_cons_self (he e List.mem_cons_self))
  | @read _ target hkind hchildren =>
      cases hkind
      cases hchildren
      exact .read ⟨rfl, hd⟩
  | @write _ e hkind hchildren he =>
      cases hkind
      cases hchildren
      exact .write (hchild List.mem_cons_self he)
  | @call _ callee arguments hkind hchildren harguments =>
      cases hkind
      cases hchildren
      have hresolved' := hresolved.children arguments (by simp)
      exact .call rfl (expressions_self.2 fun a ha => ⟨hd, harguments a ha, hresolved'.children a ha⟩)

theorem lawful_safe {q : Program} (hq : ∀ f ∈ q.functions, f.body.IsBlock ∧ f.body.Resolved) : safe.Lawful (some q) where
  refl _ := rfl
  trans := Eq.trans
  cell_later _ _ := trivial
  writes_later := by
    intro w w' h hw
    exact h ▸ hw
  expression_later := by
    intro w w' n h hn
    exact h ▸ hn
  statement_later := by
    intro w w' n h hn
    exact h ▸ hn
  expression_form := expression_safe
  statement_form := statement_safe
  value_boolean _ := trivial
  value_ofInt _ := trivial
  value_ofFloat _ := trivial
  value_ofToken _ := trivial
  ordinary h := h
  noFunctions := nofun
  function := by
    intro q' f name hq' hf
    cases hq'
    exact hq f (Program.mem_of_get? hf)
  content _ _ := trivial
  variableCell := by
    intro w s v x c hs _ _
    exact ⟨w, rfl, hs, trivial⟩
  active := by
    intro w s v hs hactive hframes
    have hpos : 0 < w := hactive.elim id id
    have hzero : s.depth = 0 := congrArg List.length hframes
    rw [hs.1] at hzero
    omega
  alloc := by
    intro w s v x hs _
    exact ⟨w, rfl, hs, trivial⟩
  assign := by
    intro w s v x name hs _ _ _
    exact ⟨w, rfl, (s.depth_assign name x).trans hs.1, hs.2⟩
  act := by
    intro w s v op fuel e hs hperform
    exact ⟨hs.1, hs.2.step (World.succeeds_of_perform hperform)⟩
  refuse := by
    intro w s v op fuel err hs hperform
    exact isOrdinary_world (hs.2.refusal hperform)
  enter := by
    intro w s v f callLine bound hs hf _
    refine ⟨w + 1, ⟨congrArg (· + 1) hs.1, hs.2⟩, ?_, fun _ _ => trivial, ?_⟩
    · intro n hn
      exact ⟨Nat.succ_pos w, hf.1 n hn, hf.2.children n hn⟩
    · intro w₂ s' v' hw₂ hs'
      refine ⟨w, rfl, ?_, hs'.2⟩
      have hdepth : s'.depth = w + 1 := hs'.1.trans hw₂.symm
      simp only [Stack.depth, Stack.leave, List.length_drop] at hdepth ⊢
      omega

end Invariant

/-- A program that has been loaded from a text has the shape of a program, and its literals are known. -/
theorem loaded_of_loadSource {m m' : Machine} {source : String} {tree : Node} (h : m.loadSource source = .ok (tree, m')) :
    ∃ q, m' = { m with program := some q }.emit (.loaded q.names) ∧
      ∀ f ∈ q.functions, f.body.IsBlock ∧ f.body.Resolved := by
  unfold Machine.loadSource at h
  split at h
  · cases h
  · rename_i tree' hread
    split at h
    · cases h
    · rename_i m'' hload
      cases h
      obtain ⟨q, hq, rfl⟩ := loaded_of_loadTree hload
      refine ⟨q, rfl, fun f hf => ?_⟩
      obtain ⟨n, hn, hdefines⟩ := Program.defines_of_ofTree hq hf
      exact ⟨hdefines.isBlock (isFunction_of_readProgram hread n hn), hdefines.resolved⟩

/-- The categories of the errors that a program can make. -/
def Category.ofProgram : List Category := [.undefined, .arity, .type, .division, .simulation, .input]

theorem category_of_isOrdinary {c : Cause} (h : c.isOrdinary = true) :
    c.category ∈ Category.ofProgram ∨ c = .stackOverflow ∨ ∃ e, c = .oversize e := by
  unfold Cause.isOrdinary at h
  split at h
  · exact .inr (.inl rfl)
  · exact .inr (.inr ⟨_, rfl⟩)
  · obtain ⟨hgeneral, hinternal⟩ : c.category ≠ .general ∧ c.category ≠ .internal := by simpa using h
    left
    generalize c.category = k at hgeneral hinternal ⊢
    cases k with
    | general => exact absurd rfl hgeneral
    | internal => exact absurd rfl hinternal
    | _ => decide

theorem invoke_of_run {m m' : Machine} {q : Program} (hm : m.program = some q) {fuel : Nat} {entry : String}
    {fault : Fault} (h : Machine.run fuel entry m = .failed fault m') :
    ∃ e, invoke fuel entry [] m = .failed e m' ∧ fault.cause = e.cause := by
  unfold Machine.run Machine.call at h
  rw [hm] at h
  dsimp only at h
  split at h
  · rename_i e n hinvoke
    cases h
    exact ⟨e, hinvoke, cause_locate _ e⟩
  · exact ⟨fault, h, rfl⟩

/-- A program that has been read from a text, run from any function on in a world of a moderate robot, fails only by an
error of its own, or because its calls nest too deep or a token has more digits than a number may have. -/
theorem run_fault_expected {c : Config} (hc : c.Accepted) (hradius : c.robotRadius ≤ 1e150) {input : String}
    {options : Options} {source : String} {tree : Node} {m : Machine}
    (hload : (Machine.initial c input options).loadSource source = .ok (tree, m)) {entry : String} {fuel : Nat}
    {fault : Fault} {m' : Machine} (hrun : Machine.run fuel entry m = .failed fault m') :
    fault.cause.category ∈ Category.ofProgram ∨ fault.cause = .stackOverflow ∨ ∃ e, fault.cause = .oversize e := by
  obtain ⟨q, hm, hq⟩ := loaded_of_loadSource hload
  have hprogram : m.program = some q := by rw [hm, Machine.emit]
  have hstart : Invariant.safe.At (some q) 0 m := by
    refine ⟨hprogram, ?_⟩
    rw [hm]
    exact ⟨rfl, World.InRange.initial hc hradius⟩
  obtain ⟨e, hinvoke, hcause⟩ := invoke_of_run hprogram hrun
  have hinvokes := ((Invariant.lawful_safe hq).simulation.follows_runs fuel).invoke (w := 0) entry .nil
  rw [hcause]
  exact category_of_isOrdinary (hstart.fails hinvokes hinvoke)

/-- A program that looks at an obstacle and counts down to a division by zero. -/
def countdown : String :=
  "func main()\n  rSet(5, 5, 90);\n  oSet(7, 7, 2, 2);\n  write rFeel(7);\n  x = 3;\n  down(x);\nendfunc\n" ++
  "func down(&n)\n  if n < 0 then write 1 / (n + 1); else n = n - 1; down(n); endif\nendfunc\n"

theorem countdown_fails : ∃ tree m fault m',
    (Machine.initial .default "" .unobserved).loadSource countdown = .ok (tree, m) ∧
      Machine.run 60 "main" m = .failed fault m' ∧ fault.cause = .operand .divisionByZero ∧ fault.line = some 9 ∧
        (fault.cause.category ∈ Category.ofProgram ∨ fault.cause = .stackOverflow ∨ ∃ e, fault.cause = .oversize e) := by
  have hrun : ((Machine.initial .default "" .unobserved).loadSource countdown).toOption.bind (fun loaded =>
      (Machine.run 60 "main" loaded.2).fault?.map fun fault => (fault.1.cause, fault.1.line)) =
      some (.operand .divisionByZero, some 9) := by decide +kernel
  obtain ⟨⟨tree, m⟩, hm, hrun⟩ := Option.bind_eq_some_iff.1 hrun
  obtain ⟨⟨fault, m'⟩, hfault, hrun⟩ := Option.map_eq_some_iff.1 hrun
  have hload := eq_ok_of_toOption hm
  have hfailed := Outcome.eq_failed hfault
  have hradius : Config.default.robotRadius ≤ 1e150 := by decide +kernel
  obtain ⟨hcause, hline⟩ := Prod.mk.inj hrun
  exact ⟨tree, m, fault, m', hload, hfailed, hcause, hline,
    run_fault_expected Config.default_accepted hradius hload hfailed⟩

end Rover
