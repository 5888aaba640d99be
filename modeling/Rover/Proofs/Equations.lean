import Rover.Proofs.Runs

/-!
# The equations of the evaluator

What the functions of the evaluator do, cut where the proofs about runs need it. A call of a function evaluates its
arguments, enters a record of its own with the parameters bound, runs the body there and leaves the record again:
`invokeFunction_eq` cuts the call after the arguments, and `callWith_eq` says what the rest of it does to a machine, in
terms of the run of the body alone. Nodes are opened by their form, as expressions (`Kind.Evaluated`) and as statements
(`StatementShape`).
-/

namespace Rover

/-! ### Calls -/

/-- The record of a call, with its parameters bound. -/
def Frame.ofCall (f : Function) (callLine : Int) (bound : List (Param × Cell)) : Frame :=
  bound.foldl (fun frame b => frame.bind b.1.name b.2) ⟨f.name, callLine, []⟩

/-- A call with so many arguments can be told of at a depth, and there is room for its record. -/
def Options.Admits (o : Options) (depth arity : Nat) : Prop := o.canTell depth arity ∧ depth < o.limit

instance (o : Options) (depth arity : Nat) : Decidable (o.Admits depth arity) := inferInstanceAs (Decidable (_ ∧ _))

namespace Machine

/-- The machine at the start of a body: in a record of its own, where the parameters are bound. -/
def enter (m : Machine) (f : Function) (callLine : Int) (bound : List (Param × Cell)) : Machine :=
  { m with line := f.line, stack := ⟨.ofCall f callLine bound :: m.stack.frames, m.stack.cells⟩ }

/-- The machine out of its innermost record. -/
def leave (m : Machine) : Machine := { m with stack := m.stack.leave }

/-- The machine after it has been asked for the next token. -/
def taken (m : Machine) : Machine := { m with reader := m.reader.next.2 }

/-- The parameters with the values that they have now. -/
def bindings (m : Machine) (bound : List (Param × Cell)) : List Binding :=
  bound.map fun b => ⟨b.1.name, m.stack.content b.2, b.1.byRef⟩

/-- Tells of a call. -/
def tellCall (m : Machine) (f : Function) (callLine : Int) (depth : Nat) (bound : List (Param × Cell)) : Machine :=
  m.emit (.called f.name (m.bindings bound) callLine depth (depth == 0))

/-- Tells of a return. -/
def tellReturn (m : Machine) (f : Function) (v : Value) (depth : Nat) (bound : List (Param × Cell)) : Machine :=
  m.emit (.returned f.name v (m.bindings (bound.filter (·.1.byRef))) m.line depth)

@[simp] theorem events_act (m : Machine) (world : World) (changes : List WorldEvent) (lines : List String) :
    (m.act world changes lines).events = (m.events ++ changes.map Event.world).push (.narrated lines) := rfl

theorem input_taken (m : Machine) : m.taken.input = m.input.tail := m.reader.remaining_next

@[simp] theorem stack_tellCall (m : Machine) (f : Function) (callLine : Int) (depth : Nat) (bound : List (Param × Cell)) :
    (m.tellCall f callLine depth bound).stack = m.stack := rfl

@[simp] theorem stack_tellReturn (m : Machine) (f : Function) (v : Value) (depth : Nat) (bound : List (Param × Cell)) :
    (m.tellReturn f v depth bound).stack = m.stack := rfl

@[simp] theorem frames_leave (m : Machine) : m.leave.stack.frames = m.stack.frames.drop 1 := rfl

end Machine

namespace Eval

variable {α β : Type} {x : Eval α} {f : α → Eval β} {m m' : Machine} {a : α} {e : Fault}

theorem nextToken_of_nil (h : m.input = []) : nextToken m = .failed (.bare .noInput) m.taken := by
  have hnext : m.reader.next = (none, m.taken.reader) := Prod.ext (by rw [m.reader.next_fst, ← Machine.input, h]; rfl) rfl
  rw [nextToken, hnext]
  rfl

theorem nextToken_of_cons {token : String} {rest : List String} (h : m.input = token :: rest) :
    nextToken m = .done token m.taken := by
  have hnext : m.reader.next = (some token, m.taken.reader) :=
    Prod.ext (by rw [m.reader.next_fst, ← Machine.input, h]; rfl) rfl
  rw [nextToken, hnext]
  rfl

/-- Machines with the same tokens left get the same one, or none. -/
theorem nextToken_of_input_eq (h : m'.input = m.input) : m'.taken.input = m.taken.input ∧
    ((nextToken m = .failed (.bare .noInput) m.taken ∧ nextToken m' = .failed (.bare .noInput) m'.taken) ∨
      ∃ token, nextToken m = .done token m.taken ∧ nextToken m' = .done token m'.taken) := by
  refine ⟨by rw [Machine.input_taken, Machine.input_taken, h], ?_⟩
  cases hinput : m.input with
  | nil => exact .inl ⟨nextToken_of_nil hinput, nextToken_of_nil (h.trans hinput)⟩
  | cons token rest => exact .inr ⟨token, nextToken_of_cons hinput, nextToken_of_cons (h.trans hinput)⟩

theorem setLine_bind (line : Int) (f : Unit → Eval α) (m : Machine) : (setLine line >>= f) m = f () { m with line } := rfl

theorem bind_of_done (h : x m = .done a m') : (x >>= f) m = f a m' := by
  change Eval.bind x f m = _
  rw [Eval.bind, h]

theorem bind_of_failed (h : x m = .failed e m') : (x >>= f) m = .failed e m' := by
  change Eval.bind x f m = _
  rw [Eval.bind, h]

theorem bind_of_unfinished (h : x m = .unfinished) : (x >>= f) m = .unfinished := by
  change Eval.bind x f m = _
  rw [Eval.bind, h]

theorem done_of_bind {b : β} {m'' : Machine} (h : (x >>= f) m = .done b m'') :
    ∃ a m', x m = .done a m' ∧ f a m' = .done b m'' := by
  cases hx : x m with
  | done a m' =>
      rw [bind_of_done hx] at h
      exact ⟨a, m', rfl, h⟩
  | failed e m' =>
      rw [bind_of_failed hx] at h
      cases h
  | unfinished =>
      rw [bind_of_unfinished hx] at h
      cases h

/-- A computation that starts with a check. -/
theorem done_of_check {r : Except Cause α} {b : β} (h : (Eval.ofExcept id r >>= f) m = .done b m') :
    ∃ a, r = .ok a ∧ f a m = .done b m' := by
  cases r with
  | error c => cases h
  | ok a => exact ⟨a, rfl, h⟩

end Eval

/-- The body of a call in its record, up to the event of its return. -/
def callBody (fuel : Nat) (f : Function) (depth : Nat) (bound : List (Param × Cell)) : Eval Value := do
  Eval.setLine f.line
  Eval.bindAll bound
  let result := (← runBlock fuel f.body.children).getD .void
  let refs ← Eval.bindings (bound.filter (·.1.byRef))
  Eval.emit (.returned f.name result refs (← Eval.currentLine) depth)
  return result

/-- A call whose arguments have been evaluated. -/
def callWith (fuel : Nat) (f : Function) (callLine : Int) (depth : Nat) (bound : List (Param × Cell)) : Eval Value := do
  Eval.tellCall depth f.params.length (.called f.name (← Eval.bindings bound) callLine depth (depth == 0))
  Eval.needRecord depth
  let result ← Eval.inFrame f.name callLine (callBody fuel f depth bound)
  Eval.setLine callLine
  return result

theorem invoke_operation {name : String} {b : Builtin} (h : Builtin.ofName? name = some b) (fuel : Nat)
    (arguments : List Node) :
    invoke (fuel + 1) name arguments = (do
      b.precheck arguments.length
      let values ← evaluateArguments fuel b.arguments arguments
      b.perform fuel values) := by
  rw [invoke]
  simp only [h]

theorem invoke_function {name : String} (h : Builtin.ofName? name = none) (fuel : Nat) (arguments : List Node) :
    invoke (fuel + 1) name arguments = (do
      let f ← Eval.function name
      invokeFunction fuel f arguments) := by
  rw [invoke]
  simp only [h]

theorem invokeFunction_eq (fuel : Nat) (f : Function) (arguments : List Node) :
    invokeFunction (fuel + 1) f arguments = (do
      if f.params.length ≠ arguments.length then Eval.fail (.parameterCount f.name)
      let site ← Eval.site
      let bound ← bindArguments fuel f.params arguments
      callWith fuel f site.1 site.2 bound) := by
  rw [invokeFunction]
  rfl

theorem invokeFunction_of_bound {fuel : Nat} {f : Function} {arguments : List Node} {m m' : Machine}
    {bound : List (Param × Cell)} (hlength : f.params.length = arguments.length)
    (hbound : bindArguments fuel f.params arguments m = .done bound m') :
    invokeFunction (fuel + 1) f arguments m = callWith fuel f m.line m.stack.depth bound m' := by
  have hsite : Eval.site m = .done (m.line, m.stack.depth) m := rfl
  rw [invokeFunction_eq, if_neg (not_not.2 hlength)]
  exact (Eval.bind_of_done hsite).trans (Eval.bind_of_done hbound)

theorem bound_of_invokeFunction {fuel : Nat} {f : Function} {arguments : List Node} {m m' : Machine} {v : Value}
    (h : invokeFunction (fuel + 1) f arguments m = .done v m') :
    f.params.length = arguments.length ∧ ∃ bound m₁, bindArguments fuel f.params arguments m = .done bound m₁ ∧
      callWith fuel f m.line m.stack.depth bound m₁ = .done v m' := by
  rw [invokeFunction_eq] at h
  split_ifs at h with hlength
  · cases h
  · obtain ⟨site, m₀, hsite, hbind⟩ := Eval.done_of_bind (m := m) h
    cases hsite
    obtain ⟨bound, m₁, hbound, hcall⟩ := Eval.done_of_bind hbind
    exact ⟨not_not.1 hlength, bound, m₁, hbound, hcall⟩

theorem Stack.bindAll_cons (bound : List (Param × Cell)) (f : Frame) (outer : List Frame) (cells : Array Value) :
    bound.foldlM (fun (s : Stack) (p, c) => s.bind p.name c) ⟨f :: outer, cells⟩ =
      Except.ok ⟨bound.foldl (fun frame b => frame.bind b.1.name b.2) f :: outer, cells⟩ := by
  induction bound generalizing f with
  | nil => rfl
  | cons b bound ih =>
      rw [List.foldlM_cons]
      exact ih (f.bind b.1.name b.2)

theorem Stack.pop_of_pos {s : Stack} (h : 0 < s.depth) : ∃ f, s.pop = .ok (f, s.leave) := by
  obtain ⟨frames, cells⟩ := s
  cases frames with
  | nil => cases h
  | cons f outer => exact ⟨f, rfl⟩

theorem callBody_eq (fuel : Nat) (f : Function) (callLine : Int) (depth : Nat) (bound : List (Param × Cell))
    (m : Machine) :
    callBody fuel f depth bound { m with stack := m.stack.push f.name callLine } =
      match runBlock fuel f.body.children (m.enter f callLine bound) with
      | .done r m' => .done (r.getD .void) (m'.tellReturn f (r.getD .void) depth bound)
      | .failed e m' => .failed e m'
      | .unfinished => .unfinished := by
  have hbind : Eval.bindAll bound { m with line := f.line, stack := m.stack.push f.name callLine } =
      .done () (m.enter f callLine bound) := by
    simp only [Eval.bindAll, Stack.push, Stack.bindAll_cons]
    rfl
  change (Eval.bindAll bound >>= _ : Eval Value) { m with line := f.line, stack := m.stack.push f.name callLine } = _
  rw [Eval.bind_of_done hbind]
  cases hrun : runBlock fuel f.body.children (m.enter f callLine bound) with
  | done r m' => exact Eval.bind_of_done hrun
  | failed e m' => exact Eval.bind_of_failed hrun
  | unfinished => exact Eval.bind_of_unfinished hrun

/-- The record of a call is there at the end of the body, so that it can be left. -/
theorem inFrame_callBody (fuel : Nat) (f : Function) (callLine : Int) (depth : Nat) (bound : List (Param × Cell))
    (m : Machine) :
    Eval.inFrame f.name callLine (callBody fuel f depth bound) m =
      match runBlock fuel f.body.children (m.enter f callLine bound) with
      | .done r m' => .done (r.getD .void) (m'.tellReturn f (r.getD .void) depth bound).leave
      | .failed e m' => .failed (m'.report e) m'.leave
      | .unfinished => .unfinished := by
  have hdepth := (stable_depth.runsKeep fuel).runBlock f.body.children (m.enter f callLine bound)
  rw [Eval.inFrame, callBody_eq]
  cases hrun : runBlock fuel f.body.children (m.enter f callLine bound) with
  | done r m' =>
      rw [hrun] at hdepth
      obtain ⟨record, hpop⟩ := Stack.pop_of_pos (hdepth ▸ Nat.succ_pos _ : 0 < m'.stack.depth)
      simp only [Machine.stack_tellReturn, hpop]
      rfl
  | failed e m' =>
      rw [hrun] at hdepth
      obtain ⟨record, hpop⟩ := Stack.pop_of_pos (hdepth ▸ Nat.succ_pos _ : 0 < m'.stack.depth)
      simp only [hpop]
      rfl
  | unfinished => rfl

/-- A call runs its body if the tracer can be told of it and there is room for its record. -/
theorem callWith_eq (fuel : Nat) (f : Function) (callLine : Int) (depth : Nat) (bound : List (Param × Cell))
    (m : Machine) :
    callWith fuel f callLine depth bound m =
      if m.options.canTell depth f.params.length then
        if depth < m.options.limit then
          match runBlock fuel f.body.children ((m.tellCall f callLine depth bound).enter f callLine bound) with
          | .done r m' =>
            .done (r.getD .void) { (m'.tellReturn f (r.getD .void) depth bound).leave with line := callLine }
          | .failed e m' => .failed (m'.report e) m'.leave
          | .unfinished => .unfinished
        else .failed (.bare .stackOverflow) (m.tellCall f callLine depth bound)
      else .failed (.bare .stackOverflow) m := by
  change (Eval.tellCall depth f.params.length (.called f.name (m.bindings bound) callLine depth (depth == 0)) >>= fun _ =>
    Eval.needRecord depth >>= fun _ => Eval.inFrame f.name callLine (callBody fuel f depth bound) >>= fun result =>
      Eval.setLine callLine >>= fun _ => pure result : Eval Value) m = _
  by_cases htell : m.options.canTell depth f.params.length
  · have htold : Eval.tellCall depth f.params.length (.called f.name (m.bindings bound) callLine depth (depth == 0)) m =
        .done () (m.tellCall f callLine depth bound) := if_pos htell
    rw [if_pos htell, Eval.bind_of_done htold]
    split_ifs with hroom
    · have hneed : Eval.needRecord depth (m.tellCall f callLine depth bound) =
          .done () (m.tellCall f callLine depth bound) := if_pos hroom
      have hframe := inFrame_callBody fuel f callLine depth bound (m.tellCall f callLine depth bound)
      rw [Eval.bind_of_done hneed]
      cases hrun : runBlock fuel f.body.children ((m.tellCall f callLine depth bound).enter f callLine bound) with
      | done r m' =>
          rw [hrun] at hframe
          exact Eval.bind_of_done hframe
      | failed e m' =>
          rw [hrun] at hframe
          exact Eval.bind_of_failed hframe
      | unfinished =>
          rw [hrun] at hframe
          exact Eval.bind_of_unfinished hframe
    · have hneed : Eval.needRecord depth (m.tellCall f callLine depth bound) =
          .failed (.bare .stackOverflow) (m.tellCall f callLine depth bound) := if_neg hroom
      rw [Eval.bind_of_failed hneed]
  · have htold : Eval.tellCall depth f.params.length (.called f.name (m.bindings bound) callLine depth (depth == 0)) m =
        .failed (.bare .stackOverflow) m := if_neg htell
    rw [if_neg htell, Eval.bind_of_failed htold]

/-! ### Nodes -/

namespace Kind

def isLiteral : Kind → Bool
  | .int => true
  | .float => true
  | .boolean => true
  | .string => true
  | _ => false

/-- Whether a node of the kind computes with the values of its children. -/
def isOperator (k : Kind) : Bool := k ≠ .id && k ≠ .call && !k.isLiteral

/-- How a node of a kind is evaluated. -/
inductive Evaluated : Kind → Prop
  | id : Evaluated .id
  | literal {k : Kind} : k.isLiteral = true → Evaluated k
  | call : Evaluated .call
  | operator {k : Kind} : k.isOperator = true → Evaluated k

theorem evaluated (k : Kind) : k.Evaluated := by
  cases k with
  | id => exact .id
  | int => exact .literal rfl
  | float => exact .literal rfl
  | boolean => exact .literal rfl
  | string => exact .literal rfl
  | call => exact .call
  | _ => exact .operator rfl

end Kind

/-- Whether a fault has a category of its own, or is the overflow of the stack or a token of too many digits. The others come
from malformed trees, from a stack without records, and from arithmetic that has no result. -/
def Cause.isOrdinary : Cause → Bool
  | .stackOverflow => true
  | .oversize _ => true
  | c => c.category ≠ .general && c.category ≠ .internal

/-- Why a statement with these children cannot even be started. -/
def statementDefect? (k : Kind) (children : List Node) : Option Cause :=
  match k, children with
  | .assign, _ :: _ :: _ => none
  | .assign, _ => some .missingPart
  | .ifElse, _ :: _ => none
  | .ifElse, [] => some .missingPart
  | .whileDo, [_, _] => none
  | .whileDo, parts => some (.loopParts parts.length)
  | .ret, _ => none
  | .read, _ => none
  | .write, _ :: _ => none
  | .write, [] => some .missingPart
  | .call, _ :: _ :: _ => none
  | .call, _ => some .missingPart
  | k, _ => some (.unsupportedStatement k)

/-- How a node with these children is run as a statement. -/
inductive StatementShape : Kind → List Node → Prop
  | assign (x e : Node) (cs : List Node) : StatementShape .assign (x :: e :: cs)
  | ifElse (c : Node) (bs : List Node) : StatementShape .ifElse (c :: bs)
  | whileDo (c b : Node) : StatementShape .whileDo [c, b]
  | ret (cs : List Node) : StatementShape .ret cs
  | read (cs : List Node) : StatementShape .read cs
  | write (e : Node) (cs : List Node) : StatementShape .write (e :: cs)
  | call (callee arguments : Node) (cs : List Node) : StatementShape .call (callee :: arguments :: cs)
  | defect {k : Kind} {cs : List Node} {c : Cause} : statementDefect? k cs = some c → StatementShape k cs

theorem statementShape (k : Kind) (cs : List Node) : StatementShape k cs := by
  cases hdefect : statementDefect? k cs with
  | some c => exact .defect hdefect
  | none =>
      unfold statementDefect? at hdefect
      split at hdefect
      · exact .assign _ _ _
      · cases hdefect
      · exact .ifElse _ _
      · cases hdefect
      · exact .whileDo _ _
      · cases hdefect
      · exact .ret cs
      · exact .read cs
      · exact .write _ _
      · cases hdefect
      · exact .call _ _ _
      · cases hdefect
      · cases hdefect

section Equations

variable {fuel : Nat} {k : Kind} {line : Int} {text : String} {value : Option Value}

theorem evaluate_eq (n : Node) (m : Machine) :
    evaluate (fuel + 1) n m =
      match evaluateNode fuel n { m with line := n.line } with
      | .done v m' => .done v { m' with line := m.line }
      | .failed e m' => .failed e m'
      | .unfinished => .unfinished := by
  rw [evaluate]
  change (evaluateNode fuel n >>= fun v => Eval.setLine m.line >>= fun _ => Eval.pure v : Eval Value)
    { m with line := n.line } = _
  cases hn : evaluateNode fuel n { m with line := n.line } with
  | done v m' => exact Eval.bind_of_done hn
  | failed e m' => exact Eval.bind_of_failed hn
  | unfinished => exact Eval.bind_of_unfinished hn

theorem evaluateNode_literal (hk : k.isLiteral = true) (children : List Node) :
    evaluateNode (fuel + 1) ⟨k, line, text, value, children⟩ =
      match value with
      | some v => Eval.pure v
      | none => Eval.fail (.unresolvedLiteral k) := by
  cases k with
  | int => rfl
  | float => rfl
  | boolean => rfl
  | string => rfl
  | _ => cases hk

/-- The part of an operator's node that depends on its kind and its children only. -/
def operation (fuel : Nat) (k : Kind) (children : List Node) : Eval Value :=
  match children with
  | [operand] => do
    let v ← evaluate fuel operand
    Eval.ofExcept id (unaryValue k v)
  | left :: right :: _ =>
    match k with
    | .and => do
      let l ← evaluate fuel left
      if ← Eval.ofExcept id l.asBoolean then
        let r ← evaluate fuel right
        return .boolean (← Eval.ofExcept id r.asBoolean)
      else return l
    | .or => do
      let l ← evaluate fuel left
      if ← Eval.ofExcept id l.asBoolean then return l
      else
        let r ← evaluate fuel right
        return .boolean (← Eval.ofExcept id r.asBoolean)
    | k => do
      let l ← evaluate fuel left
      let r ← evaluate fuel right
      Eval.ofExcept id (binaryValue k l r)
  | [] => Eval.fail .missingPart

theorem evaluateNode_operator (hk : k.isOperator = true) (children : List Node) :
    evaluateNode (fuel + 1) ⟨k, line, text, value, children⟩ = operation fuel k children := by
  cases k with
  | id => cases hk
  | int => cases hk
  | float => cases hk
  | boolean => cases hk
  | string => cases hk
  | call => cases hk
  | _ => rfl

theorem evaluateNode_call (callee arguments : Node) (children : List Node) :
    evaluateNode (fuel + 1) ⟨.call, line, text, value, callee :: arguments :: children⟩ = (do
      let v ← invoke fuel callee.text arguments.children
      if v.isVoid then Eval.fail .voidResult else return v) := by
  rw [evaluateNode]
  rfl

theorem evaluateNode_callDefect {children : List Node} (h : children.length < 2) :
    evaluateNode (fuel + 1) ⟨.call, line, text, value, children⟩ = Eval.fail .missingPart := by
  rw [evaluateNode]
  rcases children with _ | ⟨a, _ | ⟨b, rest⟩⟩
  · rfl
  · rfl
  · simp only [List.length_cons] at h
    omega

/-- The cell that a parameter is bound to. -/
def argumentCell (fuel : Nat) (p : Param) (n : Node) : Eval Cell :=
  if p.byRef then
    if n.kind = .id then Eval.variableCell n.text else Eval.fail .referenceArgument
  else do
    let v ← evaluate fuel n
    Eval.alloc v

theorem bindArguments_cons (p : Param) (params : List Param) (n : Node) (nodes : List Node) :
    bindArguments (fuel + 1) (p :: params) (n :: nodes) = (do
      Eval.setLine n.line
      let cell ← argumentCell fuel p n
      let rest ← bindArguments fuel params nodes
      return (p, cell) :: rest) := by
  rw [bindArguments]
  unfold argumentCell
  split_ifs
  · rfl
  · rfl
  · funext m
    dsimp only [bind, Eval.bind, Eval.setLine]
    cases evaluate fuel n { m with line := n.line } <;> rfl

theorem runStatement_assign (x e : Node) (children : List Node) :
    runStatement (fuel + 1) ⟨.assign, line, text, value, x :: e :: children⟩ = (do
      Eval.setLine line
      let v ← evaluate fuel e
      Eval.assign x.text v
      return none) := by
  rw [runStatement]

/-- The branch that a condition chooses. -/
def runBranch (fuel : Nat) (b : Bool) (branches : List Node) : Eval (Option Value) :=
  if b then
    match branches with
    | consequent :: _ => runBlock fuel consequent.children
    | [] => Eval.fail .missingPart
  else
    match branches with
    | [_, alternative] => runBlock fuel alternative.children
    | _ => return none

theorem runStatement_ifElse (c : Node) (branches : List Node) :
    runStatement (fuel + 1) ⟨.ifElse, line, text, value, c :: branches⟩ = (do
      Eval.setLine line
      let v ← evaluate fuel c
      let b ← Eval.ofExcept id v.asBoolean
      runBranch fuel b branches) := by
  unfold runStatement
  rfl

theorem runStatement_whileDo (c b : Node) :
    runStatement (fuel + 1) ⟨.whileDo, line, text, value, [c, b]⟩ = (do
      Eval.setLine line
      runLoop fuel c b.children) := by
  rw [runStatement]

theorem runStatement_ret (e : Node) (children : List Node) :
    runStatement (fuel + 1) ⟨.ret, line, text, value, e :: children⟩ = (do
      Eval.setLine line
      let v ← evaluate fuel e
      return some v) := by
  rw [runStatement]

/-- Gives the value of a token that has been read to its variable. -/
def storeToken (children : List Node) (token : String) : Eval (Option Value) := do
  let v ← Eval.ofExcept .oversize (Value.ofToken token)
  match children with
  | x :: _ => do
    Eval.assign x.text v
    return none
  | [] => Eval.fail .missingPart

theorem storeToken_of_error {token : String} {e : Oversize} (h : Value.ofToken token = .error e) (children : List Node) :
    storeToken children token = Eval.fail (.oversize e) := by
  rw [storeToken, h]
  rfl

theorem storeToken_cons {token : String} {v : Value} (h : Value.ofToken token = .ok v) (x : Node) (children : List Node) :
    storeToken (x :: children) token = (do
      Eval.assign x.text v
      return none) := by
  rw [storeToken, h]
  rfl

theorem storeToken_nil {token : String} {v : Value} (h : Value.ofToken token = .ok v) :
    storeToken [] token = Eval.fail .missingPart := by
  rw [storeToken, h]
  rfl

theorem runStatement_read (children : List Node) :
    runStatement (fuel + 1) ⟨.read, line, text, value, children⟩ = (do
      Eval.setLine line
      let token ← Eval.nextToken
      storeToken children token) := by
  rw [runStatement]
  rfl

/-- Writes a literal text as it is, and the value of anything else. -/
def writeNode (fuel : Nat) (n : Node) : Eval (Option Value) :=
  match n.kind, n.value with
  | .string, some v => do
    Eval.emit (.wrote v.text)
    return none
  | _, _ => do
    let v ← evaluate fuel n
    Eval.emit (.wrote v.text)
    return none

theorem writeNode_text {n : Node} {v : Value} (hkind : n.kind = .string) (hvalue : n.value = some v) :
    writeNode fuel n = (do
      Eval.emit (.wrote v.text)
      return none) := by
  unfold writeNode
  rw [hkind, hvalue]

theorem writeNode_value {n : Node} (h : n.kind = .string → n.value = none) :
    writeNode fuel n = (do
      let v ← evaluate fuel n
      Eval.emit (.wrote v.text)
      return none) := by
  unfold writeNode
  split
  · rename_i hkind hvalue
    simp [h hkind] at hvalue
  · rfl

theorem runStatement_write (n : Node) (children : List Node) :
    runStatement (fuel + 1) ⟨.write, line, text, value, n :: children⟩ = (do
      Eval.setLine line
      writeNode fuel n) := by
  rw [runStatement]
  rfl

theorem runStatement_call (callee arguments : Node) (children : List Node) :
    runStatement (fuel + 1) ⟨.call, line, text, value, callee :: arguments :: children⟩ = (do
      Eval.setLine line
      let _ ← invoke fuel callee.text arguments.children
      return none) := by
  rw [runStatement]
  rfl

theorem runStatement_defect {children : List Node} {c : Cause} (h : statementDefect? k children = some c) :
    runStatement (fuel + 1) ⟨k, line, text, value, children⟩ = Eval.setLine line >>= fun _ => Eval.fail c := by
  cases k with
  | assign => rcases children with _ | ⟨a, _ | ⟨b, rest⟩⟩ <;> cases h <;> rfl
  | ifElse =>
      rcases children with _ | ⟨a, rest⟩ <;> cases h
      rfl
  | whileDo => rcases children with _ | ⟨a, _ | ⟨b, _ | ⟨d, rest⟩⟩⟩ <;> cases h <;> rfl
  | ret => cases h
  | read => cases h
  | write =>
      rcases children with _ | ⟨a, rest⟩ <;> cases h
      rfl
  | call => rcases children with _ | ⟨a, _ | ⟨b, rest⟩⟩ <;> cases h <;> rfl
  | _ =>
      cases h
      rfl

end Equations

/-! ### What operators answer -/

namespace Value

theorem arithmetic_ok {op : ArithmeticOp} {a b v : Value} (h : arithmetic op a b = .ok v) :
    (∃ n, v = ofInt n) ∨ ∃ x, v = ofFloat x := by
  unfold arithmetic at h
  split at h
  · rename_i a b
    cases hword : wordArithmetic op a b with
    | error e =>
        rw [hword] at h
        cases h
    | ok n =>
        rw [hword] at h
        cases h
        exact .inl ⟨n, rfl⟩
  · rename_i a b
    cases hfloat : floatArithmetic op a b with
    | error e =>
        rw [hfloat] at h
        cases h
    | ok x =>
        rw [hfloat] at h
        cases h
        exact .inr ⟨x, rfl⟩
  · cases h

theorem relational_ok {op : RelationalOp} {a b v : Value} (h : relational op a b = .ok v) : ∃ c, v = boolean c := by
  unfold relational at h
  cases hcomparable : comparable a b with
  | error e =>
      rw [hcomparable] at h
      cases h
  | ok u =>
      rw [hcomparable] at h
      dsimp only [bind, Except.bind] at h
      split at h
      · exact ⟨_, (Except.ok.inj h).symm⟩
      · exact ⟨_, (Except.ok.inj h).symm⟩
      · cases hordered : ordered op a b with
        | error e =>
            rw [hordered] at h
            cases h
        | ok c =>
            rw [hordered] at h
            exact ⟨c, (Except.ok.inj h).symm⟩

end Value

/-! ### Calls from outside -/

/-- A fault that no function has located is located where the machine stands. -/
def Outcome.located : Outcome Value → Outcome Value
  | .failed e m => .failed (m.locate e) m
  | o => o

/-- How a call fails, if it does. -/
def Outcome.fault? : Outcome Value → Option (Fault × Machine)
  | .failed e m => some (e, m)
  | _ => none

theorem Outcome.eq_failed {o : Outcome Value} {e : Fault} {m : Machine} (h : o.fault? = some (e, m)) : o = .failed e m := by
  unfold fault? at h
  split at h
  · cases h
    rfl
  · cases h

namespace Machine

variable {m : Machine}

theorem call_of_program {p : Program} (h : m.program = some p) (fuel : Nat) (name : String) (nodes : List Node) :
    call fuel name nodes m = (invoke fuel name nodes m).located := by
  simp only [call, h]
  cases invoke fuel name nodes m <;> rfl

theorem call_of_no_program (h : m.program = none) (fuel : Nat) (name : String) (nodes : List Node) :
    call fuel name nodes m = .failed (.bare .noProgram) m := by
  simp only [call, h]

end Machine

end Rover
