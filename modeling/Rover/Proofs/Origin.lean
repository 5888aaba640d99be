import Rover.Proofs.Loading
import Rover.Proofs.Trails

/-!
# Where a run fails

A task fails by a check of its own, or because a task that it has started fails. `Task.Fails` lists the checks: each names
the task, the cause and the machine at that moment. `Task.Faults.cases` opens one task, and `origin_of_faults` follows a
fault down the tasks to the check where it came up. On the way out nothing happens to the fault but that the body of a call
locates it, the innermost one first that has room to report it.
-/

namespace Rover

/-! ### Failing computations -/

namespace Eval

variable {α β : Type} {x : Eval α} {f : α → Eval β} {m m' : Machine} {e : Fault}

theorem failed_of_bind (h : (x >>= f) m = .failed e m') :
    x m = .failed e m' ∨ ∃ a m₁, x m = .done a m₁ ∧ f a m₁ = .failed e m' := by
  cases hx : x m with
  | done a m₁ =>
      rw [bind_of_done hx] at h
      exact .inr ⟨a, m₁, rfl, h⟩
  | failed e₁ m₁ =>
      rw [bind_of_failed hx] at h
      cases h
      exact .inl rfl
  | unfinished =>
      rw [bind_of_unfinished hx] at h
      cases h

theorem failed_of_ofExcept {r : Except Cause α} (h : Eval.ofExcept id r m = .failed e m') :
    ∃ c, r = .error c ∧ e = .bare c ∧ m' = m := by
  cases r with
  | ok a => cases h
  | error c =>
      cases h
      exact ⟨c, rfl, rfl, rfl⟩

theorem failed_of_check {ε : Type} {cause : ε → Cause} {r : Except ε α}
    (h : (Eval.ofExcept cause r >>= f) m = .failed e m') :
    (∃ c, r = .error c ∧ e = .bare (cause c) ∧ m' = m) ∨ ∃ a, r = .ok a ∧ f a m = .failed e m' := by
  cases r with
  | error c =>
      cases h
      exact .inl ⟨c, rfl, rfl, rfl⟩
  | ok a => exact .inr ⟨a, rfl, h⟩

theorem failed_of_assign {name : String} {v : Value} (h : Eval.assign name v m = .failed e m') :
    m.stack.frames = [] ∧ e = .bare (.stack .noActiveFunction) ∧ m' = m := by
  unfold Eval.assign at h
  split at h
  · rename_i hframes
    cases h
    exact ⟨hframes, rfl, rfl⟩
  · cases h

end Eval

theorem Value.eq_boolean_of_asBoolean {v : Value} {b : Bool} (h : v.asBoolean = .ok b) : v = .boolean b := by
  cases v with
  | boolean c =>
      cases h
      rfl
  | _ => cases h

theorem Value.eq_void_of_isVoid {v : Value} (h : v.isVoid = true) : v = .void := by
  cases v with
  | void => rfl
  | _ => cases h

/-- A condition that is evaluated and then tested. -/
theorem failed_of_test {α : Type} {fuel : Nat} {n : Node} {f : Value → Bool → Eval α} {m m' : Machine} {e : Fault}
    (h : (evaluate fuel n >>= fun v => Eval.ofExcept id v.asBoolean >>= f v) m = .failed e m') :
    evaluate fuel n m = .failed e m' ∨
      (∃ v c, Gives (evaluate · n) m v m' ∧ v.asBoolean = .error c ∧ e = .bare c) ∨
      ∃ b m₁, Gives (evaluate · n) m (.boolean b) m₁ ∧ f (.boolean b) b m₁ = .failed e m' := by
  rcases Eval.failed_of_bind h with hfailed | ⟨v, m₁, hv, h⟩
  · exact .inl hfailed
  rcases Eval.failed_of_check h with ⟨c, hc, he, rfl⟩ | ⟨b, hb, h⟩
  · exact .inr (.inl ⟨v, c, ⟨fuel, hv⟩, hc, he⟩)
  · rw [Value.eq_boolean_of_asBoolean hb] at hv h
    exact .inr (.inr ⟨b, m₁, ⟨fuel, hv⟩, h⟩)

/-! ### Checks -/

namespace Task

/-- `Fails m t c m'`: the task `t`, started on `m`, does not pass a check of its own, for the cause `c`, on `m'`. -/
inductive Fails (m : Machine) : Task → Cause → Machine → Prop
  | variable {l : Int} {t : String} {v : Option Value} {cs : List Node} {e : StackError} :
      m.stack.get t = .error e → Fails m (.node ⟨.id, l, t, v, cs⟩) (.stack e) m
  | literal {k : Kind} {l : Int} {t : String} {cs : List Node} :
      k.isLiteral = true → Fails m (.node ⟨k, l, t, none, cs⟩) (.unresolvedLiteral k) m
  | callee {l : Int} {t : String} {v : Option Value} {cs : List Node} :
      cs.length < 2 → Fails m (.node ⟨.call, l, t, v, cs⟩) .missingPart m
  | result {l : Int} {t : String} {v : Option Value} {callee arguments : Node} {cs : List Node} {m' : Machine} :
      Gives (Rover.invoke · callee.text arguments.children) m .void m' →
        Fails m (.node ⟨.call, l, t, v, callee :: arguments :: cs⟩) .voidResult m'
  | operands {k : Kind} {l : Int} {t : String} {v : Option Value} :
      k.isOperator = true → Fails m (.node ⟨k, l, t, v, []⟩) .missingPart m
  | unary {k : Kind} {l : Int} {t : String} {v : Option Value} {a : Node} {x : Value} {c : Cause} {m' : Machine} :
      k.isOperator = true → Gives (Rover.evaluate · a) m x m' → unaryValue k x = .error c →
        Fails m (.node ⟨k, l, t, v, [a]⟩) c m'
  | left {k : Kind} {l : Int} {t : String} {v : Option Value} {a b : Node} {cs : List Node} {x : Value} {c : Cause}
      {m' : Machine} :
      k = .and ∨ k = .or → Gives (Rover.evaluate · a) m x m' → x.asBoolean = .error c →
        Fails m (.node ⟨k, l, t, v, a :: b :: cs⟩) c m'
  | right {k : Kind} {l : Int} {t : String} {v : Option Value} {a b : Node} {cs : List Node} {x y : Value} {c : Cause}
      {m₁ m' : Machine} :
      k = .and ∨ k = .or → Gives (Rover.evaluate · a) m x m₁ → k.needsRight x → Gives (Rover.evaluate · b) m₁ y m' →
        y.asBoolean = .error c → Fails m (.node ⟨k, l, t, v, a :: b :: cs⟩) c m'
  | binary {k : Kind} {l : Int} {t : String} {v : Option Value} {a b : Node} {cs : List Node} {x y : Value} {c : Cause}
      {m₁ m' : Machine} :
      k.isOperator = true → Gives (Rover.evaluate · a) m x m₁ → Gives (Rover.evaluate · b) m₁ y m' →
        binaryValue k x y = .error c → Fails m (.node ⟨k, l, t, v, a :: b :: cs⟩) c m'
  | precheck {name : String} {nodes : List Node} {b : Builtin} {c : Cause} :
      Builtin.ofName? name = some b → b.precheck nodes.length m = .failed (.bare c) m → Fails m (.invoke name nodes) c m
  | argument {t : ArgumentType} {types : List ArgumentType} {n : Node} {nodes : List Node} {x : Value} {c : Cause}
      {m' : Machine} :
      Gives (Rover.evaluate · n) m x m' → t.check x = .error c → Fails m (.arguments (t :: types) (n :: nodes)) c m'
  | perform {name : String} {nodes : List Node} {b : Builtin} {values : List Value} {fuel : Nat} {c : Cause}
      {m' : Machine} :
      Builtin.ofName? name = some b → Gives (evaluateArguments · b.arguments nodes) m values m' →
        b.perform fuel values m' = .failed (.bare c) m' → Fails m (.invoke name nodes) c m'
  | lookup {name : String} {nodes : List Node} {c : Cause} :
      Builtin.ofName? name = none → Eval.function name m = .failed (.bare c) m → Fails m (.invoke name nodes) c m
  | count {f : Function} {nodes : List Node} :
      f.params.length ≠ nodes.length → Fails m (.call f nodes) (.parameterCount f.name) m
  | untold {f : Function} {nodes : List Node} {bound : List (Param × Cell)} {m' : Machine} :
      f.params.length = nodes.length → Gives (bindArguments · f.params nodes) m bound m' →
        m'.options.canTell m.stack.depth f.params.length = false → Fails m (.call f nodes) .stackOverflow m'
  | overflow {f : Function} {nodes : List Node} {bound : List (Param × Cell)} {m' : Machine} :
      f.params.length = nodes.length → Gives (bindArguments · f.params nodes) m bound m' →
        m'.options.canTell m.stack.depth f.params.length = true → m'.options.limit ≤ m.stack.depth →
          Fails m (.call f nodes) .stackOverflow (m'.tellCall f m.line m.stack.depth bound)
  | reference {p : Param} {params : List Param} {n : Node} {nodes : List Node} :
      p.byRef = true → n.kind ≠ .id →
        Fails m (.binding (p :: params) (n :: nodes)) .referenceArgument { m with line := n.line }
  | referenced {p : Param} {params : List Param} {n : Node} {nodes : List Node} {e : StackError} :
      p.byRef = true → n.kind = .id → m.stack.cell n.text = .error e →
        Fails m (.binding (p :: params) (n :: nodes)) (.stack e) { m with line := n.line }
  | defect {k : Kind} {l : Int} {t : String} {v : Option Value} {cs : List Node} {c : Cause} :
      statementDefect? k cs = some c → Fails m (.statement ⟨k, l, t, v, cs⟩) c { m with line := l }
  | target {l : Int} {t : String} {v : Option Value} {x e : Node} {cs : List Node} {y : Value} {m' : Machine} :
      Gives (Rover.evaluate · e) { m with line := l } y m' → m'.stack.frames = [] →
        Fails m (.statement ⟨.assign, l, t, v, x :: e :: cs⟩) (.stack .noActiveFunction) m'
  | condition {l : Int} {t : String} {v : Option Value} {c : Node} {bs : List Node} {x : Value} {e : Cause} {m' : Machine} :
      Gives (Rover.evaluate · c) { m with line := l } x m' → x.asBoolean = .error e →
        Fails m (.statement ⟨.ifElse, l, t, v, c :: bs⟩) e m'
  | branch {l : Int} {t : String} {v : Option Value} {c : Node} {m' : Machine} :
      Gives (Rover.evaluate · c) { m with line := l } (.boolean true) m' →
        Fails m (.statement ⟨.ifElse, l, t, v, [c]⟩) .missingPart m'
  | input {l : Int} {t : String} {v : Option Value} {cs : List Node} :
      m.input = [] → Fails m (.statement ⟨.read, l, t, v, cs⟩) .noInput { m.taken with line := l }
  | token {l : Int} {t : String} {v : Option Value} {cs : List Node} {token : String} {rest : List String} {e : Oversize} :
      m.input = token :: rest → Value.ofToken token = .error e →
        Fails m (.statement ⟨.read, l, t, v, cs⟩) (.oversize e) { m.taken with line := l }
  | destination {l : Int} {t : String} {v : Option Value} {token : String} {rest : List String} :
      m.input = token :: rest →
        Fails m (.statement ⟨.read, l, t, v, []⟩) .missingPart { m.taken with line := l }
  | destined {l : Int} {t : String} {v : Option Value} {x : Node} {cs : List Node} {token : String} {rest : List String} :
      m.input = token :: rest → m.stack.frames = [] →
        Fails m (.statement ⟨.read, l, t, v, x :: cs⟩) (.stack .noActiveFunction) { m.taken with line := l }
  | test {c : Node} {nodes : List Node} {x : Value} {e : Cause} {m' : Machine} :
      Gives (Rover.evaluate · c) m x m' → x.asBoolean = .error e → Fails m (.loop c nodes) e m'

/-- The call that has been told of without a record, if the task is stuck there: its function, and the line it is made at. -/
def announced (m : Machine) (c : Cause) : Task → List (String × Int)
  | .call f _ => if c = .stackOverflow ∧ m.options.canTell m.stack.depth f.params.length then [(f.name, m.line)] else []
  | _ => []

/-- A call that has been told of, and for whose record there is no room. -/
inductive Stuck (m : Machine) : Task → Cause → Machine → Prop
  | told {f : Function} {nodes : List Node} {bound : List (Param × Cell)} {n : Machine} : m.Proceeds n →
      n.options.canTell m.stack.depth f.params.length = true → n.options.limit ≤ m.stack.depth →
      Stuck m (.call f nodes) .stackOverflow (n.tellCall f m.line m.stack.depth bound)

theorem announced_of_ne {m : Machine} {c : Cause} (hc : c ≠ .stackOverflow) (t : Task) : t.announced m c = [] := by
  cases t with
  | call f nodes => exact if_neg fun h => hc h.1
  | _ => rfl

theorem announced_of_untold {m : Machine} {f : Function} (h : m.options.canTell m.stack.depth f.params.length = false)
    (nodes : List Node) (c : Cause) : (Task.call f nodes).announced m c = [] := by
  rw [announced, h]
  exact if_neg (by simp)

/-- A check is made in the records that the task has found, and nothing has been told there but of a call that is stuck. -/
theorem Fails.proceeds {t : Task} {c : Cause} {m m' : Machine} (h : t.Fails m c m') :
    m.Proceeds m' ∧ t.announced m c = [] ∨ t.Stuck m c m' := by
  cases h with
  | @result _ _ _ callee arguments _ _ hcall =>
      obtain ⟨fuel, hcall⟩ := hcall
      exact .inl ⟨.answer (t := .invoke callee.text arguments.children) .refl ⟨_, hcall⟩, rfl⟩
  | unary _ ha _ => exact .inl ⟨.evaluate .refl ha, rfl⟩
  | left _ ha _ => exact .inl ⟨.evaluate .refl ha, rfl⟩
  | right _ ha _ hb _ => exact .inl ⟨.evaluate (.evaluate .refl ha) hb, rfl⟩
  | binary _ ha hb _ => exact .inl ⟨.evaluate (.evaluate .refl ha) hb, rfl⟩
  | argument ha _ => exact .inl ⟨.evaluate .refl ha, rfl⟩
  | @perform _ nodes b _ _ _ _ _ harguments _ =>
      obtain ⟨fuel, harguments⟩ := harguments
      exact .inl ⟨.answer (t := .arguments b.arguments nodes) .refl ⟨_, harguments⟩, rfl⟩
  | untold _ hbound htell =>
      have hproceeds : m.Proceeds _ := .binding .refl hbound
      rw [hproceeds.options] at htell
      exact .inl ⟨hproceeds, announced_of_untold htell _ _⟩
  | overflow _ hbound htell hlimit => exact .inr (.told (.binding .refl hbound) htell hlimit)
  | reference _ _ => exact .inl ⟨.line _ .refl, rfl⟩
  | referenced _ _ _ => exact .inl ⟨.line _ .refl, rfl⟩
  | defect _ => exact .inl ⟨.line _ .refl, rfl⟩
  | target he _ => exact .inl ⟨.evaluate (.line _ .refl) he, rfl⟩
  | condition hc _ => exact .inl ⟨.evaluate (.line _ .refl) hc, rfl⟩
  | branch hc => exact .inl ⟨.evaluate (.line _ .refl) hc, rfl⟩
  | input _ => exact .inl ⟨.line _ (.token .refl), rfl⟩
  | token _ _ => exact .inl ⟨.line _ (.token .refl), rfl⟩
  | destination _ => exact .inl ⟨.line _ (.token .refl), rfl⟩
  | destined _ _ => exact .inl ⟨.line _ (.token .refl), rfl⟩
  | test hc _ => exact .inl ⟨.evaluate .refl hc, rfl⟩
  | count _ => exact .inl ⟨.refl, announced_of_ne (by simp) _⟩
  | _ => exact .inl ⟨.refl, rfl⟩

/-- The task fails. -/
def Faults (fuel : Nat) (m : Machine) (e : Fault) (m' : Machine) : Task → Prop
  | evaluate n => Rover.evaluate fuel n m = .failed e m'
  | node n => evaluateNode fuel n m = .failed e m'
  | invoke name nodes => Rover.invoke fuel name nodes m = .failed e m'
  | arguments types nodes => evaluateArguments fuel types nodes m = .failed e m'
  | call f nodes => invokeFunction fuel f nodes m = .failed e m'
  | binding params nodes => bindArguments fuel params nodes m = .failed e m'
  | block nodes => runBlock fuel nodes m = .failed e m'
  | statement n => runStatement fuel n m = .failed e m'
  | loop condition body => runLoop fuel condition body m = .failed e m'

/-- Why a task fails: by a check of its own, or with a task that it has started; the fault of a body is located there. -/
inductive Passes (fuel : Nat) (m : Machine) (t : Task) : Fault → Machine → Prop
  | own {c : Cause} {m' : Machine} : t.Fails m c m' → Passes fuel m t (.bare c) m'
  | inner {t' : Task} {n m' : Machine} {e : Fault} : t.Starts m t' n → t'.Faults fuel n e m' → Passes fuel m t e m'
  | body {nodes : List Node} {n m' : Machine} {e : Fault} :
      t.Starts m (.block nodes) n → 0 < m'.stack.depth → (Task.block nodes).Faults fuel n e m' →
        Passes fuel m t (m'.report e) m'.leave

namespace Passes

variable {fuel : Nat} {m m' : Machine} {e : Fault}

theorem evaluate {n : Node} (h : Rover.evaluate (fuel + 1) n m = .failed e m') :
    Passes fuel m (.evaluate n) e m' := by
  rw [evaluate_eq] at h
  split at h
  · cases h
  · rename_i hnode
    cases h
    exact .inner .node hnode
  · cases h

section Node

variable {k : Kind} {l : Int} {t : String} {v : Option Value}

/-- The right operand of a connective. -/
theorem connective {a b : Node} {cs : List Node} {x : Value} {m₁ : Machine} (hk : k = .and ∨ k = .or)
    (ha : Gives (Rover.evaluate · a) m x m₁) (hx : k.needsRight x)
    (h : (Rover.evaluate fuel b >>= fun y => Eval.ofExcept id y.asBoolean >>= fun c =>
      Pure.pure (Value.boolean c) : Eval Value) m₁ = .failed e m') :
    Passes fuel m (.node ⟨k, l, t, v, a :: b :: cs⟩) e m' := by
  have hoperator : k.isOperator = true := by rcases hk with rfl | rfl <;> rfl
  rcases failed_of_test h with hb | ⟨y, c, hb, hc, rfl⟩ | ⟨_, _, -, hpure⟩
  · exact .inner (.right hoperator ha hx) hb
  · exact .own (.right hk ha hx hb hc)
  · cases hpure

theorem binary {a b : Node} {cs : List Node} (hk : k.isOperator = true)
    (h : operation fuel k (a :: b :: cs) m = .failed e m') : Passes fuel m (.node ⟨k, l, t, v, a :: b :: cs⟩) e m' := by
  unfold operation at h
  dsimp only at h
  split at h
  · rcases failed_of_test h with ha | ⟨x, c, ha, hc, rfl⟩ | ⟨c, m₁, ha, h⟩
    · exact .inner (.operand rfl) ha
    · exact .own (.left (.inl rfl) ha hc)
    · cases c with
      | true => exact .connective (.inl rfl) ha rfl h
      | false => cases h
  · rcases failed_of_test h with ha | ⟨x, c, ha, hc, rfl⟩ | ⟨c, m₁, ha, h⟩
    · exact .inner (.operand rfl) ha
    · exact .own (.left (.inr rfl) ha hc)
    · cases c with
      | true => cases h
      | false => exact .connective (.inr rfl) ha rfl h
  · rename_i hand hor
    have hright (x : Value) : k.needsRight x := by
      unfold Kind.needsRight
      split
      · exact absurd rfl hand
      · exact absurd rfl hor
      · trivial
    rcases Eval.failed_of_bind h with ha | ⟨x, m₁, ha, h⟩
    · exact .inner (.operand hk) ha
    rcases Eval.failed_of_bind h with hb | ⟨y, m₂, hb, h⟩
    · exact .inner (.right hk ⟨fuel, ha⟩ (hright x)) hb
    obtain ⟨c, hc, rfl, rfl⟩ := Eval.failed_of_ofExcept h
    exact .own (.binary hk ⟨fuel, ha⟩ ⟨fuel, hb⟩ hc)

theorem operator {cs : List Node} (hk : k.isOperator = true) (h : operation fuel k cs m = .failed e m') :
    Passes fuel m (.node ⟨k, l, t, v, cs⟩) e m' := by
  rcases cs with _ | ⟨a, _ | ⟨b, cs⟩⟩
  · cases h
    exact .own (.operands hk)
  · rcases Eval.failed_of_bind h with ha | ⟨x, m₁, ha, h⟩
    · exact .inner (.operand hk) ha
    obtain ⟨c, hc, rfl, rfl⟩ := Eval.failed_of_ofExcept h
    exact .own (.unary hk ⟨fuel, ha⟩ hc)
  · exact .binary hk h

theorem callNode {cs : List Node} (h : evaluateNode (fuel + 1) ⟨.call, l, t, v, cs⟩ m = .failed e m') :
    Passes fuel m (.node ⟨.call, l, t, v, cs⟩) e m' := by
  have hdefect (hcs : cs.length < 2) : Passes fuel m (.node ⟨.call, l, t, v, cs⟩) e m' := by
    rw [evaluateNode_callDefect hcs] at h
    cases h
    exact .own (.callee hcs)
  rcases cs with _ | ⟨callee, _ | ⟨arguments, cs⟩⟩
  · exact hdefect (by simp)
  · exact hdefect (by simp)
  · rw [evaluateNode_call] at h
    rcases Eval.failed_of_bind h with hcall | ⟨x, m₁, hcall, h⟩
    · exact .inner .call hcall
    split_ifs at h with hvoid
    · cases h
      rw [Value.eq_void_of_isVoid hvoid] at hcall
      exact .own (.result ⟨fuel, hcall⟩)
    · cases h

end Node

theorem node {n : Node} (h : evaluateNode (fuel + 1) n m = .failed e m') : Passes fuel m (.node n) e m' := by
  obtain ⟨k, l, t, v, cs⟩ := n
  cases k.evaluated with
  | id =>
      rw [evaluateNode] at h
      unfold Eval.variableValue at h
      split at h
      · cases h
      · rename_i hget
        cases h
        exact .own (.variable hget)
  | literal hliteral =>
      rw [evaluateNode_literal hliteral] at h
      cases v with
      | some x => cases h
      | none =>
          cases h
          exact .own (.literal hliteral)
  | call => exact .callNode h
  | operator hoperator =>
      rw [evaluateNode_operator hoperator] at h
      exact .operator hoperator h

theorem invoke {name : String} {nodes : List Node} (h : Rover.invoke (fuel + 1) name nodes m = .failed e m') :
    Passes fuel m (.invoke name nodes) e m' := by
  cases hname : Builtin.ofName? name with
  | some b =>
      rw [invoke_operation hname] at h
      rcases precheck_cases b nodes.length m with hprecheck | ⟨c, hprecheck⟩
      · rw [Eval.bind_of_done hprecheck] at h
        rcases Eval.failed_of_bind h with harguments | ⟨values, m₁, harguments, h⟩
        · exact .inner (.operation hname hprecheck) harguments
        · obtain ⟨rfl, c, rfl⟩ := (Outcome.Acts.perform fuel b values m₁).of_failed h
          exact .own (.perform hname ⟨fuel, harguments⟩ h)
      · rw [Eval.bind_of_failed hprecheck] at h
        cases h
        exact .own (.precheck hname hprecheck)
  | none =>
      rw [invoke_function hname] at h
      rcases function_cases name m with ⟨p, f, -, -, hlookup⟩ | ⟨c, hlookup⟩
      · rw [Eval.bind_of_done hlookup] at h
        exact .inner (.function hname hlookup) h
      · rw [Eval.bind_of_failed hlookup] at h
        cases h
        exact .own (.lookup hname hlookup)

theorem arguments {types : List ArgumentType} {nodes : List Node}
    (h : evaluateArguments (fuel + 1) types nodes m = .failed e m') : Passes fuel m (.arguments types nodes) e m' := by
  match types, nodes with
  | [], _ => cases h
  | _ :: _, [] => cases h
  | t :: types, n :: nodes =>
      rw [evaluateArguments] at h
      rcases Eval.failed_of_bind h with hn | ⟨x, m₁, hn, h⟩
      · exact .inner .argument hn
      rcases Eval.failed_of_check h with ⟨c, hc, rfl, rfl⟩ | ⟨y, hy, h⟩
      · exact .own (.argument ⟨fuel, hn⟩ hc)
      rcases Eval.failed_of_bind h with hrest | ⟨_, _, -, hpure⟩
      · exact .inner (.arguments ⟨fuel, hn⟩ hy) hrest
      · cases hpure

/-- The rest of a call whose arguments have been evaluated. -/
theorem bound {f : Function} {nodes : List Node} {bound : List (Param × Cell)} {m₁ : Machine}
    (hlength : f.params.length = nodes.length) (hbound : bindArguments fuel f.params nodes m = .done bound m₁)
    (h : callWith fuel f m.line m.stack.depth bound m₁ = .failed e m') : Passes fuel m (.call f nodes) e m' := by
  rw [callWith_eq] at h
  split_ifs at h with htell hroom
  · have hstarts := Starts.body hlength ⟨fuel, hbound⟩ ⟨htell, hroom⟩
    cases hbody : runBlock fuel f.body.children ((m₁.tellCall f m.line m.stack.depth bound).enter f m.line bound) with
    | done r m₂ =>
        rw [hbody] at h
        cases h
    | failed e₀ m₂ =>
        have hdepth₂ := (stable_depth.runsKeep fuel).runBlock f.body.children
          ((m₁.tellCall f m.line m.stack.depth bound).enter f m.line bound)
        rw [hbody] at h hdepth₂
        cases h
        exact .body hstarts (hdepth₂ ▸ Nat.succ_pos _) hbody
    | unfinished =>
        rw [hbody] at h
        cases h
  · cases h
    exact .own (.overflow hlength ⟨fuel, hbound⟩ htell (Nat.le_of_not_lt hroom))
  · cases h
    exact .own (.untold hlength ⟨fuel, hbound⟩ (Bool.eq_false_iff.2 htell))

theorem call {f : Function} {nodes : List Node} (h : invokeFunction (fuel + 1) f nodes m = .failed e m') :
    Passes fuel m (.call f nodes) e m' := by
  by_cases hlength : f.params.length = nodes.length
  · rw [invokeFunction_eq, if_neg (not_not.2 hlength)] at h
    rcases Eval.failed_of_bind (x := Eval.site) h with hsite | ⟨site, m₁, hsite, h⟩
    · cases hsite
    · cases hsite
      rcases Eval.failed_of_bind h with hbound | ⟨bound, m₁, hbound, h⟩
      · exact .inner (.parameters hlength) hbound
      · exact .bound hlength hbound h
  · rw [invokeFunction_eq, if_pos hlength] at h
    cases h
    exact .own (.count hlength)

theorem binding {params : List Param} {nodes : List Node} (h : bindArguments (fuel + 1) params nodes m = .failed e m') :
    Passes fuel m (.binding params nodes) e m' := by
  match params, nodes with
  | [], _ => cases h
  | _ :: _, [] => cases h
  | p :: params, n :: nodes =>
      rw [bindArguments_cons] at h
      change (argumentCell fuel p n >>= _ : Eval _) { m with line := n.line } = _ at h
      rcases Eval.failed_of_bind h with hcell | ⟨cell, m₁, hcell, h⟩
      · unfold argumentCell at hcell
        split_ifs at hcell with href hid
        · unfold Eval.variableCell at hcell
          split at hcell
          · cases hcell
          · rename_i herror
            cases hcell
            exact .own (.referenced href hid herror)
        · cases hcell
          exact .own (.reference href hid)
        · rcases Eval.failed_of_bind hcell with hvalue | ⟨x, m₁, -, halloc⟩
          · exact .inner (.parameter (by simpa using href)) hvalue
          · cases halloc
      · rcases Eval.failed_of_bind h with hrest | ⟨_, _, -, hpure⟩
        · exact .inner (.binding ⟨fuel, hcell⟩) hrest
        · cases hpure

theorem block {nodes : List Node} (h : runBlock (fuel + 1) nodes m = .failed e m') : Passes fuel m (.block nodes) e m' := by
  match nodes with
  | [] => cases h
  | n :: nodes =>
      rw [runBlock] at h
      rcases Eval.failed_of_bind h with hfirst | ⟨r, m₁, hfirst, h⟩
      · exact .inner .statement hfirst
      · cases r with
        | some v => cases h
        | none => exact .inner (.block ⟨fuel, hfirst⟩) h

theorem loop {condition : Node} {body : List Node} (h : runLoop (fuel + 1) condition body m = .failed e m') :
    Passes fuel m (.loop condition body) e m' := by
  rw [runLoop] at h
  rcases failed_of_test h with htest | ⟨x, c, htest, hc, rfl⟩ | ⟨b, m₁, htest, h⟩
  · exact .inner .test htest
  · exact .own (.test htest hc)
  cases b with
  | false => cases h
  | true =>
      rcases Eval.failed_of_bind h with hround | ⟨r, m₂, hround, h⟩
      · exact .inner (.round htest) hround
      · cases r with
        | some v => cases h
        | none => exact .inner (.again htest ⟨fuel, hround⟩) h

section Statement

variable {l : Int} {t : String} {v : Option Value}

theorem assign {x n : Node} {cs : List Node}
    (h : runStatement (fuel + 1) ⟨.assign, l, t, v, x :: n :: cs⟩ m = .failed e m') :
    Passes fuel m (.statement ⟨.assign, l, t, v, x :: n :: cs⟩) e m' := by
  rw [runStatement_assign, Eval.setLine_bind] at h
  rcases Eval.failed_of_bind h with hn | ⟨y, m₁, hn, h⟩
  · exact .inner .assigned hn
  rcases Eval.failed_of_bind h with htarget | ⟨_, _, -, hpure⟩
  · obtain ⟨hframes, rfl, rfl⟩ := Eval.failed_of_assign htarget
    exact .own (.target ⟨fuel, hn⟩ hframes)
  · cases hpure

theorem ifElse {c : Node} {bs : List Node}
    (h : runStatement (fuel + 1) ⟨.ifElse, l, t, v, c :: bs⟩ m = .failed e m') :
    Passes fuel m (.statement ⟨.ifElse, l, t, v, c :: bs⟩) e m' := by
  rw [runStatement_ifElse, Eval.setLine_bind] at h
  rcases failed_of_test h with htest | ⟨x, d, htest, hd, rfl⟩ | ⟨b, m₁, htest, h⟩
  · exact .inner .condition htest
  · exact .own (.condition htest hd)
  cases b with
  | true =>
      cases bs with
      | nil =>
          cases h
          exact .own (.branch htest)
      | cons b bs => exact .inner (.consequent htest) h
  | false =>
      rcases bs with _ | ⟨a, _ | ⟨b, _ | ⟨d, bs⟩⟩⟩
      · cases h
      · cases h
      · exact .inner (.alternative htest) h
      · cases h

theorem read {cs : List Node} (h : runStatement (fuel + 1) ⟨.read, l, t, v, cs⟩ m = .failed e m') :
    Passes fuel m (.statement ⟨.read, l, t, v, cs⟩) e m' := by
  rw [runStatement_read, Eval.setLine_bind] at h
  cases hinput : m.input with
  | nil =>
      have hnext : Eval.nextToken { m with line := l } = .failed (.bare .noInput) { m.taken with line := l } :=
        Eval.nextToken_of_nil hinput
      rw [Eval.bind_of_failed hnext] at h
      cases h
      exact .own (.input hinput)
  | cons token rest =>
      have hnext : Eval.nextToken { m with line := l } = .done token { m.taken with line := l } :=
        Eval.nextToken_of_cons hinput
      rw [Eval.bind_of_done hnext] at h
      rcases Eval.failed_of_check h with ⟨o, ho, rfl, rfl⟩ | ⟨y, hy, h⟩
      · exact .own (.token hinput ho)
      cases cs with
      | nil =>
          cases h
          exact .own (.destination hinput)
      | cons x cs =>
          rcases Eval.failed_of_bind h with htarget | ⟨_, _, -, hpure⟩
          · obtain ⟨hframes, rfl, rfl⟩ := Eval.failed_of_assign htarget
            exact .own (.destined hinput hframes)
          · cases hpure

theorem ret {cs : List Node} (h : runStatement (fuel + 1) ⟨.ret, l, t, v, cs⟩ m = .failed e m') :
    Passes fuel m (.statement ⟨.ret, l, t, v, cs⟩) e m' := by
  match cs with
  | [] => cases h
  | n :: cs =>
      rw [runStatement_ret, Eval.setLine_bind] at h
      rcases Eval.failed_of_bind h with hn | ⟨_, _, -, hpure⟩
      · exact .inner .returned hn
      · cases hpure

theorem write {n : Node} {cs : List Node} (h : runStatement (fuel + 1) ⟨.write, l, t, v, n :: cs⟩ m = .failed e m') :
    Passes fuel m (.statement ⟨.write, l, t, v, n :: cs⟩) e m' := by
  rw [runStatement_write, Eval.setLine_bind] at h
  by_cases htext : n.kind = .string → n.value = none
  · rw [writeNode_value htext] at h
    rcases Eval.failed_of_bind h with hn | ⟨_, _, -, hwrite⟩
    · exact .inner (.written htext) hn
    · cases hwrite
  · obtain ⟨hkind, hvalue⟩ := Classical.not_imp.1 htext
    obtain ⟨x, hx⟩ := Option.ne_none_iff_exists'.1 hvalue
    rw [writeNode_text hkind hx] at h
    cases h

theorem called {callee arguments : Node} {cs : List Node}
    (h : runStatement (fuel + 1) ⟨.call, l, t, v, callee :: arguments :: cs⟩ m = .failed e m') :
    Passes fuel m (.statement ⟨.call, l, t, v, callee :: arguments :: cs⟩) e m' := by
  rw [runStatement_call, Eval.setLine_bind] at h
  rcases Eval.failed_of_bind h with hcall | ⟨_, _, -, hpure⟩
  · exact .inner .called hcall
  · cases hpure

end Statement

theorem statement {n : Node} (h : runStatement (fuel + 1) n m = .failed e m') : Passes fuel m (.statement n) e m' := by
  obtain ⟨k, l, t, v, cs⟩ := n
  cases statementShape k cs with
  | assign => exact .assign h
  | ifElse => exact .ifElse h
  | whileDo => exact .inner .loop h
  | ret => exact .ret h
  | read => exact .read h
  | write => exact .write h
  | call => exact .called h
  | defect hdefect =>
      rw [runStatement_defect hdefect] at h
      cases h
      exact .own (.defect hdefect)

end Passes

/-- The step from a failing task to its own check, or to the task where it fails. -/
theorem Faults.cases {fuel : Nat} {m m' : Machine} {t : Task} {e : Fault} (h : t.Faults (fuel + 1) m e m') :
    t.Passes fuel m e m' := by
  cases t with
  | evaluate n => exact .evaluate h
  | node n => exact .node h
  | invoke name nodes => exact .invoke h
  | arguments types nodes => exact .arguments h
  | call f nodes => exact .call h
  | binding params nodes => exact .binding h
  | block nodes => exact .block h
  | statement n => exact .statement h
  | loop condition body => exact .loop h

theorem not_faults_zero {m m' : Machine} {t : Task} {e : Fault} : ¬ t.Faults 0 m e m' := by
  intro h
  cases t <;> cases h

end Task

/-! ### Origins -/

namespace Machine

/-- How many of the innermost records a fault leaves before there is room to report it: none, unless it is an overflow. -/
def unreported (m : Machine) (c : Cause) : Nat :=
  if c = .stackOverflow then m.stack.depth - (m.options.limit - m.options.reportRoom) else 0

theorem unreported_of_ne {m : Machine} {c : Cause} (h : c ≠ .stackOverflow) : m.unreported c = 0 := if_neg h

theorem unreported_le (m : Machine) (c : Cause) : m.unreported c ≤ m.stack.depth := by
  unfold unreported
  split_ifs
  · exact Nat.sub_le _ _
  · exact Nat.zero_le _

/-- The fault reports a check made on the machine, at its line and with its records but the `k` innermost ones. -/
structure Reports (n : Machine) (k : Nat) (c : Cause) (e : Fault) : Prop where
  cause_eq : e.cause = c
  line_eq : c.category ≠ .internal → e.line = some n.line
  frames_eq : c.category ≠ .internal → n.options.traceItems = none →
    e.frames = Frame.entries n.line (n.stack.frames.drop k)

variable {n m' : Machine} {c : Cause} {e : Fault} {k : Nat}

theorem reports_locate_bare {stack : Stack} (hstack : stack.frames = n.stack.frames.drop k) :
    n.Reports k c ({ n with stack }.locate (.bare c)) := by
  refine ⟨cause_locate _ _, fun hc => ?_, fun hc hitems => ?_⟩
  · rw [Machine.locate, Fault.locate, if_neg (show (Fault.bare c).cause.category ≠ .internal from hc)]
    rfl
  · rw [Machine.locate, Fault.locate, if_neg (show (Fault.bare c).cause.category ≠ .internal from hc)]
    simp [Fault.bare, hitems, stackTrace, Stack.trace, hstack]

/-- The first who locates a fault decides its line and its call stack. -/
theorem Reports.locate (h : n.Reports k c e) (hk : k < n.stack.depth) (stack : Stack) :
    n.Reports k c ({ n with stack }.locate e) := by
  obtain ⟨rfl, hline, hframes⟩ := h
  refine ⟨cause_locate _ _, fun hc => ?_, fun hc hitems => ?_⟩
  · rw [Machine.locate, Fault.locate, if_neg hc]
    simp [hline hc]
  · have hne : e.frames ≠ [] := by
      rw [hframes hc hitems, List.drop_eq_getElem_cons hk]
      exact List.cons_ne_nil _ _
    rw [Machine.locate, Fault.locate, if_neg hc]
    simpa [hne] using hframes hc hitems

/-- What has become of a fault on its way out: it has not been located yet, or it has been where there was room first. -/
inductive Unwinds (n : Machine) (c : Cause) : Fault → Machine → Prop
  | pending (k : Nat) (stack : Stack) : k ≤ n.unreported c → stack.frames = n.stack.frames.drop k →
      Unwinds n c (.bare c) { n with stack }
  | located {e : Fault} (stack : Stack) : n.unreported c < n.stack.depth → n.Reports (n.unreported c) c e →
      Unwinds n c e { n with stack }

namespace Unwinds

theorem here (n : Machine) (c : Cause) : n.Unwinds c (.bare c) n := .pending 0 n.stack (Nat.zero_le _) rfl

/-- Outside of all records a fault is located as if there were room. -/
theorem locate (h : n.Unwinds c e m') :
    ∃ k ≤ n.unreported c, (m'.stack.frames = [] → k = n.unreported c) ∧ n.Reports k c (m'.locate e) := by
  cases h with
  | pending k stack hk hstack =>
      refine ⟨k, hk, fun hempty => ?_, reports_locate_bare hstack⟩
      have hdepth : n.stack.depth ≤ k := List.drop_eq_nil_iff.1 (hstack.symm.trans hempty)
      exact Nat.le_antisymm hk ((n.unreported_le c).trans hdepth)
  | located stack hdepth hreports => exact ⟨_, Nat.le_refl _, fun _ => rfl, hreports.locate hdepth stack⟩

theorem eq_stack (h : n.Unwinds c e m') : ∃ stack, m' = { n with stack } := by
  cases h with
  | pending k stack _ _ => exact ⟨stack, rfl⟩
  | located stack _ _ => exact ⟨stack, rfl⟩

/-- The fault leaves one more record, where it is reported if there is room. -/
theorem leave (h : n.Unwinds c e m') (hdepth : 0 < m'.stack.depth) : n.Unwinds c (m'.report e) m'.leave := by
  unfold Machine.report
  cases h with
  | pending k stack hk hstack =>
      have hlength : stack.depth = n.stack.depth - k := by
        rw [Stack.depth, hstack, List.length_drop]
        rfl
      change 0 < stack.depth at hdepth
      split_ifs with hreport
      · have hunreported : k = n.unreported c := by
          have hroom : c = .stackOverflow → stack.depth + n.options.reportRoom ≤ n.options.limit := by
            rintro rfl
            simpa [Options.canReport, Fault.bare] using hreport
          unfold unreported at hk ⊢
          split_ifs at hk ⊢ with hc
          · have hfits := hroom hc
            omega
          · omega
        subst hunreported
        exact .located stack.leave (by omega) (reports_locate_bare hstack)
      · -- There is no room here, so that this record is one of those that go unreported.
        obtain ⟨rfl, hroom⟩ : c = .stackOverflow ∧ n.options.limit < stack.depth + n.options.reportRoom := by
          simpa [Options.canReport, Fault.bare] using hreport
        refine .pending (k + 1) stack.leave ?_ ?_
        · rw [unreported, if_pos rfl]
          omega
        · rw [← List.drop_drop, ← hstack]
          rfl
  | located stack hpos hreports =>
      split_ifs
      · exact .located stack.leave hpos (hreports.locate hpos stack)
      · exact .located stack.leave hpos hreports

end Unwinds

end Machine

/-- A task that fails has led to a task that does not pass a check of its own. -/
theorem origin_of_faults {fuel : Nat} {m n m' : Machine} {first t : Task} {ts : List Task} {e : Fault}
    (htrail : m.Trails first (t :: ts) n) (h : t.Faults fuel n e m') :
    ∃ t' ts' n₁ c n₂, m.Trails first (t' :: ts') n₁ ∧ t'.Fails n₁ c n₂ ∧ n₂.Unwinds c e m' := by
  induction fuel generalizing t ts n e m' with
  | zero => exact absurd h Task.not_faults_zero
  | succ fuel ih =>
      cases h.cases with
      | own hfails => exact ⟨t, ts, n, _, m', htrail, hfails, .here _ _⟩
      | inner hstarts hinner => exact ih (htrail.step hstarts) hinner
      | body hstarts hdepth hbody =>
          obtain ⟨t', ts', n₁, c, n₂, htrail', hfails, hunwinds⟩ := ih (htrail.step hstarts) hbody
          exact ⟨t', ts', n₁, c, n₂, htrail', hfails, hunwinds.leave hdepth⟩

/-- The check that a failing call from outside does not pass, and what the fault tells about it. -/
theorem origin_of_call {fuel : Nat} {name : String} {nodes : List Node} {m m' : Machine} {e : Fault} {p : Program}
    (hp : m.program = some p) (h : Machine.call fuel name nodes m = .failed e m') :
    ∃ t ts n n', m.Trails (.invoke name nodes) (t :: ts) n ∧ t.Fails n e.cause n' ∧ (∃ stack, m' = { n' with stack }) ∧
      ∃ k ≤ n'.unreported e.cause, (m'.stack.frames = [] → k = n'.unreported e.cause) ∧ n'.Reports k e.cause e := by
  unfold Machine.call at h
  simp only [hp] at h
  split at h
  · rename_i e₀ m₀ hinvoke
    cases h
    obtain ⟨t, ts, n, c, n', htrail, hfails, hunwinds⟩ := origin_of_faults .first (t := .invoke name nodes) hinvoke
    obtain ⟨k, hk, hempty, hreports⟩ := hunwinds.locate
    cases hreports.cause_eq
    exact ⟨t, ts, n, n', htrail, hfails, hunwinds.eq_stack, k, hk, hempty, hreports⟩
  · rename_i hinvoke
    exact absurd h (hinvoke _ _)

/-- How a program text fails, run from a function on in a new machine: the cause, the line and the call stack. -/
def failure? (fuel : Nat) (source entry : String) : Option (Cause × Option Int × List String) :=
  ((Machine.initial .default "" .unobserved).loadSource source).toOption.bind fun loaded =>
    match Machine.run fuel entry loaded.2 with
    | .failed e _ => some (e.cause, e.line, e.frames)
    | _ => none

theorem failed_of_failure? {fuel : Nat} {source entry : String} {c : Cause} {line : Option Int} {frames : List String}
    (h : failure? fuel source entry = some (c, line, frames)) :
    ∃ tree m e m', (Machine.initial .default "" .unobserved).loadSource source = .ok (tree, m) ∧
      Machine.run fuel entry m = .failed e m' ∧ e.cause = c ∧ e.line = line ∧ e.frames = frames := by
  obtain ⟨⟨tree, m⟩, hload, hrun⟩ := Option.bind_eq_some_iff.1 h
  have hsource := eq_ok_of_toOption hload
  dsimp only at hrun
  split at hrun
  · rename_i e m' hfailed
    cases hrun
    exact ⟨tree, m, e, m', hsource, hfailed, rfl, rfl, rfl⟩
  · cases hrun

end Rover
