import Rover.Proofs.Equations

/-!
# Runs side by side

Two runs of the evaluator, of one program or of two that are alike, on machines that correspond to each other. A
`Simulation` says what corresponds: machines, cells, names, nodes, faults. What corresponds may depend on what has happened
so far, so it is indexed by a state of knowledge that only grows (which cells there are, which records are open). The laws
of a simulation (`Lawful`) ask that primitive steps lead from corresponding machines to corresponding machines; from them
follows here what is true of the operations that the evaluator is made of.
-/

namespace Rover

/-- Two outcomes of one kind: answers, faults and machines correspond. -/
inductive Outcome.Alike {α α' : Type} (A : α → α' → Machine → Machine → Prop)
    (F : Fault → Fault → Machine → Machine → Prop) : Outcome α → Outcome α' → Prop
  | done {a : α} {a' : α'} {m m' : Machine} : A a a' m m' → Alike A F (.done a m) (.done a' m')
  | failed {e e' : Fault} {m m' : Machine} : F e e' m m' → Alike A F (.failed e m) (.failed e' m')
  | unfinished : Alike A F .unfinished .unfinished

theorem Outcome.Alike.imp {α α' : Type} {A B : α → α' → Machine → Machine → Prop} {F G : Fault → Fault → Machine → Machine → Prop}
    {o : Outcome α} {o' : Outcome α'} (h : Alike A F o o') (hdone : ∀ a a' n n', A a a' n n' → B a a' n n')
    (hfailed : ∀ e e' n n', F e e' n n' → G e e' n n') : Alike B G o o' := by
  cases h with
  | done h => exact .done (hdone _ _ _ _ h)
  | failed h => exact .failed (hfailed _ _ _ _ h)
  | unfinished => exact .unfinished

/-- What corresponds in two runs. Most of it depends on a state of knowledge. -/
structure Simulation (W : Type) where
  machine : W → Machine → Machine → Prop
  /-- What may be known later. -/
  later : W → W → Prop
  /-- The values that occur; they are the same in both runs. -/
  value : Value → Prop
  cell : W → Cell → Cell → Prop
  /-- Names of variables that may be read. -/
  name : W → String → String → Prop
  /-- Names of variables that may be assigned to. -/
  target : W → String → String → Prop
  /-- Parameters of a function of the first run. -/
  param : Function → Param → Param → Prop
  line : Int → Int → Prop
  fault : W → Fault → Fault → Prop
  function : Function → Function → Prop
  /-- Nodes that may be evaluated. -/
  expression : W → Node → Node → Prop
  /-- Nodes that may be run as statements. -/
  statement : W → Node → Node → Prop

namespace Simulation

variable {W : Type} (S : Simulation W)

/-- Both runs may fail so, whatever is known. -/
def cause (c : Cause) : Prop := ∀ w, S.fault w (.bare c) (.bare c)

def expressions (w : W) : List Node → List Node → Prop := List.Forall₂ (S.expression w)

def block (w : W) (b b' : Node) : Prop := List.Forall₂ (S.statement w) b.children b'.children

/-- The arguments of a function of the first run. -/
def bound (f : Function) (w : W) : List (Param × Cell) → List (Param × Cell) → Prop :=
  List.Forall₂ fun b b' => S.param f b.1 b'.1 ∧ S.cell w b.2 b'.2

/-- The forms of corresponding nodes that may be evaluated; a form that makes a run fail needs the fault. -/
inductive ExpressionForm (w : W) : Node → Node → Prop
  | id {l l' : Int} {t t' : String} {v v' : Option Value} {cs cs' : List Node} :
      S.name w t t' → ExpressionForm w ⟨.id, l, t, v, cs⟩ ⟨.id, l', t', v', cs'⟩
  | literal {k : Kind} {l l' : Int} {t t' : String} {v : Option Value} {cs cs' : List Node} :
      k.isLiteral = true → (∀ x ∈ v, S.value x) → (v = none → S.cause (.unresolvedLiteral k)) →
        ExpressionForm w ⟨k, l, t, v, cs⟩ ⟨k, l', t', v, cs'⟩
  | call {l l' : Int} {t t' : String} {v v' : Option Value} {callee callee' arguments arguments' : Node}
      {cs cs' : List Node} :
      callee'.text = callee.text → S.expressions w arguments.children arguments'.children →
        ExpressionForm w ⟨.call, l, t, v, callee :: arguments :: cs⟩ ⟨.call, l', t', v', callee' :: arguments' :: cs'⟩
  | callDefect {l l' : Int} {t t' : String} {v v' : Option Value} {cs cs' : List Node} :
      cs.length < 2 → cs'.length < 2 → S.cause .missingPart →
        ExpressionForm w ⟨.call, l, t, v, cs⟩ ⟨.call, l', t', v', cs'⟩
  | unary {k : Kind} {l l' : Int} {t t' : String} {v v' : Option Value} {a a' : Node} :
      k.isOperator = true → S.expression w a a' → (∀ x c, unaryValue k x = .error c → S.cause c) →
        ExpressionForm w ⟨k, l, t, v, [a]⟩ ⟨k, l', t', v', [a']⟩
  | binary {k : Kind} {l l' : Int} {t t' : String} {v v' : Option Value} {a a' b b' : Node} {cs cs' : List Node} :
      k.isOperator = true → S.expression w a a' → S.expression w b b' →
        (k ≠ .and → k ≠ .or → ∀ x y c, binaryValue k x y = .error c → S.cause c) →
          ExpressionForm w ⟨k, l, t, v, a :: b :: cs⟩ ⟨k, l', t', v', a' :: b' :: cs'⟩
  | operandDefect {k : Kind} {l l' : Int} {t t' : String} {v v' : Option Value} :
      k.isOperator = true → S.cause .missingPart → ExpressionForm w ⟨k, l, t, v, []⟩ ⟨k, l', t', v', []⟩

/-- The forms of corresponding nodes that may be run as statements. -/
inductive StatementForm (w : W) : Node → Node → Prop
  | assign {l l' : Int} {t t' : String} {v v' : Option Value} {x x' e e' : Node} {cs cs' : List Node} :
      S.target w x.text x'.text → S.expression w e e' →
        StatementForm w ⟨.assign, l, t, v, x :: e :: cs⟩ ⟨.assign, l', t', v', x' :: e' :: cs'⟩
  | ifElse {l l' : Int} {t t' : String} {v v' : Option Value} {c c' : Node} {bs bs' : List Node} :
      S.expression w c c' → List.Forall₂ (S.block w) bs bs' → (bs = [] → S.cause .missingPart) →
        StatementForm w ⟨.ifElse, l, t, v, c :: bs⟩ ⟨.ifElse, l', t', v', c' :: bs'⟩
  | whileDo {l l' : Int} {t t' : String} {v v' : Option Value} {c c' b b' : Node} :
      S.expression w c c' → S.block w b b' →
        StatementForm w ⟨.whileDo, l, t, v, [c, b]⟩ ⟨.whileDo, l', t', v', [c', b']⟩
  | retVoid {l l' : Int} {t t' : String} {v v' : Option Value} :
      StatementForm w ⟨.ret, l, t, v, []⟩ ⟨.ret, l', t', v', []⟩
  | ret {l l' : Int} {t t' : String} {v v' : Option Value} {e e' : Node} {cs cs' : List Node} :
      S.expression w e e' → StatementForm w ⟨.ret, l, t, v, e :: cs⟩ ⟨.ret, l', t', v', e' :: cs'⟩
  | read {l l' : Int} {t t' : String} {v v' : Option Value} {x x' : Node} {cs cs' : List Node} :
      S.target w x.text x'.text →
        StatementForm w ⟨.read, l, t, v, x :: cs⟩ ⟨.read, l', t', v', x' :: cs'⟩
  | readDefect {l l' : Int} {t t' : String} {v v' : Option Value} :
      S.cause .missingPart → StatementForm w ⟨.read, l, t, v, []⟩ ⟨.read, l', t', v', []⟩
  | write {l l' : Int} {t t' : String} {v v' : Option Value} {e e' : Node} {cs cs' : List Node} :
      S.expression w e e' → StatementForm w ⟨.write, l, t, v, e :: cs⟩ ⟨.write, l', t', v', e' :: cs'⟩
  | call {l l' : Int} {t t' : String} {v v' : Option Value} {callee callee' arguments arguments' : Node}
      {cs cs' : List Node} :
      callee'.text = callee.text → S.expressions w arguments.children arguments'.children →
        StatementForm w ⟨.call, l, t, v, callee :: arguments :: cs⟩ ⟨.call, l', t', v', callee' :: arguments' :: cs'⟩
  | defect {k k' : Kind} {l l' : Int} {t t' : String} {v v' : Option Value} {cs cs' : List Node} {c : Cause} :
      statementDefect? k cs = some c → statementDefect? k' cs' = some c → S.cause c →
        StatementForm w ⟨k, l, t, v, cs⟩ ⟨k', l', t', v', cs'⟩

/-! ### Nodes that correspond to themselves -/

section Self

variable {S} {w : W} (hcause : ∀ c, S.cause c) {n : Node} (hexpression : ∀ c ∈ n.children, S.expression w c c)
  (harguments : ∀ c ∈ n.children, S.expressions w c.children c.children)

include hcause hexpression harguments

/-- If a run may fail in every way, a node of any form may be evaluated. -/
theorem ExpressionForm.self (hname : ∀ x, S.name w x x)
    (hvalue : n.kind.isLiteral = true → ∀ v ∈ n.value, S.value v) : S.ExpressionForm w n n := by
  obtain ⟨k, l, t, v, cs⟩ := n
  cases k.evaluated with
  | id => exact .id (hname t)
  | literal hliteral => exact .literal hliteral (hvalue hliteral) fun _ => hcause _
  | call =>
      rcases cs with _ | ⟨callee, _ | ⟨arguments, cs⟩⟩
      · exact .callDefect (by simp) (by simp) (hcause _)
      · exact .callDefect (by simp) (by simp) (hcause _)
      · exact .call rfl (harguments arguments (by simp))
  | operator hoperator =>
      rcases cs with _ | ⟨a, _ | ⟨b, cs⟩⟩
      · exact .operandDefect hoperator (hcause _)
      · exact .unary hoperator (hexpression a (by simp)) fun _ _ _ => hcause _
      · exact .binary hoperator (hexpression a (by simp)) (hexpression b (by simp)) fun _ _ _ _ _ _ => hcause _

/-- If a run may fail in every way, a node of any form may be run as a statement. -/
theorem StatementForm.self (htarget : ∀ x, S.target w x x) (hblock : ∀ c ∈ n.children, S.block w c c) :
    S.StatementForm w n n := by
  obtain ⟨k, l, t, v, cs⟩ := n
  cases statementShape k cs with
  | assign x e cs => exact .assign (htarget x.text) (hexpression e (by simp))
  | ifElse c bs =>
      refine .ifElse (hexpression c (by simp)) ?_ fun _ => hcause _
      exact List.forall₂_same.2 fun b hb => hblock b (List.mem_cons_of_mem _ hb)
  | whileDo c b => exact .whileDo (hexpression c (by simp)) (hblock b (by simp))
  | ret =>
      cases cs with
      | nil => exact .retVoid
      | cons e cs => exact .ret (hexpression e (by simp))
  | read =>
      cases cs with
      | nil => exact .readDefect (hcause _)
      | cons x cs => exact .read (htarget x.text)
  | write e cs => exact .write (hexpression e (by simp))
  | call callee arguments cs => exact .call rfl (harguments arguments (by simp))
  | defect hdefect => exact .defect hdefect hdefect (hcause _)

end Self

/-- From corresponding machines on, the second computation does what the first one does. -/
def Follows {α α' : Type} (w : W) (A : W → α → α' → Prop) (x : Eval α) (x' : Eval α') : Prop :=
  ∀ m m', S.machine w m m' →
    Outcome.Alike (fun a a' n n' => ∃ w', S.later w w' ∧ S.machine w' n n' ∧ A w' a a')
      (fun e e' n n' => ∃ w', S.fault w' e e' ∧ S.later w w' ∧ S.machine w' n n') (x m) (x' m')

/-- The same answer, whatever is known. -/
def same {α : Type} (_ : W) (a a' : α) : Prop := a' = a

/-- The same value, one of those that occur. -/
def sameValue (_ : W) (v v' : Value) : Prop := v' = v ∧ S.value v

/-- The same result of a call. -/
def sameResult (_ : W) (v v' : Value) : Prop := v' = v ∧ (v = .void ∨ S.value v)

/-- The same return from a statement, or none. -/
def sameReturn (_ : W) (r r' : Option Value) : Prop := r' = r ∧ ∀ v ∈ r, v = .void ∨ S.value v

/-- The laws of a simulation: its parts fit together, and primitive steps lead to corresponding machines. -/
structure Lawful : Prop where
  refl (w : W) : S.later w w
  trans {a b c : W} : S.later a b → S.later b c → S.later a c
  cell_later {w w' : W} {c c' : Cell} : S.later w w' → S.cell w c c' → S.cell w' c c'
  target_later {w w' : W} {x x' : String} : S.later w w' → S.target w x x' → S.target w' x x'
  expression_later {w w' : W} {n n' : Node} : S.later w w' → S.expression w n n' → S.expression w' n n'
  statement_later {w w' : W} {n n' : Node} : S.later w w' → S.statement w n n' → S.statement w' n n'
  expression_form {w : W} {n n' : Node} : S.expression w n n' → S.ExpressionForm w n n'
  statement_form {w : W} {n n' : Node} : S.statement w n n' → S.StatementForm w n n'
  expression_line {w : W} {n n' : Node} : S.expression w n n' → S.line n.line n'.line
  statement_line {w : W} {n n' : Node} : S.statement w n n' → S.line n.line n'.line
  function_name {f f' : Function} : S.function f f' → f'.name = f.name
  function_params {f f' : Function} : S.function f f' → List.Forall₂ (S.param f) f.params f'.params
  param_byRef {f : Function} {p p' : Param} : S.param f p p' → p'.byRef = p.byRef
  value_boolean (b : Bool) : S.value (.boolean b)
  value_ofInt (n : Int) : S.value (.ofInt n)
  value_ofFloat (x : Float) : S.value (.ofFloat x)
  value_ofToken {token : String} {v : Value} : Value.ofToken token = .ok v → S.value v
  /-- The name of a variable that is not defined is the affair of `variableCell`. -/
  ordinary {c : Cause} : c.isOrdinary = true → (∀ x, c ≠ .stack (.undefinedVariable x)) → S.cause c
  /-- Once it is located, a fault does not depend on what is known. -/
  locate {w : W} {m m' : Machine} {e e' : Fault} :
    S.machine w m m' → S.fault w e e' → ∀ w', S.fault w' (m.locate e) (m'.locate e')
  /-- An overflow does not depend on it either, located or not. -/
  overflow {w : W} {e e' : Fault} : S.fault w e e' →
    (e'.cause = .stackOverflow ↔ e.cause = .stackOverflow) ∧ (e.cause = .stackOverflow → ∀ w', S.fault w' e e')
  machine_line {w : W} {m m' : Machine} : S.machine w m m' → S.line m.line m'.line
  machine_depth {w : W} {m m' : Machine} : S.machine w m m' → m'.stack.depth = m.stack.depth
  machine_world {w : W} {m m' : Machine} : S.machine w m m' → m'.world = m.world
  machine_options {w : W} {m m' : Machine} : S.machine w m m' → m'.options = m.options
  content {w : W} {m m' : Machine} {c c' : Cell} :
    S.machine w m m' → S.cell w c c' → m'.stack.content c' = m.stack.content c ∧ S.value (m.stack.content c)
  setLine {w : W} {m m' : Machine} {l l' : Int} :
    S.machine w m m' → S.line l l' → S.machine w { m with line := l } { m' with line := l' }
  wrote {w : W} {m m' : Machine} (text : String) :
    S.machine w m m' → S.machine w (m.emit (.wrote text)) (m'.emit (.wrote text))
  nextToken (w : W) : S.Follows w same Eval.nextToken Eval.nextToken
  lookup (w : W) (name : String) : S.Follows w (fun _ => S.function) (Eval.function name) (Eval.function name)
  variableCell {w : W} {x x' : String} : S.name w x x' → S.Follows w S.cell (Eval.variableCell x) (Eval.variableCell x')
  alloc {w : W} {v : Value} : S.value v → S.Follows w S.cell (Eval.alloc v) (Eval.alloc v)
  assign {w : W} {x x' : String} {v : Value} :
    S.target w x x' → S.value v → S.Follows w same (Eval.assign x v) (Eval.assign x' v)
  act {w : W} {m m' : Machine} {op : Operation} {fuel : Nat} {e : Effect} (lines : List String) :
    S.machine w m m' → op.perform fuel m.world = some (.ok e) →
      S.machine w (m.act e.world e.events lines) (m'.act e.world e.events lines)
  refuse {w : W} {m m' : Machine} {op : Operation} {fuel : Nat} {err : WorldError} :
    S.machine w m m' → op.perform fuel m.world = some (.error err) → S.cause (.world err)
  tellCall {w : W} {m m' : Machine} {f f' : Function} {l l' : Int} {bound bound' : List (Param × Cell)} (depth : Nat) :
    S.machine w m m' → S.function f f' → S.line l l' → S.bound f w bound bound' →
      S.machine w (m.tellCall f l depth bound) (m'.tellCall f' l' depth bound')
  tellReturn {w : W} {m m' : Machine} {f f' : Function} {v : Value} {bound bound' : List (Param × Cell)} (depth : Nat) :
    S.machine w m m' → S.function f f' → v = .void ∨ S.value v → S.bound f w bound bound' →
      S.machine w (m.tellReturn f v depth bound) (m'.tellReturn f' v depth bound')
  enter {w : W} {m m' : Machine} {f f' : Function} {l l' : Int} {bound bound' : List (Param × Cell)} :
    S.machine w m m' → S.function f f' → S.line l l' → S.bound f w bound bound' →
      ∃ w₁, S.machine w₁ (m.enter f l bound) (m'.enter f' l' bound') ∧ S.block w₁ f.body f'.body ∧
        S.bound f w₁ bound bound' ∧
        ∀ w₂ n n', S.later w₁ w₂ → S.machine w₂ n n' → ∃ w₃, S.later w w₃ ∧ S.machine w₃ n.leave n'.leave


/-! ### Following step by step -/

namespace Lawful

variable {S} (hS : S.Lawful) {α α' β β' : Type} {w : W}

include hS

theorem pure {A : W → α → α' → Prop} {a : α} {a' : α'} (ha : A w a a') :
    S.Follows w A (Pure.pure a : Eval α) (Pure.pure a' : Eval α') :=
  fun _ _ hm => .done ⟨w, hS.refl w, hm, ha⟩

theorem fail {A : W → α → α' → Prop} {c : Cause} (hc : S.cause c) :
    S.Follows w A (Eval.fail c : Eval α) (Eval.fail c : Eval α') :=
  fun _ _ hm => .failed ⟨w, hc w, hS.refl w, hm⟩

theorem bind {A : W → α → α' → Prop} {B : W → β → β' → Prop} {x : Eval α} {x' : Eval α'} {f : α → Eval β}
    {f' : α' → Eval β'} (hx : S.Follows w A x x')
    (hf : ∀ w₁ a a', S.later w w₁ → A w₁ a a' → S.Follows w₁ B (f a) (f' a')) :
    S.Follows w B (x >>= f) (x' >>= f') := by
  intro m m' hm
  change Outcome.Alike _ _ (Eval.bind x f m) (Eval.bind x' f' m')
  unfold Eval.bind
  have hfirst := hx m m' hm
  generalize x m = o at hfirst ⊢
  generalize x' m' = o' at hfirst ⊢
  cases hfirst with
  | unfinished => exact .unfinished
  | failed h => exact .failed h
  | @done a a' n n' h =>
      obtain ⟨w₁, hw₁, hn, ha⟩ := h
      have hsecond := hf w₁ a a' hw₁ ha n n' hn
      dsimp only
      generalize f a n = o at hsecond ⊢
      generalize f' a' n' = o' at hsecond ⊢
      cases hsecond with
      | unfinished => exact .unfinished
      | failed h =>
          obtain ⟨w₂, he, hw₂, hn₂⟩ := h
          exact .failed ⟨w₂, he, hS.trans hw₁ hw₂, hn₂⟩
      | done h =>
          obtain ⟨w₂, hw₂, hn₂, hb⟩ := h
          exact .done ⟨w₂, hS.trans hw₁ hw₂, hn₂, hb⟩

theorem ofExcept {A : W → α → α → Prop} {r : Except Cause α} (herror : ∀ c, r = .error c → S.cause c)
    (hok : ∀ a, r = .ok a → A w a a) : S.Follows w A (Eval.ofExcept id r) (Eval.ofExcept id r) := by
  cases r with
  | error c => exact hS.fail (herror c rfl)
  | ok a => exact hS.pure (hok a rfl)

/-- Both computations start with the same check. -/
theorem ofExcept_bind {ε : Type} {cause : ε → Cause} {B : W → β → β' → Prop} {r : Except ε α} {f : α → Eval β}
    {f' : α → Eval β'} (herror : ∀ e, r = .error e → S.cause (cause e))
    (hok : ∀ a, r = .ok a → S.Follows w B (f a) (f' a)) :
    S.Follows w B (Eval.ofExcept cause r >>= f) (Eval.ofExcept cause r >>= f') := by
  cases r with
  | error e =>
      exact hS.bind (A := fun _ _ _ => False) (hS.fail (herror e rfl)) fun _ _ _ _ hfalse => hfalse.elim
  | ok a => exact hok a rfl

theorem guard {B : W → β → β' → Prop} {p : Prop} [Decidable p] {c : Cause} {x : Unit → Eval β} {x' : Unit → Eval β'}
    (hc : S.cause c) (hx : S.Follows w B (x ()) (x' ())) :
    S.Follows w B (if p then Eval.fail c >>= x else x ()) (if p then Eval.fail c >>= x' else x' ()) := by
  split_ifs
  · exact hS.bind (A := fun _ _ _ => False) (hS.fail hc) fun _ _ _ _ hfalse => hfalse.elim
  · exact hx

theorem report {m m' : Machine} {e e' : Fault} (hm : S.machine w m m') (he : S.fault w e e') (w' : W) :
    S.fault w' (m.report e) (m'.report e') := by
  obtain ⟨hiff, hoverflow⟩ := hS.overflow he
  have hcan : m'.options.canReport e'.cause m'.stack.depth = m.options.canReport e.cause m.stack.depth := by
    rw [hS.machine_options hm, hS.machine_depth hm]
    simp only [Options.canReport, bne, beq_eq_decide, hiff]
  unfold Machine.report
  rw [hcan]
  split_ifs with hreport
  · exact hS.locate hm he w'
  · refine hoverflow ?_ w'
    by_contra hcause
    exact hreport (by simp [Options.canReport, hcause])

theorem moveTo {l l' : Int} (hl : S.line l l') : S.Follows w same (Eval.setLine l) (Eval.setLine l') :=
  fun _ _ hm => .done ⟨w, hS.refl w, hS.setLine hm hl, rfl⟩

theorem atLine {A : W → α → α' → Prop} {l l' : Int} {x : Eval α} {x' : Eval α'} (hl : S.line l l')
    (hx : S.Follows w A x x') : S.Follows w A (Eval.atLine l x) (Eval.atLine l' x') := by
  intro m m' hm
  have hback : S.Follows w A (x >>= fun a => Eval.setLine m.line >>= fun _ => Pure.pure a)
      (x' >>= fun a => Eval.setLine m'.line >>= fun _ => Pure.pure a) := by
    refine hS.bind hx fun w₁ a a' _ ha => ?_
    intro n n' hn
    exact .done ⟨w₁, hS.refl w₁, hS.setLine hn (hS.machine_line hm), ha⟩
  exact hback _ _ (hS.setLine hm hl)

theorem write (text : String) : S.Follows w same (Eval.emit (.wrote text)) (Eval.emit (.wrote text)) :=
  fun _ _ hm => .done ⟨w, hS.refl w, hS.wrote text hm, rfl⟩

theorem site : S.Follows w (fun _ s s' => S.line s.1 s'.1 ∧ s'.2 = s.2) Eval.site Eval.site :=
  fun _ _ hm => .done ⟨w, hS.refl w, hm, hS.machine_line hm, hS.machine_depth hm⟩

theorem variableValue {x x' : String} (hx : S.name w x x') :
    S.Follows w S.sameValue (Eval.variableValue x) (Eval.variableValue x') := by
  intro m m' hm
  have hcell := hS.variableCell hx m m' hm
  unfold Eval.variableCell at hcell
  unfold Eval.variableValue Stack.get
  cases h : m.stack.cell x with
  | error e =>
      rw [h] at hcell
      cases h' : m'.stack.cell x' with
      | error e' =>
          rw [h'] at hcell
          cases hcell with
          | failed hfault => exact .failed hfault
      | ok c' =>
          rw [h'] at hcell
          cases hcell
  | ok c =>
      rw [h] at hcell
      cases h' : m'.stack.cell x' with
      | error e' =>
          rw [h'] at hcell
          cases hcell
      | ok c' =>
          rw [h'] at hcell
          cases hcell with
          | done hdone =>
              obtain ⟨w₁, hw₁, hm₁, hc⟩ := hdone
              exact .done ⟨w₁, hw₁, hm₁, hS.content hm₁ hc⟩

/-- A statement that answers nothing. -/
theorem silent {α α' : Type} {A : W → α → α' → Prop} {x : Eval α} {x' : Eval α'} (hx : S.Follows w A x x') :
    S.Follows w S.sameReturn (x >>= fun _ => Pure.pure none) (x' >>= fun _ => Pure.pure none) :=
  hS.bind hx fun _ _ _ _ _ => hS.pure ⟨rfl, nofun⟩

/-! ### Robot operations -/

theorem ask {question : World → Except WorldError α}
    (herror : ∀ m m' err, S.machine w m m' → question m.world = .error err → S.cause (.world err)) :
    S.Follows w same (Eval.ask question) (Eval.ask question) := by
  intro m m' hm
  unfold Eval.ask
  rw [hS.machine_world hm]
  cases h : question m.world with
  | error err => exact .failed ⟨w, herror m m' err hm h w, hS.refl w, hm⟩
  | ok a => exact .done ⟨w, hS.refl w, hm, rfl⟩

theorem world {operation : World → Except WorldError (Change α)} {narrate : α → World → List String}
    (op : Operation) (hop : ∀ v, op.perform 0 v = some ((operation v).map Change.effect)) :
    S.Follows w same (Eval.world operation narrate) (Eval.world operation narrate) := by
  intro m m' hm
  have hperform := hop m.world
  unfold Eval.world
  rw [hS.machine_world hm]
  cases h : operation m.world with
  | error err =>
      rw [h] at hperform
      exact .failed ⟨w, hS.refuse hm hperform w, hS.refl w, hm⟩
  | ok c =>
      rw [h] at hperform
      exact .done ⟨w, hS.refl w, hS.act (narrate c.answer c.world) hm hperform, rfl⟩

theorem performMove (fuel : Nat) (distance : Float) :
    S.Follows w S.sameResult (Builtin.performMove fuel distance) (Builtin.performMove fuel distance) := by
  intro m m' hm
  unfold Builtin.performMove
  rw [hS.machine_world hm]
  have hperform : (Operation.move distance).perform fuel m.world =
      (m.world.move fuel distance).map (·.map Change.effect) := rfl
  cases hmove : m.world.move fuel distance with
  | none => exact .unfinished
  | some r =>
      rw [hmove] at hperform
      cases r with
      | error err => exact .failed ⟨w, hS.refuse hm hperform w, hS.refl w, hm⟩
      | ok c =>
          have hact := hS.act (Narration.moved c.world) hm hperform
          dsimp only
          exact .done ⟨w, hS.refl w, hact, rfl, .inl rfl⟩

theorem feel (sensor : Int) : S.Follows w same (Eval.ask (·.feel sensor)) (Eval.ask (·.feel sensor)) := by
  refine hS.ask fun m m' err hm herr => ?_
  have hperform : (Operation.feel sensor).perform 0 m.world = some (.error err) := by
    rw [Operation.perform, herr]
    rfl
  exact hS.refuse hm hperform

theorem notPositioned {err : WorldError} {v : World} (h : v.requirePositioned = .error err) : S.cause (.world err) := by
  unfold World.requirePositioned at h
  split at h
  · cases h
  · cases h
    exact hS.ordinary rfl nofun

/-- A question that a robot answers as soon as it has been placed. -/
theorem inquire {question : World → α} :
    S.Follows w same (Eval.ask fun v => v.requirePositioned >>= fun _ => Pure.pure (question v))
      (Eval.ask fun v => v.requirePositioned >>= fun _ => Pure.pure (question v)) := by
  refine hS.ask fun m m' err _ herr => ?_
  cases h : m.world.requirePositioned with
  | error e =>
      rw [h] at herr
      cases herr
      exact hS.notPositioned h
  | ok u =>
      rw [h] at herr
      cases herr

theorem precheck (b : Builtin) (count : Nat) : S.Follows w same (b.precheck count) (b.precheck count) := by
  have hcount (w : W) :
      S.Follows w same (if count ≠ b.arguments.length then Eval.fail .argumentCount else Pure.pure () : Eval Unit)
        (if count ≠ b.arguments.length then Eval.fail .argumentCount else Pure.pure () : Eval Unit) := by
    split_ifs
    · exact hS.fail (hS.ordinary rfl nofun)
    · exact hS.pure rfl
  unfold Builtin.precheck
  dsimp only
  split
  · exact hS.bind (hS.ask fun m _ err _ herr => hS.notPositioned herr) fun w₁ _ _ _ _ => hcount w₁
  · exact hcount w

theorem perform (fuel : Nat) (b : Builtin) (values : List Value) :
    S.Follows w S.sameResult (b.perform fuel values) (b.perform fuel values) := by
  have hvoid {x : Eval Unit} (hx : S.Follows w same x x) :
      S.Follows w S.sameResult (x >>= fun _ => Pure.pure Value.void) (x >>= fun _ => Pure.pure Value.void) :=
    hS.bind hx fun _ _ _ _ _ => hS.pure ⟨rfl, .inl rfl⟩
  unfold Builtin.perform
  split
  · rename_i x y degrees
    exact hvoid (hS.world (.setPose x y degrees) fun _ => rfl)
  · exact hS.performMove fuel _
  · rename_i degrees
    exact hvoid (hS.world (.turn degrees) fun _ => rfl)
  · rename_i x y sizeX sizeY
    exact hvoid (hS.world (.addObstacle x y sizeX sizeY) fun _ => rfl)
  · rename_i enabled
    exact hvoid (hS.world (.setTrail enabled) fun _ => rfl)
  · rename_i sensor
    refine hS.bind (hS.feel sensor) fun _ b b' _ hb => ?_
    exact hS.pure ⟨congrArg Value.boolean hb, .inr (hS.value_boolean b)⟩
  · refine hS.bind hS.inquire fun _ x x' _ hx => ?_
    exact hS.pure ⟨congrArg Value.ofFloat hx, .inr (hS.value_ofFloat x)⟩
  · refine hS.bind hS.inquire fun _ x x' _ hx => ?_
    exact hS.pure ⟨congrArg Value.ofFloat hx, .inr (hS.value_ofFloat x)⟩
  · refine hS.bind hS.inquire fun _ x x' _ hx => ?_
    exact hS.pure ⟨congrArg Value.ofFloat hx, .inr (hS.value_ofFloat x)⟩
  · exact hS.fail (hS.ordinary rfl nofun)

/-! ### Values that occur -/

theorem value_arithmetic {op : ArithmeticOp} {a b v : Value} (h : Value.arithmetic op a b = .ok v) : S.value v := by
  rcases Value.arithmetic_ok h with ⟨n, rfl⟩ | ⟨x, rfl⟩
  · exact hS.value_ofInt n
  · exact hS.value_ofFloat x

theorem value_unary {k : Kind} {x y : Value} (hx : S.value x) (h : unaryValue k x = .ok y) : S.value y := by
  unfold unaryValue at h
  split at h
  · split at h
    · cases h
      exact hx
    · cases h
  · cases x with
    | integer n =>
        cases h
        exact hS.value_ofInt _
    | float x =>
        cases h
        exact hS.value_ofFloat _
    | _ => cases h
  · cases x with
    | boolean b =>
        cases h
        exact hS.value_boolean _
    | _ => cases h
  · cases h

theorem value_binary {k : Kind} {x y v : Value} (h : binaryValue k x y = .ok v) : S.value v := by
  unfold binaryValue at h
  split at h
  · rename_i op
    cases hrelational : Value.relational op x y with
    | error e =>
        rw [hrelational] at h
        cases h
    | ok c =>
        rw [hrelational] at h
        cases h
        obtain ⟨b, rfl⟩ := Value.relational_ok hrelational
        exact hS.value_boolean b
  · rename_i op
    cases hx : arithmeticOperand op x with
    | error e =>
        rw [hx] at h
        cases h
    | ok u =>
        cases hy : arithmeticOperand op y with
        | error e =>
            rw [hx, hy] at h
            cases h
        | ok u =>
            rw [hx, hy] at h
            cases harithmetic : Value.arithmetic op x y with
            | error e =>
                rw [harithmetic] at h
                cases h
            | ok v' =>
                rw [harithmetic] at h
                cases h
                exact hS.value_arithmetic harithmetic
  · cases h

theorem asBoolean_cause {v : Value} {c : Cause} (h : v.asBoolean = .error c) : S.cause c := by
  cases v with
  | boolean b => cases h
  | _ =>
      cases h
      exact hS.ordinary rfl nofun

theorem check_cause {t : ArgumentType} {v : Value} {c : Cause} (h : t.check v = .error c) : S.cause c := by
  unfold ArgumentType.check at h
  split at h <;> cases h <;> exact hS.ordinary rfl nofun

/-! ### What corresponds stays so -/

theorem expressions_later {w w' : W} {ns ns' : List Node} (h : S.later w w') (hns : S.expressions w ns ns') :
    S.expressions w' ns ns' :=
  hns.imp fun _ _ => hS.expression_later h

theorem statements_later {w w' : W} {ns ns' : List Node} (h : S.later w w') (hns : List.Forall₂ (S.statement w) ns ns') :
    List.Forall₂ (S.statement w') ns ns' :=
  hns.imp fun _ _ => hS.statement_later h

theorem bound_later {f : Function} {w w' : W} {bs bs' : List (Param × Cell)} (h : S.later w w')
    (hbs : S.bound f w bs bs') : S.bound f w' bs bs' :=
  hbs.imp fun _ _ hb => ⟨hb.1, hS.cell_later h hb.2⟩

end Lawful

end Simulation

end Rover
