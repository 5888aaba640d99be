import Rover.Proofs.Invariant

/-!
# The points of a run

A run of the evaluator is a tree of tasks: each function of the evaluator, applied to its arguments, starts others on
machines that it has reached by then. `Task.Starts` says which task starts which, on which machine, and `Machine.Visits` are
the tasks that a run comes to, each with the machine at its start. Together with the machines that these tasks
leave, they are all the states of a run. `Invariant.Lawful.starts` carries an invariant from a task to those it starts.
-/

namespace Rover

/-- What the evaluator is doing. -/
inductive Task where
  | evaluate (n : Node)
  | node (n : Node)
  | invoke (name : String) (nodes : List Node)
  | arguments (types : List ArgumentType) (nodes : List Node)
  | call (f : Function) (nodes : List Node)
  | binding (params : List Param) (nodes : List Node)
  | block (nodes : List Node)
  | statement (n : Node)
  | loop (condition : Node) (body : List Node)

/-- The machine that a computation leaves, whether it answers or fails. -/
def Outcome.machine? {α : Type} : Outcome α → Option Machine
  | .done _ m => some m
  | .failed _ m => some m
  | .unfinished => none

/-- The answer of a computation, and the machine that it leaves. -/
def Outcome.done? {α : Type} : Outcome α → Option (α × Machine)
  | .done a m => some (a, m)
  | _ => none

theorem Outcome.eq_done {α : Type} {o : Outcome α} {a : α} {m : Machine} (h : o.done? = some (a, m)) : o = .done a m := by
  cases o with
  | done b n =>
      cases h
      rfl
  | failed e n => cases h
  | unfinished => cases h

/-- A computation gives an answer, with enough fuel. -/
def Gives {α : Type} (x : Nat → Eval α) (m : Machine) (a : α) (m' : Machine) : Prop := ∃ fuel, x fuel m = .done a m'

/-- Whether the right operand is evaluated, by the value of the left one. -/
def Kind.needsRight : Kind → Value → Prop
  | .and, v => v = .boolean true
  | .or, v => v = .boolean false
  | _, _ => True

namespace Task

/-- The machine that a task leaves. -/
def final? (fuel : Nat) (m : Machine) : Task → Option Machine
  | evaluate n => (Rover.evaluate fuel n m).machine?
  | node n => (evaluateNode fuel n m).machine?
  | invoke name nodes => (Rover.invoke fuel name nodes m).machine?
  | arguments types nodes => (evaluateArguments fuel types nodes m).machine?
  | call f nodes => (invokeFunction fuel f nodes m).machine?
  | binding params nodes => (bindArguments fuel params nodes m).machine?
  | block nodes => (runBlock fuel nodes m).machine?
  | statement n => (runStatement fuel n m).machine?
  | loop condition body => (runLoop fuel condition body m).machine?

/-- `Starts m t t' m'`: the task `t`, started on `m`, starts `t'` on `m'`. -/
inductive Starts (m : Machine) : Task → Task → Machine → Prop
  | node {n : Node} : Starts m (.evaluate n) (.node n) { m with line := n.line }
  | operand {k : Kind} {l : Int} {t : String} {v : Option Value} {a : Node} {cs : List Node} :
      k.isOperator = true → Starts m (.node ⟨k, l, t, v, a :: cs⟩) (.evaluate a) m
  | right {k : Kind} {l : Int} {t : String} {v : Option Value} {a b : Node} {cs : List Node} {x : Value} {m' : Machine} :
      k.isOperator = true → Gives (Rover.evaluate · a) m x m' → k.needsRight x →
        Starts m (.node ⟨k, l, t, v, a :: b :: cs⟩) (.evaluate b) m'
  | call {l : Int} {t : String} {v : Option Value} {callee arguments : Node} {cs : List Node} :
      Starts m (.node ⟨.call, l, t, v, callee :: arguments :: cs⟩) (.invoke callee.text arguments.children) m
  | operation {name : String} {nodes : List Node} {b : Builtin} {m' : Machine} :
      Builtin.ofName? name = some b → b.precheck nodes.length m = .done () m' →
        Starts m (.invoke name nodes) (.arguments b.arguments nodes) m'
  | argument {t : ArgumentType} {types : List ArgumentType} {n : Node} {nodes : List Node} :
      Starts m (.arguments (t :: types) (n :: nodes)) (.evaluate n) m
  | arguments {t : ArgumentType} {types : List ArgumentType} {n : Node} {nodes : List Node} {x y : Value} {m' : Machine} :
      Gives (Rover.evaluate · n) m x m' → t.check x = .ok y →
        Starts m (.arguments (t :: types) (n :: nodes)) (.arguments types nodes) m'
  | function {name : String} {nodes : List Node} {f : Function} {m' : Machine} :
      Builtin.ofName? name = none → Eval.function name m = .done f m' → Starts m (.invoke name nodes) (.call f nodes) m'
  | parameters {f : Function} {nodes : List Node} :
      f.params.length = nodes.length → Starts m (.call f nodes) (.binding f.params nodes) m
  | parameter {p : Param} {params : List Param} {n : Node} {nodes : List Node} :
      p.byRef = false → Starts m (.binding (p :: params) (n :: nodes)) (.evaluate n) { m with line := n.line }
  | binding {p : Param} {params : List Param} {n : Node} {nodes : List Node} {c : Cell} {m' : Machine} :
      Gives (argumentCell · p n) { m with line := n.line } c m' →
        Starts m (.binding (p :: params) (n :: nodes)) (.binding params nodes) m'
  | body {f : Function} {nodes : List Node} {bound : List (Param × Cell)} {m' : Machine} :
      f.params.length = nodes.length → Gives (bindArguments · f.params nodes) m bound m' →
        m'.options.Admits m.stack.depth f.params.length →
        Starts m (.call f nodes) (.block f.body.children)
          ((m'.tellCall f m.line m.stack.depth bound).enter f m.line bound)
  | statement {n : Node} {nodes : List Node} : Starts m (.block (n :: nodes)) (.statement n) m
  | block {n : Node} {nodes : List Node} {m' : Machine} :
      Gives (runStatement · n) m none m' → Starts m (.block (n :: nodes)) (.block nodes) m'
  | assigned {l : Int} {t : String} {v : Option Value} {x e : Node} {cs : List Node} :
      Starts m (.statement ⟨.assign, l, t, v, x :: e :: cs⟩) (.evaluate e) { m with line := l }
  | condition {l : Int} {t : String} {v : Option Value} {c : Node} {bs : List Node} :
      Starts m (.statement ⟨.ifElse, l, t, v, c :: bs⟩) (.evaluate c) { m with line := l }
  | consequent {l : Int} {t : String} {v : Option Value} {c b : Node} {bs : List Node} {m' : Machine} :
      Gives (Rover.evaluate · c) { m with line := l } (.boolean true) m' →
        Starts m (.statement ⟨.ifElse, l, t, v, c :: b :: bs⟩) (.block b.children) m'
  | alternative {l : Int} {t : String} {v : Option Value} {c a b : Node} {m' : Machine} :
      Gives (Rover.evaluate · c) { m with line := l } (.boolean false) m' →
        Starts m (.statement ⟨.ifElse, l, t, v, [c, a, b]⟩) (.block b.children) m'
  | loop {l : Int} {t : String} {v : Option Value} {c b : Node} :
      Starts m (.statement ⟨.whileDo, l, t, v, [c, b]⟩) (.loop c b.children) { m with line := l }
  | test {c : Node} {nodes : List Node} : Starts m (.loop c nodes) (.evaluate c) m
  | round {c : Node} {nodes : List Node} {m' : Machine} :
      Gives (Rover.evaluate · c) m (.boolean true) m' → Starts m (.loop c nodes) (.block nodes) m'
  | again {c : Node} {nodes : List Node} {m' m'' : Machine} :
      Gives (Rover.evaluate · c) m (.boolean true) m' → Gives (runBlock · nodes) m' none m'' →
        Starts m (.loop c nodes) (.loop c nodes) m''
  | returned {l : Int} {t : String} {v : Option Value} {e : Node} {cs : List Node} :
      Starts m (.statement ⟨.ret, l, t, v, e :: cs⟩) (.evaluate e) { m with line := l }
  | written {l : Int} {t : String} {v : Option Value} {e : Node} {cs : List Node} :
      (e.kind = .string → e.value = none) →
        Starts m (.statement ⟨.write, l, t, v, e :: cs⟩) (.evaluate e) { m with line := l }
  | called {l : Int} {t : String} {v : Option Value} {callee arguments : Node} {cs : List Node} :
      Starts m (.statement ⟨.call, l, t, v, callee :: arguments :: cs⟩) (.invoke callee.text arguments.children)
        { m with line := l }

end Task

/-- The tasks that a run from a first one comes to, each with the machine that it is started on. -/
inductive Machine.Visits (m : Machine) (first : Task) : Task → Machine → Prop
  | first : Visits m first first m
  | step {t t' : Task} {n n' : Machine} : Visits m first t n → t.Starts n t' n' → Visits m first t' n'

/-- The body of a function without parameters, and the machine at its start. -/
def Machine.opening? (m : Machine) (entry : String) : Option (Task × Machine) := do
  let p ← m.program
  let f ← p.get? entry
  if Builtin.ofName? entry = none ∧ f.params = [] ∧ m.options.Admits m.stack.depth f.params.length then
    some (.block f.body.children, (m.tellCall f m.line m.stack.depth []).enter f m.line [])
  else none

theorem Machine.Visits.of_opening? {m n : Machine} {entry : String} {t : Task} (h : m.opening? entry = some (t, n)) :
    m.Visits (.invoke entry []) t n := by
  obtain ⟨p, hp, h⟩ := Option.bind_eq_some_iff.1 h
  obtain ⟨f, hf, h⟩ := Option.bind_eq_some_iff.1 h
  split_ifs at h with hentry
  obtain ⟨hname, hparams, hadmits⟩ := hentry
  have hlookup : Eval.function entry m = .done f m := by
    unfold Eval.function
    simp only [hp, hf]
  have hbound : Gives (bindArguments · f.params []) m [] m := by
    rw [hparams]
    exact ⟨1, rfl⟩
  have hcall : m.Visits (.invoke entry []) (.call f []) m := .step .first (.function hname hlookup)
  cases h
  exact .step hcall (.body (by simp [hparams]) hbound hadmits)

/-- The rest of a block after its first statement, and the machine at its start. -/
def Machine.next? (fuel : Nat) (m : Machine) : Task → Option (Task × Machine)
  | .block (n :: nodes) =>
    match runStatement fuel n m with
    | .done none m' => some (.block nodes, m')
    | _ => none
  | _ => none

theorem Machine.Visits.of_next? {m n n' : Machine} {first t t' : Task} {fuel : Nat} (h : m.Visits first t n)
    (hnext : n.next? fuel t = some (t', n')) : m.Visits first t' n' := by
  unfold next? at hnext
  split at hnext
  · split at hnext
    · rename_i hrun
      cases hnext
      exact h.step (.block ⟨fuel, hrun⟩)
    · cases hnext
  · cases hnext

namespace Invariant

variable {W : Type} (I : Invariant W)

/-- The nodes of a task have the forms that the invariant allows. -/
def Ready (w : W) : Task → Prop
  | .evaluate n => I.expression w n
  | .node n => I.expression w n
  | .invoke _ nodes => ∀ n ∈ nodes, I.expression w n
  | .arguments _ nodes => ∀ n ∈ nodes, I.expression w n
  | .call f nodes => I.function f ∧ ∀ n ∈ nodes, I.expression w n
  | .binding _ nodes => ∀ n ∈ nodes, I.expression w n
  | .block nodes => ∀ n ∈ nodes, I.statement w n
  | .statement n => I.statement w n
  | .loop condition body => I.expression w condition ∧ ∀ n ∈ body, I.statement w n

/-- The invariant holds at a point of a run. -/
structure At (p : Option Program) (w : W) (m : Machine) : Prop where
  program : m.program = p
  holds : I.holds w m.stack m.world

variable {I} {p : Option Program} {w : W} {m m' : Machine}

/-- A computation that follows itself leads from points where the invariant holds to such points. -/
theorem At.gives {α : Type} {A : W → α → α → Prop} {x : Eval α} {a : α} (hm : I.At p w m)
    (hx : (I.toSimulation p).Follows w A x x) (h : x m = .done a m') :
    ∃ w', I.later w w' ∧ I.At p w' m' ∧ A w' a a := by
  have hfollows := hx m m ⟨rfl, hm.program, hm.holds⟩
  rw [h] at hfollows
  cases hfollows with
  | done hdone =>
      obtain ⟨w', hw', ⟨-, hprogram, hholds⟩, ha⟩ := hdone
      exact ⟨w', hw', ⟨hprogram, hholds⟩, ha⟩

/-- A computation that follows itself fails only for causes that the invariant allows. -/
theorem At.fails {α : Type} {A : W → α → α → Prop} {x : Eval α} {e : Fault} (hm : I.At p w m)
    (hx : (I.toSimulation p).Follows w A x x) (h : x m = .failed e m') : I.cause e.cause := by
  have hfollows := hx m m ⟨rfl, hm.program, hm.holds⟩
  rw [h] at hfollows
  cases hfollows with
  | failed hfailed =>
      obtain ⟨-, ⟨-, hcause⟩, -⟩ := hfailed
      exact hcause

theorem At.leaves {α : Type} {A : W → α → α → Prop} {x : Eval α} (hm : I.At p w m)
    (hx : (I.toSimulation p).Follows w A x x) (h : (x m).machine? = some m') : ∃ w', I.later w w' ∧ I.At p w' m' := by
  have hfollows := hx m m ⟨rfl, hm.program, hm.holds⟩
  cases hrun : x m with
  | unfinished =>
      rw [hrun] at h
      cases h
  | failed e n =>
      rw [hrun] at h hfollows
      cases h
      cases hfollows with
      | failed hfailed =>
          obtain ⟨w', -, hw', -, hprogram, hholds⟩ := hfailed
          exact ⟨w', hw', hprogram, hholds⟩
  | done a n =>
      rw [hrun] at h hfollows
      cases h
      cases hfollows with
      | done hdone =>
          obtain ⟨w', hw', ⟨-, hprogram, hholds⟩, -⟩ := hdone
          exact ⟨w', hw', hprogram, hholds⟩

theorem At.setLine (hm : I.At p w m) (l : Int) : I.At p w { m with line := l } := ⟨hm.program, hm.holds⟩

theorem expressions_self {nodes : List Node} :
    (I.toSimulation p).expressions w nodes nodes ↔ ∀ n ∈ nodes, I.expression w n := by
  rw [Simulation.expressions, List.forall₂_same]
  exact forall₂_congr fun n _ => ⟨And.right, fun h => ⟨rfl, h⟩⟩

theorem statements_self {nodes : List Node} :
    List.Forall₂ ((I.toSimulation p).statement w) nodes nodes ↔ ∀ n ∈ nodes, I.statement w n := by
  rw [List.forall₂_same]
  exact forall₂_congr fun n _ => ⟨And.right, fun h => ⟨rfl, h⟩⟩

namespace Lawful

variable (hI : I.Lawful p)

include hI

theorem evaluates {n : Node} {v : Value} (hn : I.expression w n) (hm : I.At p w m) (h : Gives (evaluate · n) m v m') :
    ∃ w', I.later w w' ∧ I.At p w' m' ∧ I.value v := by
  obtain ⟨fuel, h⟩ := h
  obtain ⟨w', hw', hm', -, hv⟩ := hm.gives ((hI.simulation.follows_runs fuel).evaluate ⟨rfl, hn⟩) h
  exact ⟨w', hw', hm', hv⟩

/-! ### The nodes of the parts of a node -/

section Parts

variable {k : Kind} {l : Int} {t : String} {v : Option Value} {a b : Node} {cs : List Node}

theorem expression_operand (hk : k.isOperator = true) (h : I.expression w ⟨k, l, t, v, a :: cs⟩) : I.expression w a := by
  cases hI.expression_form h with
  | id => cases hk
  | literal hliteral => simp [Kind.isOperator, hliteral] at hk
  | call => cases hk
  | callDefect => cases hk
  | unary _ ha => exact ha.2
  | binary _ ha => exact ha.2

theorem expression_right (hk : k.isOperator = true) (h : I.expression w ⟨k, l, t, v, a :: b :: cs⟩) :
    I.expression w b := by
  cases hI.expression_form h with
  | id => cases hk
  | literal hliteral => simp [Kind.isOperator, hliteral] at hk
  | call => cases hk
  | callDefect => cases hk
  | binary _ _ hb => exact hb.2

theorem expression_arguments (h : I.expression w ⟨.call, l, t, v, a :: b :: cs⟩) :
    ∀ n ∈ b.children, I.expression w n := by
  cases hI.expression_form h with
  | literal hliteral => cases hliteral
  | call _ hb => exact expressions_self.1 hb
  | callDefect hlength => simp at hlength
  | binary hk => cases hk

theorem statement_assigned (h : I.statement w ⟨.assign, l, t, v, a :: b :: cs⟩) : I.expression w b := by
  cases hI.statement_form h with
  | assign _ hb => exact hb.2
  | defect hdefect => cases hdefect

theorem statement_condition (h : I.statement w ⟨.ifElse, l, t, v, a :: cs⟩) : I.expression w a := by
  cases hI.statement_form h with
  | ifElse ha => exact ha.2
  | defect hdefect => cases hdefect

theorem statement_branch (h : I.statement w ⟨.ifElse, l, t, v, a :: cs⟩) (hb : b ∈ cs) :
    ∀ n ∈ b.children, I.statement w n := by
  cases hI.statement_form h with
  | ifElse _ hcs => exact statements_self.1 (List.forall₂_same.1 hcs b hb)
  | defect hdefect => cases hdefect

theorem statement_loop (h : I.statement w ⟨.whileDo, l, t, v, [a, b]⟩) :
    I.expression w a ∧ ∀ n ∈ b.children, I.statement w n := by
  cases hI.statement_form h with
  | whileDo ha hb => exact ⟨ha.2, statements_self.1 hb⟩
  | defect hdefect => cases hdefect

theorem statement_returned (h : I.statement w ⟨.ret, l, t, v, a :: cs⟩) : I.expression w a := by
  cases hI.statement_form h with
  | ret ha => exact ha.2
  | defect hdefect => cases hdefect

theorem statement_written (h : I.statement w ⟨.write, l, t, v, a :: cs⟩) : I.expression w a := by
  cases hI.statement_form h with
  | write ha => exact ha.2
  | defect hdefect => cases hdefect

theorem statement_arguments (h : I.statement w ⟨.call, l, t, v, a :: b :: cs⟩) :
    ∀ n ∈ b.children, I.expression w n := by
  cases hI.statement_form h with
  | call _ hb => exact expressions_self.1 hb
  | defect hdefect => cases hdefect

end Parts

theorem expressions_later {w w' : W} {nodes : List Node} (h : I.later w w') (hnodes : ∀ n ∈ nodes, I.expression w n) :
    ∀ n ∈ nodes, I.expression w' n :=
  fun n hn => hI.expression_later h (hnodes n hn)

theorem statements_later {w w' : W} {nodes : List Node} (h : I.later w w') (hnodes : ∀ n ∈ nodes, I.statement w n) :
    ∀ n ∈ nodes, I.statement w' n :=
  fun n hn => hI.statement_later h (hnodes n hn)

/-- The call of a function enters its body at a point where the invariant holds. -/
theorem enters {f : Function} {nodes : List Node} {bound : List (Param × Cell)} (line : Int) (depth : Nat)
    (hf : I.function f) (hnodes : ∀ n ∈ nodes, I.expression w n) (hm : I.At p w m)
    (h : Gives (bindArguments · f.params nodes) m bound m') :
    ∃ w', I.At p w' ((m'.tellCall f line depth bound).enter f line bound) ∧ ∀ n ∈ f.body.children, I.statement w' n := by
  obtain ⟨fuel, h⟩ := h
  have hparams : List.Forall₂ ((I.toSimulation p).param f) f.params f.params := List.forall₂_same.2 fun _ _ => rfl
  have hfollows := (hI.simulation.follows_runs fuel).bindArguments hparams (expressions_self.2 hnodes)
  obtain ⟨w₁, hw₁, hm₁, hbound⟩ := hm.gives hfollows h
  obtain ⟨w₂, hm₂, hbody, -⟩ := hI.enter line hm₁.holds hf (bound_iff.1 hbound).2
  exact ⟨w₂, ⟨hm₁.program, hm₂⟩, hbody⟩

/-- The step from a task to one that it starts. -/
theorem starts {t t' : Task} (h : t.Starts m t' m') (hm : I.At p w m) (ht : I.Ready w t) :
    ∃ w', I.At p w' m' ∧ I.Ready w' t' := by
  cases h with
  | node => exact ⟨w, hm.setLine _, ht⟩
  | operand hk => exact ⟨w, hm, hI.expression_operand hk ht⟩
  | right hk hleft _ =>
      obtain ⟨w₁, hw₁, hm₁, -⟩ := hI.evaluates (hI.expression_operand hk ht) hm hleft
      exact ⟨w₁, hm₁, hI.expression_later hw₁ (hI.expression_right hk ht)⟩
  | call => exact ⟨w, hm, hI.expression_arguments ht⟩
  | operation _ hprecheck =>
      obtain ⟨w₁, hw₁, hm₁, -⟩ := hm.gives (hI.simulation.precheck _ _) hprecheck
      exact ⟨w₁, hm₁, hI.expressions_later hw₁ ht⟩
  | argument => exact ⟨w, hm, ht _ List.mem_cons_self⟩
  | arguments hfirst _ =>
      obtain ⟨hn, hnodes⟩ := List.forall_mem_cons.1 ht
      obtain ⟨w₁, hw₁, hm₁, -⟩ := hI.evaluates hn hm hfirst
      exact ⟨w₁, hm₁, hI.expressions_later hw₁ hnodes⟩
  | function _ hlookup =>
      obtain ⟨w₁, hw₁, hm₁, -, hf⟩ := hm.gives (hI.simulation.lookup w _) hlookup
      exact ⟨w₁, hm₁, hf, hI.expressions_later hw₁ ht⟩
  | parameters _ => exact ⟨w, hm, ht.2⟩
  | parameter _ => exact ⟨w, hm.setLine _, ht _ List.mem_cons_self⟩
  | binding hfirst =>
      obtain ⟨hn, hnodes⟩ := List.forall_mem_cons.1 ht
      obtain ⟨fuel, hfirst⟩ := hfirst
      have hruns := hI.simulation.follows_runs fuel
      obtain ⟨w₁, hw₁, hm₁, -⟩ := (hm.setLine _).gives (hI.simulation.argumentCell_follows hruns rfl ⟨rfl, hn⟩) hfirst
      exact ⟨w₁, hm₁, hI.expressions_later hw₁ hnodes⟩
  | body _ hbound _ => exact hI.enters _ _ ht.1 ht.2 hm hbound
  | statement => exact ⟨w, hm, ht _ List.mem_cons_self⟩
  | block hfirst =>
      obtain ⟨hn, hnodes⟩ := List.forall_mem_cons.1 ht
      obtain ⟨fuel, hfirst⟩ := hfirst
      obtain ⟨w₁, hw₁, hm₁, -⟩ := hm.gives ((hI.simulation.follows_runs fuel).runStatement ⟨rfl, hn⟩) hfirst
      exact ⟨w₁, hm₁, hI.statements_later hw₁ hnodes⟩
  | assigned => exact ⟨w, hm.setLine _, hI.statement_assigned ht⟩
  | condition => exact ⟨w, hm.setLine _, hI.statement_condition ht⟩
  | consequent hcondition =>
      obtain ⟨w₁, hw₁, hm₁, -⟩ := hI.evaluates (hI.statement_condition ht) (hm.setLine _) hcondition
      exact ⟨w₁, hm₁, hI.statements_later hw₁ (hI.statement_branch ht List.mem_cons_self)⟩
  | alternative hcondition =>
      obtain ⟨w₁, hw₁, hm₁, -⟩ := hI.evaluates (hI.statement_condition ht) (hm.setLine _) hcondition
      exact ⟨w₁, hm₁, hI.statements_later hw₁ (hI.statement_branch ht (by simp))⟩
  | loop => exact ⟨w, hm.setLine _, hI.statement_loop ht⟩
  | test => exact ⟨w, hm, ht.1⟩
  | round hcondition =>
      obtain ⟨w₁, hw₁, hm₁, -⟩ := hI.evaluates ht.1 hm hcondition
      exact ⟨w₁, hm₁, hI.statements_later hw₁ ht.2⟩
  | again hcondition hround =>
      obtain ⟨w₁, hw₁, hm₁, -⟩ := hI.evaluates ht.1 hm hcondition
      obtain ⟨fuel, hround⟩ := hround
      have hbody := hI.statements_later hw₁ ht.2
      have hfollows := (hI.simulation.follows_runs fuel).runBlock (statements_self.2 hbody)
      obtain ⟨w₂, hw₂, hm₂, -⟩ := hm₁.gives hfollows hround
      have hlater := hI.trans hw₁ hw₂
      exact ⟨w₂, hm₂, hI.expression_later hlater ht.1, hI.statements_later hlater ht.2⟩
  | returned => exact ⟨w, hm.setLine _, hI.statement_returned ht⟩
  | written _ => exact ⟨w, hm.setLine _, hI.statement_written ht⟩
  | called => exact ⟨w, hm.setLine _, hI.statement_arguments ht⟩

/-- An invariant holds of all points of a run. -/
theorem visits {first t : Task} (h : m.Visits first t m') (hm : I.At p w m) (hfirst : I.Ready w first) :
    ∃ w', I.At p w' m' ∧ I.Ready w' t := by
  induction h with
  | first => exact ⟨w, hm, hfirst⟩
  | step _ hstarts ih =>
      obtain ⟨w₁, hm₁, ht₁⟩ := ih
      exact hI.starts hstarts hm₁ ht₁

/-- It also holds of the machines that tasks leave. -/
theorem final {fuel : Nat} {t : Task} (hm : I.At p w m) (ht : I.Ready w t) (h : t.final? fuel m = some m') :
    ∃ w', I.later w w' ∧ I.At p w' m' := by
  have hruns := hI.simulation.follows_runs fuel
  cases t with
  | evaluate n => exact hm.leaves (hruns.evaluate ⟨rfl, ht⟩) h
  | node n => exact hm.leaves (hruns.evaluateNode ⟨rfl, ht⟩) h
  | invoke name nodes => exact hm.leaves (hruns.invoke name (expressions_self.2 ht)) h
  | arguments types nodes => exact hm.leaves (hruns.evaluateArguments types (expressions_self.2 ht)) h
  | call f nodes => exact hm.leaves (hruns.invokeFunction ⟨rfl, ht.1⟩ (expressions_self.2 ht.2)) h
  | binding params nodes =>
      -- which function the parameters are of does not matter to an invariant
      let f : Function := ⟨"", params, .branch .block 0 [], 0⟩
      have hparams : List.Forall₂ ((I.toSimulation p).param f) params params := List.forall₂_same.2 fun _ _ => rfl
      exact hm.leaves (hruns.bindArguments hparams (expressions_self.2 ht)) h
  | block nodes => exact hm.leaves (hruns.runBlock (statements_self.2 ht)) h
  | statement n => exact hm.leaves (hruns.runStatement ⟨rfl, ht⟩) h
  | loop c nodes => exact hm.leaves (hruns.runLoop ⟨rfl, ht.1⟩ (statements_self.2 ht.2)) h

end Lawful

end Invariant

end Rover
