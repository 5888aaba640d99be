import Rover.Proofs.Discipline

/-!
# The tasks under way

The trail of a point of a run: the tasks that have been started and not finished, innermost first. Much of what a machine
holds at that point can be read off the trail. The line is that of the node under way, wherever the evaluator relies on it
(`Machine.Trails.stands`), and the records are those of the calls under way, each with the line of its call
(`Machine.Trails.heads`).
-/

namespace Rover

/-- The tasks that a run has started and not finished, innermost first, with the machine that the innermost one is started
on. -/
inductive Machine.Trails (m : Machine) (first : Task) : List Task → Machine → Prop
  | first : Trails m first [first] m
  | step {t t' : Task} {ts : List Task} {n n' : Machine} :
      Trails m first (t :: ts) n → t.Starts n t' n' → Trails m first (t' :: t :: ts) n'

theorem Machine.Trails.visits {m n : Machine} {first t : Task} {ts : List Task} (h : m.Trails first (t :: ts) n) :
    m.Visits first t n := by
  generalize hts : t :: ts = trail at h
  induction h generalizing t ts with
  | first =>
      cases hts
      exact .first
  | step _ hstarts ih =>
      cases hts
      exact .step (ih rfl) hstarts

namespace Trail

/-- The node under way: the innermost one that is being evaluated, or run as a statement. -/
def owner? : List Task → Option Node
  | .node n :: _ => some n
  | .statement n :: _ => some n
  | _ :: ts => owner? ts
  | [] => none

/-- The line of the node under way, or the line outside if there is none. -/
def line (outside : Int) (ts : List Task) : Int := ((owner? ts).map Node.line).getD outside

/-- The calls whose bodies are under way, innermost first: the function, and the node of the call unless it comes from
outside. -/
def calls : List Task → List (Function × Option Node)
  | .block _ :: .call f _ :: ts => (f, owner? ts) :: calls ts
  | _ :: ts => calls ts
  | [] => []

/-- The records that calls leave on the stack. -/
def records (outside : Int) (cs : List (Function × Option Node)) : List (String × Int) :=
  cs.map fun c => (c.1.name, (c.2.map Node.line).getD outside)

end Trail

/-! ### Between tasks -/

/-- The task comes to an answer. -/
def Task.Answers (fuel : Nat) (m m' : Machine) : Task → Prop
  | evaluate n => ∃ v, Rover.evaluate fuel n m = .done v m'
  | node n => ∃ v, evaluateNode fuel n m = .done v m'
  | invoke name nodes => ∃ v, Rover.invoke fuel name nodes m = .done v m'
  | arguments types nodes => ∃ values, evaluateArguments fuel types nodes m = .done values m'
  | call f nodes => ∃ v, invokeFunction fuel f nodes m = .done v m'
  | binding params nodes => ∃ bound, bindArguments fuel params nodes m = .done bound m'
  | block nodes => ∃ r, runBlock fuel nodes m = .done r m'
  | statement n => ∃ r, runStatement fuel n m = .done r m'
  | loop condition body => ∃ r, runLoop fuel condition body m = .done r m'

theorem Task.Answers.final {fuel : Nat} {m m' : Machine} {t : Task} (h : t.Answers fuel m m') :
    t.final? fuel m = some m' := by
  cases t <;> obtain ⟨a, h⟩ := h <;> simp [Task.final?, h, Outcome.machine?]

/-- What holds of all functions of the evaluator holds of the task. -/
theorem Task.Answers.of_related {C : ∀ {α : Type}, Eval α → Eval α → Prop} {fuel : Nat} {m m' : Machine} {t : Task} {Q : Prop}
    (h : t.Answers fuel m m') (hruns : Related C fuel fuel)
    (hQ : ∀ {α : Type} {x : Eval α} {a : α}, C x x → x m = .done a m' → Q) : Q := by
  cases t with
  | evaluate n => exact hQ (hruns.evaluate n) h.choose_spec
  | node n => exact hQ (hruns.evaluateNode n) h.choose_spec
  | invoke name nodes => exact hQ (hruns.invoke name nodes) h.choose_spec
  | arguments types nodes => exact hQ (hruns.evaluateArguments types nodes) h.choose_spec
  | call f nodes => exact hQ (hruns.invokeFunction f nodes) h.choose_spec
  | binding params nodes => exact hQ (hruns.bindArguments params nodes) h.choose_spec
  | block nodes => exact hQ (hruns.runBlock nodes) h.choose_spec
  | statement n => exact hQ (hruns.runStatement n) h.choose_spec
  | loop condition body => exact hQ (hruns.runLoop condition body) h.choose_spec

theorem stable_options : Stable fun m m' => m'.options = m.options where
  refl _ := rfl
  trans h h' := h'.trans h
  line _ _ := rfl
  stack _ _ _ := rfl
  record h _ := h
  orphan h _ := h
  reader _ := rfl
  emit _ _ _ := rfl
  world _ _ _ _ _ _ := rfl

theorem Task.Answers.options {fuel : Nat} {m m' : Machine} {t : Task} (h : t.Answers fuel m m') : m'.options = m.options := by
  refine h.of_related (stable_options.runsKeep fuel) fun {α x a} hkeeps hdone => ?_
  have hm := hkeeps m
  rwa [hdone] at hm

/-- What may happen in a task before it starts another one, or fails: lines change, tokens are read, cells are made, and tasks
that it has started come to their answers. -/
inductive Machine.Proceeds (m : Machine) : Machine → Prop
  | refl : Proceeds m m
  | line {n : Machine} (l : Int) : Proceeds m n → Proceeds m { n with line := l }
  | token {n : Machine} : Proceeds m n → Proceeds m n.taken
  | alloc {n : Machine} (v : Value) : Proceeds m n → Proceeds m { n with stack := (n.stack.alloc v).2 }
  | answer {n n' : Machine} {t : Task} {fuel : Nat} : Proceeds m n → t.Answers fuel n n' → Proceeds m n'

namespace Machine.Proceeds

variable {m n n' : Machine}

theorem evaluate {e : Node} {v : Value} (h : m.Proceeds n) (hanswer : Gives (Rover.evaluate · e) n v n') :
    m.Proceeds n' := by
  obtain ⟨fuel, hanswer⟩ := hanswer
  exact h.answer (t := .evaluate e) ⟨v, hanswer⟩

theorem binding {params : List Param} {nodes : List Node} {bound : List (Param × Cell)} (h : m.Proceeds n)
    (hanswer : Gives (bindArguments · params nodes) n bound n') : m.Proceeds n' := by
  obtain ⟨fuel, hanswer⟩ := hanswer
  exact h.answer (t := .binding params nodes) ⟨bound, hanswer⟩

theorem heads (h : m.Proceeds n) : n.stack.heads = m.stack.heads := by
  induction h with
  | refl => rfl
  | line l _ ih => exact ih
  | token _ ih => exact ih
  | alloc v _ ih => exact ih
  | answer _ hanswer ih => exact (frames_of_final hanswer.final).1.trans ih

theorem depth (h : m.Proceeds n) : n.stack.depth = m.stack.depth := by
  simpa [Stack.heads, Stack.depth] using congrArg List.length h.heads

theorem options (h : m.Proceeds n) : n.options = m.options := by
  induction h with
  | refl => rfl
  | line l _ ih => exact ih
  | token _ ih => exact ih
  | alloc v _ ih => exact ih
  | answer _ hanswer ih => exact hanswer.options.trans ih

end Machine.Proceeds

/-- What an argument does: it is found, or evaluated into a new cell. -/
theorem argumentCell_cases {fuel : Nat} {m m' : Machine} {p : Param} {n : Node} {c : Cell}
    (h : argumentCell fuel p n m = .done c m') :
    m' = m ∨ ∃ v m₁, evaluate fuel n m = .done v m₁ ∧ m' = { m₁ with stack := (m₁.stack.alloc v).2 } := by
  unfold argumentCell at h
  split_ifs at h
  · unfold Eval.variableCell at h
    split at h
    · cases h
      exact .inl rfl
    · cases h
  · cases h
  · obtain ⟨v, m₁, hv, halloc⟩ := Eval.done_of_bind h
    cases halloc
    exact .inr ⟨v, m₁, hv, rfl⟩

/-- The start of a body, after the arguments. -/
inductive Task.Enters (n : Machine) : Task → Task → Machine → Prop
  | body {f : Function} {nodes : List Node} {bound : List (Param × Cell)} {m : Machine} : n.Proceeds m →
      m.options.Admits n.stack.depth f.params.length →
      Enters n (.call f nodes) (.block f.body.children) ((m.tellCall f n.line m.stack.depth bound).enter f n.line bound)

/-- A task starts another one in the records that it has found, or in a new one if that is the body of a call. -/
theorem Task.Starts.proceeds {t t' : Task} {n n' : Machine} (h : t.Starts n t' n') :
    n.Proceeds n' ∧ (∀ ts, Trail.calls (t' :: t :: ts) = Trail.calls (t :: ts)) ∨ t.Enters n t' n' := by
  cases h with
  | node => exact .inl ⟨.line _ .refl, fun _ => rfl⟩
  | right _ hleft _ => exact .inl ⟨.evaluate .refl hleft, fun _ => rfl⟩
  | operation _ hprecheck =>
      cases machine_of_precheck hprecheck
      exact .inl ⟨.refl, fun _ => rfl⟩
  | arguments hfirst _ => exact .inl ⟨.evaluate .refl hfirst, fun _ => rfl⟩
  | function _ hlookup =>
      cases machine_of_function hlookup
      exact .inl ⟨.refl, fun _ => rfl⟩
  | parameter _ => exact .inl ⟨.line _ .refl, fun _ => rfl⟩
  | binding hfirst =>
      obtain ⟨fuel, hfirst⟩ := hfirst
      rcases argumentCell_cases hfirst with rfl | ⟨v, m₁, hv, rfl⟩
      · exact .inl ⟨.line _ .refl, fun _ => rfl⟩
      · exact .inl ⟨.alloc v (.evaluate (.line _ .refl) ⟨fuel, hv⟩), fun _ => rfl⟩
  | @body f _ bound m' _ hbound hadmits =>
      have hproceeds : n.Proceeds m' := .binding .refl hbound
      rw [← hproceeds.depth]
      exact .inr (.body hproceeds hadmits)
  | @block s _ _ hfirst =>
      obtain ⟨fuel, hfirst⟩ := hfirst
      exact .inl ⟨.answer (t := .statement s) .refl ⟨_, hfirst⟩, fun _ => rfl⟩
  | assigned => exact .inl ⟨.line _ .refl, fun _ => rfl⟩
  | condition => exact .inl ⟨.line _ .refl, fun _ => rfl⟩
  | consequent hcondition => exact .inl ⟨.evaluate (.line _ .refl) hcondition, fun _ => rfl⟩
  | alternative hcondition => exact .inl ⟨.evaluate (.line _ .refl) hcondition, fun _ => rfl⟩
  | loop => exact .inl ⟨.line _ .refl, fun _ => rfl⟩
  | round hcondition => exact .inl ⟨.evaluate .refl hcondition, fun _ => rfl⟩
  | @again _ body _ _ hcondition hround =>
      obtain ⟨fuel, hround⟩ := hround
      exact .inl ⟨.answer (t := .block body) (.evaluate .refl hcondition) ⟨_, hround⟩, fun _ => rfl⟩
  | returned => exact .inl ⟨.line _ .refl, fun _ => rfl⟩
  | written _ => exact .inl ⟨.line _ .refl, fun _ => rfl⟩
  | called => exact .inl ⟨.line _ .refl, fun _ => rfl⟩
  | _ => exact .inl ⟨.refl, fun _ => rfl⟩

/-! ### Lines -/

/-- Where the machine stands at a point, if it is a place where that matters. -/
def Trail.Stands (outside : Int) : List Task → Int → Prop
  | .node n :: _, l => l = n.line
  | .invoke _ _ :: ts, l => l = Trail.line outside ts
  | .arguments _ _ :: ts, l => l = Trail.line outside ts
  | .call _ _ :: ts, l => l = Trail.line outside ts
  | _, _ => True

variable {m n : Machine} {name : String} {nodes : List Node} {ts : List Task}

/-- The evaluation of a node, and of a call up to its arguments, goes on at the line of the node. -/
theorem Machine.Trails.stands (h : m.Trails (.invoke name nodes) ts n) : Trail.Stands m.line ts n.line := by
  induction h with
  | first => rfl
  | step _ hstarts ih =>
      cases hstarts with
      | node => rfl
      | call => exact ih
      | called => rfl
      | operation _ hprecheck =>
          rw [machine_of_precheck hprecheck]
          exact ih
      | arguments hfirst _ =>
          obtain ⟨fuel, hfirst⟩ := hfirst
          exact (line_of_evaluate hfirst).trans ih
      | function _ hlookup =>
          rw [machine_of_function hlookup]
          exact ih
      | _ => trivial

/-! ### Records -/

/-- The records on the stack are those of the calls under way, on top of those that the run has found. -/
theorem Machine.Trails.heads (h : m.Trails (.invoke name nodes) ts n) :
    n.stack.heads = Trail.records m.line (Trail.calls ts) ++ m.stack.heads := by
  induction h with
  | first => rfl
  | @step t t' ts n n' htrail hstarts ih =>
      rcases hstarts.proceeds with ⟨hproceeds, hcalls⟩ | henters
      · rw [hproceeds.heads, ih, hcalls]
      · cases henters with
        | @body f _ bound m₁ hproceeds =>
            have hline : n.line = Trail.line m.line ts := htrail.stands
            show (Frame.ofCall f n.line bound :: m₁.stack.frames).map Frame.head = _
            rw [List.map_cons, Frame.head_ofCall, ← Stack.heads, hproceeds.heads, ih, hline]
            rfl

theorem Machine.Visits.options {first t : Task} (h : m.Visits first t n) : n.options = m.options := by
  induction h with
  | first => rfl
  | step _ hstarts ih =>
      rcases hstarts.proceeds with ⟨hproceeds, -⟩ | henters
      · exact hproceeds.options.trans ih
      · cases henters with
        | body hproceeds _ => exact hproceeds.options.trans ih

/-- There is room for all records. -/
theorem Machine.Visits.depth_le {first t : Task} (h : m.Visits first t n) (hm : m.stack.depth ≤ m.options.limit) :
    n.stack.depth ≤ m.options.limit := by
  induction h with
  | first => exact hm
  | @step t t' n n' hvisits hstarts ih =>
      rcases hstarts.proceeds with ⟨hproceeds, -⟩ | henters
      · exact hproceeds.depth.trans_le ih
      · cases henters with
        | @body f _ bound m₁ hproceeds hadmits =>
            have hroom := hadmits.2
            rw [hproceeds.options, hvisits.options] at hroom
            have hdepth := hproceeds.depth
            show m₁.stack.depth + 1 ≤ _
            omega

end Rover
