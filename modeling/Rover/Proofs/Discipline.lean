import Rover.Proofs.Cells
import Rover.Proofs.Points

/-!
# The stack and the line

Whatever is computed inside, a computation gives the stack back as it found it: every call takes its record away again,
also on the way out of a fault. The line is given back too, but only on a normal return, and only by those who move it on
their own account, an expression or a call; a statement leaves the line where it has been. `evaluate_restores` says so of
expressions and of calls on any machine.
-/

namespace Rover

/-! ### Records -/

/-- What a record is known by: its function, and the line that the function was called from. -/
def Frame.head (f : Frame) : String × Int := (f.name, f.callerLine)

def Stack.heads (s : Stack) : List (String × Int) := s.frames.map Frame.head

theorem Stack.length_heads (s : Stack) : s.heads.length = s.depth := List.length_map _

@[simp] theorem Frame.head_bind (f : Frame) (x : String) (c : Cell) : (f.bind x c).head = f.head := rfl

theorem Frame.head_ofCall (f : Function) (callLine : Int) (bound : List (Param × Cell)) :
    (Frame.ofCall f callLine bound).head = (f.name, callLine) := by
  have hfoldl (frame : Frame) : (bound.foldl (fun frame b => frame.bind b.1.name b.2) frame).head = frame.head := by
    induction bound generalizing frame with
    | nil => rfl
    | cons b bound ih => rw [List.foldl_cons, ih, Frame.head_bind]
  exact hfoldl _

/-- The records that a computation finds, and whether it may declare variables in the innermost one. -/
structure Base where
  frames : List Frame
  declares : Bool

/-- The records are those that the computation has found. -/
structure Base.Holds (b : Base) (frames : List Frame) : Prop where
  outer : frames.tail = b.frames.tail
  heads : frames.map Frame.head = b.frames.map Frame.head
  same : b.declares = false → frames = b.frames

theorem Base.holds_self (frames : List Frame) (declares : Bool) : (Base.mk frames declares).Holds frames :=
  ⟨rfl, rfl, fun _ => rfl⟩

theorem Base.Holds.assign {b : Base} {s : Stack} (h : b.Holds s.frames) (hb : b.declares = true) (x : String) (v : Value) :
    b.Holds (s.assign x v).frames := by
  obtain ⟨frames, cells⟩ := s
  cases frames with
  | nil => exact h
  | cons f outer =>
      rcases Stack.assign_cases (s := ⟨f :: outer, cells⟩) rfl x v with ⟨c, -, -, hassign⟩ | ⟨-, hassign⟩
      · rw [hassign]
        exact h
      · rw [hassign]
        refine ⟨h.outer, ?_, by simp [hb]⟩
        rw [List.map_cons, Frame.head_bind]
        exact h.heads

namespace Invariant

/-- What is known is which records there are. -/
def recorded : Invariant Base where
  holds b s _ := b.Holds s.frames
  later b b' := b' = b
  value _ := True
  cell _ _ := True
  reads _ := True
  writes b := b.declares = true
  cause _ := True
  function _ := True
  expression _ _ := True
  statement b _ := b.declares = true

theorem lawful_recorded (p : Option Program) : recorded.Lawful p where
  refl _ := rfl
  trans h h' := h'.trans h
  cell_later _ _ := trivial
  writes_later h hb := h ▸ hb
  expression_later _ _ := trivial
  statement_later h hb := h ▸ hb
  expression_form := by
    intro b n _
    have hcause (c : Cause) : (recorded.toSimulation p).cause c := fun _ => ⟨rfl, trivial⟩
    refine .self hcause ?_ ?_ (fun _ => ⟨rfl, trivial⟩) fun _ _ _ => trivial
    · exact fun c _ => ⟨rfl, trivial⟩
    · exact fun c _ => expressions_self.2 fun _ _ => trivial
  statement_form := by
    intro b n hb
    have hcause (c : Cause) : (recorded.toSimulation p).cause c := fun _ => ⟨rfl, trivial⟩
    refine .self hcause ?_ ?_ (fun _ => ⟨rfl, hb⟩) ?_
    · exact fun c _ => ⟨rfl, trivial⟩
    · exact fun c _ => expressions_self.2 fun _ _ => trivial
    · exact fun c _ => statements_self.2 fun _ _ => hb
  value_boolean _ := trivial
  value_ofInt _ := trivial
  value_ofFloat _ := trivial
  value_ofToken _ := trivial
  ordinary _ := trivial
  noFunctions _ := trivial
  function _ _ := trivial
  content _ _ := trivial
  variableCell hs _ _ := ⟨_, rfl, hs, trivial⟩
  active _ _ _ := trivial
  alloc hs _ := ⟨_, rfl, hs, trivial⟩
  assign name hs hb _ _ := ⟨_, rfl, hs.assign hb name _⟩
  act hs _ := hs
  refuse _ _ := trivial
  enter := by
    intro b s v f callLine bound hs _ _
    refine ⟨⟨.ofCall f callLine bound :: s.frames, true⟩, Base.holds_self _ _, fun _ _ => rfl, fun _ _ => trivial, ?_⟩
    intro b₂ s' v' hb₂ hs'
    subst hb₂
    have hleave : s'.leave.frames = s.frames := by
      rw [Stack.leave, List.drop_one]
      exact hs'.outer
    refine ⟨b, rfl, ?_⟩
    show b.Holds s'.leave.frames
    rw [hleave]
    exact hs

end Invariant

/-- Whether a task runs statements, which may declare variables. -/
def Task.isRun : Task → Bool
  | block _ => true
  | statement _ => true
  | loop _ _ => true
  | _ => false

/-- A task leaves the records that it has found, and nothing new in them unless it runs statements. -/
theorem frames_of_final {fuel : Nat} {t : Task} {m m' : Machine} (h : t.final? fuel m = some m') :
    m'.stack.heads = m.stack.heads ∧ (t.isRun = false → m'.stack.frames = m.stack.frames) := by
  have hready : Invariant.recorded.Ready ⟨m.stack.frames, t.isRun⟩ t := by
    cases t <;> simp [Invariant.Ready, Invariant.recorded, Task.isRun]
  have hstart : Invariant.recorded.At m.program ⟨m.stack.frames, t.isRun⟩ m := ⟨rfl, Base.holds_self _ _⟩
  obtain ⟨b, hb, hend⟩ := (Invariant.lawful_recorded m.program).final hstart hready h
  subst hb
  exact ⟨hend.holds.heads, hend.holds.same⟩

/-! ### Lines -/

/-- What a robot operation does to a machine: it may change the world and tell about it. -/
structure Machine.Acts (m m' : Machine) : Prop where
  program_eq : m'.program = m.program
  stack_eq : m'.stack = m.stack
  line_eq : m'.line = m.line
  events_eq : ∃ es : List WorldEvent, ∃ lines : List (List String),
    m'.events.toList = m.events.toList ++ (es.map Event.world ++ lines.map Event.narrated)

theorem Machine.Acts.refl (m : Machine) : m.Acts m := ⟨rfl, rfl, rfl, [], [], by simp⟩

/-- The outcome of a robot operation on a machine. If it fails, nothing has changed. -/
inductive Outcome.Acts {α : Type} (m : Machine) : Outcome α → Prop
  | done {a : α} {m' : Machine} : m.Acts m' → Acts m (.done a m')
  | failed {c : Cause} : Acts m (.failed (.bare c) m)
  | unfinished : Acts m .unfinished

namespace Outcome.Acts

variable {α β : Type} {m m' : Machine} {x : Eval α}

theorem of_done {a : α} (hx : (x m).Acts m) (h : x m = .done a m') : m.Acts m' := by
  rw [h] at hx
  cases hx with
  | done hm' => exact hm'

theorem of_failed {e : Fault} (hx : (x m).Acts m) (h : x m = .failed e m') : m' = m ∧ ∃ c, e = .bare c := by
  rw [h] at hx
  cases hx with
  | failed => exact ⟨rfl, _, rfl⟩

/-- An operation that answers something else. -/
theorem map (hx : (x m).Acts m) (f : α → β) : ((x >>= fun a => Pure.pure (f a) : Eval β) m).Acts m := by
  cases h : x m with
  | done a m' =>
      rw [Eval.bind_of_done h]
      exact .done (hx.of_done h)
  | failed e m' =>
      obtain ⟨rfl, c, rfl⟩ := hx.of_failed h
      rw [Eval.bind_of_failed h]
      exact .failed
  | unfinished =>
      rw [Eval.bind_of_unfinished h]
      exact .unfinished

theorem ask (question : World → Except WorldError α) (m : Machine) : (Eval.ask question m).Acts m := by
  unfold Eval.ask
  split
  · exact .failed
  · exact .done (Machine.Acts.refl m)

theorem world (operation : World → Except WorldError (Change α)) (narrate : α → World → List String) (m : Machine) :
    (Eval.world operation narrate m).Acts m := by
  unfold Eval.world
  split
  · exact .failed
  · rename_i c _
    refine .done ⟨rfl, rfl, rfl, c.events, [narrate c.answer c.world], ?_⟩
    simp

theorem perform (fuel : Nat) (b : Builtin) (values : List Value) (m : Machine) : (b.perform fuel values m).Acts m := by
  unfold Builtin.perform
  split
  · exact (world _ _ m).map _
  · unfold Builtin.performMove
    split
    · exact .unfinished
    · exact (world _ _ m).map _
  · exact (world _ _ m).map _
  · exact (world _ _ m).map _
  · exact (world _ _ m).map _
  · exact (ask _ m).map _
  · exact (ask _ m).map _
  · exact (ask _ m).map _
  · exact (ask _ m).map _
  · exact .failed

end Outcome.Acts

theorem ask_cases {α : Type} (question : World → Except WorldError α) (m : Machine) :
    (∃ a, Eval.ask question m = .done a m) ∨ ∃ c, Eval.ask question m = .failed (.bare c) m := by
  unfold Eval.ask
  split
  · exact .inr ⟨_, rfl⟩
  · exact .inl ⟨_, rfl⟩

/-- The checks before the arguments of a robot operation change nothing. -/
theorem precheck_cases (b : Builtin) (count : Nat) (m : Machine) :
    b.precheck count m = .done () m ∨ ∃ c, b.precheck count m = .failed (.bare c) m := by
  have hcount : (if count ≠ b.arguments.length then Eval.fail .argumentCount else Pure.pure () : Eval Unit) m =
      .done () m ∨ ∃ c, (if count ≠ b.arguments.length then Eval.fail .argumentCount else Pure.pure () : Eval Unit) m =
        .failed (.bare c) m := by
    split_ifs
    · exact .inr ⟨_, rfl⟩
    · exact .inl rfl
  unfold Builtin.precheck
  dsimp only
  split
  · rcases ask_cases (·.requirePositioned) m with ⟨u, hask⟩ | ⟨c, hask⟩
    · rw [Eval.bind_of_done hask]
      exact hcount
    · exact .inr ⟨c, Eval.bind_of_failed hask⟩
  · exact hcount

theorem machine_of_precheck {b : Builtin} {count : Nat} {m m' : Machine} (h : b.precheck count m = .done () m') :
    m' = m := by
  rcases precheck_cases b count m with hdone | ⟨c, hfailed⟩
  · rw [hdone] at h
    cases h
    rfl
  · rw [hfailed] at h
    cases h

theorem function_cases (name : String) (m : Machine) :
    (∃ p f, m.program = some p ∧ p.get? name = some f ∧ Eval.function name m = .done f m) ∨
      ∃ c, Eval.function name m = .failed (.bare c) m := by
  unfold Eval.function
  cases hp : m.program with
  | none => exact .inr ⟨_, rfl⟩
  | some p =>
      cases hf : p.get? name with
      | none => exact .inr ⟨.undeclaredFunction name, by simp [hf]⟩
      | some f => exact .inl ⟨p, f, rfl, hf, by simp [hf]⟩

theorem machine_of_function {name : String} {f : Function} {m m' : Machine} (h : Eval.function name m = .done f m') :
    m' = m := by
  rcases function_cases name m with ⟨p, g, -, -, hdone⟩ | ⟨c, hfailed⟩
  · rw [hdone] at h
    cases h
    rfl
  · rw [hfailed] at h
    cases h

theorem line_of_evaluate {fuel : Nat} {n : Node} {m m' : Machine} {v : Value} (h : evaluate fuel n m = .done v m') :
    m'.line = m.line := by
  cases fuel with
  | zero => cases h
  | succ fuel =>
      rw [evaluate_eq] at h
      split at h
      · cases h
        rfl
      · cases h
      · cases h

theorem line_of_evaluateArguments {fuel : Nat} {types : List ArgumentType} {nodes : List Node} {m m' : Machine}
    {values : List Value} (h : evaluateArguments fuel types nodes m = .done values m') : m'.line = m.line := by
  induction fuel generalizing types nodes m values with
  | zero => cases h
  | succ fuel ih =>
      match types, nodes with
      | [], _ =>
          cases h
          rfl
      | _ :: _, [] =>
          cases h
          rfl
      | t :: types, n :: nodes =>
          rw [evaluateArguments] at h
          obtain ⟨v, m₁, hv, h⟩ := Eval.done_of_bind h
          obtain ⟨y, -, h⟩ := Eval.done_of_check h
          obtain ⟨rest, m₂, hrest, h⟩ := Eval.done_of_bind h
          cases h
          rw [ih hrest, line_of_evaluate hv]

theorem line_of_invokeFunction {fuel : Nat} {f : Function} {nodes : List Node} {m m' : Machine} {v : Value}
    (h : invokeFunction fuel f nodes m = .done v m') : m'.line = m.line := by
  cases fuel with
  | zero => cases h
  | succ fuel =>
      obtain ⟨-, bound, m₁, -, h⟩ := bound_of_invokeFunction h
      rw [callWith_eq] at h
      split_ifs at h
      cases hrun : runBlock fuel f.body.children ((m₁.tellCall f m.line m.stack.depth bound).enter f m.line bound) with
      | done r m₂ =>
          rw [hrun] at h
          cases h
          rfl
      | failed e m₂ =>
          rw [hrun] at h
          cases h
      | unfinished =>
          rw [hrun] at h
          cases h

theorem line_of_invoke {fuel : Nat} {name : String} {nodes : List Node} {m m' : Machine} {v : Value}
    (h : invoke fuel name nodes m = .done v m') : m'.line = m.line := by
  cases fuel with
  | zero => cases h
  | succ fuel =>
      cases hname : Builtin.ofName? name with
      | some b =>
          rw [invoke_operation hname] at h
          obtain ⟨_, m₁, hprecheck, h⟩ := Eval.done_of_bind h
          obtain ⟨values, m₂, hvalues, h⟩ := Eval.done_of_bind h
          have hacts := (Outcome.Acts.perform fuel b values m₂).of_done h
          rw [hacts.line_eq, line_of_evaluateArguments hvalues, machine_of_precheck hprecheck]
      | none =>
          rw [invoke_function hname] at h
          obtain ⟨f, m₁, hlookup, h⟩ := Eval.done_of_bind h
          rw [line_of_invokeFunction h, machine_of_function hlookup]

/-! ### Restoring -/

/-- The outcome leaves the records of the machine that it started from, and its line unless it is a fault. -/
def Outcome.Restores {α : Type} (m : Machine) : Outcome α → Prop
  | .done _ m' => m'.stack.frames = m.stack.frames ∧ m'.line = m.line
  | .failed _ m' => m'.stack.frames = m.stack.frames
  | .unfinished => True

theorem Outcome.restores_of {α : Type} {m : Machine} {o : Outcome α}
    (hframes : ∀ m', o.machine? = some m' → m'.stack.frames = m.stack.frames)
    (hline : ∀ a m', o = .done a m' → m'.line = m.line) : o.Restores m := by
  cases o with
  | done a m' => exact ⟨hframes m' rfl, hline a m' rfl⟩
  | failed e m' => exact hframes m' rfl
  | unfinished => trivial

theorem invoke_restores (fuel : Nat) (name : String) (nodes : List Node) (m : Machine) :
    (invoke fuel name nodes m).Restores m :=
  Outcome.restores_of (fun _ h => (frames_of_final (t := .invoke name nodes) h).2 rfl) fun _ _ => line_of_invoke

theorem frames_of_call {fuel : Nat} {name : String} {nodes : List Node} {m n : Machine}
    (h : (Machine.call fuel name nodes m).machine? = some n) : n.stack.frames = m.stack.frames := by
  obtain hp | ⟨p, hp⟩ := Option.eq_none_or_eq_some m.program
  · rw [Machine.call_of_no_program hp] at h
    cases h
    rfl
  · rw [Machine.call_of_program hp] at h
    have hfinal : (Task.invoke name nodes).final? fuel m = some n := by
      change (invoke fuel name nodes m).machine? = some n
      generalize invoke fuel name nodes m = o at h
      cases o <;> exact h
    exact (frames_of_final hfinal).2 rfl

/-- On any machine, the evaluation of an expression and a call, of a function or of a robot operation, from inside a program
or from outside, give back the records that they find, and on a normal return the line too. -/
theorem evaluate_restores (fuel : Nat) (m : Machine) :
    (∀ n, (evaluate fuel n m).Restores m) ∧ (∀ name nodes, (invoke fuel name nodes m).Restores m) ∧
      ∀ name nodes, (Machine.call fuel name nodes m).Restores m := by
  refine ⟨fun n => ?_, fun name nodes => invoke_restores fuel name nodes m, fun name nodes => ?_⟩
  · exact Outcome.restores_of (fun _ h => (frames_of_final (t := .evaluate n) h).2 rfl) fun _ _ => line_of_evaluate
  · have hinvoke := invoke_restores fuel name nodes m
    unfold Machine.call
    split
    · exact rfl
    · split
      · rename_i hrun
        rw [hrun] at hinvoke
        exact hinvoke
      · exact hinvoke

end Rover
