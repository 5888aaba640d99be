import Rover.Proofs.Cells
import Rover.Proofs.Rewriting

/-!
# Runs on the same cells

Two runs, of one program or of two that are alike, on machines with the same cells, world and input. What may differ is how
nodes, parameters and records name their variables, on which lines they stand, and what the logs hold. `Node.Like` relates
trees that differ in this alone, and a `Likeness` says how the rest differs. It is a simulation, and all that is left to check
is what names and lines have to do with (`Likeness.Lawful`). From there, whole runs are alike: `Likeness.Lawful.run`.
-/

namespace Rover

theorem Stack.cell_of_nil {s : Stack} (h : s.frames = []) (x : String) : s.cell x = .error .noActiveFunction := by
  unfold cell top
  rw [h]
  rfl

/-! ### Trees -/

/-- What a node is for its parent, with the variables of assignments and reads told apart. -/
inductive Role where
  | target
  | at (position : Position)

namespace Role

/-- What the children of a node are for it. -/
def child : Role → Kind → Nat → Role
  | .at .statement, .assign, 0 => .target
  | .at .statement, .read, 0 => .target
  | .at position, k, i => .at (position.child k i)
  | .target, _, _ => .at .fixed

/-- Whether the text of a node is the name of a variable. -/
def isVariable : Role → Kind → Bool
  | .target, _ => true
  | .at .expression, .id => true
  | _, _ => false

theorem child_expression {k : Kind} (hk : k.isOperator = true) (i : Nat) : child (.at .expression) k i = .at .expression := by
  have hcall : k ≠ .call := by
    rintro rfl
    cases hk
  rw [child, Position.child_expression hcall]
  all_goals nofun

end Role

namespace Node

mutual

/-- Trees that differ in lines, and in the names of variables. -/
inductive Like (L : Int → Int → Prop) (N : String → String → Prop) : Role → Node → Node → Prop
  | node {role : Role} {k : Kind} {l l' : Int} {t t' : String} {v : Option Value} {cs cs' : List Node} : L l l' →
      (if role.isVariable k then N t t' else t' = t) → LikeAll L N (role.child k) cs cs' →
        Like L N role ⟨k, l, t, v, cs⟩ ⟨k, l', t', v, cs'⟩

inductive LikeAll (L : Int → Int → Prop) (N : String → String → Prop) : (Nat → Role) → List Node → List Node → Prop
  | nil {roles : Nat → Role} : LikeAll L N roles [] []
  | cons {roles : Nat → Role} {n n' : Node} {ns ns' : List Node} : Like L N (roles 0) n n' →
      LikeAll L N (fun i => roles (i + 1)) ns ns' → LikeAll L N roles (n :: ns) (n' :: ns')

end

section

variable {L : Int → Int → Prop} {N : String → String → Prop}

mutual

theorem Like.refl (hL : ∀ l, L l l) (hN : ∀ x, N x x) (role : Role) : ∀ n : Node, Like L N role n n
  | ⟨k, l, t, _, cs⟩ => .node (hL l) (by split <;> simp [hN]) (LikeAll.refl hL hN (role.child k) cs)

theorem LikeAll.refl (hL : ∀ l, L l l) (hN : ∀ x, N x x) (roles : Nat → Role) : ∀ ns : List Node, LikeAll L N roles ns ns
  | [] => .nil
  | n :: ns => .cons (Like.refl hL hN (roles 0) n) (LikeAll.refl hL hN _ ns)

end

theorem LikeAll.length_eq {roles : Nat → Role} {ns ns' : List Node} (h : LikeAll L N roles ns ns') :
    ns'.length = ns.length := by
  induction ns generalizing roles ns' with
  | nil =>
      cases h
      rfl
  | cons n ns ih =>
      cases h with
      | cons _ hns => exact congrArg (· + 1) (ih hns)

/-- Children that all are the same for their parent. -/
theorem LikeAll.forall₂ {roles : Nat → Role} {role : Role} (hall : ∀ i, roles i = role) {ns ns' : List Node}
    (h : LikeAll L N roles ns ns') : List.Forall₂ (Like L N role) ns ns' := by
  induction ns generalizing roles ns' with
  | nil =>
      cases h
      exact .nil
  | cons n ns ih =>
      cases h with
      | cons hn hns => exact .cons (hall 0 ▸ hn) (ih (fun i => hall (i + 1)) hns)

variable {n n' : Node} {role : Role}

theorem Like.line (h : Like L N role n n') : L n.line n'.line := by
  cases h with
  | node hline => exact hline

theorem Like.text_eq (h : Like L N (.at .fixed) n n') : n'.text = n.text := by
  cases h with
  | node _ htext => exact htext

theorem Like.target (h : Like L N .target n n') : N n.text n'.text := by
  cases h with
  | node _ htext => exact htext

theorem Like.expressions (h : Like L N (.at .arguments) n n') :
    List.Forall₂ (Like L N (.at .expression)) n.children n'.children := by
  cases h with
  | node _ _ hchildren => exact hchildren.forall₂ fun _ => rfl

theorem Like.statements (h : Like L N (.at .block) n n') :
    List.Forall₂ (Like L N (.at .statement)) n.children n'.children := by
  cases h with
  | node _ _ hchildren => exact hchildren.forall₂ fun _ => rfl

end

end Node

/-! ### What operators and malformed statements fail with -/

/-- Only one cause names a variable. -/
def Cause.NamesNoVariable (c : Cause) : Prop := ∀ x, c ≠ .stack (.undefinedVariable x)

theorem unaryValue_names {k : Kind} {v : Value} {c : Cause} (h : unaryValue k v = .error c) : c.NamesNoVariable := by
  unfold unaryValue at h
  split at h
  · split at h
    · cases h
    · cases h
      nofun
  · cases hnegate : v.negate <;> rw [hnegate] at h <;> cases h
    nofun
  · cases hnot : v.not <;> rw [hnot] at h <;> cases h
    nofun
  · cases h
    nofun

theorem arithmeticOperand_names {op : ArithmeticOp} {v : Value} {c : Cause} (h : arithmeticOperand op v = .error c) :
    c.NamesNoVariable := by
  unfold arithmeticOperand at h
  split at h <;> cases h <;> nofun

theorem binaryValue_names {k : Kind} {x y : Value} {c : Cause} (h : binaryValue k x y = .error c) : c.NamesNoVariable := by
  unfold binaryValue at h
  split at h
  · rename_i op
    cases hrelational : Value.relational op x y <;> rw [hrelational] at h <;> cases h
    nofun
  · rename_i op
    cases hx : arithmeticOperand op x with
    | error e =>
        rw [hx] at h
        cases h
        exact arithmeticOperand_names hx
    | ok u =>
        cases hy : arithmeticOperand op y with
        | error e =>
            rw [hx, hy] at h
            cases h
            exact arithmeticOperand_names hy
        | ok u =>
            rw [hx, hy] at h
            cases harithmetic : Value.arithmetic op x y <;> rw [harithmetic] at h <;> cases h
            nofun
  · cases h
    nofun

theorem statementDefect?_names {k : Kind} {cs : List Node} {c : Cause} (h : statementDefect? k cs = some c) :
    c.NamesNoVariable := by
  unfold statementDefect? at h
  split at h <;> cases h <;> nofun

/-! ### Likenesses -/

theorem optionRel_refl {α : Type} {R : α → α → Prop} (h : ∀ a, R a a) (o : Option α) : Option.Rel R o o := by
  cases o with
  | none => exact .none
  | some a => exact .some (h a)

/-- What corresponds in two runs on the same cells. What is known does not change but for calls, so that it tells the open
calls apart. -/
structure Likeness (W : Type) where
  line : Int → Int → Prop
  name : W → String → String → Prop
  /-- Parameters of a function of the first run. -/
  param : Function → Param → Param → Prop
  frames : W → List Frame → List Frame → Prop
  event : Event → Event → Prop
  fault : W → Fault → Fault → Prop
  function : Function → Function → Prop

namespace Likeness

variable {W : Type} (L : Likeness W)

/-- Nodes that differ as the likeness allows. -/
def node (w : W) (position : Position) : Node → Node → Prop := Node.Like L.line (L.name w) (.at position)

variable {L} in
theorem forall₂_node {w : W} {position : Position} (hline : ∀ l, L.line l l) (hname : ∀ x, L.name w x x) (ns : List Node) :
    List.Forall₂ (L.node w position) ns ns :=
  List.forall₂_same.2 fun n _ => Node.Like.refl hline hname (.at position) n

/-- What the runs have told since they started is alike. -/
def Logs (before before' : List Event) (events events' : Array Event) : Prop :=
  ∃ told told', events.toList = before ++ told ∧ events'.toList = before' ++ told' ∧ List.Forall₂ L.event told told'

/-- Machines that are alike, since their logs were `before` and `before'`; both have the same options. -/
structure Machines (options : Options) (before before' : List Event) (w : W) (m m' : Machine) : Prop where
  programs : ∃ p p', m.program = some p ∧ m'.program = some p' ∧
    ∀ name, Option.Rel L.function (p.get? name) (p'.get? name)
  line : L.line m.line m'.line
  frames : L.frames w m.stack.frames m'.stack.frames
  cells_eq : m'.stack.cells = m.stack.cells
  world_eq : m'.world = m.world
  input_eq : m'.input = m.input
  options_eq : m.options = options
  options_eq' : m'.options = options
  logs : L.Logs before before' m.events m'.events

/-- The same arguments for parameters that correspond. -/
def Arguments (f : Function) : List (Param × Cell) → List (Param × Cell) → Prop :=
  List.Forall₂ fun b b' => L.param f b.1 b'.1 ∧ b'.2 = b.2

/-- The same values under names that correspond. -/
def Bindings (f : Function) : List Binding → List Binding → Prop :=
  List.Forall₂ fun b b' => L.param f ⟨b.name, b.byRef⟩ ⟨b'.name, b'.byRef⟩ ∧ b'.value = b.value

def toSimulation (options : Options) (before before' : List Event) : Simulation W where
  machine := L.Machines options before before'
  later w w' := w' = w
  value _ := True
  cell _ c c' := c' = c
  name := L.name
  target := L.name
  param := L.param
  line := L.line
  fault := L.fault
  function := L.function
  expression w := L.node w .expression
  statement w := L.node w .statement

/-- Events that name neither a function nor a line. -/
def isPlain : Event → Bool
  | .wrote _ => true
  | .narrated _ => true
  | .world _ => true
  | _ => false

/-- The laws of a likeness. -/
structure Lawful (options : Options) (before before' : List Event) : Prop where
  function_name {f f' : Function} : L.function f f' → f'.name = f.name
  function_line {f f' : Function} : L.function f f' → L.line f.line f'.line
  function_params {f f' : Function} : L.function f f' → List.Forall₂ (L.param f) f.params f'.params
  param_byRef {f : Function} {p p' : Param} : L.param f p p' → p'.byRef = p.byRef
  bare {c : Cause} : c.NamesNoVariable → ∀ w, L.fault w (.bare c) (.bare c)
  undefined {w : W} {x x' : String} : L.name w x x' →
    L.fault w (.bare (.stack (.undefinedVariable x))) (.bare (.stack (.undefinedVariable x')))
  locate {w : W} {m m' : Machine} {e e' : Fault} : L.Machines options before before' w m m' → L.fault w e e' →
    ∀ w', L.fault w' (m.locate e) (m'.locate e')
  overflow {w : W} {e e' : Fault} : L.fault w e e' →
    (e'.cause = .stackOverflow ↔ e.cause = .stackOverflow) ∧ (e.cause = .stackOverflow → ∀ w', L.fault w' e e')
  length_frames {w : W} {fs fs' : List Frame} : L.frames w fs fs' → fs'.length = fs.length
  cell {w : W} {f f' : Frame} {fs fs' : List Frame} {x x' : String} : L.frames w (f :: fs) (f' :: fs') → L.name w x x' →
    f'.cell? x' = f.cell? x
  bind {w : W} {f f' : Frame} {fs fs' : List Frame} {x x' : String} (c : Cell) : L.frames w (f :: fs) (f' :: fs') →
    L.name w x x' → L.frames w (f.bind x c :: fs) (f'.bind x' c :: fs')
  plain {e : Event} : isPlain e = true → L.event e e
  called {f f' : Function} {bs bs' : List Binding} {l l' : Int} (depth : Int) (isEntry : Bool) : L.function f f' →
    L.line l l' → L.Bindings f bs bs' → L.event (.called f.name bs l depth isEntry) (.called f'.name bs' l' depth isEntry)
  returned {f f' : Function} {bs bs' : List Binding} {l l' : Int} (v : Value) (depth : Int) : L.function f f' →
    L.line l l' → L.Bindings f bs bs' → L.event (.returned f.name v bs l depth) (.returned f'.name v bs' l' depth)
  enter {w : W} {fs fs' : List Frame} {f f' : Function} {l l' : Int} {bound bound' : List (Param × Cell)} :
    L.frames w fs fs' → L.function f f' → L.line l l' → L.Arguments f bound bound' →
      ∃ w₁, L.frames w₁ (.ofCall f l bound :: fs) (.ofCall f' l' bound' :: fs') ∧
        List.Forall₂ (L.node w₁ .statement) f.body.children f'.body.children ∧
        ∀ gs gs', L.frames w₁ gs gs' → L.frames w (gs.drop 1) (gs'.drop 1)

variable {L} {options : Options} {before before' : List Event} {w : W} {m m' : Machine}

theorem Logs.append {events events' now now' : Array Event} (h : L.Logs before before' events events') {new new' : List Event}
    (hnow : now.toList = events.toList ++ new) (hnow' : now'.toList = events'.toList ++ new')
    (hnew : List.Forall₂ L.event new new') : L.Logs before before' now now' := by
  obtain ⟨told, told', htold, htold', hlogs⟩ := h
  refine ⟨told ++ new, told' ++ new', ?_, ?_, List.rel_append hlogs hnew⟩
  · rw [hnow, htold, List.append_assoc]
  · rw [hnow', htold', List.append_assoc]

section SameParams

variable (hparam : ∀ f p p', L.param f p p' → p' = p) {f : Function}

include hparam

theorem arguments_eq {bound bound' : List (Param × Cell)} (h : L.Arguments f bound bound') : bound' = bound := by
  induction h with
  | nil => rfl
  | cons hb _ ih => rw [ih, Prod.ext (hparam _ _ _ hb.1) hb.2]

theorem bindings_eq {bs bs' : List Binding} (h : L.Bindings f bs bs') : bs' = bs := by
  induction h with
  | nil => rfl
  | @cons b b' _ _ hb _ ih =>
      obtain ⟨name, value, byRef⟩ := b
      obtain ⟨name', value', byRef'⟩ := b'
      obtain ⟨hparams, rfl⟩ := hb
      cases hparam _ _ _ hparams
      rw [ih]

end SameParams

namespace Machines

variable (h : L.Machines options before before' w m m')

include h

theorem content_eq (c : Cell) : m'.stack.content c = m.stack.content c := by
  rw [Stack.content, Stack.content, h.cells_eq]

theorem setStack {w' : W} {fs fs' : List Frame} (hframes : L.frames w' fs fs') (cells : Array Value) :
    L.Machines options before before' w' { m with stack := ⟨fs, cells⟩ } { m' with stack := ⟨fs', cells⟩ } :=
  { h with frames := hframes, cells_eq := rfl }

theorem setLine {l l' : Int} (hl : L.line l l') :
    L.Machines options before before' w { m with line := l } { m' with line := l' } :=
  { h with line := hl }

theorem emit {e e' : Event} (he : L.event e e') : L.Machines options before before' w (m.emit e) (m'.emit e') :=
  { h with logs := h.logs.append Array.toList_push Array.toList_push (.cons he .nil) }

theorem bindings {f : Function} {bound bound' : List (Param × Cell)} (hbound : L.Arguments f bound bound') :
    L.Bindings f (m.bindings bound) (m'.bindings bound') := by
  induction hbound with
  | nil => exact .nil
  | @cons b b' bound bound' hb _ ih =>
      obtain ⟨hparam, hcell⟩ := hb
      refine .cons ⟨hparam, ?_⟩ ih
      change m'.stack.content b'.2 = m.stack.content b.2
      rw [hcell, h.content_eq]

end Machines

namespace Lawful

variable (hL : L.Lawful options before before')

include hL

theorem byRef_arguments {f : Function} {bound bound' : List (Param × Cell)} (h : L.Arguments f bound bound') :
    L.Arguments f (bound.filter (·.1.byRef)) (bound'.filter (·.1.byRef)) := by
  induction h with
  | nil => exact .nil
  | @cons b b' bound bound' hb _ ih =>
      rw [List.filter_cons, List.filter_cons, hL.param_byRef hb.1]
      split_ifs
      · exact .cons hb ih
      · exact ih

theorem expression_form {n n' : Node} (h : L.node w .expression n n') :
    (L.toSimulation options before before').ExpressionForm w n n' := by
  cases h with
  | @node _ k l l' t t' v cs cs' _ htext hchildren =>
      cases k.evaluated with
      | id => exact .id htext
      | literal hliteral => exact .literal hliteral (fun _ _ => trivial) fun _ => hL.bare nofun
      | call =>
          cases hchildren with
          | nil => exact .callDefect (by simp) (by simp) (hL.bare nofun)
          | cons hcallee hrest =>
              cases hrest with
              | nil => exact .callDefect (by simp) (by simp) (hL.bare nofun)
              | cons harguments _ => exact .call hcallee.text_eq harguments.expressions
      | operator hoperator =>
          cases hchildren.forall₂ (Role.child_expression hoperator) with
          | nil => exact .operandDefect hoperator (hL.bare nofun)
          | cons ha hrest =>
              cases hrest with
              | nil => exact .unary hoperator ha fun _ _ h => hL.bare (unaryValue_names h)
              | cons hb _ => exact .binary hoperator ha hb fun _ _ _ _ _ h => hL.bare (binaryValue_names h)

/-- A statement that cannot be started in either run. -/
theorem defect_form {k : Kind} {l l' : Int} {t t' : String} {v v' : Option Value} {cs cs' : List Node} {c : Cause}
    (h : statementDefect? k cs = some c) (h' : statementDefect? k cs' = some c) :
    (L.toSimulation options before before').StatementForm w ⟨k, l, t, v, cs⟩ ⟨k, l', t', v', cs'⟩ :=
  .defect h h' (hL.bare (statementDefect?_names h))

theorem statement_form {n n' : Node} (h : L.node w .statement n n') :
    (L.toSimulation options before before').StatementForm w n n' := by
  cases h with
  | @node _ k l l' t t' v cs cs' _ _ hchildren =>
      cases k with
      | assign =>
          rcases hchildren with _ | ⟨hx, _ | ⟨he, _⟩⟩
          · exact hL.defect_form rfl rfl
          · exact hL.defect_form rfl rfl
          · exact .assign hx.target he
      | ifElse =>
          rcases hchildren with _ | @⟨_, _, _, branches, branches', hc, hbranches⟩
          · exact hL.defect_form rfl rfl
          · have hblocks : List.Forall₂ (L.node w .block) branches branches' := hbranches.forall₂ fun _ => rfl
            exact .ifElse hc (hblocks.imp fun _ _ hb => hb.statements) fun _ => hL.bare nofun
      | whileDo =>
          rcases hchildren with _ | ⟨hc, _ | ⟨hb, _ | ⟨_, hrest⟩⟩⟩
          · exact hL.defect_form rfl rfl
          · exact hL.defect_form rfl rfl
          · exact .whileDo hc hb.statements
          · refine hL.defect_form rfl ?_
            simp only [statementDefect?, List.length_cons, hrest.length_eq]
      | ret =>
          rcases hchildren with _ | ⟨he, _⟩
          · exact .retVoid
          · exact .ret he
      | read =>
          rcases hchildren with _ | ⟨hx, _⟩
          · exact .readDefect (hL.bare nofun)
          · exact .read hx.target
      | write =>
          rcases hchildren with _ | ⟨he, _⟩
          · exact hL.defect_form rfl rfl
          · exact .write he
      | call =>
          rcases hchildren with _ | ⟨hcallee, _ | ⟨harguments, _⟩⟩
          · exact hL.defect_form rfl rfl
          · exact hL.defect_form rfl rfl
          · exact .call hcallee.text_eq harguments.expressions
      | _ => exact hL.defect_form rfl rfl

theorem simulation : (L.toSimulation options before before').Lawful where
  refl _ := rfl
  trans hab hbc := hbc.trans hab
  cell_later _ hc := hc
  target_later h hx := h ▸ hx
  expression_later h hn := h ▸ hn
  statement_later h hn := h ▸ hn
  expression_form := hL.expression_form
  statement_form := hL.statement_form
  expression_line h := h.line
  statement_line h := h.line
  function_name := hL.function_name
  function_params := hL.function_params
  param_byRef := hL.param_byRef
  value_boolean _ := trivial
  value_ofInt _ := trivial
  value_ofFloat _ := trivial
  value_ofToken _ := trivial
  ordinary _ hc := hL.bare hc
  locate := hL.locate
  overflow := hL.overflow
  machine_line h := h.line
  machine_depth h := hL.length_frames h.frames
  machine_world h := h.world_eq
  machine_options h := h.options_eq'.trans h.options_eq.symm
  content := by
    rintro w m m' c c' h rfl
    exact ⟨h.content_eq c', trivial⟩
  setLine h hl := h.setLine hl
  wrote text h := h.emit (hL.plain rfl)
  nextToken := by
    intro w m m' h
    obtain ⟨hinput, hnext⟩ := Eval.nextToken_of_input_eq h.input_eq
    have htaken : L.Machines options before before' w m.taken m'.taken := { h with input_eq := hinput }
    rcases hnext with ⟨hnone, hnone'⟩ | ⟨token, htoken, htoken'⟩
    · rw [hnone, hnone']
      exact .failed ⟨w, hL.bare (c := .noInput) nofun w, rfl, htaken⟩
    · rw [htoken, htoken']
      exact .done ⟨w, rfl, htaken, rfl⟩
  lookup := by
    intro w name m m' h
    obtain ⟨p, p', hp, hp', hfunctions⟩ := h.programs
    have hf := hfunctions name
    unfold Eval.function
    simp only [hp, hp']
    generalize p.get? name = o at hf ⊢
    generalize p'.get? name = o' at hf ⊢
    cases hf with
    | none => exact .failed ⟨w, hL.bare (c := .undeclaredFunction name) nofun w, rfl, h⟩
    | some hf => exact .done ⟨w, rfl, h, hf⟩
  variableCell := by
    intro w x x' hx m m' h
    have hframes := h.frames
    unfold Eval.variableCell
    cases hs : m.stack.frames with
    | nil =>
        have hs' : m'.stack.frames = [] := List.length_eq_zero_iff.1 (by simpa [hs] using hL.length_frames hframes)
        rw [Stack.cell_of_nil hs, Stack.cell_of_nil hs']
        exact .failed ⟨w, hL.bare (c := .stack .noActiveFunction) nofun w, rfl, h⟩
    | cons f fs =>
        rw [hs] at hframes
        obtain ⟨f', fs', hs'⟩ : ∃ f' fs', m'.stack.frames = f' :: fs' :=
          List.exists_cons_of_length_pos (by simp [hL.length_frames hframes])
        rw [hs'] at hframes
        rw [Stack.cell_of_frames hs, Stack.cell_of_frames hs', hL.cell hframes hx]
        cases f.cell? x with
        | none => exact .failed ⟨w, hL.undefined hx, rfl, h⟩
        | some c => exact .done ⟨w, rfl, h, rfl⟩
  alloc := by
    intro w v _ m m' h
    refine .done ⟨w, rfl, ?_, ?_⟩
    · refine { h with frames := h.frames, cells_eq := ?_ }
      exact congrArg (·.push v) h.cells_eq
    · change (m'.stack.cells.push v).size - 1 = (m.stack.cells.push v).size - 1
      rw [h.cells_eq]
  assign := by
    intro w x x' v hx _ m m' h
    have hframes := h.frames
    unfold Eval.assign
    cases hs : m.stack.frames with
    | nil =>
        have hs' : m'.stack.frames = [] := List.length_eq_zero_iff.1 (by simpa [hs] using hL.length_frames hframes)
        rw [hs']
        exact .failed ⟨w, hL.bare (c := .stack .noActiveFunction) nofun w, rfl, h⟩
    | cons f fs =>
        rw [hs] at hframes
        obtain ⟨f', fs', hs'⟩ : ∃ f' fs', m'.stack.frames = f' :: fs' :=
          List.exists_cons_of_length_pos (by simp [hL.length_frames hframes])
        rw [hs'] at hframes ⊢
        refine .done ⟨w, rfl, ?_, rfl⟩
        have hcell := hL.cell hframes hx
        rcases Stack.assign_cases hs x v with ⟨c, -, hc, hassign⟩ | ⟨hc, hassign⟩
        all_goals
          rcases Stack.assign_cases hs' x' v with ⟨c', -, hc', hassign'⟩ | ⟨hc', hassign'⟩
          all_goals rw [hc, hc'] at hcell
        · cases hcell
          rw [hassign, hassign', h.cells_eq]
          exact h.setStack hframes _
        · cases hcell
        · cases hcell
        · rw [hassign, hassign', h.cells_eq]
          exact h.setStack (hL.bind _ hframes hx) _
  act := by
    intro w m m' op fuel e lines h _
    refine { h with world_eq := rfl, logs := ?_ }
    have hnew : ∀ x ∈ e.events.map Event.world ++ [.narrated lines], isPlain x = true := by
      intro x hx
      rcases List.mem_append.1 hx with hx | hx
      · obtain ⟨we, -, rfl⟩ := List.mem_map.1 hx
        rfl
      · cases List.mem_singleton.1 hx
        rfl
    exact h.logs.append (by simp) (by simp) (List.forall₂_same.2 fun x hx => hL.plain (hnew x hx))
  refuse _ _ := hL.bare nofun
  tellCall := by
    intro w m m' f f' l l' bound bound' depth h hf hl hbound
    exact h.emit (hL.called _ _ hf hl (h.bindings hbound))
  tellReturn := by
    intro w m m' f f' v bound bound' depth h hf _ hbound
    exact h.emit (hL.returned _ _ hf h.line (h.bindings (hL.byRef_arguments hbound)))
  enter := by
    intro w m m' f f' l l' bound bound' h hf hl hbound
    obtain ⟨w₁, hframes, hbody, hleave⟩ := hL.enter h.frames hf hl hbound
    refine ⟨w₁, ?_, hbody, hbound, ?_⟩
    · exact { h with line := hL.function_line hf, frames := hframes, cells_eq := h.cells_eq }
    · rintro w₂ n n' rfl hn
      exact ⟨w, rfl, { hn with frames := hleave _ _ hn.frames, cells_eq := hn.cells_eq }⟩

/-- Runs from machines that are alike end alike, with the same fuel: both with the same value, or both with faults that
correspond, or neither. -/
theorem run (h : L.Machines options before before' w m m') (fuel : Nat) (entry : String) :
    Outcome.Alike (fun v v' n n' => v' = v ∧ L.Machines options before before' w n n')
      (fun e e' n n' => L.fault w e e' ∧ L.Machines options before before' w n n')
      (Machine.run fuel entry m) (Machine.run fuel entry m') := by
  obtain ⟨p, p', hp, hp', -⟩ := h.programs
  refine (hL.simulation.follows_run h hp hp' fuel entry).imp ?_ ?_
  · rintro v v' n n' ⟨w', rfl, hn, hv⟩
    exact ⟨hv, hn⟩
  · rintro e e' n n' ⟨w', he, rfl, hn⟩
    exact ⟨he, hn⟩

end Lawful

end Likeness

end Rover
