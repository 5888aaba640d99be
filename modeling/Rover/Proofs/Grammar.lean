import Rover.Proofs.Loading
import Rover.Syntax.Source

/-!
# The shape of program trees

A tree may be built by hand and hold anything. A tree that has been read from a text has the shape of a program: operators
have their operands, statements their parts, and so on down to the leaves. The reader has it by an invariant of what it
holds, finished or open, that every token keeps (`Reader.Sound.feed`); and loading a tree keeps its shape.
-/

namespace Rover

namespace Kind

/-- The operators of one operand. -/
def isUnary : Kind → Bool
  | not => true
  | arithmetic .add => true
  | arithmetic .sub => true
  | _ => false

/-- The operators of two operands. -/
def isBinary : Kind → Bool
  | and => true
  | or => true
  | relational _ => true
  | arithmetic _ => true
  | _ => false

end Kind

namespace Node

/-- Trees of expressions. -/
inductive IsExpression : Node → Prop
  | id {n : Node} : n.kind = .id → IsExpression n
  | literal {n : Node} : n.kind.isLiteral = true → IsExpression n
  | unary {n a : Node} : n.kind.isUnary = true → n.children = [a] → IsExpression a → IsExpression n
  | binary {n a b : Node} : n.kind.isBinary = true → n.children = [a, b] → IsExpression a → IsExpression b → IsExpression n
  | call {n callee arguments : Node} : n.kind = .call → n.children = [callee, arguments] →
      (∀ a ∈ arguments.children, IsExpression a) → IsExpression n

/-- Trees of statements. -/
inductive IsStatement : Node → Prop
  | assign {n target e : Node} : n.kind = .assign → n.children = [target, e] → e.IsExpression → IsStatement n
  | ifElse {n c b : Node} {bs : List Node} : n.kind = .ifElse → n.children = c :: b :: bs → c.IsExpression →
      (∀ b' ∈ b :: bs, ∀ s ∈ b'.children, IsStatement s) → IsStatement n
  | whileDo {n c b : Node} : n.kind = .whileDo → n.children = [c, b] → c.IsExpression →
      (∀ s ∈ b.children, IsStatement s) → IsStatement n
  | ret {n : Node} : n.kind = .ret → (∀ e ∈ n.children, e.IsExpression) → IsStatement n
  | read {n target : Node} : n.kind = .read → n.children = [target] → IsStatement n
  | write {n e : Node} : n.kind = .write → n.children = [e] → e.IsExpression → IsStatement n
  | call {n callee arguments : Node} : n.kind = .call → n.children = [callee, arguments] →
      (∀ a ∈ arguments.children, a.IsExpression) → IsStatement n

def IsBlock (n : Node) : Prop := ∀ s ∈ n.children, s.IsStatement

def IsFunction (n : Node) : Prop := ∃ params body, n.children = [params, body] ∧ body.IsBlock

/-! ### Loading -/

namespace Resolution

variable {n n' : Node}

theorem cons (h : n.Resolution n') {a : Node} {as : List Node} (hchildren : n.children = a :: as) :
    ∃ a' as', n'.children = a' :: as' ∧ a.resolve = .ok a' ∧ List.Forall₂ (fun c c' => c.resolve = .ok c') as as' := by
  have hall := forall₂_resolve h.children
  rw [hchildren] at hall
  obtain ⟨a', as', ha, has, hchildren'⟩ := List.forall₂_cons_left_iff.1 hall
  exact ⟨a', as', hchildren', ha, has⟩

theorem singleton (h : n.Resolution n') {a : Node} (hchildren : n.children = [a]) :
    ∃ a', n'.children = [a'] ∧ a.resolve = .ok a' := by
  obtain ⟨a', as', hchildren', ha, has⟩ := h.cons hchildren
  rw [List.forall₂_nil_left_iff.1 has] at hchildren'
  exact ⟨a', hchildren', ha⟩

theorem pair (h : n.Resolution n') {a b : Node} (hchildren : n.children = [a, b]) :
    ∃ a' b', n'.children = [a', b'] ∧ a.resolve = .ok a' ∧ b.resolve = .ok b' := by
  obtain ⟨a', as', hchildren', ha, has⟩ := h.cons hchildren
  obtain ⟨b', bs', hb, hbs, rfl⟩ := List.forall₂_cons_left_iff.1 has
  rw [List.forall₂_nil_left_iff.1 hbs] at hchildren'
  exact ⟨a', b', hchildren', ha, hb⟩

/-- A property of the children that resolving keeps is one of the new children. -/
theorem forall_children (h : n.Resolution n') {P : Node → Prop}
    (hP : ∀ c ∈ n.children, ∀ c', c.resolve = .ok c' → P c') : ∀ c' ∈ n'.children, P c' := by
  intro c' hc'
  obtain ⟨c, hc, hresolve⟩ := exists_of_forall₂ (forall₂_resolve h.children) hc'
  exact hP c hc c' hresolve

end Resolution

theorem IsExpression.resolve {n : Node} (h : n.IsExpression) : ∀ n', n.resolve = .ok n' → n'.IsExpression := by
  induction h with
  | id hkind =>
      intro n' hn'
      exact .id ((resolution hn').kind_eq.trans hkind)
  | literal hkind =>
      intro n' hn'
      exact .literal ((resolution hn').kind_eq ▸ hkind)
  | unary hkind hchildren _ iha =>
      intro n' hn'
      have hres := resolution hn'
      obtain ⟨a', hchildren', ha⟩ := hres.singleton hchildren
      exact .unary (hres.kind_eq ▸ hkind) hchildren' (iha a' ha)
  | binary hkind hchildren _ _ iha ihb =>
      intro n' hn'
      have hres := resolution hn'
      obtain ⟨a', b', hchildren', ha, hb⟩ := hres.pair hchildren
      exact .binary (hres.kind_eq ▸ hkind) hchildren' (iha a' ha) (ihb b' hb)
  | call hkind hchildren _ iharguments =>
      intro n' hn'
      have hres := resolution hn'
      obtain ⟨callee', arguments', hchildren', -, harguments⟩ := hres.pair hchildren
      exact .call (hres.kind_eq.trans hkind) hchildren' ((resolution harguments).forall_children iharguments)

theorem IsStatement.resolve {n : Node} (h : n.IsStatement) : ∀ n', n.resolve = .ok n' → n'.IsStatement := by
  induction h with
  | assign hkind hchildren he =>
      intro n' hn'
      have hres := resolution hn'
      obtain ⟨target', e', hchildren', -, he'⟩ := hres.pair hchildren
      exact .assign (hres.kind_eq.trans hkind) hchildren' (he.resolve e' he')
  | ifElse hkind hchildren hc _ ihbranches =>
      intro n' hn'
      have hres := resolution hn'
      obtain ⟨c', branches', hchildren', hc', hbranches⟩ := hres.cons hchildren
      obtain ⟨b', bs', hb, hbs, rfl⟩ := List.forall₂_cons_left_iff.1 hbranches
      refine .ifElse (hres.kind_eq.trans hkind) hchildren' (hc.resolve c' hc') fun branch' hbranch' => ?_
      obtain ⟨branch, hbranch, hresolve⟩ := exists_of_forall₂ hbranches hbranch'
      exact (resolution hresolve).forall_children (ihbranches branch hbranch)
  | whileDo hkind hchildren hc _ ihbody =>
      intro n' hn'
      have hres := resolution hn'
      obtain ⟨c', b', hchildren', hc', hb'⟩ := hres.pair hchildren
      exact .whileDo (hres.kind_eq.trans hkind) hchildren' (hc.resolve c' hc') ((resolution hb').forall_children ihbody)
  | ret hkind he =>
      intro n' hn'
      have hres := resolution hn'
      exact .ret (hres.kind_eq.trans hkind) (hres.forall_children fun e hmem => (he e hmem).resolve)
  | read hkind hchildren =>
      intro n' hn'
      have hres := resolution hn'
      obtain ⟨target', hchildren', -⟩ := hres.singleton hchildren
      exact .read (hres.kind_eq.trans hkind) hchildren'
  | write hkind hchildren he =>
      intro n' hn'
      have hres := resolution hn'
      obtain ⟨e', hchildren', he'⟩ := hres.singleton hchildren
      exact .write (hres.kind_eq.trans hkind) hchildren' (he.resolve e' he')
  | call hkind hchildren harguments =>
      intro n' hn'
      have hres := resolution hn'
      obtain ⟨callee', arguments', hchildren', -, harguments'⟩ := hres.pair hchildren
      refine .call (hres.kind_eq.trans hkind) hchildren' ?_
      exact (resolution harguments').forall_children fun a ha => (harguments a ha).resolve

theorem IsBlock.resolve {n n' : Node} (h : n.IsBlock) (hn' : n.resolve = .ok n') : n'.IsBlock :=
  (resolution hn').forall_children fun s hs => (h s hs).resolve

end Node

theorem Program.Defines.isBlock {n : Node} {f : Function} (h : Program.Defines n f) (hn : n.IsFunction) :
    f.body.IsBlock := by
  obtain ⟨-, params, body, rest, hchildren, -, hresolve⟩ := h
  obtain ⟨params', body', hchildren', hbody⟩ := hn
  rw [hchildren'] at hchildren
  cases hchildren
  exact hbody.resolve hresolve

/-! ### Reading -/

namespace Reader

theorem isExpression_unaryNode {k : Kind} {a : Node} (hk : k.isUnary = true) (ha : a.IsExpression) :
    (unaryNode k a).IsExpression := .unary hk rfl ha

theorem isExpression_binaryNode {k : Kind} {a b : Node} (hk : k.isBinary = true) (ha : a.IsExpression)
    (hb : b.IsExpression) : (binaryNode k a b).IsExpression := .binary hk rfl ha hb

theorem isBlock_blockNode {done : List Node} (h : ∀ s ∈ done, s.IsStatement) : (blockNode done).IsBlock := by
  intro s hs
  exact h s (List.mem_reverse.1 hs)

theorem isUnary_of_unaryKind? {t : Terminal} {k : Kind} (h : unaryKind? t = some k) : k.isUnary = true := by
  unfold unaryKind? at h
  split at h <;> cases h <;> rfl

theorem isBinary_of_binaryKind? {t : Terminal} {k : Kind} (h : binaryKind? t = some k) : k.isBinary = true := by
  unfold binaryKind? at h
  split at h <;> cases h <;> rfl

end Reader

/-- The parts that a construct has before its block. -/
def Owner.Sound : Owner → Prop
  | function _ _ _ => True
  | thenPart _ condition => condition.IsExpression
  | elsePart _ condition consequent => condition.IsExpression ∧ consequent.IsBlock
  | loop _ condition => condition.IsExpression

/-- The finished parts of an open construct. -/
def Open.Sound : Open → Prop
  | block owner done => owner.Sound ∧ ∀ s ∈ done, s.IsStatement
  | arguments _ _ done => ∀ a ∈ done, a.IsExpression
  | unary kind => kind.isUnary = true
  | binary kind left => kind.isBinary = true ∧ left.IsExpression
  | _ => True

/-- The part that has been finished last, if it is not in place yet. -/
def Spot.Sound : Spot → Prop
  | statementEnd n => n.IsStatement
  | afterOperand n => n.IsExpression
  | _ => True

namespace Reader

/-- All that has been read so far has the shape of a program. -/
structure Sound (s : Reader) : Prop where
  functions : ∀ f ∈ s.functions, f.IsFunction
  spine : ∀ c ∈ s.spine, c.Sound
  spot : s.spot.Sound

theorem sound_initial : initial.Sound := ⟨nofun, nofun, trivial⟩

theorem collapse_sound (least : Nat) {operand : Node} {spine : List Open} (hoperand : operand.IsExpression)
    (hspine : ∀ c ∈ spine, c.Sound) :
    (collapse least operand spine).1.IsExpression ∧ ∀ c ∈ (collapse least operand spine).2, c.Sound := by
  fun_induction collapse least operand spine with
  | case1 operand kind spine ih =>
      obtain ⟨hkind, hspine⟩ := List.forall_mem_cons.1 hspine
      exact ih (isExpression_unaryNode hkind hoperand) hspine
  | case2 operand kind left spine hlevel ih =>
      obtain ⟨⟨hkind, hleft⟩, hspine⟩ := List.forall_mem_cons.1 hspine
      exact ih (isExpression_binaryNode hkind hleft hoperand) hspine
  | case3 operand kind left spine hlevel => exact ⟨hoperand, hspine⟩
  | case4 operand spine _ _ => exact ⟨hoperand, hspine⟩

namespace Sound

variable {s s' : Reader}

/-- The innermost open construct, and the ones around it. -/
theorem innermost (h : s.Sound) {construct : Open} {outer : List Open} (hspine : s.spine = construct :: outer) :
    construct.Sound ∧ ∀ c ∈ outer, c.Sound :=
  List.forall_mem_cons.1 (hspine ▸ h.spine)

theorem goto (h : s.Sound) {spot : Spot} (hspot : spot.Sound) : (s.goto spot).Sound := ⟨h.functions, h.spine, hspot⟩

theorem enter (h : s.Sound) (construct : Open) (hconstruct : construct.Sound) {spot : Spot} (hspot : spot.Sound) :
    (s.enter construct spot).Sound :=
  ⟨h.functions, List.forall_mem_cons.2 ⟨hconstruct, h.spine⟩, hspot⟩

theorem addStatement (h : s.Sound) {spine : List Open} (hspine : ∀ c ∈ spine, c.Sound) {statement : Node}
    (hstatement : statement.IsStatement) (hs' : s.addStatement spine statement = some s') : s'.Sound := by
  unfold Reader.addStatement at hs'
  split at hs'
  · cases hs'
    obtain ⟨⟨howner, hdone⟩, houter⟩ := List.forall_mem_cons.1 hspine
    exact ⟨h.functions, List.forall_mem_cons.2 ⟨⟨howner, List.forall_mem_cons.2 ⟨hstatement, hdone⟩⟩, houter⟩, trivial⟩
  · cases hs'

theorem closeBlock (h : s.Sound) {k : Keyword} (hs' : s.closeBlock k = some s') : s'.Sound := by
  unfold Reader.closeBlock at hs'
  split at hs'
  · rename_i hspine
    obtain ⟨⟨-, hdone⟩, -⟩ := h.innermost hspine
    cases hs'
    refine ⟨List.forall_mem_cons.2 ⟨?_, h.functions⟩, nofun, trivial⟩
    exact ⟨_, _, rfl, isBlock_blockNode hdone⟩
  · rename_i hspine
    obtain ⟨⟨hcondition, hdone⟩, houter⟩ := h.innermost hspine
    cases hs'
    exact ⟨h.functions, List.forall_mem_cons.2 ⟨⟨⟨hcondition, isBlock_blockNode hdone⟩, nofun⟩, houter⟩, trivial⟩
  · rename_i hspine
    obtain ⟨⟨hcondition, hdone⟩, houter⟩ := h.innermost hspine
    refine h.addStatement houter (.ifElse rfl rfl hcondition ?_) hs'
    exact List.forall_mem_singleton.2 (isBlock_blockNode hdone)
  · rename_i hspine
    obtain ⟨⟨⟨hcondition, hconsequent⟩, hdone⟩, houter⟩ := h.innermost hspine
    refine h.addStatement houter (.ifElse rfl rfl hcondition ?_) hs'
    exact List.forall_mem_cons.2 ⟨hconsequent, List.forall_mem_singleton.2 (isBlock_blockNode hdone)⟩
  · rename_i hspine
    obtain ⟨⟨hcondition, hdone⟩, houter⟩ := h.innermost hspine
    exact h.addStatement houter (.whileDo rfl rfl hcondition (isBlock_blockNode hdone)) hs'
  · cases hs'

theorem feedStatement (h : s.Sound) {t : Token} (hs' : s.feedStatement t = some s') : s'.Sound := by
  unfold Reader.feedStatement at hs'
  split at hs'
  case h_8 => exact h.closeBlock hs'
  case h_9 => cases hs'
  all_goals cases hs'
  · exact h.goto trivial
  · exact h.goto trivial
  · exact h.enter (.ifCondition t.line) trivial trivial
  · exact h.enter (.whileCondition t.line) trivial trivial
  · exact h.enter (.ret t.line) trivial trivial
  · exact h.enter (.write t.line) trivial trivial
  · exact h.goto trivial

theorem feedOperand (h : s.Sound) {t : Token} (hs' : s.feedOperand t = some s') : s'.Sound := by
  unfold Reader.feedOperand at hs'
  split at hs'
  case h_8 =>
    obtain ⟨kind, hkind, rfl⟩ := Option.map_eq_some_iff.1 hs'
    exact h.enter (.unary kind) (isUnary_of_unaryKind? hkind) trivial
  all_goals cases hs'
  · exact h.goto trivial
  · exact h.goto (.literal rfl)
  · exact h.goto (.literal rfl)
  · exact h.goto (.literal rfl)
  · exact h.goto (.literal rfl)
  · exact h.goto (.literal rfl)
  · exact h.enter .group trivial trivial

theorem endCall (h : s.Sound) {spine : List Open} (hspine : ∀ c ∈ spine, c.Sound) (callee : Token) (isStatement : Bool)
    {done : List Node} (hdone : ∀ a ∈ done, a.IsExpression) : (s.endCall spine callee isStatement done).Sound := by
  refine ⟨h.functions, hspine, ?_⟩
  have harguments : ∀ a ∈ done.reverse, a.IsExpression := fun a ha => hdone a (List.mem_reverse.1 ha)
  cases isStatement with
  | true => exact Node.IsStatement.call rfl rfl harguments
  | false => exact Node.IsExpression.call rfl rfl harguments

theorem feedOperator (h : s.Sound) {operand : Node} (hoperand : operand.IsExpression) {k : Kind} (hk : k.isBinary = true)
    (hs' : s.feedOperator operand k = some s') : s'.Sound := by
  unfold Reader.feedOperator at hs'
  dsimp only at hs'
  generalize (if (level k == 3) = true then 4 else level k) = least at hs'
  obtain ⟨hleft, hspine⟩ := collapse_sound least hoperand h.spine
  split at hs'
  · cases hs'
  · cases hs'
    exact ⟨h.functions, List.forall_mem_cons.2 ⟨⟨hk, hleft⟩, hspine⟩, trivial⟩

theorem feedEnd (h : s.Sound) {operand : Node} (hoperand : operand.IsExpression) {t : Terminal}
    (hs' : s.feedEnd operand t = some s') : s'.Sound := by
  unfold Reader.feedEnd at hs'
  obtain ⟨hexpression, hspine⟩ := collapse_sound 0 hoperand h.spine
  generalize collapse 0 operand s.spine = collapsed at hs' hexpression hspine
  obtain ⟨expression, spine⟩ := collapsed
  dsimp only at hs' hexpression hspine
  split at hs'
  · exact h.addStatement (List.forall_mem_cons.1 hspine).2 (.assign rfl rfl hexpression) hs'
  · exact h.addStatement (List.forall_mem_cons.1 hspine).2 (.ret rfl (by simpa [Node.branch] using hexpression)) hs'
  · exact h.addStatement (List.forall_mem_cons.1 hspine).2 (.write rfl rfl hexpression) hs'
  · cases hs'
    exact ⟨h.functions, List.forall_mem_cons.2 ⟨⟨hexpression, nofun⟩, (List.forall_mem_cons.1 hspine).2⟩, trivial⟩
  · cases hs'
    exact ⟨h.functions, List.forall_mem_cons.2 ⟨⟨hexpression, nofun⟩, (List.forall_mem_cons.1 hspine).2⟩, trivial⟩
  · cases hs'
    exact ⟨h.functions, (List.forall_mem_cons.1 hspine).2, hexpression⟩
  · rename_i callee isStatement done outer
    cases hs'
    obtain ⟨hdone, houter⟩ := List.forall_mem_cons.1 hspine
    exact h.endCall houter callee isStatement (List.forall_mem_cons.2 ⟨hexpression, hdone⟩)
  · rename_i callee isStatement done outer
    cases hs'
    obtain ⟨hdone, houter⟩ := List.forall_mem_cons.1 hspine
    have hdone' : (Open.arguments callee isStatement (expression :: done)).Sound :=
      List.forall_mem_cons.2 ⟨hexpression, hdone⟩
    exact ⟨h.functions, List.forall_mem_cons.2 ⟨hdone', houter⟩, trivial⟩
  · cases hs'

theorem feedAfterOperand (h : s.Sound) {operand : Node} (hoperand : operand.IsExpression) {t : Token}
    (hs' : s.feedAfterOperand operand t = some s') : s'.Sound := by
  unfold Reader.feedAfterOperand at hs'
  split at hs'
  · rename_i kind hkind
    exact h.feedOperator hoperand (isBinary_of_binaryKind? hkind) hs'
  · exact h.feedEnd hoperand hs'

theorem feedParam (h : s.Sound) {header : Header} {t : Token} (hs' : s.feedParam header t = some s') : s'.Sound := by
  unfold Reader.feedParam at hs'
  split at hs'
  · cases hs'
    exact h.goto trivial
  · cases hs'
    exact h.goto trivial
  · cases hs'

theorem openBody (h : s.Sound) (header : Header) : (s.openBody header).Sound :=
  h.enter (.block (.function header.line header.name (paramsNode header)) []) ⟨trivial, nofun⟩ trivial

/-- Every token keeps the shape. -/
theorem feed (h : s.Sound) {t : Token} (hs' : s.feed t = some s') : s'.Sound := by
  unfold Reader.feed at hs'
  split at hs'
  · cases hs'
    exact h.goto trivial
  · cases hs'
    exact h.goto trivial
  · cases hs'
    exact h.goto trivial
  · cases hs'
    exact h.openBody _
  · exact h.feedParam hs'
  · exact h.feedParam hs'
  · cases hs'
    exact h.goto trivial
  · cases hs'
    exact h.goto trivial
  · cases hs'
    exact h.openBody _
  · exact h.feedStatement hs'
  · rename_i target _ _
    cases hs'
    exact h.enter (.assign target) trivial trivial
  · rename_i target _ _
    cases hs'
    exact h.enter (.arguments target true []) nofun trivial
  · cases hs'
    exact h.goto (.read rfl rfl)
  · rename_i statement hspot _
    have hstatement := h.spot
    rw [hspot] at hstatement
    exact h.addStatement h.spine hstatement hs'
  · split at hs'
    · rename_i line outer hspine
      exact h.addStatement (h.innermost hspine).2 (.ret rfl (by simp [Node.branch])) hs'
    · cases hs'
  · exact h.feedOperand hs'
  · exact h.feedOperand hs'
  · split at hs'
    · rename_i callee isStatement done outer hspine
      cases hs'
      obtain ⟨hdone, houter⟩ := h.innermost hspine
      exact h.endCall houter callee isStatement hdone
    · cases hs'
  · exact h.feedOperand hs'
  · rename_i name _ _
    cases hs'
    exact h.enter (.arguments name false []) nofun trivial
  · exact h.feedAfterOperand (.id rfl) hs'
  · rename_i operand hspot
    have hoperand := h.spot
    rw [hspot] at hoperand
    exact h.feedAfterOperand hoperand hs'
  · cases hs'

theorem finish (h : s.Sound) {tree : Node} (htree : s.finish? = some tree) : ∀ f ∈ tree.children, f.IsFunction := by
  unfold Reader.finish? at htree
  split at htree
  · cases htree
    intro f hf
    exact h.functions f (List.mem_reverse.1 hf)
  · cases htree

/-- A text that is read from a sound state on is a program. -/
theorem read (h : s.Sound) {last place : Place} {text : List Char} {tree : Node}
    (htree : s.read last place text = .ok tree) : ∀ f ∈ tree.children, f.IsFunction := by
  fun_induction Reader.read s last place text with
  | case1 s last place program hprogram =>
      cases htree
      exact h.finish hprogram
  | case2 s last place hnone => cases htree
  | case3 s last place c rest hlexeme => cases htree
  | case4 s last place c rest n hlexeme ih => exact ih h htree
  | case5 s last place c rest terminal n hlexeme t hfeed => cases htree
  | case6 s last place c rest terminal n hlexeme t next hfeed ih => exact ih (h.feed hfeed) htree

end Sound

end Reader

/-- The functions of a program that has been read have the shape of functions. -/
theorem isFunction_of_readProgram {source : String} {tree : Node} (h : readProgram source = .ok tree) :
    ∀ f ∈ tree.children, f.IsFunction :=
  Reader.sound_initial.read h

end Rover
