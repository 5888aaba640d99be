import Rover.Proofs.Loading

/-!
# Rewriting programs

Rewrites of program trees that should not matter: statements after a return of the same block go away, a loop is unrolled
once, a negated conjunction becomes a disjunction of negations. `Rewrite` is one such step, at any place of a function body
that a run may come to. `Variant` is what runs are compared along: two trees that differ in any number of places at once, by
a rewrite or its reverse at each. A tree in the middle of a chain of rewrites need not load, so constants are filled in as
far as there are any (`Node.fill`), which is what loading does to a tree that loads.
-/

namespace Rover

/-- What a node is for its parent. -/
inductive Position where
  /-- A name, a parameter, or a node that is not looked at. -/
  | fixed
  | expression
  | arguments
  | statement
  | block
  | function
  | program

/-- What the children of a node are for it. -/
def Position.child : Position → Kind → Nat → Position
  | .program, _, _ => .function
  | .function, _, 1 => .block
  | .block, _, _ => .statement
  | .statement, .assign, 1 => .expression
  | .statement, .ifElse, 0 => .expression
  | .statement, .ifElse, _ => .block
  | .statement, .whileDo, 0 => .expression
  | .statement, .whileDo, _ => .block
  | .statement, .ret, 0 => .expression
  | .statement, .write, 0 => .expression
  | .statement, .call, 1 => .arguments
  | .arguments, _, _ => .expression
  | .expression, .call, 1 => .arguments
  | .expression, .call, _ => .fixed
  | .expression, _, _ => .expression
  | _, _, _ => .fixed

theorem Position.child_expression {k : Kind} (hk : k ≠ .call) (i : Nat) : child .expression k i = .expression := by
  cases k with
  | call => exact absurd rfl hk
  | _ => rfl

/-- A rewrite of one place of a tree. Lines are free: they can be changed everywhere. -/
inductive Rewrite : Position → Node → Node → Prop
  /-- What follows a return is taken away. -/
  | unreachable {kind : Kind} {line : Int} {text : String} {value : Option Value} (before : List Node) {ret : Node}
      (after : List Node) : ret.kind = .ret →
        Rewrite .block ⟨kind, line, text, value, before ++ ret :: after⟩ ⟨kind, line, text, value, before ++ [ret]⟩
  /-- A loop is its body and the loop again, if the condition holds. -/
  | unroll (line : Int) (condition body : Node) :
      Rewrite .statement (.branch .whileDo line [condition, body])
        (.branch .ifElse line
          [condition, .branch .block line (body.children ++ [.branch .whileDo line [condition, body]])])
  | deMorgan (line : Int) (p q : Node) :
      Rewrite .expression (.branch .not line [.branch .and line [p, q]])
        (.branch .or line [.branch .not line [p], .branch .not line [q]])
  | reline {position : Position} {kind : Kind} {line : Int} (line' : Int) {text : String} {value : Option Value}
      {children : List Node} :
      Rewrite position ⟨kind, line, text, value, children⟩ ⟨kind, line', text, value, children⟩
  | inside {position : Position} {kind : Kind} {line : Int} {text : String} {value : Option Value} (before : List Node)
      {n n' : Node} (after : List Node) : Rewrite (position.child kind before.length) n n' →
        Rewrite position ⟨kind, line, text, value, before ++ n :: after⟩ ⟨kind, line, text, value, before ++ n' :: after⟩

/-! ### Variants -/

mutual

/-- Trees that differ by rewrites, in both directions and in any number of places. -/
inductive Variant : Position → Node → Node → Prop
  | node {position : Position} {k : Kind} {l l' : Int} {t : String} {v : Option Value} {cs cs' : List Node} :
      VariantAll (position.child k) cs cs' → Variant position ⟨k, l, t, v, cs⟩ ⟨k, l', t, v, cs'⟩
  | block {b b' : Node} : VariantBlock b.children b'.children → Variant .block b b'
  | unroll {l l' i i' : Int} {c c₁ c₂ b b₁ b₂ : Node} : Variant .expression c c₁ → Variant .expression c c₂ →
      Variant .block b b₁ → Variant .block b b₂ →
        Variant .statement (.branch .whileDo l [c, b])
          (.branch .ifElse l' [c₁, .branch .block i (b₁.children ++ [.branch .whileDo i' [c₂, b₂]])])
  | roll {l l' i i' : Int} {c c₁ c₂ b b₁ b₂ : Node} : Variant .expression c₁ c → Variant .expression c₂ c →
      Variant .block b₁ b → Variant .block b₂ b →
        Variant .statement (.branch .ifElse l' [c₁, .branch .block i (b₁.children ++ [.branch .whileDo i' [c₂, b₂]])])
          (.branch .whileDo l [c, b])
  | disjunction {l l' i i₁ i₂ : Int} {p p' q q' : Node} : Variant .expression p p' → Variant .expression q q' →
      Variant .expression (.branch .not l [.branch .and i [p, q]])
        (.branch .or l' [.branch .not i₁ [p'], .branch .not i₂ [q']])
  | conjunction {l l' i i₁ i₂ : Int} {p p' q q' : Node} : Variant .expression p p' → Variant .expression q q' →
      Variant .expression (.branch .or l' [.branch .not i₁ [p], .branch .not i₂ [q]])
        (.branch .not l [.branch .and i [p', q']])

/-- Children in their positions. -/
inductive VariantAll : (Nat → Position) → List Node → List Node → Prop
  | nil {positions : Nat → Position} : VariantAll positions [] []
  | cons {positions : Nat → Position} {n n' : Node} {ns ns' : List Node} : Variant (positions 0) n n' →
      VariantAll (fun i => positions (i + 1)) ns ns' → VariantAll positions (n :: ns) (n' :: ns')

/-- The statements of a block: what follows a return does not count. -/
inductive VariantBlock : List Node → List Node → Prop
  | nil : VariantBlock [] []
  | cons {n n' : Node} {ns ns' : List Node} : Variant .statement n n' → VariantBlock ns ns' →
      VariantBlock (n :: ns) (n' :: ns')
  | ret {n n' : Node} (ns ns' : List Node) : n.kind = .ret → Variant .statement n n' →
      VariantBlock (n :: ns) (n' :: ns')

end

mutual

theorem Variant.refl (position : Position) : ∀ n : Node, Variant position n n
  | ⟨k, _, _, _, cs⟩ => .node (VariantAll.refl (position.child k) cs)

theorem VariantAll.refl (positions : Nat → Position) : ∀ ns : List Node, VariantAll positions ns ns
  | [] => .nil
  | n :: ns => .cons (Variant.refl (positions 0) n) (VariantAll.refl _ ns)

end

/-- Children that differ at one place only. -/
theorem VariantAll.update {positions : Nat → Position} {n n' : Node} (before after : List Node)
    (h : Variant (positions before.length) n n') : VariantAll positions (before ++ n :: after) (before ++ n' :: after) := by
  induction before generalizing positions with
  | nil => exact .cons h (.refl _ after)
  | cons b before ih => exact .cons (.refl _ b) (ih h)

theorem VariantAll.length_eq {positions : Nat → Position} {ns ns' : List Node} (h : VariantAll positions ns ns') :
    ns'.length = ns.length := by
  induction ns generalizing positions ns' with
  | nil =>
      cases h
      rfl
  | cons n ns ih =>
      cases h with
      | cons _ hns => exact congrArg (· + 1) (ih hns)

/-- Children that all are of one position. -/
theorem VariantAll.forall₂ {positions : Nat → Position} {position : Position} (hall : ∀ i, positions i = position)
    {ns ns' : List Node} (h : VariantAll positions ns ns') : List.Forall₂ (Variant position) ns ns' := by
  induction ns generalizing positions ns' with
  | nil =>
      cases h
      exact .nil
  | cons n ns ih =>
      cases h with
      | cons hn hns => exact .cons (hall 0 ▸ hn) (ih (fun i => hall (i + 1)) hns)

theorem Variant.text_eq {n n' : Node} (h : Variant .fixed n n') : n'.text = n.text := by
  cases h
  rfl

theorem Variant.kind_eq {n n' : Node} (h : Variant .fixed n n') : n'.kind = n.kind := by
  cases h
  rfl

theorem Variant.fixed {n n' : Node} (h : Variant .fixed n n') : List.Forall₂ (Variant .fixed) n.children n'.children := by
  cases h with
  | node hall => exact hall.forall₂ fun _ => rfl

theorem Variant.expressions {n n' : Node} (h : Variant .arguments n n') :
    List.Forall₂ (Variant .expression) n.children n'.children := by
  cases h with
  | node hall => exact hall.forall₂ fun _ => rfl

namespace VariantBlock

theorem of_forall₂ {ns ns' : List Node} (h : List.Forall₂ (Variant .statement) ns ns') : VariantBlock ns ns' := by
  induction h with
  | nil => exact .nil
  | cons hn _ ih => exact .cons hn ih

/-- What follows a return may be replaced. -/
theorem unreachable (before : List Node) {r : Node} (after after' : List Node) (hr : r.kind = .ret) :
    VariantBlock (before ++ r :: after) (before ++ r :: after') := by
  induction before with
  | nil => exact .ret after after' hr (.refl _ r)
  | cons n before ih => exact .cons (.refl _ n) ih

end VariantBlock

theorem Variant.statements {b b' : Node} (h : Variant .block b b') : VariantBlock b.children b'.children := by
  cases h with
  | node hall => exact .of_forall₂ (hall.forall₂ fun _ => rfl)
  | block h => exact h

/-! ### Filling in constants -/

namespace Node

mutual

/-- The tree with the constants of its literals, as far as they have one. -/
def fill : Node → Node
  | ⟨kind, line, text, value, children⟩ =>
    ⟨kind, line, text, (constant? kind line text).toOption.join <|> value, fillAll children⟩

def fillAll : List Node → List Node
  | [] => []
  | n :: ns => fill n :: fillAll ns

end

theorem fillAll_append (ns ns' : List Node) : fillAll (ns ++ ns') = fillAll ns ++ fillAll ns' := by
  induction ns with
  | nil => rfl
  | cons n ns ih => rw [List.cons_append, fillAll, fillAll, ih, List.cons_append]

theorem length_fillAll (ns : List Node) : (fillAll ns).length = ns.length := by
  induction ns with
  | nil => rfl
  | cons n ns ih => rw [fillAll, List.length_cons, List.length_cons, ih]

@[simp] theorem kind_fill (n : Node) : n.fill.kind = n.kind := by
  cases n
  rw [fill]

@[simp] theorem text_fill (n : Node) : n.fill.text = n.text := by
  cases n
  rw [fill]

@[simp] theorem line_fill (n : Node) : n.fill.line = n.line := by
  cases n
  rw [fill]

@[simp] theorem children_fill (n : Node) : n.fill.children = fillAll n.children := by
  cases n
  rw [fill]

mutual

/-- A tree that can be resolved is resolved by filling it in. -/
theorem fill_of_resolve : ∀ (n : Node) {n' : Node}, n.resolve = .ok n' → n' = n.fill
  | ⟨kind, line, text, value, children⟩, n', h => by
      rw [resolve] at h
      obtain ⟨constant, hconstant, h⟩ := ok_of_bind h
      obtain ⟨children', hchildren, h⟩ := ok_of_bind h
      cases h
      rw [fill, hconstant, fillAll_of_resolveAll children hchildren]
      rfl

theorem fillAll_of_resolveAll : ∀ (ns : List Node) {ns' : List Node}, resolveAll ns = .ok ns' → ns' = fillAll ns
  | [], ns', h => by
      cases h
      rfl
  | n :: ns, ns', h => by
      rw [resolveAll] at h
      obtain ⟨m, hm, h⟩ := ok_of_bind h
      obtain ⟨ms, hms, h⟩ := ok_of_bind h
      cases h
      rw [fillAll, fill_of_resolve n hm, fillAll_of_resolveAll ns hms]

end

end Node

/-- Whether a literal has a constant does not depend on its line. -/
theorem constant?_line (kind : Kind) (line line' : Int) (text : String) :
    (constant? kind line text).toOption = (constant? kind line' text).toOption := by
  cases kind with
  | int =>
      simp only [constant?]
      cases Reading.int text with
      | error e => rfl
      | ok n =>
          cases n with
          | none => rfl
          | some n =>
              change (if IsWord n then _ else _ : Except LoadError (Option Value)).toOption =
                (if IsWord n then _ else _ : Except LoadError (Option Value)).toOption
              split_ifs <;> rfl
  | _ => rfl

/-- Filled in, the two sides of a rewrite are variants of each other. -/
theorem Rewrite.variants {position : Position} {n n' : Node} (h : Rewrite position n n') :
    Variant position n.fill n'.fill ∧ Variant position n'.fill n.fill := by
  induction h with
  | unreachable before after hret =>
      rw [← Node.kind_fill] at hret
      simp only [Node.fill, Node.fillAll_append, Node.fillAll]
      exact ⟨.block (.unreachable _ _ _ hret), .block (.unreachable _ _ _ hret)⟩
  | unroll line condition body =>
      simp only [Node.branch, Node.fill, Node.fillAll_append, Node.fillAll, ← Node.children_fill]
      exact ⟨.unroll (.refl _ _) (.refl _ _) (.refl _ body.fill) (.refl _ _),
        .roll (.refl _ _) (.refl _ _) (.refl _ body.fill) (.refl _ _)⟩
  | deMorgan line p q =>
      exact ⟨.disjunction (.refl _ _) (.refl _ _), .conjunction (.refl _ _) (.refl _ _)⟩
  | @reline _ kind line line' text =>
      rw [Node.fill, Node.fill, constant?_line kind line line' text]
      exact ⟨.node (.refl _ _), .node (.refl _ _)⟩
  | @inside position kind _ _ _ before n n' after _ ih =>
      rw [Node.fill, Node.fill, Node.fillAll_append, Node.fillAll_append, Node.fillAll, Node.fillAll]
      rw [← Node.length_fillAll] at ih
      exact ⟨.node (.update _ _ ih.1), .node (.update _ _ ih.2)⟩

/-! ### Programs -/

/-- Functions of the same name and parameters, with bodies that are variants. -/
structure Function.Variant (f f' : Function) : Prop where
  name_eq : f'.name = f.name
  params_eq : f'.params = f.params
  body : Rover.Variant .block f.body f'.body

/-- The function of a node whose literals are filled in; a node without a body gets an empty one. -/
def Function.ofNode (n : Node) : Function :=
  match n.children with
  | params :: body :: _ => ⟨n.text, params.children.map Program.param, body, n.line⟩
  | _ => ⟨n.text, [], .branch .block n.line [], n.line⟩

namespace Program

/-- The program that a tree stands for, whether it loads or not. -/
def draft (tree : Node) : Program := ⟨tree.fill.children.map Function.ofNode⟩

/-- Programs whose functions are variants, one by one. -/
def Variant (p p' : Program) : Prop := List.Forall₂ Function.Variant p.functions p'.functions

theorem Variant.refl (p : Program) : p.Variant p :=
  List.forall₂_same.2 fun f _ => ⟨rfl, rfl, .refl _ f.body⟩

theorem Variant.names_eq {p p' : Program} (h : p.Variant p') : p'.names = p.names := by
  unfold names
  unfold Variant at h
  generalize p.functions = fs at h ⊢
  generalize p'.functions = fs' at h ⊢
  induction h with
  | nil => rfl
  | cons hf _ ih => rw [List.map_cons, List.map_cons, hf.name_eq, ih]

theorem Variant.get? {p p' : Program} (h : p.Variant p') (name : String) :
    Option.Rel Function.Variant (p.get? name) (p'.get? name) := by
  unfold Program.get?
  unfold Variant at h
  generalize p.functions = fs at h ⊢
  generalize p'.functions = fs' at h ⊢
  induction h with
  | nil => exact .none
  | @cons f f' _ _ hf _ ih =>
      rw [List.find?_cons, List.find?_cons, hf.name_eq]
      cases f.name == name with
      | true => exact .some hf
      | false => exact ih

theorem map_param_fillAll (ns : List Node) : (Node.fillAll ns).map param = ns.map param := by
  induction ns with
  | nil => rfl
  | cons n ns ih => rw [Node.fillAll, List.map_cons, List.map_cons, ih, param, param, Node.text_fill, Node.kind_fill]

theorem define_eq {done done' : List Function} {n : Node} (h : define done n = .ok done') :
    done' = done ++ [Function.ofNode n.fill] := by
  unfold define at h
  split_ifs at h
  split at h
  · rename_i params body rest hchildren
    obtain ⟨body', hbody, h⟩ := ok_of_bind h
    cases h
    rw [Node.fill_of_resolve body hbody, Function.ofNode, Node.children_fill, hchildren]
    simp only [Node.fillAll, Node.text_fill, Node.line_fill, Node.children_fill, map_param_fillAll]
  · cases h

theorem foldlM_define_eq {nodes : List Node} {done done' : List Function} (h : nodes.foldlM define done = .ok done') :
    done' = done ++ (Node.fillAll nodes).map Function.ofNode := by
  induction nodes generalizing done with
  | nil =>
      cases h
      exact (List.append_nil _).symm
  | cons n nodes ih =>
      rw [List.foldlM_cons] at h
      obtain ⟨next, hnext, h⟩ := ok_of_bind h
      rw [ih h, define_eq hnext, List.append_assoc, Node.fillAll]
      rfl

/-- The program of a tree that loads is the one it stands for. -/
theorem ofTree_eq {tree : Node} {p : Program} (h : ofTree tree = .ok p) : p = draft tree := by
  unfold ofTree at h
  split_ifs at h
  obtain ⟨functions, hfunctions, h⟩ := ok_of_bind h
  cases h
  rw [foldlM_define_eq hfunctions, draft, Node.children_fill, List.nil_append]

theorem map_param_eq {ns ns' : List Node} (h : List.Forall₂ (Rover.Variant .fixed) ns ns') :
    ns'.map param = ns.map param := by
  induction h with
  | nil => rfl
  | cons hn _ ih => rw [List.map_cons, List.map_cons, ih, param, param, hn.text_eq, hn.kind_eq]

end Program

theorem Function.ofNode_variant {n n' : Node} (h : Rover.Variant .function n n') :
    (Function.ofNode n).Variant (Function.ofNode n') := by
  cases h with
  | node hall =>
      cases hall with
      | nil => exact ⟨rfl, rfl, .node .nil⟩
      | cons hparams hrest =>
          cases hrest with
          | nil => exact ⟨rfl, rfl, .node .nil⟩
          | cons hbody _ => exact ⟨rfl, Program.map_param_eq hparams.fixed, hbody⟩

/-- A rewrite of a tree makes variants of the programs that the two trees stand for. -/
theorem Rewrite.draft_variants {tree tree' : Node} (h : Rewrite .program tree tree') :
    (Program.draft tree).Variant (.draft tree') ∧ (Program.draft tree').Variant (.draft tree) := by
  have hdraft {t t' : Node} (hvariant : Variant .program t.fill t'.fill) : (Program.draft t).Variant (.draft t') := by
    unfold Program.Variant Program.draft
    generalize t.fill = n at hvariant ⊢
    generalize t'.fill = n' at hvariant ⊢
    cases hvariant with
    | node hall =>
        rw [List.forall₂_map_left_iff, List.forall₂_map_right_iff]
        exact (hall.forall₂ fun _ => rfl).imp fun _ _ => Function.ofNode_variant
  exact ⟨hdraft h.variants.1, hdraft h.variants.2⟩

end Rover
