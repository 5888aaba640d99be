import Rover.Proofs.Equations

/-!
# Loaded programs

What loading makes of a tree: the functions of the program are the function nodes of the tree, with every literal of their
bodies resolved. Resolving keeps the tree as it is but for the constants of its literals.
-/

namespace Rover

theorem ok_of_bind {ε α β : Type} {x : Except ε α} {f : α → Except ε β} {b : β} (h : x >>= f = .ok b) :
    ∃ a, x = .ok a ∧ f a = .ok b := by
  cases x with
  | error e => cases h
  | ok a => exact ⟨a, rfl, h⟩

theorem eq_ok_of_toOption {ε α : Type} {x : Except ε α} {a : α} (h : x.toOption = some a) : x = .ok a := by
  cases x with
  | error e => cases h
  | ok b =>
      cases h
      rfl

theorem exists_of_forall₂ {α β : Type} {R : α → β → Prop} {l : List α} {l' : List β} (h : List.Forall₂ R l l') {b : β}
    (hb : b ∈ l') : ∃ a ∈ l, R a b := by
  induction h with
  | nil => cases hb
  | cons hab _ ih =>
      rcases List.mem_cons.1 hb with rfl | hb
      · exact ⟨_, List.mem_cons_self, hab⟩
      · obtain ⟨a, ha, hR⟩ := ih hb
        exact ⟨a, List.mem_cons_of_mem _ ha, hR⟩

theorem isSome_constant {k : Kind} {l : Int} {t : String} {v : Option Value} (hk : k.isLiteral = true)
    (h : constant? k l t = .ok v) : ∃ x, v = some x := by
  cases k with
  | int =>
      obtain ⟨n, -, h⟩ := ok_of_bind h
      split at h
      · cases h
      · split_ifs at h
        exact ⟨_, (Except.ok.inj h).symm⟩
  | float =>
      dsimp only [constant?] at h
      split at h
      · cases h
      · exact ⟨_, (Except.ok.inj h).symm⟩
  | boolean => exact ⟨_, (Except.ok.inj h).symm⟩
  | string => exact ⟨_, (Except.ok.inj h).symm⟩
  | _ => cases hk

namespace Node

/-- The node with its own constant filled in, if it is a literal. -/
structure Resolution (n n' : Node) : Prop where
  kind_eq : n'.kind = n.kind
  line_eq : n'.line = n.line
  text_eq : n'.text = n.text
  constant : n.kind.isLiteral = true → ∃ x, n'.value = some x ∧ constant? n.kind n.line n.text = .ok (some x)
  children : resolveAll n.children = .ok n'.children

theorem resolution {n n' : Node} (h : n.resolve = .ok n') : n.Resolution n' := by
  obtain ⟨k, l, t, v, children⟩ := n
  rw [resolve] at h
  obtain ⟨constant, hconstant, h⟩ := ok_of_bind h
  obtain ⟨children', hchildren, h⟩ := ok_of_bind h
  cases h
  refine ⟨rfl, rfl, rfl, fun hk => ?_, hchildren⟩
  obtain ⟨x, rfl⟩ := isSome_constant hk hconstant
  exact ⟨x, rfl, hconstant⟩

theorem forall₂_resolve {ns ns' : List Node} (h : resolveAll ns = .ok ns') :
    List.Forall₂ (fun n n' => n.resolve = .ok n') ns ns' := by
  induction ns generalizing ns' with
  | nil =>
      cases h
      exact .nil
  | cons n ns ih =>
      rw [resolveAll] at h
      obtain ⟨n', hn, h⟩ := ok_of_bind h
      obtain ⟨ns', hns, h⟩ := ok_of_bind h
      cases h
      exact .cons hn (ih hns)

/-- Every literal of the tree has its constant. -/
inductive Resolved : Node → Prop
  | mk {n : Node} : (n.kind.isLiteral = true → ∃ x, n.value = some x ∧ constant? n.kind n.line n.text = .ok (some x)) →
      (∀ c ∈ n.children, Resolved c) → Resolved n

theorem Resolved.constant {n : Node} (h : n.Resolved) (hk : n.kind.isLiteral = true) :
    ∃ x, n.value = some x ∧ constant? n.kind n.line n.text = .ok (some x) := by
  cases h with
  | mk hconstant _ => exact hconstant hk

theorem Resolved.children {n : Node} (h : n.Resolved) : ∀ c ∈ n.children, c.Resolved := by
  cases h with
  | mk _ hchildren => exact hchildren

theorem Resolved.of_resolve (n : Node) {n' : Node} (h : n.resolve = .ok n') : n'.Resolved := by
  have hn := resolution h
  refine .mk (fun hk => ?_) fun c' hc' => ?_
  · rw [hn.kind_eq] at hk
    rw [hn.kind_eq, hn.line_eq, hn.text_eq]
    exact hn.constant hk
  · obtain ⟨c, hc, hresolve⟩ := exists_of_forall₂ (forall₂_resolve hn.children) hc'
    exact of_resolve c hresolve
termination_by sizeOf n
decreasing_by
  have hlt := List.sizeOf_lt_of_mem hc
  obtain ⟨k, l, t, v, children⟩ := n
  simp only [Node.mk.sizeOf_spec] at hlt ⊢
  omega

end Node

namespace Program

/-- The function that a node of a tree defines. -/
structure Defines (n : Node) (f : Function) : Prop where
  kind_eq : n.kind = .function
  parts : ∃ params body rest, n.children = params :: body :: rest ∧ f.params = params.children.map param ∧
    body.resolve = .ok f.body

theorem defines_of_define {done done' : List Function} {n : Node} (h : define done n = .ok done') :
    ∃ f, done' = done ++ [f] ∧ Defines n f := by
  unfold define at h
  split_ifs at h with hkind hduplicate
  split at h
  · rename_i params body rest hchildren
    obtain ⟨body', hbody, h⟩ := ok_of_bind h
    cases h
    exact ⟨_, rfl, not_not.1 hkind, params, body, rest, hchildren, rfl, hbody⟩
  · cases h

theorem defines_of_foldlM {nodes : List Node} {done done' : List Function} (h : nodes.foldlM define done = .ok done')
    {f : Function} (hf : f ∈ done') : f ∈ done ∨ ∃ n ∈ nodes, Defines n f := by
  induction nodes generalizing done with
  | nil =>
      cases h
      exact .inl hf
  | cons n nodes ih =>
      rw [List.foldlM_cons] at h
      obtain ⟨next, hnext, h⟩ := ok_of_bind h
      obtain ⟨g, rfl, hg⟩ := defines_of_define hnext
      rcases ih h with hold | ⟨n', hn', hdefines⟩
      · rcases List.mem_append.1 hold with hold | hnew
        · exact .inl hold
        · cases List.mem_singleton.1 hnew
          exact .inr ⟨n, List.mem_cons_self, hg⟩
      · exact .inr ⟨n', List.mem_cons_of_mem _ hn', hdefines⟩

/-- The functions of a program come from nodes of the tree. -/
theorem defines_of_ofTree {tree : Node} {p : Program} (h : ofTree tree = .ok p) {f : Function} (hf : f ∈ p.functions) :
    ∃ n ∈ tree.children, Defines n f := by
  unfold ofTree at h
  split_ifs at h
  obtain ⟨functions, hfunctions, h⟩ := ok_of_bind h
  cases h
  exact (defines_of_foldlM hfunctions hf).resolve_left nofun

theorem Defines.resolved {n : Node} {f : Function} (h : Defines n f) : f.body.Resolved := by
  obtain ⟨-, params, body, rest, -, -, hresolve⟩ := h
  exact .of_resolve body hresolve

theorem mem_of_get? {p : Program} {name : String} {f : Function} (h : p.get? name = some f) : f ∈ p.functions :=
  List.mem_of_find?_eq_some h

end Program

theorem loaded_of_loadTree {m m' : Machine} {tree : Node} (h : m.loadTree tree = .ok m') :
    ∃ p, Program.ofTree tree = .ok p ∧ m' = { m with program := some p }.emit (.loaded p.names) := by
  obtain ⟨p, hp, h⟩ := ok_of_bind h
  cases h
  exact ⟨p, hp, rfl⟩

theorem loadTree_of_loadSource {m m' : Machine} {source : String} {tree : Node}
    (h : m.loadSource source = .ok (tree, m')) : m.loadTree tree = .ok m' := by
  unfold Machine.loadSource at h
  split at h
  · cases h
  · split at h
    · cases h
    · rename_i hload
      cases h
      exact hload

end Rover
