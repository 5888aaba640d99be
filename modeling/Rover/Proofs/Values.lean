import Rover.Proofs.Cells
import Rover.Proofs.Loading
import Rover.Proofs.Points

/-!
# The values of a run

Whatever a program that loads does, its variables hold no void value, its integers are words and its floats are in single
precision, and so it is with the value of every expression: `variables_proper`. A void value is the result of a call and of
nothing else.
-/

namespace Rover

namespace Value

/-- Not void, and in range if it is a number. -/
def Proper : Value → Prop
  | .void => False
  | .integer n => IsWord n
  | .float x => toSingle x = x
  | .boolean _ => True
  | .string _ => True

theorem proper_ofInt (n : Int) : (ofInt n).Proper := isWord_wrap n

theorem proper_ofFloat (x : Float) : (ofFloat x).Proper := toSingle_toSingle x

theorem proper_ofToken {token : String} {v : Value} (h : ofToken token = .ok v) : v.Proper := by
  unfold ofToken at h
  obtain ⟨whole?, -, h⟩ := ok_of_bind h
  generalize (if '_' ∈ token.toList then none else Reading.float? token) = float? at h
  cases hwhole : whole?.filter (IsWord ·) with
  | some n =>
      rw [hwhole] at h
      cases h
      have hword : IsWord n := of_decide_eq_true (Option.filter_eq_some_iff.1 hwhole).2
      exact hword
  | none =>
      rw [hwhole] at h
      cases float? with
      | some x =>
          cases h
          exact proper_ofFloat x
      | none =>
          cases h
          trivial

theorem proper_constant {k : Kind} {l : Int} {t : String} {v : Value} (h : constant? k l t = .ok (some v)) : v.Proper := by
  unfold constant? at h
  split at h
  · obtain ⟨n, -, h⟩ := ok_of_bind h
    split at h
    · cases h
    · split_ifs at h with hword
      cases h
      exact hword
  · split at h
    · cases h
    · cases h
      exact proper_ofFloat _
  · cases h
    trivial
  · cases h
    trivial
  · cases h

end Value

namespace Stack

/-- Every cell holds a proper value, and records bind such cells only. -/
structure Sound (s : Stack) : Prop where
  closed : s.Closed
  proper : ∀ v ∈ s.cells, v.Proper

theorem Sound.content {s : Stack} (hs : s.Sound) {c : Cell} (hc : c < s.cells.size) : (s.content c).Proper :=
  hs.proper _ (content_mem hc)

theorem Sound.alloc {s : Stack} (hs : s.Sound) {v : Value} (hv : v.Proper) : (s.alloc v).2.Sound := by
  refine ⟨hs.closed.alloc v, ?_⟩
  simp only [Stack.alloc, Array.forall_mem_push]
  exact ⟨hv, hs.proper⟩

theorem Sound.assign {s : Stack} (hs : s.Sound) {v : Value} (hv : v.Proper) (x : String) (hframes : s.frames ≠ []) :
    (s.assign x v).Sound := by
  refine ⟨hs.closed.assign x v hframes, ?_⟩
  obtain ⟨top, outer, htop⟩ := List.exists_cons_of_ne_nil hframes
  rcases assign_cases htop x v with ⟨c, -, -, hassign⟩ | ⟨-, hassign⟩
  · rw [hassign]
    intro u hu
    rcases Array.mem_or_eq_of_mem_setIfInBounds hu with hu | rfl
    · exact hs.proper u hu
    · exact hv
  · rw [hassign]
    simp only [Array.forall_mem_push]
    exact ⟨hv, hs.proper⟩

end Stack

/-! ### The invariant -/

namespace Invariant

/-- What is known is how many cells there are. -/
def proper : Invariant Nat where
  holds n s _ := n ≤ s.cells.size ∧ s.Sound
  later := (· ≤ ·)
  value := Value.Proper
  cell n c := c < n
  reads _ := True
  writes _ := True
  cause _ := True
  function f := f.body.Resolved
  expression _ n := n.Resolved
  statement _ n := n.Resolved

theorem expression_proper {p : Option Program} {w : Nat} {n : Node} (h : n.Resolved) :
    (proper.toSimulation p).ExpressionForm w n n := by
  have hcause (c : Cause) : (proper.toSimulation p).cause c := fun _ => ⟨rfl, trivial⟩
  refine .self hcause ?_ ?_ (fun _ => ⟨rfl, trivial⟩) fun hk v hv => ?_
  · exact fun c hc => ⟨rfl, h.children c hc⟩
  · exact fun c hc => expressions_self.2 (h.children c hc).children
  · obtain ⟨x, hx, hconstant⟩ := h.constant hk
    rw [hx] at hv
    cases hv
    exact Value.proper_constant hconstant

theorem statement_proper {p : Option Program} {w : Nat} {n : Node} (h : n.Resolved) :
    (proper.toSimulation p).StatementForm w n n := by
  have hcause (c : Cause) : (proper.toSimulation p).cause c := fun _ => ⟨rfl, trivial⟩
  refine .self hcause ?_ ?_ (fun _ => ⟨rfl, trivial⟩) ?_
  · exact fun c hc => ⟨rfl, h.children c hc⟩
  · exact fun c hc => expressions_self.2 (h.children c hc).children
  · exact fun c hc => statements_self.2 (h.children c hc).children

theorem lawful_proper {p : Option Program} (hp : ∀ q, p = some q → ∀ f ∈ q.functions, f.body.Resolved) :
    proper.Lawful p where
  refl _ := Nat.le_refl _
  trans := Nat.le_trans
  cell_later h hc := Nat.lt_of_lt_of_le hc h
  writes_later _ h := h
  expression_later _ h := h
  statement_later _ h := h
  expression_form := expression_proper
  statement_form := statement_proper
  value_boolean _ := trivial
  value_ofInt := Value.proper_ofInt
  value_ofFloat := Value.proper_ofFloat
  value_ofToken := Value.proper_ofToken
  ordinary _ := trivial
  noFunctions _ := trivial
  function hq hf := hp _ hq _ (Program.mem_of_get? hf)
  content hs hc := hs.2.content (Nat.lt_of_lt_of_le hc hs.1)
  variableCell := by
    intro w s v x c hs _ hcell
    exact ⟨s.cells.size, hs.1, ⟨Nat.le_refl _, hs.2⟩, hs.2.closed.lt_size hcell⟩
  active _ _ _ := trivial
  alloc := by
    intro w s v x hs hx
    refine ⟨s.cells.size + 1, Nat.le_succ_of_le hs.1, ⟨?_, hs.2.alloc hx⟩, ?_⟩
    · exact (s.size_alloc x).ge
    · exact (s.alloc_fst x).trans_lt (Nat.lt_succ_self _)
  assign := by
    intro w s v x name hs _ hx hframes
    exact ⟨w, Nat.le_refl _, Nat.le_trans hs.1 (s.size_le_assign name x), hs.2.assign hx name hframes⟩
  act hs _ := hs
  refuse _ _ := trivial
  enter := by
    intro w s v f callLine bound hs hf hbound
    refine ⟨w, ⟨hs.1, ?_, hs.2.proper⟩, hf.children, hbound, fun w₂ s' v' hw₂ hs' => ?_⟩
    · exact hs.2.closed.enter (fun b hb => Nat.lt_of_lt_of_le (hbound b hb) hs.1) f callLine
    · exact ⟨w₂, hw₂, hs'.1, hs'.2.closed.leave, hs'.2.proper⟩

end Invariant

/-- Every variable of every record has a cell, and a proper value in it. -/
def Stack.VariablesProper (s : Stack) : Prop :=
  ∀ f ∈ s.frames, ∀ b ∈ f.slots, b.2 < s.cells.size ∧ (s.content b.2).Proper

theorem Stack.Sound.variablesProper {s : Stack} (hs : s.Sound) : s.VariablesProper := by
  intro f hf b hb
  have hlt := hs.closed f hf b.2 (List.mem_map_of_mem hb)
  exact ⟨hlt, hs.content hlt⟩

theorem lawful_of_loadTree {m m' : Machine} {tree : Node} (h : m.loadTree tree = .ok m') :
    Invariant.proper.Lawful m'.program := by
  obtain ⟨p, hp, rfl⟩ := loaded_of_loadTree h
  refine Invariant.lawful_proper fun q hq f hf => ?_
  cases hq
  obtain ⟨n, -, hdefines⟩ := Program.defines_of_ofTree hp hf
  exact hdefines.resolved

/-- At every point of a run, at the start of a task and at its end, variables hold proper values, and so does every
expression that is evaluated. -/
theorem variables_proper {c : Config} {input : String} {options : Options} {tree : Node} {m : Machine}
    (hload : (Machine.initial c input options).loadTree tree = .ok m) {entry : String} {t : Task} {n : Machine}
    (hvisits : m.Visits (.invoke entry []) t n) :
    n.stack.VariablesProper ∧ (∀ fuel n', t.final? fuel n = some n' → n'.stack.VariablesProper) ∧
      ∀ e fuel v n', t = .evaluate e → evaluate fuel e n = .done v n' → v.Proper := by
  have hlawful := lawful_of_loadTree hload
  have hstart : Invariant.proper.At m.program 0 m := by
    obtain ⟨p, -, rfl⟩ := loaded_of_loadTree hload
    exact ⟨rfl, Nat.zero_le _, ⟨nofun, nofun⟩⟩
  obtain ⟨w, hn, ht⟩ := hlawful.visits hvisits hstart nofun
  refine ⟨hn.holds.2.variablesProper, fun fuel n' hfinal => ?_, fun e fuel v n' he hv => ?_⟩
  · obtain ⟨w', -, hn'⟩ := hlawful.final hn ht hfinal
    exact hn'.holds.2.variablesProper
  · subst he
    obtain ⟨-, -, -, hproper⟩ := hlawful.evaluates ht hn ⟨fuel, hv⟩
    exact hproper

/-- A program that counts a variable up by reference. -/
def countUp : Node :=
  let name (line : Int) (x : String) : Node := .leaf .id line x
  let increment : Node := .branch .assign 6 [name 6 "n",
    .branch (.arithmetic .add) 6 [name 6 "n", .leaf .int 6 "1"]]
  .branch .functionList 1 [
    ⟨.function, 1, "main", none, [.branch .paramList 1 [], .branch .block 1 [
      .branch .assign 2 [name 2 "x", .leaf .int 2 "2147483647"],
      .branch .call 3 [name 3 "count", .branch .argList 3 [name 3 "x"]]]]⟩,
    ⟨.function, 5, "count", none, [.branch .paramList 5 [.leaf .paramRef 5 "n"], .branch .block 5 [increment]]⟩]

theorem countUp_variables : ∃ m t n n', (Machine.initial .default "" .unobserved).loadTree countUp = .ok m ∧
    m.Visits (.invoke "main" []) t n ∧ t.final? 20 n = some n' ∧ n'.stack.VariablesProper ∧
      n'.stack.frames.map (·.slots) = [[("x", 0)]] ∧ n'.stack.content 0 = .integer (-2147483648) := by
  have hrun : (((Machine.initial .default "" .unobserved).loadTree countUp).toOption.bind fun m =>
      (m.opening? "main").bind fun o => (o.1.final? 20 o.2).map fun n' =>
        (n'.stack.frames.map (·.slots), n'.stack.content 0)) =
      some ([[("x", 0)]], .integer (-2147483648)) := by decide +kernel
  obtain ⟨m, hm, hrun⟩ := Option.bind_eq_some_iff.1 hrun
  obtain ⟨⟨t, n⟩, hopening, hrun⟩ := Option.bind_eq_some_iff.1 hrun
  obtain ⟨n', hfinal, hrun⟩ := Option.map_eq_some_iff.1 hrun
  obtain ⟨hslots, hcontent⟩ := Prod.mk.inj hrun
  have hload := eq_ok_of_toOption hm
  have hvisits := Machine.Visits.of_opening? hopening
  obtain ⟨-, hproper, -⟩ := variables_proper hload hvisits
  exact ⟨m, t, n, n', hload, hvisits, hfinal, hproper 20 n' hfinal, hslots, hcontent⟩

end Rover
