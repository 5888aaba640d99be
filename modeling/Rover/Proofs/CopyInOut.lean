import Rover.Proofs.CallFrame
import Rover.Proofs.Relocation

/-!
# Reference parameters and copies

A call by reference could as well work on copies: each by-reference parameter gets a new cell with what is in the caller's
cell, and when the call returns, what is in the new cell goes back to the caller's (`invokeByCopy`). If the by-reference
arguments are different variables, nobody can tell the difference (`reference_eq_copy`): the two calls are runs of one body
over stores in which the cells lie apart.
-/

namespace Rover

/-- The cells that a call was given by reference. -/
def references (bound : List (Param × Cell)) : List Cell := (bound.filter (·.1.byRef)).map (·.2)

theorem references_cons_ref {p : Param} (h : p.byRef = true) (c : Cell) (bound : List (Param × Cell)) :
    references ((p, c) :: bound) = c :: references bound := by
  simp [references, h]

theorem references_cons_value {p : Param} (h : p.byRef = false) (c : Cell) (bound : List (Param × Cell)) :
    references ((p, c) :: bound) = references bound := by
  simp [references, h]

namespace Stack

/-- Binds every by-reference parameter to a new cell with a copy of what is in its cell. -/
def copyIn : List (Param × Cell) → Stack → List (Param × Cell) × Stack
  | [], s => ([], s)
  | (p, c) :: bound, s =>
    let next := if p.byRef then s.alloc (s.content c) else (c, s)
    let copies := copyIn bound next.2
    ((p, next.1) :: copies.1, copies.2)

/-- Copies what is in the new cells back. -/
def copyOut : List (Param × Cell) → List (Param × Cell) → Stack → Stack
  | (p, c) :: bound, (_, d) :: copies, s =>
    copyOut bound copies (if p.byRef then { s with cells := s.cells.setIfInBounds c (s.content d) } else s)
  | _, _, s => s

/-- The cells of the variables that are passed by reference. -/
def referenceCells (s : Stack) (params : List Param) (nodes : List Node) : List Cell :=
  (params.zip nodes).filterMap fun a => if a.1.byRef then (s.cell a.2.text).toOption else none

end Stack

namespace Eval

def copyIn (bound : List (Param × Cell)) : Eval (List (Param × Cell)) := fun m =>
  let copies := m.stack.copyIn bound
  .done copies.1 { m with stack := copies.2 }

def copyOut (bound copies : List (Param × Cell)) : Eval Unit := fun m =>
  .done () { m with stack := m.stack.copyOut bound copies }

end Eval

/-- Calls a function on copies of its by-reference arguments, and copies them back when it returns. -/
def invokeByCopy : (fuel : Nat) → Function → List Node → Eval Value
  | 0, _, _ => .unfinished
  | fuel + 1, f, arguments => do
    if f.params.length ≠ arguments.length then Eval.fail (.parameterCount f.name)
    let site ← Eval.site
    let bound ← bindArguments fuel f.params arguments
    let copies ← Eval.copyIn bound
    let result ← callWith fuel f site.1 site.2 copies
    Eval.copyOut bound copies
    return result

/-! ### Where the copies are -/

namespace Relocation

/-- Moves the given cells behind all others. -/
def behind (refs : List Cell) (n : Nat) (h : ∀ c ∈ refs, c < n) : Relocation where
  move c := if c ∈ refs then n + refs.idxOf c else if c < n then c else c + refs.length
  first := n
  added := refs.length
  injective c d hcd := by
    by_cases hc : c ∈ refs <;> by_cases hd : d ∈ refs <;> simp only [hc, hd, if_true, if_false] at hcd
    · exact (List.idxOf_inj hc).1 (Nat.add_left_cancel hcd)
    · have hlt := List.idxOf_lt_length_of_mem hc
      grind
    · have hlt := List.idxOf_lt_length_of_mem hd
      grind
    · grind
  move_of_le c hc := by
    rw [if_neg fun hmem => Nat.not_lt.2 hc (h c hmem), if_neg (Nat.not_lt.2 hc)]
  move_lt c hc := by
    split_ifs with hmem
    · exact Nat.add_lt_add_left (List.idxOf_lt_length_of_mem hmem) n
    · exact Nat.lt_add_right _ hc

variable {refs : List Cell} {n : Nat} {h : ∀ c ∈ refs, c < n} {c : Cell}

theorem behind_of_mem (hc : c ∈ refs) : (behind refs n h).move c = n + refs.idxOf c := if_pos hc

theorem behind_of_not_mem (hc : c ∉ refs) (hlt : c < n) : (behind refs n h).move c = c := by
  rw [behind]
  exact (if_neg hc).trans (if_pos hlt)

end Relocation

/-! ### Copying in -/

namespace Stack

theorem copyIn_ref {p : Param} (hp : p.byRef = true) (c : Cell) (bound : List (Param × Cell)) (s : Stack) :
    s.copyIn ((p, c) :: bound) = ((p, s.cells.size) :: ((s.alloc (s.content c)).2.copyIn bound).1,
      ((s.alloc (s.content c)).2.copyIn bound).2) := by
  simp only [copyIn, hp, if_true, alloc_fst]

theorem copyIn_value {p : Param} (hp : p.byRef = false) (c : Cell) (bound : List (Param × Cell)) (s : Stack) :
    s.copyIn ((p, c) :: bound) = ((p, c) :: (s.copyIn bound).1, (s.copyIn bound).2) := by
  simp only [copyIn, hp, Bool.false_eq_true, if_false]

theorem copyIn_snd {bound : List (Param × Cell)} {s : Stack} (h : ∀ c ∈ references bound, c < s.cells.size) :
    (s.copyIn bound).2 = ⟨s.frames, s.cells ++ ((references bound).map s.content).toArray⟩ := by
  induction bound generalizing s with
  | nil => simp [copyIn, references]
  | cons b bound ih =>
      obtain ⟨p, c⟩ := b
      cases hp : p.byRef with
      | true =>
          rw [references_cons_ref hp] at h ⊢
          obtain ⟨-, hbound⟩ := List.forall_mem_cons.1 h
          have hlater : ∀ d ∈ references bound, d < (s.alloc (s.content c)).2.cells.size := by
            intro d hd
            rw [size_alloc]
            exact Nat.lt_succ_of_lt (hbound d hd)
          have hcontent : (references bound).map (s.alloc (s.content c)).2.content = (references bound).map s.content :=
            List.map_congr_left fun d hd => content_push (hbound d hd)
          rw [copyIn_ref hp, ih hlater, hcontent]
          simp [alloc]
      | false =>
          rw [references_cons_value hp] at h ⊢
          rw [copyIn_value hp, ih h]

/-- The copies are in the order of the parameters, so a cell that is given twice would have two copies. -/
theorem copyIn_fst {refs done : List Cell} {bound : List (Param × Cell)} {s : Stack} {n : Nat} (hrefs : ∀ c ∈ refs, c < n)
    (hsplit : refs = done ++ references bound) (hnodup : refs.Nodup) (hsize : s.cells.size = n + done.length)
    (hbound : ∀ b ∈ bound, b.2 < n ∧ (b.1.byRef = false → b.2 ∉ refs)) :
    (s.copyIn bound).1 = bound.map (Relocation.behind refs n hrefs).binding := by
  induction bound generalizing s done with
  | nil => rfl
  | cons b bound ih =>
      obtain ⟨p, c⟩ := b
      obtain ⟨⟨hlt, hvalue⟩, hbound⟩ := List.forall_mem_cons.1 hbound
      cases hp : p.byRef with
      | true =>
          rw [references_cons_ref hp] at hsplit
          have hsplit' : refs = (done ++ [c]) ++ references bound := by simp [hsplit]
          have hfirst : refs.idxOf c = done.length := by
            rw [hsplit, List.nodup_append'] at hnodup
            have hc : c ∉ done := fun hmem => hnodup.2.2 hmem List.mem_cons_self
            rw [hsplit, List.idxOf_append_of_notMem hc, List.idxOf_cons_self, Nat.add_zero]
          have hmem : c ∈ refs := by simp [hsplit]
          rw [copyIn_ref hp, List.map_cons, ih hsplit' (by rw [size_alloc, hsize]; simp; omega) hbound, Relocation.binding,
            Relocation.behind_of_mem hmem, hfirst, hsize]
      | false =>
          rw [references_cons_value hp] at hsplit
          rw [copyIn_value hp, List.map_cons, ih hsplit hsize hbound, Relocation.binding,
            Relocation.behind_of_not_mem (hvalue hp) hlt]

theorem moves_copyIn {bound : List (Param × Cell)} {s : Stack} (h : ∀ c ∈ references bound, c < s.cells.size) :
    (Relocation.behind (references bound) s.cells.size h).Moves s.frames 0 s (s.copyIn bound).2 := by
  rw [copyIn_snd h]
  refine ⟨Nat.le_refl _, by simp [Relocation.behind], fun c hc => ?_, [], rfl, rfl, rfl, nofun⟩
  by_cases hmem : c ∈ references bound
  · rw [Relocation.behind_of_mem hmem]
    have hidx := List.idxOf_lt_length_of_mem hmem
    simp [content, hidx]
  · rw [Relocation.behind_of_not_mem hmem hc]
    simp [content, Array.getElem?_append_left hc]

/-! ### Copying back -/

theorem copyOut_ref {p : Param} (hp : p.byRef = true) (c d : Cell) (q : Param) (bound copies : List (Param × Cell))
    (s : Stack) : s.copyOut ((p, c) :: bound) ((q, d) :: copies) =
      ({ s with cells := s.cells.setIfInBounds c (s.content d) } : Stack).copyOut bound copies := by
  simp only [copyOut, hp, if_true]

theorem copyOut_value {p : Param} (hp : p.byRef = false) (c d : Cell) (q : Param) (bound copies : List (Param × Cell))
    (s : Stack) : s.copyOut ((p, c) :: bound) ((q, d) :: copies) = s.copyOut bound copies := by
  simp only [copyOut, hp, Bool.false_eq_true, if_false]

theorem frames_copyOut (bound copies : List (Param × Cell)) (s : Stack) : (s.copyOut bound copies).frames = s.frames := by
  induction bound generalizing copies s with
  | nil => simp [copyOut]
  | cons b bound ih =>
      cases copies with
      | nil => simp [copyOut]
      | cons d copies =>
          simp only [copyOut, ih]
          split_ifs <;> rfl

theorem content_copyOut_of_not_mem {bound copies : List (Param × Cell)} {s : Stack} {c : Cell}
    (hc : c ∉ references bound) : (s.copyOut bound copies).content c = s.content c := by
  induction bound generalizing copies s with
  | nil => simp [copyOut]
  | cons b bound ih =>
      obtain ⟨p, e⟩ := b
      cases copies with
      | nil => simp [copyOut]
      | cons d copies =>
          cases hp : p.byRef with
          | true =>
              rw [references_cons_ref hp] at hc
              rw [List.mem_cons, not_or] at hc
              rw [copyOut_ref hp, ih hc.2]
              exact content_set hc.1
          | false =>
              rw [references_cons_value hp] at hc
              rw [copyOut_value hp, ih hc]

/-- What is in a copy goes back to the cell that it is a copy of. -/
theorem content_copyOut_of_mem {r : Relocation} {bound : List (Param × Cell)} {s : Stack} {c : Cell}
    (hnodup : (references bound).Nodup) (hcopies : ∀ d ∈ references bound, r.move d ∉ references bound)
    (hc : c ∈ references bound) (hlt : c < s.cells.size) :
    (s.copyOut bound (bound.map r.binding)).content c = s.content (r.move c) := by
  induction bound generalizing s with
  | nil => cases hc
  | cons b bound ih =>
      obtain ⟨p, e⟩ := b
      rw [List.map_cons, Relocation.binding]
      cases hp : p.byRef with
      | true =>
          rw [references_cons_ref hp] at hnodup hcopies hc
          obtain ⟨he, hnodup⟩ := List.nodup_cons.1 hnodup
          rw [copyOut_ref hp]
          rcases List.mem_cons.1 hc with rfl | hc
          · rw [content_copyOut_of_not_mem he]
            exact content_set_self hlt
          · have hmove := hcopies c (List.mem_cons_of_mem _ hc)
            rw [List.mem_cons, not_or] at hmove
            have hrest (d) (hd : d ∈ references bound) : r.move d ∉ references bound := fun hmem =>
              hcopies d (List.mem_cons_of_mem _ hd) (List.mem_cons_of_mem _ hmem)
            rw [ih hnodup hrest hc (by simpa using hlt)]
            exact content_set hmove.1
      | false =>
          rw [references_cons_value hp] at hnodup hcopies hc
          rw [copyOut_value hp]
          exact ih hnodup hcopies hc hlt

/-- After copying back, the caller's cells are as if the call had worked on them. -/
theorem content_copyOut {bound : List (Param × Cell)} {s s' : Stack} {n : Nat} {h : ∀ c ∈ references bound, c < n}
    {base : List Frame} (hmoves : (Relocation.behind (references bound) n h).Moves base 0 s s')
    (hnodup : (references bound).Nodup) {c : Cell} (hc : c < n) :
    (s'.copyOut bound (bound.map (Relocation.behind (references bound) n h).binding)).content c = s.content c := by
  have hlt : c < s.cells.size := hc.trans_le hmoves.first_le
  by_cases hmem : c ∈ references bound
  · have hcopies (d) (hd : d ∈ references bound) : (Relocation.behind _ n h).move d ∉ references bound := by
      rw [Relocation.behind_of_mem hd]
      exact fun hmem => Nat.not_lt.2 (Nat.le_add_right _ _) (h _ hmem)
    rw [content_copyOut_of_mem hnodup hcopies hmem (hmoves.size_eq ▸ Nat.lt_add_right _ hlt)]
    exact hmoves.content c hlt
  · rw [content_copyOut_of_not_mem hmem, ← hmoves.content c hlt, Relocation.behind_of_not_mem hmem hc]

theorem references_eq {s s' : Stack} {params : List Param} {nodes : List Node} {bound : List (Param × Cell)}
    (h : List.Forall₂ (s.Binds s') (params.zip nodes) bound) : references bound = s.referenceCells params nodes := by
  unfold referenceCells
  generalize params.zip nodes = pairs at h
  induction h with
  | nil => rfl
  | @cons a b pairs bound hb _ ih =>
      obtain ⟨p, c⟩ := b
      obtain ⟨rfl, hgets, -⟩ := hb
      unfold Gets at hgets
      cases hp : a.1.byRef with
      | true =>
          rw [if_pos hp] at hgets
          rw [references_cons_ref hp, ih, List.filterMap_cons_some]
          simp [hp, hgets, Except.toOption]
      | false =>
          rw [references_cons_value hp, ih, List.filterMap_cons_none]
          simp [hp]

end Stack

/-! ### The two calls -/

theorem mem_references {bound : List (Param × Cell)} {c : Cell} (h : c ∈ references bound) :
    ∃ b ∈ bound, b.1.byRef = true ∧ b.2 = c := by
  obtain ⟨b, hb, rfl⟩ := List.mem_map.1 h
  obtain ⟨hb, href⟩ := List.mem_filter.1 hb
  exact ⟨b, hb, href, rfl⟩

theorem invokeByCopy_of_bound {fuel : Nat} {f : Function} {nodes : List Node} {m m₁ m₂ : Machine} {v : Value}
    {bound : List (Param × Cell)} (hlength : f.params.length = nodes.length)
    (hbound : bindArguments fuel f.params nodes m = .done bound m₁)
    (hcall : callWith fuel f m.line m.stack.depth (m₁.stack.copyIn bound).1
      { m₁ with stack := (m₁.stack.copyIn bound).2 } = .done v m₂) :
    invokeByCopy (fuel + 1) f nodes m =
      .done v { m₂ with stack := m₂.stack.copyOut bound (m₁.stack.copyIn bound).1 } := by
  have hsite : Eval.site m = .done (m.line, m.stack.depth) m := rfl
  have hcopy : Eval.copyIn bound m₁ = .done (m₁.stack.copyIn bound).1 { m₁ with stack := (m₁.stack.copyIn bound).2 } := rfl
  rw [invokeByCopy, if_neg (not_not.2 hlength)]
  refine (Eval.bind_of_done hsite).trans ?_
  refine (Eval.bind_of_done hbound).trans ?_
  refine (Eval.bind_of_done hcopy).trans ?_
  exact Eval.bind_of_done hcall

/-- The cells of bound parameters, with those passed by value apart from those passed by reference. -/
theorem bound_apart {s s' : Stack} (hs : s.Closed) {params : List Param} {nodes : List Node} {bound : List (Param × Cell)}
    (h : List.Forall₂ (s.Binds s') (params.zip nodes) bound) :
    ∀ b ∈ bound, b.2 < s'.cells.size ∧ (b.1.byRef = false → b.2 ∉ references bound) := by
  intro b hb
  obtain ⟨a, -, hparam, hgets, hlt⟩ := exists_of_forall₂ h hb
  refine ⟨hlt, fun hvalue hmem => ?_⟩
  obtain ⟨d, hd, href, hcell⟩ := mem_references hmem
  obtain ⟨a', -, hparam', hgets', -⟩ := exists_of_forall₂ h hd
  -- the cell of `d` is bound in the caller, and that of `b` is new
  rw [Stack.Gets, ← hparam', if_pos href] at hgets'
  rw [Stack.Gets, ← hparam, if_neg (by simp [hvalue])] at hgets
  exact Nat.not_lt.2 hgets (hcell ▸ hs.lt_size hgets')

/-- A call by reference does what the call on copies does, if the by-reference arguments are different variables: it has the
same result, and it leaves the same machine but for cells that no record binds. -/
theorem reference_eq_copy {fuel : Nat} {f : Function} {nodes : List Node} {m m' : Machine} {v : Value}
    (hm : m.stack.Closed) (hdistinct : (m.stack.referenceCells f.params nodes).Nodup)
    (h : invokeFunction fuel f nodes m = .done v m') :
    ∃ s, invokeByCopy fuel f nodes m = .done v { m' with stack := s } ∧ s.frames = m'.stack.frames ∧
      ∀ g ∈ s.frames, ∀ c ∈ g.cells, s.content c = m'.stack.content c := by
  cases fuel with
  | zero => cases h
  | succ fuel =>
      obtain ⟨hlength, bound, m₁, hbound, h⟩ := bound_of_invokeFunction h
      obtain ⟨hextends, hcells⟩ := bindArguments_spec hm hbound
      have hapart := bound_apart hm hcells
      have hnodup : (references bound).Nodup := Stack.references_eq hcells ▸ hdistinct
      have hreferences (c) (hc : c ∈ references bound) : c < m₁.stack.cells.size := by
        obtain ⟨b, hb, -, rfl⟩ := mem_references hc
        exact (hapart b hb).1
      let r := Relocation.behind (references bound) m₁.stack.cells.size hreferences
      have hcopies : (m₁.stack.copyIn bound).1 = bound.map r.binding :=
        Stack.copyIn_fst hreferences (List.nil_append _).symm hnodup rfl hapart
      have hS := Simulation.lawful_relocated r m₁.stack.frames
      have hfollows := hS.callWith_follows (hS.follows_runs fuel) (w := (0, m₁.stack.cells.size)) m.stack.depth
        (rfl : f = f) (rfl : m.line = m.line) (Simulation.relocated_bound fun b hb => (hapart b hb).1) m₁
        { m₁ with stack := (m₁.stack.copyIn bound).2 } ⟨Nat.le_refl _, _, rfl, Stack.moves_copyIn hreferences⟩
      rw [h] at hfollows
      generalize hcall : callWith fuel f m.line m.stack.depth (bound.map r.binding)
        { m₁ with stack := (m₁.stack.copyIn bound).2 } = o at hfollows
      cases hfollows with
      | @done _ v' _ n' hdone =>
          obtain ⟨⟨d, k⟩, ⟨rfl, -⟩, ⟨-, s', rfl, hmoves⟩, rfl, -⟩ := hdone
          obtain ⟨above, hlength', hframes, hframes', -⟩ := hmoves.frames
          cases List.length_eq_zero_iff.1 hlength'
          rw [← hcopies] at hcall
          have hcopy := invokeByCopy_of_bound hlength hbound hcall
          refine ⟨_, hcopy, ?_, fun g hg c hc => ?_⟩
          · rw [Stack.frames_copyOut]
            exact hframes'.trans hframes.symm
          · rw [Stack.frames_copyOut] at hg
            have hlt := hextends.closed g (by simpa [hframes'] using hg) c hc
            rw [hcopies]
            exact Stack.content_copyOut hmoves hnodup hlt

/-- A function that exchanges two variables of its caller, and a caller with two variables. -/
def exchange : Node :=
  let name (line : Int) (x : String) : Node := .leaf .id line x
  let assign (line : Int) (x : String) (e : Node) : Node := .branch .assign line [name line x, e]
  .branch .functionList 1 [
    ⟨.function, 1, "main", none, [.branch .paramList 1 [], .branch .block 1 [
      assign 2 "a" (.leaf .int 2 "1"), assign 3 "b" (.leaf .int 3 "2")]]⟩,
    ⟨.function, 5, "swap", none, [.branch .paramList 5 [.leaf .paramRef 5 "x", .leaf .paramRef 5 "y"], .branch .block 5 [
      assign 6 "t" (name 6 "x"), assign 7 "x" (name 7 "y"), assign 8 "y" (name 8 "t"),
      .branch .ret 9 [name 9 "x"]]]⟩]

/-- The arguments of a call in the caller. -/
def exchangeArguments : List Node := [.leaf .id 4 "a", .leaf .id 4 "b"]

theorem exchange_by_copy : ∃ (m m' : Machine) (f : Function) (v : Value) (s : Stack),
    m.stack.Closed ∧ (m.stack.referenceCells f.params exchangeArguments).Nodup ∧
    invokeFunction 20 f exchangeArguments m = .done v m' ∧
    invokeByCopy 20 f exchangeArguments m = .done v { m' with stack := s } ∧ v = .integer 2 ∧
    s.content 0 = .integer 2 ∧ s.content 1 = .integer 1 := by
  have hrun : (((Machine.initial .default "" .unobserved).loadTree exchange).toOption.bind fun m₀ =>
      (m₀.opening? "main").bind fun o => (o.2.next? 10 o.1).bind fun o => (o.2.next? 10 o.1).bind fun o =>
      (m₀.program.bind (·.get? "swap")).bind fun f =>
      (invokeFunction 20 f exchangeArguments o.2).done?.map fun r =>
        decide ((∀ g ∈ o.2.stack.frames, ∀ c ∈ g.cells, c < o.2.stack.cells.size) ∧
          (o.2.stack.referenceCells f.params exchangeArguments).Nodup ∧ r.1 = .integer 2 ∧
          (∃ g ∈ r.2.stack.frames, 0 ∈ g.cells ∧ 1 ∈ g.cells) ∧
          r.2.stack.content 0 = .integer 2 ∧ r.2.stack.content 1 = .integer 1)) = some true := by decide +kernel
  obtain ⟨m₀, -, hrun⟩ := Option.bind_eq_some_iff.1 hrun
  obtain ⟨o, -, hrun⟩ := Option.bind_eq_some_iff.1 hrun
  obtain ⟨o', -, hrun⟩ := Option.bind_eq_some_iff.1 hrun
  obtain ⟨⟨t, m⟩, -, hrun⟩ := Option.bind_eq_some_iff.1 hrun
  obtain ⟨f, -, hrun⟩ := Option.bind_eq_some_iff.1 hrun
  obtain ⟨⟨v, m'⟩, hcall, hrun⟩ := Option.map_eq_some_iff.1 hrun
  obtain ⟨hclosed, hdistinct, hv, ⟨g, hg, h0, h1⟩, ha, hb⟩ := of_decide_eq_true hrun
  have hcall := Outcome.eq_done hcall
  obtain ⟨s, hcopy, hframes, hcontent⟩ := reference_eq_copy hclosed hdistinct hcall
  rw [hframes] at hcontent
  exact ⟨m, m', f, v, s, hclosed, hdistinct, hcall, hcopy, hv, (hcontent g hg 0 h0).trans ha, (hcontent g hg 1 h1).trans hb⟩

end Rover
