import Rover.Proofs.Declarations

/-!
# Who shares a cell

A cell is made for one record: for a parameter by value when the record is set up, and for a variable that is assigned to or
read for the first time while the body runs. The other records that bind it are those of calls to which it has been passed by
reference, each by the one before. So a cell is shared only down the chain of callers: `cells_shared_down_callers`. The records
that bind it stand next to each other, the one that it was made for is the lowest of them, and when that one goes, no record
is left that binds the cell.
-/

namespace Rover

/-- An activation of a function: where it is called, and where its arguments are bound. -/
structure Activation where
  /-- The machine at the call. -/
  start : Machine
  function : Function
  bound : List (Param × Cell)
  /-- The machine after the arguments. -/
  ready : Machine

namespace Activation

/-- The records that the call finds, and puts its own on. -/
def outer (a : Activation) : List Frame := a.start.stack.frames

/-- The machine at the start of the body. -/
def entered (a : Activation) : Machine :=
  (a.ready.tellCall a.function a.start.line a.start.stack.depth a.bound).enter a.function a.start.line a.bound

def body (a : Activation) : Task := .block a.function.body.children

/-- The cells that are made for the record of the activation: those of its parameters by value, and those of the variables
that its statements declare. -/
inductive Creates (a : Activation) : Cell → Prop
  | parameter {p : Param} {c : Cell} : (p, c) ∈ a.bound → p.byRef = false → a.start.stack.cells.size ≤ c → Creates a c
  | declared {c : Cell} : a.entered.Makes a.body a.outer c → Creates a c

/-- No older record binds a cell that is made for an activation. -/
theorem Creates.not_mem {a : Activation} {m : Machine} {name : String} {nodes : List Node} (hm : m.stack.Closed)
    (hstart : a.start.stack.Closed) (hvisits : m.Visits (.invoke name nodes) a.body a.entered) {c : Cell} (h : a.Creates c)
    {g : Frame} (hg : g ∈ a.outer) : c ∉ g.cells := by
  cases h with
  | parameter _ _ hnew => exact fun hc => absurd (hstart g hg c hc) (Nat.not_lt.2 hnew)
  | declared hmakes =>
      obtain ⟨s, p, hs, hdeclares⟩ := hmakes
      exact hdeclares.not_mem (closed_of_visits hm (hvisits.trans hs)) hg

end Activation

/-! ### The activations under way -/

/-- `m.Under first as t n`: the run comes to the task `t` on the machine `n` within the activations `as`, innermost first. -/
inductive Machine.Under (m : Machine) (first : Task) : List Activation → Task → Machine → Prop
  | first : Under m first [] first m
  | step {as : List Activation} {t t' : Task} {n n' : Machine} :
      Under m first as t n → t.Starts n t' n' → t.opens t' = false → Under m first as t' n'
  | body {as : List Activation} {f : Function} {nodes : List Node} {bound : List (Param × Cell)} {n n' : Machine} :
      Under m first as (.call f nodes) n → f.params.length = nodes.length →
        Gives (bindArguments · f.params nodes) n bound n' → n'.options.Admits n.stack.depth f.params.length →
        Under m first (⟨n, f, bound, n'⟩ :: as) (.block f.body.children) (Activation.mk n f bound n').entered

namespace Machine

variable {m n : Machine} {first t : Task} {as : List Activation}

theorem Under.visits (h : m.Under first as t n) : m.Visits first t n := by
  induction h with
  | first => exact .first
  | step _ hstarts _ ih => exact ih.step hstarts
  | body _ hlength hbound hadmits ih => exact ih.step (.body hlength hbound hadmits)

theorem Visits.under (h : m.Visits first t n) : ∃ as, m.Under first as t n := by
  induction h with
  | first => exact ⟨[], .first⟩
  | @step t t' _ _ _ hstarts ih =>
      obtain ⟨as, ih⟩ := ih
      cases hopens : t.opens t' with
      | false => exact ⟨as, ih.step hstarts hopens⟩
      | true =>
          cases hstarts with
          | body hlength hbound hadmits => exact ⟨_, ih.body hlength hbound hadmits⟩
          | _ => cases hopens

/-- Within an activation, a point of the run is one of its body. -/
theorem Under.inside {a : Activation} (h : m.Under first (a :: as) t n) : a.entered.Visits a.body t n := by
  generalize has : a :: as = as' at h
  induction h with
  | first => cases has
  | step _ hstarts _ ih => exact (ih has).step hstarts
  | body _ _ _ _ _ =>
      cases has
      exact .first

end Machine

/-! ### Records and activations -/

/-- The record at a position binds the cell. Positions count from the innermost record, so the caller's is the next one. -/
def Held (frames : List Frame) (i : Nat) (c : Cell) : Prop := ∃ f, frames[i]? = some f ∧ c ∈ f.cells

@[simp] theorem held_zero {f : Frame} {frames : List Frame} {c : Cell} : Held (f :: frames) 0 c ↔ c ∈ f.cells := by
  simp [Held]

@[simp] theorem held_succ {f : Frame} {frames : List Frame} {i : Nat} {c : Cell} :
    Held (f :: frames) (i + 1) c ↔ Held frames i c := by
  simp [Held]

/-- Every record is that of its activation: it stands on the records that the call has found, and each cell of it was made
for it or is one of the caller's. -/
inductive Layered : List Activation → List Frame → Prop
  | outside : Layered [] []
  | inside {a : Activation} {as : List Activation} {f : Frame} :
      Layered as a.outer → (∀ c ∈ f.cells, a.Creates c ∨ Held a.outer 0 c) →
        (∀ c, a.Creates c → ∀ g ∈ a.outer, c ∉ g.cells) → Layered (a :: as) (f :: a.outer)

namespace Layered

variable {as : List Activation} {frames : List Frame}

section Run

variable {m n n' : Machine} {t : Task}

/-- What happens to the records within an activation. -/
theorem grow {first : Task} (h : Layered as n.stack.frames) (hunder : m.Under first as t n) (hgrown : n.Grown t n')
    (hheads : n'.stack.heads = n.stack.heads) : Layered as n'.stack.frames := by
  generalize hframes : n.stack.frames = frames at h
  cases h with
  | outside =>
      -- outside of all activations there is no record to grow
      have hnone : n'.stack.frames.map Frame.head = [] := hheads.trans (congrArg (List.map Frame.head) hframes)
      rw [List.map_eq_nil_iff.1 hnone]
      exact .outside
  | @inside a _ f hlayered hcells hunbound =>
      obtain ⟨f', hframes', hcells'⟩ := hgrown f a.outer hframes
      rw [hframes']
      refine .inside hlayered (fun c hc => ?_) hunbound
      rcases hcells' c hc with hc | hmakes
      · exact hcells c hc
      · exact .inl (.declared (.of_visits hunder.inside hmakes))

/-- The record of a call, as its body begins. -/
theorem enter (h : Layered as n.stack.frames) (hm : m.stack.Closed) {name : String} {outer : List Node} {f : Function}
    {nodes : List Node} {bound : List (Param × Cell)} (hunder : m.Under (.invoke name outer) as (.call f nodes) n)
    (hlength : f.params.length = nodes.length) (hbound : Gives (bindArguments · f.params nodes) n bound n')
    (hadmits : n'.options.Admits n.stack.depth f.params.length) :
    Layered (⟨n, f, bound, n'⟩ :: as) (Activation.mk n f bound n').entered.stack.frames := by
  have hclosed := closed_of_visits hm hunder.visits
  have hvisits := (hunder.body hlength hbound hadmits).visits
  obtain ⟨fuel, hbound⟩ := hbound
  obtain ⟨hextends, hbinds⟩ := bindArguments_spec hclosed hbound
  show Layered _ (.ofCall f n.line bound :: n'.stack.frames)
  rw [hextends.frames_eq]
  refine .inside (a := ⟨n, f, bound, n'⟩) h (fun c hc => ?_) fun c hc g => hc.not_mem hm hclosed hvisits
  obtain ⟨⟨p, c⟩, hmem, rfl⟩ := Frame.mem_cells_ofCall hc
  obtain ⟨⟨q, node⟩, -, hparam, hgets, -⟩ := exists_of_forall₂ hbinds hmem
  cases hparam
  unfold Stack.Gets at hgets
  split_ifs at hgets with href
  · obtain ⟨g, older, hframes, hcell⟩ := Stack.top_of_cell hgets
    refine .inr ?_
    show Held n.stack.frames 0 c
    rw [hframes, held_zero]
    exact Frame.mem_cells_of_cell? hcell
  · exact .inl (.parameter hmem (by simpa using href) hgets)

theorem of_under (hm : m.stack.Closed) (hempty : m.stack.frames = []) {name : String} {outer : List Node}
    (h : m.Under (.invoke name outer) as t n) : Layered as n.stack.frames := by
  induction h with
  | first =>
      rw [hempty]
      exact .outside
  | step hunder hstarts hopens ih =>
      refine ih.grow hunder (hstarts.grown hopens) ?_
      rcases hstarts.proceeds with ⟨hproceeds, -⟩ | henters
      · exact hproceeds.heads
      · cases henters
        cases hopens
  | body hunder hlength hbound hadmits ih => exact ih.enter hm hunder hlength hbound hadmits

end Run

variable {i j k : Nat} {c : Cell} {a : Activation}

theorem length_eq (h : Layered as frames) : as.length = frames.length := by
  induction h with
  | outside => rfl
  | inside _ _ _ ih => exact congrArg Nat.succ ih

theorem drop_eq (h : Layered as frames) (ha : as[i]? = some a) : frames.drop (i + 1) = a.outer := by
  induction h generalizing i with
  | outside => cases ha
  | inside _ _ _ ih =>
      cases i with
      | zero =>
          cases ha
          rfl
      | succ i => exact ih ha

theorem created_or_below (h : Layered as frames) (hc : Held frames i c) :
    (∃ a, as[i]? = some a ∧ a.Creates c) ∨ Held frames (i + 1) c := by
  induction h generalizing i with
  | outside =>
      obtain ⟨f, hf, -⟩ := hc
      cases hf
  | @inside a as f _ hcells _ ih =>
      cases i with
      | zero => exact (hcells c (held_zero.1 hc)).imp (fun hcreates => ⟨a, rfl, hcreates⟩) held_succ.2
      | succ i => exact (ih (held_succ.1 hc)).imp id held_succ.2

theorem le_of_creates (h : Layered as frames) (ha : as[i]? = some a) (hcreates : a.Creates c) (hc : Held frames k c) :
    k ≤ i := by
  induction h generalizing i k with
  | outside => cases ha
  | inside _ _ hunbound ih =>
      cases k with
      | zero => exact Nat.zero_le _
      | succ k =>
          have hbelow := held_succ.1 hc
          cases i with
          | zero =>
              cases ha
              obtain ⟨g, hg, hmem⟩ := hbelow
              exact absurd hmem (hunbound c hcreates g (List.mem_of_getElem? hg))
          | succ i => exact Nat.succ_le_succ (ih ha hbelow)

theorem exists_creator (h : Layered as frames) (hc : Held frames i c) :
    ∃ k a, i ≤ k ∧ as[k]? = some a ∧ a.Creates c ∧ Held frames k c := by
  induction h generalizing i with
  | outside =>
      obtain ⟨f, hf, -⟩ := hc
      cases hf
  | @inside a as f _ hcells _ ih =>
      have hlift {j : Nat} (hij : i ≤ j + 1) (hj : Held a.outer j c) :
          ∃ k b, i ≤ k ∧ (a :: as)[k]? = some b ∧ b.Creates c ∧ Held (f :: a.outer) k c := by
        obtain ⟨k, b, hjk, hb, hcreates, hk⟩ := ih hj
        exact ⟨k + 1, b, hij.trans (Nat.succ_le_succ hjk), hb, hcreates, held_succ.2 hk⟩
      cases i with
      | zero =>
          rcases hcells c (held_zero.1 hc) with hcreates | hbelow
          · exact ⟨0, a, Nat.le_refl _, rfl, hcreates, hc⟩
          · exact hlift (Nat.zero_le _) hbelow
      | succ i => exact hlift (Nat.le_refl _) (held_succ.1 hc)

/-- Between two records that bind a cell, all do: the cell comes from below each but the one that it was made for. -/
theorem consecutive (h : Layered as frames) (hij : i ≤ j) (hjk : j ≤ k) (hi : Held frames i c) (hk : Held frames k c) :
    Held frames j c := by
  induction j, hij using Nat.le_induction with
  | base => exact hi
  | succ j _ ih =>
      rcases h.created_or_below (ih (Nat.le_of_succ_le hjk)) with ⟨a, ha, hcreates⟩ | hbelow
      · exact absurd (h.le_of_creates ha hcreates hk) (Nat.not_le.2 hjk)
      · exact hbelow

theorem creates_iff (h : Layered as frames) (ha : as[i]? = some a) (hc : Held frames i c) :
    a.Creates c ↔ ∀ k, Held frames k c → k ≤ i := by
  refine ⟨fun hcreates k => h.le_of_creates ha hcreates, fun hlowest => ?_⟩
  rcases h.created_or_below hc with ⟨b, hb, hcreates⟩ | hbelow
  · cases ha.symm.trans hb
    exact hcreates
  · exact absurd (hlowest _ hbelow) (Nat.not_succ_le_self i)

end Layered

/-- How the records of a stack share cells, given the activations that they are of. -/
structure SharedDown (as : List Activation) (s : Stack) : Prop where
  length_eq : as.length = s.depth
  /-- Below each record are those that were there at its call. -/
  drop_eq : ∀ i a, as[i]? = some a → s.frames.drop (i + 1) = a.outer
  /-- A cell that is bound has been made by now. -/
  lt_size : ∀ i c, Held s.frames i c → c < s.cells.size
  created_or_below : ∀ i c, Held s.frames i c → (∃ a, as[i]? = some a ∧ a.Creates c) ∨ Held s.frames (i + 1) c
  consecutive : ∀ i j k c, i ≤ j → j ≤ k → Held s.frames i c → Held s.frames k c → Held s.frames j c
  /-- A record that binds a cell is the one that the cell was made for exactly if it is the lowest one. -/
  created_iff_lowest : ∀ i a c, as[i]? = some a → Held s.frames i c → (a.Creates c ↔ ∀ k, Held s.frames k c → k ≤ i)
  /-- As long as a cell is bound, the record that it was made for is there and binds it. -/
  creator_holds : ∀ i c, Held s.frames i c → ∃ k a, i ≤ k ∧ as[k]? = some a ∧ a.Creates c ∧ Held s.frames k c
  /-- The records that are left when a record goes bind none of the cells that were made for it. -/
  none_left : ∀ i a c, as[i]? = some a → a.Creates c → ∀ f ∈ s.frames.drop (i + 1), c ∉ f.cells

theorem Layered.shared {as : List Activation} {s : Stack} (h : Layered as s.frames) (hs : s.Closed) : SharedDown as s where
  length_eq := h.length_eq
  drop_eq _ _ := h.drop_eq
  lt_size _ c hc := by
    obtain ⟨f, hf, hmem⟩ := hc
    exact hs f (List.mem_of_getElem? hf) c hmem
  created_or_below _ _ := h.created_or_below
  consecutive _ _ _ _ := h.consecutive
  created_iff_lowest _ _ _ := h.creates_iff
  creator_holds _ _ := h.exists_creator
  none_left i a c ha hcreates f hf hc := by
    obtain ⟨k, hk⟩ := List.mem_iff_getElem?.1 hf
    rw [List.getElem?_drop] at hk
    have hle := h.le_of_creates ha hcreates ⟨f, hk, hc⟩
    omega

/-- At every point of a run of a loaded program, at the start of a task and at its end, a record binds only cells that were
made for it and cells that its caller's record binds too. -/
theorem cells_shared_down_callers {c : Config} {input : String} {options : Options} {tree : Node} {m : Machine}
    (hload : (Machine.initial c input options).loadTree tree = .ok m) {entry : String} {nodes : List Node} {t : Task}
    {n n' : Machine} (hvisits : m.Visits (.invoke entry nodes) t n) (hn' : n' = n ∨ ∃ fuel, t.final? fuel n = some n') :
    ∃ as, m.Under (.invoke entry nodes) as t n ∧ SharedDown as n'.stack := by
  have hclosed := closed_of_reachable ((Machine.Reachable.initial input options).loaded hload)
  obtain ⟨p, -, rfl⟩ := loaded_of_loadTree hload
  obtain ⟨as, hunder⟩ := hvisits.under
  have hlayered : Layered as n.stack.frames := .of_under hclosed rfl hunder
  refine ⟨as, hunder, ?_⟩
  rcases hn' with rfl | ⟨fuel, hfinal⟩
  · exact hlayered.shared (closed_of_visits hclosed hvisits)
  · have hlayered' := hlayered.grow hunder (grown_of_final hfinal) (frames_of_final hfinal).1
    exact hlayered'.shared (closed_of_final hclosed hvisits hfinal)

/-- The body of the function that the first statement of a block calls, and the machine at its start. -/
def Machine.callee? (fuel : Nat) (m : Machine) : Task → Option (Task × Machine)
  | .block (⟨.call, l, _, _, callee :: arguments :: _⟩ :: _) => do
    let p ← m.program
    let f ← p.get? callee.text
    let r ← (bindArguments fuel f.params arguments.children { m with line := l }).done?
    if Builtin.ofName? callee.text = none ∧ f.params.length = arguments.children.length ∧
        r.2.options.Admits m.stack.depth f.params.length then
      some (.block f.body.children, (r.2.tellCall f l m.stack.depth r.1).enter f l r.1)
    else none
  | _ => none

theorem Machine.Visits.of_callee? {m n n' : Machine} {first t t' : Task} {fuel : Nat} (h : m.Visits first t n)
    (hcallee : n.callee? fuel t = some (t', n')) : m.Visits first t' n' := by
  unfold callee? at hcallee
  split at hcallee
  · rename_i l _ _ callee arguments _ _
    obtain ⟨p, hp, hcallee⟩ := Option.bind_eq_some_iff.1 hcallee
    obtain ⟨f, hf, hcallee⟩ := Option.bind_eq_some_iff.1 hcallee
    obtain ⟨⟨bound, n₁⟩, hbound, hcallee⟩ := Option.bind_eq_some_iff.1 hcallee
    split_ifs at hcallee with hcall
    obtain ⟨hname, hlength, hadmits⟩ := hcall
    have hlookup : Eval.function callee.text { n with line := l } = .done f { n with line := l } := by
      unfold Eval.function
      simp only [hp, hf]
    have hinvoke : m.Visits first (.call f arguments.children) { n with line := l } :=
      ((h.step .statement).step .called).step (.function hname hlookup)
    cases hcallee
    exact hinvoke.step (.body hlength ⟨fuel, Outcome.eq_done hbound⟩ hadmits)
  · cases hcallee

/-- A program that lends a variable by reference, and lends it on with another one. -/
def lending : Node :=
  let name (line : Int) (x : String) : Node := .leaf .id line x
  let call (line : Int) (f : String) (arguments : List Node) : Node :=
    .branch .call line [name line f, .branch .argList line arguments]
  .branch .functionList 1 [
    ⟨.function, 1, "main", none, [.branch .paramList 1 [], .branch .block 1 [
      .branch .assign 2 [name 2 "a", .leaf .int 2 "1"], call 3 "lend" [name 3 "a"]]]⟩,
    ⟨.function, 5, "lend", none, [.branch .paramList 5 [.leaf .paramRef 5 "x"], .branch .block 5 [
      .branch .read 6 [name 6 "y"], call 7 "use" [name 7 "x", name 7 "y", name 7 "y"]]]⟩,
    ⟨.function, 9, "use", none, [
      .branch .paramList 9 [.leaf .paramRef 9 "u", .leaf .paramRef 9 "v", .leaf .paramValue 9 "w"],
      .branch .block 9 [.branch .assign 10 [name 10 "z", name 10 "u"]]]⟩]

theorem lending_shared : ∃ m t n as, (Machine.initial .default "8" .unobserved).loadTree lending = .ok m ∧
    m.Visits (.invoke "main" []) t n ∧ m.Under (.invoke "main" []) as t n ∧
    n.stack.frames.map (·.slots) =
      [[("u", 0), ("v", 1), ("w", 2), ("z", 3)], [("x", 0), ("y", 1)], [("a", 0)]] ∧ SharedDown as n.stack := by
  have hrun : (((Machine.initial .default "8" .unobserved).loadTree lending).toOption.bind fun m =>
      (m.opening? "main").bind fun o => (o.2.next? 10 o.1).bind fun o => (o.2.callee? 10 o.1).bind fun o =>
      (o.2.next? 10 o.1).bind fun o => (o.2.callee? 10 o.1).bind fun o =>
      (o.2.next? 10 o.1).map fun o => o.2.stack.frames.map (·.slots)) =
      some [[("u", 0), ("v", 1), ("w", 2), ("z", 3)], [("x", 0), ("y", 1)], [("a", 0)]] := by decide +kernel
  obtain ⟨m, hm, hrun⟩ := Option.bind_eq_some_iff.1 hrun
  obtain ⟨⟨t₁, n₁⟩, h₁, hrun⟩ := Option.bind_eq_some_iff.1 hrun
  obtain ⟨⟨t₂, n₂⟩, h₂, hrun⟩ := Option.bind_eq_some_iff.1 hrun
  obtain ⟨⟨t₃, n₃⟩, h₃, hrun⟩ := Option.bind_eq_some_iff.1 hrun
  obtain ⟨⟨t₄, n₄⟩, h₄, hrun⟩ := Option.bind_eq_some_iff.1 hrun
  obtain ⟨⟨t₅, n₅⟩, h₅, hrun⟩ := Option.bind_eq_some_iff.1 hrun
  obtain ⟨⟨t, n⟩, h₆, hslots⟩ := Option.map_eq_some_iff.1 hrun
  have hload := eq_ok_of_toOption hm
  have hlend := ((Machine.Visits.of_opening? h₁).of_next? h₂).of_callee? h₃
  have hvisits := ((hlend.of_next? h₄).of_callee? h₅).of_next? h₆
  obtain ⟨as, hunder, hshared⟩ := cells_shared_down_callers hload hvisits (.inl rfl)
  exact ⟨m, t, n, as, hload, hvisits, hunder, hslots, hshared⟩

end Rover
