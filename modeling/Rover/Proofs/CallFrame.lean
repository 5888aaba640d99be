import Rover.Proofs.Cells
import Rover.Proofs.Loading
import Rover.Proofs.Points
import Rover.Proofs.Runs

/-!
# What a call leaves alone

A call runs in a record of its own, above the records of its callers. It can reach a cell of an older record only through a
parameter that is bound by reference: assignments go to cells of the innermost record, and a record binds cells that its
call was given or that were made for it. So the older records are the same after the call, and of their cells only those
that the call was given by reference may have another content: `call_keeps_records`.
-/

namespace Rover

/-- Where in the stack a computation is: among given records, or in a body above given records, whose own record grows. -/
inductive Region where
  | among (frames : List Frame)
  | above (frames : List Frame)

namespace Region

def Holds : Region → List Frame → Prop
  | among frames, current => current = frames
  | above frames, current => ∃ top, current = top :: frames

/-- Only a body assigns to variables. -/
def Writes : Region → Prop
  | among _ => False
  | above _ => True

theorem Holds.assign {l : Region} {s : Stack} (h : l.Holds s.frames) (hl : l.Writes) (x : String) (v : Value) :
    l.Holds (s.assign x v).frames := by
  cases l with
  | among frames => exact hl.elim
  | above frames =>
      obtain ⟨top, htop⟩ := h
      rcases Stack.assign_cases htop x v with ⟨c, -, -, hassign⟩ | ⟨-, hassign⟩
      · exact ⟨top, by rw [hassign]⟩
      · exact ⟨_, by rw [hassign]⟩

end Region

/-- Records at the bottom of a stack, and cells of them that have to keep what is in them. -/
structure Guard where
  base : List Frame
  cell : Cell → Prop
  content : Cell → Value

namespace Guard

/-- The guarded cells are as they were, and the records above the guarded ones bind none of them. -/
structure Kept (g : Guard) (s : Stack) : Prop where
  closed : s.Closed
  content : ∀ c, g.cell c → c < s.cells.size ∧ s.content c = g.content c
  above : ∃ above, s.frames = above ++ g.base ∧ (above = [] → g.base = []) ∧ ∀ f ∈ above, ∀ c ∈ f.cells, ¬ g.cell c

/-- No cell is guarded. -/
def nothing : Guard := ⟨[], fun _ => False, fun _ => .void⟩

theorem kept_nothing {s : Stack} (h : s.Closed) : nothing.Kept s :=
  ⟨h, nofun, s.frames, (List.append_nil _).symm, fun _ => rfl, fun _ _ _ _ => id⟩

namespace Kept

variable {g : Guard} {s : Stack} (hs : g.Kept s)

include hs

/-- The innermost record is above the guarded ones. -/
theorem top {f : Frame} {outer : List Frame} (h : s.frames = f :: outer) :
    ∃ above, outer = above ++ g.base ∧ ∀ f' ∈ f :: above, ∀ c ∈ f'.cells, ¬ g.cell c := by
  obtain ⟨above, hframes, hbase, habove⟩ := hs.above
  cases above with
  | nil =>
      rw [hbase rfl, h] at hframes
      cases hframes
  | cons f' above =>
      rw [h] at hframes
      obtain ⟨rfl, rfl⟩ := List.cons.inj hframes
      exact ⟨above, rfl, habove⟩

theorem not_guarded {x : String} {c : Cell} (h : s.cell x = .ok c) : ¬ g.cell c := by
  obtain ⟨f, outer, hframes, hcell⟩ := Stack.top_of_cell h
  obtain ⟨above, -, habove⟩ := hs.top hframes
  exact habove f List.mem_cons_self c (Frame.mem_cells_of_cell? hcell)

theorem alloc (v : Value) : g.Kept (s.alloc v).2 where
  closed := hs.closed.alloc v
  content c hc := by
    obtain ⟨hlt, hcontent⟩ := hs.content c hc
    refine ⟨?_, ?_⟩
    · rw [Stack.size_alloc]
      exact Nat.lt_succ_of_lt hlt
    · exact (Stack.content_push hlt).trans hcontent
  above := hs.above

theorem assign (x : String) (v : Value) (hframes : s.frames ≠ []) : g.Kept (s.assign x v) := by
  obtain ⟨f, outer, htop⟩ := List.exists_cons_of_ne_nil hframes
  obtain ⟨above, houter, habove⟩ := hs.top htop
  have hclosed := hs.closed.assign x v hframes
  rcases Stack.assign_cases htop x v with ⟨d, hd, -, hassign⟩ | ⟨-, hassign⟩
  · refine ⟨hclosed, fun c hc => ?_, f :: above, ?_, nofun, habove⟩
    · obtain ⟨hlt, hcontent⟩ := hs.content c hc
      have hne : c ≠ d := fun heq => habove f List.mem_cons_self d hd (heq ▸ hc)
      rw [hassign]
      refine ⟨by simpa using hlt, ?_⟩
      rw [Stack.content_set hne]
      exact hcontent
    · rw [hassign, houter]
      rfl
  · refine ⟨hclosed, fun c hc => ?_, f.bind x s.cells.size :: above, ?_, nofun, fun f' hf' c hc => ?_⟩
    · obtain ⟨hlt, hcontent⟩ := hs.content c hc
      rw [hassign]
      refine ⟨by simpa using Nat.lt_succ_of_lt hlt, ?_⟩
      exact (Stack.content_push hlt).trans hcontent
    · rw [hassign, houter]
      rfl
    · rcases List.mem_cons.1 hf' with rfl | hf'
      · rcases Frame.mem_cells_bind hc with rfl | hc
        · exact fun hguarded => Nat.lt_irrefl _ (hs.content _ hguarded).1
        · exact habove f List.mem_cons_self c hc
      · exact habove f' (List.mem_cons_of_mem _ hf') c hc

theorem enter {bound : List (Param × Cell)} (hbound : ∀ b ∈ bound, ¬ g.cell b.2 ∧ b.2 < s.cells.size) (f : Function)
    (callLine : Int) : g.Kept (s.enter f callLine bound) := by
  obtain ⟨above, hframes, -, habove⟩ := hs.above
  refine ⟨hs.closed.enter (fun b hb => (hbound b hb).2) f callLine, hs.content, .ofCall f callLine bound :: above, ?_, nofun,
    fun f' hf' c hc => ?_⟩
  · rw [Stack.enter, hframes]
    rfl
  · rcases List.mem_cons.1 hf' with rfl | hf'
    · obtain ⟨b, hb, rfl⟩ := Frame.mem_cells_ofCall hc
      exact (hbound b hb).1
    · exact habove f' hf' c hc

/-- Leaving a record goes back to records that were guarded before. -/
theorem leave {s' : Stack} {top : Frame} (hs' : g.Kept s') (h : s'.frames = top :: s.frames) : g.Kept s'.leave where
  closed := hs'.closed.leave
  content := hs'.content
  above := by
    rw [Stack.leave, h]
    exact hs.above

end Kept

end Guard

/-! ### The invariant -/

namespace Invariant

/-- What is known is where in the stack the run is, and how many cells there are. -/
def guarded (g : Guard) : Invariant (Region × Nat) where
  holds w s _ := w.1.Holds s.frames ∧ w.2 ≤ s.cells.size ∧ g.Kept s
  later w w' := w'.1 = w.1 ∧ w.2 ≤ w'.2
  value _ := True
  cell w c := ¬ g.cell c ∧ c < w.2
  reads _ := True
  writes w := w.1.Writes
  cause _ := True
  function _ := True
  expression _ _ := True
  statement w _ := w.1.Writes

theorem lawful_guarded (g : Guard) (p : Option Program) : (guarded g).Lawful p where
  refl _ := ⟨rfl, Nat.le_refl _⟩
  trans h h' := ⟨h'.1.trans h.1, h.2.trans h'.2⟩
  cell_later h hc := ⟨hc.1, hc.2.trans_le h.2⟩
  writes_later := by
    rintro ⟨l, n⟩ ⟨l', n'⟩ ⟨rfl, -⟩ hw
    exact hw
  expression_later _ _ := trivial
  statement_later := by
    rintro ⟨l, n⟩ ⟨l', n'⟩ node ⟨rfl, -⟩ hw
    exact hw
  expression_form := by
    intro w n _
    have hcause (c : Cause) : ((guarded g).toSimulation p).cause c := fun _ => ⟨rfl, trivial⟩
    refine .self hcause ?_ ?_ (fun _ => ⟨rfl, trivial⟩) fun _ _ _ => trivial
    · exact fun c _ => ⟨rfl, trivial⟩
    · exact fun c _ => expressions_self.2 fun _ _ => trivial
  statement_form := by
    intro w n hw
    have hcause (c : Cause) : ((guarded g).toSimulation p).cause c := fun _ => ⟨rfl, trivial⟩
    refine .self hcause ?_ ?_ (fun _ => ⟨rfl, hw⟩) ?_
    · exact fun c _ => ⟨rfl, trivial⟩
    · exact fun c _ => expressions_self.2 fun _ _ => trivial
    · exact fun c _ => statements_self.2 fun _ _ => hw
  value_boolean _ := trivial
  value_ofInt _ := trivial
  value_ofFloat _ := trivial
  value_ofToken _ := trivial
  ordinary _ := trivial
  noFunctions _ := trivial
  function _ _ := trivial
  content _ _ := trivial
  variableCell := by
    rintro w s v x c ⟨hregion, hsize, hs⟩ _ hcell
    exact ⟨(w.1, s.cells.size), ⟨rfl, hsize⟩, ⟨hregion, Nat.le_refl _, hs⟩, hs.not_guarded hcell,
      hs.closed.lt_size hcell⟩
  active _ _ _ := trivial
  alloc := by
    rintro w s v x ⟨hregion, hsize, hs⟩ _
    refine ⟨(w.1, s.cells.size + 1), ⟨rfl, Nat.le_succ_of_le hsize⟩, ⟨hregion, (s.size_alloc x).ge, hs.alloc x⟩, ?_⟩
    rw [Stack.alloc_fst]
    exact ⟨fun hguarded => Nat.lt_irrefl _ (hs.content _ hguarded).1, Nat.lt_succ_self _⟩
  assign := by
    rintro w s v x name ⟨hregion, hsize, hs⟩ hwrites _ hframes
    exact ⟨w, ⟨rfl, Nat.le_refl _⟩, hregion.assign hwrites name x, hsize.trans (s.size_le_assign name x),
      hs.assign name x hframes⟩
  act hs _ := hs
  refuse _ _ := trivial
  enter := by
    rintro w s v f callLine bound ⟨hregion, hsize, hs⟩ _ hbound
    have hcells (b) (hb : b ∈ bound) : ¬ g.cell b.2 ∧ b.2 < s.cells.size :=
      ⟨(hbound b hb).1, (hbound b hb).2.trans_le hsize⟩
    refine ⟨(.above s.frames, w.2), ⟨⟨_, rfl⟩, hsize, hs.enter hcells f callLine⟩, fun _ _ => trivial, hbound, ?_⟩
    rintro ⟨l, n⟩ s' v' ⟨hl, hn⟩ ⟨hregion', hsize', hs'⟩
    subst hl
    obtain ⟨top, htop⟩ := hregion'
    refine ⟨(w.1, n), ⟨rfl, hn⟩, ?_, hsize', hs.leave hs' htop⟩
    rw [Stack.leave, htop]
    exact hregion

end Invariant

/-! ### Arguments -/

/-- What the evaluation of arguments does to a stack: no record changes, and there may be more cells. -/
structure Stack.Extends (s s' : Stack) : Prop where
  frames_eq : s'.frames = s.frames
  closed : s'.Closed
  size_le : s.cells.size ≤ s'.cells.size

theorem Stack.Extends.trans {a b c : Stack} (h : a.Extends b) (h' : b.Extends c) : a.Extends c :=
  ⟨h'.frames_eq.trans h.frames_eq, h'.closed, h.size_le.trans h'.size_le⟩

theorem Stack.extends_alloc {s : Stack} (hs : s.Closed) (v : Value) : s.Extends (s.alloc v).2 :=
  ⟨rfl, hs.alloc v, (s.size_alloc v).ge.trans' (Nat.le_succ _)⟩

theorem Stack.Extends.of_guarded {p : Option Program} {s : Stack} {m : Machine} {n : Nat}
    (h : (Invariant.guarded .nothing).At p (.among s.frames, n) m) (hn : s.cells.size ≤ n) : s.Extends m.stack :=
  ⟨h.holds.1, h.holds.2.2.closed, hn.trans h.holds.2.1⟩

theorem at_among {m : Machine} (h : m.stack.Closed) :
    (Invariant.guarded .nothing).At m.program (.among m.stack.frames, m.stack.cells.size) m :=
  ⟨rfl, rfl, Nat.le_refl _, Guard.kept_nothing h⟩

theorem evaluate_extends {fuel : Nat} {n : Node} {m m' : Machine} {v : Value} (hm : m.stack.Closed)
    (h : evaluate fuel n m = .done v m') : m.stack.Extends m'.stack := by
  have hI := Invariant.lawful_guarded .nothing m.program
  obtain ⟨⟨l, k⟩, ⟨hl, hk⟩, hm', -⟩ := hI.evaluates trivial (at_among hm) ⟨fuel, h⟩
  subst hl
  exact .of_guarded hm' hk

/-- The cell of a parameter: that of the variable passed by reference, or a new one. -/
def Stack.Gets (s : Stack) (p : Param) (n : Node) (c : Cell) : Prop :=
  if p.byRef then s.cell n.text = .ok c else s.cells.size ≤ c

theorem argumentCell_spec {fuel : Nat} {p : Param} {n : Node} {m m' : Machine} {c : Cell} (hm : m.stack.Closed)
    (h : argumentCell fuel p n m = .done c m') :
    m.stack.Extends m'.stack ∧ m.stack.Gets p n c ∧ c < m'.stack.cells.size := by
  unfold argumentCell at h
  unfold Stack.Gets
  split_ifs at h ⊢ with href hid
  · unfold Eval.variableCell at h
    cases hcell : m.stack.cell n.text with
    | error e =>
        rw [hcell] at h
        cases h
    | ok d =>
        rw [hcell] at h
        cases h
        exact ⟨⟨rfl, hm, Nat.le_refl _⟩, rfl, hm.lt_size hcell⟩
  · cases h
  · obtain ⟨v, m₁, hv, halloc⟩ := Eval.done_of_bind h
    have hextends := evaluate_extends hm hv
    cases halloc
    have hsize := hextends.size_le
    refine ⟨hextends.trans (Stack.extends_alloc hextends.closed v), ?_, ?_⟩
    · simpa only [Array.size_push, Nat.add_sub_cancel] using hsize
    · simp only [Array.size_push, Nat.add_sub_cancel, Nat.lt_succ_self]

theorem Stack.Extends.gets {s s' : Stack} (h : s.Extends s') {p : Param} {n : Node} {c : Cell} (hc : s'.Gets p n c) :
    s.Gets p n c := by
  unfold Gets at hc ⊢
  split_ifs at hc ⊢ with href
  · rw [← hc, cell_congr h.frames_eq]
  · exact h.size_le.trans hc

/-- A parameter and its argument, and what the parameter is bound to in the end. -/
structure Stack.Binds (s s' : Stack) (a : Param × Node) (b : Param × Cell) : Prop where
  param_eq : b.1 = a.1
  gets : s.Gets a.1 a.2 b.2
  lt_size : b.2 < s'.cells.size

/-- The arguments of a call are evaluated among the same records, and every parameter gets its cell. -/
theorem bindArguments_spec {fuel : Nat} {params : List Param} {nodes : List Node} {m m' : Machine}
    {bound : List (Param × Cell)} (hm : m.stack.Closed) (h : bindArguments fuel params nodes m = .done bound m') :
    m.stack.Extends m'.stack ∧ List.Forall₂ (m.stack.Binds m'.stack) (params.zip nodes) bound := by
  induction params generalizing fuel nodes m bound with
  | nil =>
      cases fuel with
      | zero => cases h
      | succ fuel =>
          cases h
          exact ⟨⟨rfl, hm, Nat.le_refl _⟩, .nil⟩
  | cons p params ih =>
      cases fuel with
      | zero => cases h
      | succ fuel =>
          cases nodes with
          | nil =>
              cases h
              exact ⟨⟨rfl, hm, Nat.le_refl _⟩, .nil⟩
          | cons n nodes =>
              rw [bindArguments_cons] at h
              obtain ⟨c, m₁, hc, hmore⟩ := Eval.done_of_bind (m := { m with line := n.line }) h
              obtain ⟨rest, m₂, hrest, hbound⟩ := Eval.done_of_bind hmore
              cases hbound
              obtain ⟨hextends, hgets, hlt⟩ := argumentCell_spec (m := { m with line := n.line }) hm hc
              obtain ⟨hextends', hrest⟩ := ih hextends.closed hrest
              refine ⟨hextends.trans hextends', .cons ⟨rfl, hgets, hlt.trans_le hextends'.size_le⟩ ?_⟩
              exact hrest.imp fun a b hb => ⟨hb.param_eq, hextends.gets hb.gets, hb.lt_size⟩

/-- By value, a parameter gets a cell that no record binds. -/
theorem Stack.Closed.not_mem_of_gets {s : Stack} (hs : s.Closed) {p : Param} {n : Node} {c : Cell} (hc : s.Gets p n c)
    (hp : p.byRef = false) {f : Frame} (hf : f ∈ s.frames) : c ∉ f.cells := by
  rw [Gets, if_neg (by simp [hp])] at hc
  exact fun hmem => absurd (hs f hf c hmem) (Nat.not_lt.2 hc)

/-! ### Calls -/

/-- A cell of an older record that the call was not given by reference. -/
def Stack.Sheltered (s : Stack) (bound : List (Param × Cell)) (c : Cell) : Prop :=
  (∃ f ∈ s.frames, c ∈ f.cells) ∧ ∀ b ∈ bound, b.1.byRef = true → b.2 ≠ c

/-- The guard over the older records during a call. -/
def Stack.guard (s : Stack) (bound : List (Param × Cell)) : Guard := ⟨s.frames, s.Sheltered bound, s.content⟩

theorem Stack.kept_guard {s : Stack} (hs : s.Closed) {bound : List (Param × Cell)}
    (hbound : ∀ b ∈ bound, b.2 < s.cells.size ∧ ¬ s.Sheltered bound b.2) (f : Function) (callLine : Int) :
    (s.guard bound).Kept (s.enter f callLine bound) := by
  refine ⟨hs.enter (fun b hb => (hbound b hb).1) f callLine, fun c hc => ?_, [.ofCall f callLine bound], rfl, nofun, ?_⟩
  · obtain ⟨⟨g, hg, hc⟩, -⟩ := hc
    exact ⟨hs g hg c hc, rfl⟩
  · intro g hg c hc
    cases List.mem_singleton.1 hg
    obtain ⟨b, hb, rfl⟩ := Frame.mem_cells_ofCall hc
    exact (hbound b hb).2

theorem callWith_keeps {fuel : Nat} {f : Function} {callLine : Int} {depth : Nat} {bound : List (Param × Cell)}
    {m m' : Machine} (hm : m.stack.Closed)
    (hbound : ∀ b ∈ bound, b.2 < m.stack.cells.size ∧ ¬ m.stack.Sheltered bound b.2)
    (h : (callWith fuel f callLine depth bound m).machine? = some m') :
    m'.stack.frames = m.stack.frames ∧ ∀ c, m.stack.Sheltered bound c → m'.stack.content c = m.stack.content c := by
  rw [callWith_eq] at h
  split_ifs at h
  · have hI := Invariant.lawful_guarded (m.stack.guard bound) m.program
    have hstart : (Invariant.guarded (m.stack.guard bound)).At m.program (.above m.stack.frames, m.stack.cells.size)
        ((m.tellCall f callLine depth bound).enter f callLine bound) :=
      ⟨rfl, ⟨_, rfl⟩, Nat.le_refl _, Stack.kept_guard hm hbound f callLine⟩
    have hfollows := (hI.simulation.follows_runs fuel).runBlock (w := (.above m.stack.frames, m.stack.cells.size))
      (Invariant.statements_self.2 fun _ _ => trivial : List.Forall₂ _ f.body.children f.body.children)
    have hbody {n : Machine} (hn : (runBlock fuel f.body.children
        ((m.tellCall f callLine depth bound).enter f callLine bound)).machine? = some n) :
        n.stack.frames.drop 1 = m.stack.frames ∧
          ∀ c, m.stack.Sheltered bound c → n.stack.content c = m.stack.content c := by
      obtain ⟨⟨l, k⟩, ⟨hl, -⟩, hend⟩ := hstart.leaves hfollows hn
      subst hl
      obtain ⟨⟨top, htop⟩, -, hkept⟩ := hend.holds
      exact ⟨by rw [htop]; rfl, fun c hc => (hkept.content c hc).2⟩
    cases hrun : runBlock fuel f.body.children ((m.tellCall f callLine depth bound).enter f callLine bound) with
    | unfinished =>
        rw [hrun] at h
        cases h
    | failed e n =>
        rw [hrun] at h hbody
        cases h
        exact hbody rfl
    | done r n =>
        rw [hrun] at h hbody
        cases h
        exact hbody (n := n) rfl
  · cases h
    exact ⟨rfl, fun _ _ => rfl⟩
  · cases h
    exact ⟨rfl, fun _ _ => rfl⟩

/-! ### Points of a run -/

/-- All records of all points of a run bind cells that there are. -/
theorem closed_of_visits {m n : Machine} {name : String} {nodes : List Node} {t : Task} (hm : m.stack.Closed)
    (h : m.Visits (.invoke name nodes) t n) : n.stack.Closed := by
  have hI := Invariant.lawful_guarded .nothing m.program
  obtain ⟨w, hw, -⟩ := hI.visits h (at_among hm) fun _ _ => trivial
  exact hw.holds.2.2.closed

theorem closed_of_final {m n n' : Machine} {name : String} {nodes : List Node} {t : Task} {fuel : Nat} (hm : m.stack.Closed)
    (h : m.Visits (.invoke name nodes) t n) (hfinal : t.final? fuel n = some n') : n'.stack.Closed := by
  have hI := Invariant.lawful_guarded .nothing m.program
  obtain ⟨w, hw, ht⟩ := hI.visits h (at_among hm) fun _ _ => trivial
  obtain ⟨w', -, hw'⟩ := hI.final hw ht hfinal
  exact hw'.holds.2.2.closed

theorem closed_of_call {m m' : Machine} {fuel : Nat} {name : String} {nodes : List Node} (hm : m.stack.Closed)
    (h : (Machine.call fuel name nodes m).machine? = some m') : m'.stack.Closed := by
  have hfinal : (Task.invoke name nodes).final? fuel m = some m' ∨ m' = m := by
    unfold Machine.call at h
    split at h
    · cases h
      exact .inr rfl
    · refine .inl (Eq.trans ?_ h)
      rw [Task.final?]
      cases invoke fuel name nodes m <;> rfl
  rcases hfinal with hfinal | rfl
  · exact closed_of_final hm .first hfinal
  · exact hm

theorem closed_of_reachable {c : Config} {m : Machine} (h : m.Reachable c) : m.stack.Closed := by
  induction h with
  | initial input items => exact nofun
  | loaded _ hload ih =>
      obtain ⟨p, -, rfl⟩ := loaded_of_loadTree hload
      exact ih
  | returned _ hcall ih => exact closed_of_call ih (by rw [hcall]; rfl)
  | failed _ hcall ih => exact closed_of_call ih (by rw [hcall]; rfl)

/-- A call leaves the older records as they are, and changes none of their cells that it was not given by reference,
whether it returns or fails. -/
theorem call_keeps_records {c : Config} {m₀ m m₁ m₂ : Machine} (hreachable : m₀.Reachable c) {name : String}
    {outer : List Node} {t : Task} (hvisits : m₀.Visits (.invoke name outer) t m) {fuel : Nat} {f : Function}
    {nodes : List Node} (hlength : f.params.length = nodes.length) {bound : List (Param × Cell)}
    (hbound : bindArguments fuel f.params nodes m = .done bound m₁)
    (hcall : (invokeFunction (fuel + 1) f nodes m).machine? = some m₂) :
    m₂.stack.frames = m₁.stack.frames ∧ ∀ g ∈ m₁.stack.frames, ∀ d ∈ g.cells,
      (∀ b ∈ bound, b.1.byRef = true → b.2 ≠ d) → m₂.stack.content d = m₁.stack.content d := by
  have hclosed := closed_of_visits (closed_of_reachable hreachable) hvisits
  obtain ⟨hextends, hcells⟩ := bindArguments_spec hclosed hbound
  rw [invokeFunction_of_bound hlength hbound] at hcall
  have hfree (b) (hb : b ∈ bound) : b.2 < m₁.stack.cells.size ∧ ¬ m₁.stack.Sheltered bound b.2 := by
    obtain ⟨a, -, hparam, hgets, hlt⟩ := exists_of_forall₂ hcells hb
    refine ⟨hlt, ?_⟩
    rintro ⟨⟨g, hg, hbg⟩, hreferences⟩
    cases href : b.1.byRef with
    | true => exact hreferences b hb href rfl
    | false => exact hclosed.not_mem_of_gets hgets (hparam ▸ href) (hextends.frames_eq ▸ hg) hbg
  obtain ⟨hframes, hcontent⟩ := callWith_keeps hextends.closed hfree hcall
  exact ⟨hframes, fun g hg d hd hreferences => hcontent d ⟨⟨g, hg, hd⟩, hreferences⟩⟩

/-- A function that changes a variable of its caller by reference and has another one of the same name, and a caller. -/
def shadowing : Node :=
  let name (line : Int) (x : String) : Node := .leaf .id line x
  let assign (line : Int) (x : String) (e : Node) : Node := .branch .assign line [name line x, e]
  .branch .functionList 1 [
    ⟨.function, 1, "main", none, [.branch .paramList 1 [], .branch .block 1 [
      assign 2 "a" (.leaf .int 2 "1"), assign 3 "b" (.leaf .int 3 "2")]]⟩,
    ⟨.function, 5, "shift", none, [.branch .paramList 5 [.leaf .paramRef 5 "x", .leaf .paramValue 5 "y"],
      .branch .block 5 [
        assign 6 "x" (name 6 "y"), assign 7 "y" (.leaf .int 7 "7"), assign 8 "b" (name 8 "y"),
        .branch .write 9 [name 9 "z"]]]⟩]

/-- The arguments of a call in the caller. -/
def shadowingArguments : List Node := [.leaf .id 4 "a", .leaf .id 4 "b"]

theorem shadowing_kept : ∃ (m₀ m m₁ m₂ : Machine) (t : Task) (f : Function) (bound : List (Param × Cell)),
    m₀.Reachable .default ∧ m₀.Visits (.invoke "main" []) t m ∧
    bindArguments 20 f.params shadowingArguments m = .done bound m₁ ∧
    (invokeFunction 21 f shadowingArguments m).machine? = some m₂ ∧ m₂.stack.frames = m₁.stack.frames ∧
    m₁.stack.content 0 = .integer 1 ∧ m₂.stack.content 0 = .integer 2 ∧
    m₁.stack.content 1 = .integer 2 ∧ m₂.stack.content 1 = .integer 2 := by
  have hrun : (((Machine.initial .default "" .unobserved).loadTree shadowing).toOption.bind fun m₀ =>
      (m₀.opening? "main").bind fun o => (o.2.next? 10 o.1).bind fun o => (o.2.next? 10 o.1).bind fun o =>
      (m₀.program.bind (·.get? "shift")).bind fun f =>
      (bindArguments 20 f.params shadowingArguments o.2).done?.bind fun r =>
      (invokeFunction 21 f shadowingArguments o.2).machine?.map fun m₂ =>
        decide (f.params.length = shadowingArguments.length ∧ (∃ g ∈ r.2.stack.frames, 1 ∈ g.cells) ∧
          (∀ b ∈ r.1, b.1.byRef = true → b.2 ≠ 1) ∧ r.2.stack.content 0 = .integer 1 ∧
          m₂.stack.content 0 = .integer 2 ∧ r.2.stack.content 1 = .integer 2)) = some true := by decide +kernel
  obtain ⟨m₀, hload, hrun⟩ := Option.bind_eq_some_iff.1 hrun
  obtain ⟨⟨t, m⟩, hopening, hrun⟩ := Option.bind_eq_some_iff.1 hrun
  obtain ⟨⟨t', m'⟩, hnext, hrun⟩ := Option.bind_eq_some_iff.1 hrun
  obtain ⟨⟨t'', m''⟩, hnext', hrun⟩ := Option.bind_eq_some_iff.1 hrun
  obtain ⟨f, -, hrun⟩ := Option.bind_eq_some_iff.1 hrun
  obtain ⟨⟨bound, m₁⟩, hbound, hrun⟩ := Option.bind_eq_some_iff.1 hrun
  obtain ⟨m₂, hcall, hrun⟩ := Option.map_eq_some_iff.1 hrun
  obtain ⟨hlength, ⟨g, hg, hcell⟩, hreferences, hbefore, hafter, hother⟩ := of_decide_eq_true hrun
  have hreachable : m₀.Reachable .default := (Machine.Reachable.initial "" _).loaded (eq_ok_of_toOption hload)
  have hvisits := ((Machine.Visits.of_opening? hopening).of_next? hnext).of_next? hnext'
  have hbound := Outcome.eq_done hbound
  obtain ⟨hframes, hcontent⟩ := call_keeps_records hreachable hvisits hlength hbound hcall
  exact ⟨m₀, m'', m₁, m₂, t'', f, bound, hreachable, hvisits, hbound, hcall, hframes, hbefore, hafter, hother,
    (hcontent g hg 1 hcell hreferences).trans hother⟩

end Rover
