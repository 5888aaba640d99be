import Rover.Proofs.Cells

/-!
# Runs over moved cells

A program sees the contents of cells and never their addresses. So a run goes the same way if all its cells lie somewhere
else, as long as different cells stay different: two machines whose records bind cells in this way apart, with the same
contents, tell the same events, read the same tokens and do the same to the world (`lawful_relocated`).
-/

namespace Rover

/-- Where the cells of a store are in another one: those from `first` on are `added` further up. -/
structure Relocation where
  move : Cell → Cell
  first : Nat
  added : Nat
  injective : ∀ c d, move c = move d → c = d
  move_of_le : ∀ c, first ≤ c → move c = c + added
  move_lt : ∀ c, c < first → move c < first + added

namespace Relocation

variable (r : Relocation)

theorem move_lt_size {n : Nat} (hn : r.first ≤ n) {c : Cell} (hc : c < n) : r.move c < n + r.added := by
  by_cases h : c < r.first
  · exact (r.move_lt c h).trans_le (Nat.add_le_add_right hn _)
  · rw [r.move_of_le c (Nat.not_lt.1 h)]
    exact Nat.add_lt_add_right hc _

/-- A parameter bound to the moved cell. -/
def binding (b : Param × Cell) : Param × Cell := (b.1, r.move b.2)

/-- A record that binds the moved cells. -/
def frame (f : Frame) : Frame := { f with slots := f.slots.map fun b => (b.1, r.move b.2) }

theorem cell?_frame (f : Frame) (x : String) : (r.frame f).cell? x = (f.cell? x).map r.move := by
  obtain ⟨name, line, slots⟩ := f
  induction slots with
  | nil => rfl
  | cons b slots ih =>
      obtain ⟨y, c⟩ := b
      unfold Frame.cell? frame at ih ⊢
      simp only [List.map_cons, List.lookup_cons]
      cases x == y with
      | true => rfl
      | false => exact ih

theorem bindTo_map (x : String) (c : Cell) (slots : List (String × Cell)) :
    Frame.bindTo x (r.move c) (slots.map fun b => (b.1, r.move b.2)) =
      (Frame.bindTo x c slots).map fun b => (b.1, r.move b.2) := by
  induction slots with
  | nil => rfl
  | cons b slots ih =>
      obtain ⟨y, d⟩ := b
      simp only [Frame.bindTo, List.map_cons]
      split_ifs
      · rfl
      · rw [ih]
        rfl

theorem frame_bind (f : Frame) (x : String) (c : Cell) : r.frame (f.bind x c) = (r.frame f).bind x (r.move c) := by
  unfold frame Frame.bind
  rw [r.bindTo_map]

theorem frame_ofCall (f : Function) (callLine : Int) (bound : List (Param × Cell)) :
    r.frame (.ofCall f callLine bound) = .ofCall f callLine (bound.map r.binding) := by
  have hfold (frame : Frame) : r.frame (bound.foldl (fun frame b => frame.bind b.1.name b.2) frame) =
      (bound.map r.binding).foldl (fun frame b => frame.bind b.1.name b.2) (r.frame frame) := by
    induction bound generalizing frame with
    | nil => rfl
    | cons b bound ih =>
        rw [List.foldl_cons, ih, r.frame_bind]
        rfl
  exact hfold _

theorem entries_map (line : Int) (above base : List Frame) :
    Frame.entries line (above.map r.frame ++ base) = Frame.entries line (above ++ base) := by
  induction above generalizing line with
  | nil => rfl
  | cons f above ih =>
      rw [List.map_cons, List.cons_append, List.cons_append, Frame.entries, Frame.entries]
      exact congrArg (_ :: ·) (ih f.callerLine)

/-! ### Stacks -/

/-- The second stack is the first one with the cells moved, in so many records above the given ones. -/
structure Moves (base : List Frame) (depth : Nat) (s s' : Stack) : Prop where
  first_le : r.first ≤ s.cells.size
  size_eq : s'.cells.size = s.cells.size + r.added
  content : ∀ c, c < s.cells.size → s'.content (r.move c) = s.content c
  frames : ∃ above, above.length = depth ∧ s.frames = above ++ base ∧ s'.frames = above.map r.frame ++ base ∧
    ∀ f ∈ above, ∀ c ∈ f.cells, c < s.cells.size

namespace Moves

variable {r} {base : List Frame} {depth : Nat} {s s' : Stack} (h : r.Moves base depth s s')

include h

theorem depth_eq : s'.depth = s.depth := by
  obtain ⟨above, -, hframes, hframes', -⟩ := h.frames
  simp [Stack.depth, hframes, hframes']

theorem trace_eq (line : Int) (items : Option Int) : s'.trace line items = s.trace line items := by
  obtain ⟨above, -, hframes, hframes', -⟩ := h.frames
  unfold Stack.trace
  rw [hframes, hframes', r.entries_map]

/-- The innermost records. -/
theorem top (hdepth : 0 < depth) : ∃ f above, above.length + 1 = depth ∧ s.frames = f :: (above ++ base) ∧
    s'.frames = r.frame f :: (above.map r.frame ++ base) ∧ ∀ g ∈ f :: above, ∀ c ∈ g.cells, c < s.cells.size := by
  obtain ⟨above, hlength, hframes, hframes', hcells⟩ := h.frames
  cases above with
  | nil =>
      rw [← hlength] at hdepth
      cases hdepth
  | cons f above => exact ⟨f, above, hlength, hframes, hframes', hcells⟩

theorem cell_eq (hdepth : 0 < depth) (x : String) : s'.cell x = (s.cell x).map r.move := by
  obtain ⟨f, above, -, hframes, hframes', -⟩ := h.top hdepth
  rw [Stack.cell_of_frames hframes, Stack.cell_of_frames hframes', r.cell?_frame]
  cases f.cell? x <;> rfl

theorem lt_size (hdepth : 0 < depth) {x : String} {c : Cell} (hc : s.cell x = .ok c) : c < s.cells.size := by
  obtain ⟨f, above, -, hframes, -, hcells⟩ := h.top hdepth
  obtain ⟨f', outer, hframes', hcell⟩ := Stack.top_of_cell hc
  rw [hframes] at hframes'
  obtain ⟨rfl, -⟩ := List.cons.inj hframes'
  exact hcells f List.mem_cons_self c (Frame.mem_cells_of_cell? hcell)

/-- The next cell is moved to the next cell. -/
theorem move_size : r.move s.cells.size = s'.cells.size := by
  rw [h.size_eq, r.move_of_le _ h.first_le]

theorem content_push {frames frames' : List Frame} (v : Value) {c : Cell} (hc : c < s.cells.size + 1) :
    (⟨frames', s'.cells.push v⟩ : Stack).content (r.move c) = (⟨frames, s.cells.push v⟩ : Stack).content c := by
  rcases Nat.lt_succ_iff_lt_or_eq.1 hc with hc | rfl
  · have hmove : r.move c < s'.cells.size := h.size_eq ▸ r.move_lt_size h.first_le hc
    have hold' : (⟨frames', s'.cells.push v⟩ : Stack).content (r.move c) = s'.content (r.move c) :=
      Stack.content_push hmove
    have hold : (⟨frames, s.cells.push v⟩ : Stack).content c = s.content c := Stack.content_push hc
    rw [hold', hold, h.content c hc]
  · rw [h.move_size, Stack.content_push_self, Stack.content_push_self]

theorem alloc (v : Value) : r.Moves base depth (s.alloc v).2 (s'.alloc v).2 where
  first_le := h.first_le.trans (Nat.le_succ _) |>.trans (s.size_alloc v).ge
  size_eq := by
    rw [Stack.size_alloc, Stack.size_alloc, h.size_eq]
    omega
  frames := by
    obtain ⟨above, hlength, hframes, hframes', hcells⟩ := h.frames
    refine ⟨above, hlength, hframes, hframes', fun f hf c hc => ?_⟩
    rw [Stack.size_alloc]
    exact Nat.lt_succ_of_lt (hcells f hf c hc)
  content c hc := h.content_push v ((s.size_alloc v).subst hc)

theorem content_set {frames frames' : List Frame} (v : Value) {c d : Cell} (hc : c < s.cells.size) (hd : d < s.cells.size) :
    (⟨frames', s'.cells.setIfInBounds (r.move c) v⟩ : Stack).content (r.move d) =
      (⟨frames, s.cells.setIfInBounds c v⟩ : Stack).content d := by
  by_cases hdc : d = c
  · subst hdc
    have hmove : r.move d < s'.cells.size := h.size_eq ▸ r.move_lt_size h.first_le hd
    rw [Stack.content_set_self hmove, Stack.content_set_self hd]
  · rw [Stack.content_set fun heq => hdc (r.injective d c heq), Stack.content_set hdc]
    exact h.content d hd

theorem assign (hdepth : 0 < depth) (x : String) (v : Value) : r.Moves base depth (s.assign x v) (s'.assign x v) := by
  obtain ⟨f, above, hlength, hframes, hframes', hcells⟩ := h.top hdepth
  have hcell := r.cell?_frame f x
  rcases Stack.assign_cases hframes x v with ⟨c, hc, hx, hassign⟩ | ⟨hx, hassign⟩
  · rcases Stack.assign_cases hframes' x v with ⟨c', -, hx', hassign'⟩ | ⟨hx', -⟩
    · obtain rfl : c' = r.move c := by simpa [hx, hx'] using hcell
      have hlt := hcells f List.mem_cons_self c hc
      rw [hassign, hassign']
      refine ⟨by simpa using h.first_le, by simpa using h.size_eq, fun d hd => ?_, f :: above, hlength, rfl, rfl,
        by simpa using hcells⟩
      exact h.content_set v hlt (by simpa using hd)
    · simp [hx, hx'] at hcell
  · rcases Stack.assign_cases hframes' x v with ⟨c', -, hx', -⟩ | ⟨-, hassign'⟩
    · simp [hx, hx'] at hcell
    · rw [hassign, hassign']
      refine ⟨by simpa using Nat.le_succ_of_le h.first_le, ?_, fun c hc => h.content_push v (by simpa using hc),
        f.bind x s.cells.size :: above, hlength, rfl, ?_, fun g hg c hc => ?_⟩
      · simp only [Array.size_push, h.size_eq]
        omega
      · rw [List.map_cons, r.frame_bind, h.move_size]
        rfl
      · rw [Array.size_push]
        rcases List.mem_cons.1 hg with rfl | hg
        · rcases Frame.mem_cells_bind hc with rfl | hc
          · exact Nat.lt_succ_self _
          · exact Nat.lt_succ_of_lt (hcells f List.mem_cons_self c hc)
        · exact Nat.lt_succ_of_lt (hcells g (List.mem_cons_of_mem _ hg) c hc)

theorem enter {bound : List (Param × Cell)} (hbound : ∀ b ∈ bound, b.2 < s.cells.size) (f : Function) (callLine : Int) :
    r.Moves base (depth + 1) (s.enter f callLine bound) (s'.enter f callLine (bound.map r.binding)) where
  first_le := h.first_le
  size_eq := h.size_eq
  frames := by
    obtain ⟨above, hlength, hframes, hframes', hcells⟩ := h.frames
    refine ⟨.ofCall f callLine bound :: above, congrArg (· + 1) hlength, ?_, ?_, fun g hg c hc => ?_⟩
    · rw [Stack.enter, hframes]
      rfl
    · rw [Stack.enter, hframes', List.map_cons, r.frame_ofCall]
      rfl
    · rcases List.mem_cons.1 hg with rfl | hg
      · obtain ⟨b, hb, rfl⟩ := Frame.mem_cells_ofCall hc
        exact hbound b hb
      · exact hcells g hg c hc
  content := h.content

omit h in
theorem leave (h : r.Moves base (depth + 1) s s') : r.Moves base depth s.leave s'.leave where
  first_le := h.first_le
  size_eq := h.size_eq
  frames := by
    obtain ⟨f, above, hlength, hframes, hframes', hcells⟩ := h.top (Nat.succ_pos _)
    refine ⟨above, Nat.succ.inj hlength, ?_, ?_, fun g hg => hcells g (List.mem_cons_of_mem _ hg)⟩
    · rw [Stack.leave, hframes]
      rfl
    · rw [Stack.leave, hframes']
      rfl
  content := h.content

end Moves

end Relocation

/-! ### Machines -/

namespace Simulation

/-- A machine and another one with the cells moved. What is known is how many records have been entered since, and how many
cells there are. -/
def relocated (r : Relocation) (base : List Frame) : Simulation (Nat × Nat) where
  machine w m m' := w.2 ≤ m.stack.cells.size ∧ ∃ s', m' = { m with stack := s' } ∧ r.Moves base w.1 m.stack s'
  later w w' := w'.1 = w.1 ∧ w.2 ≤ w'.2
  value _ := True
  cell w c c' := c' = r.move c ∧ c < w.2
  name w x x' := x' = x ∧ 0 < w.1
  target w x x' := x' = x ∧ 0 < w.1
  param _ p p' := p' = p
  line l l' := l' = l
  fault _ e e' := e' = e
  function f f' := f' = f
  expression w n n' := n' = n ∧ 0 < w.1
  statement w n n' := n' = n ∧ 0 < w.1

variable {r : Relocation} {base : List Frame} {w : Nat × Nat}

theorem bound_relocated {f : Function} {bound bound' : List (Param × Cell)}
    (h : (relocated r base).bound f w bound bound') :
    bound' = bound.map r.binding ∧ ∀ b ∈ bound, b.2 < w.2 := by
  induction h with
  | nil => exact ⟨rfl, nofun⟩
  | @cons b b' bound bound' hb _ ih =>
      obtain ⟨hparam, hcell, hlt⟩ := hb
      obtain ⟨rfl, hbound⟩ := ih
      refine ⟨?_, List.forall_mem_cons.2 ⟨hlt, hbound⟩⟩
      rw [List.map_cons, Relocation.binding, ← hcell, ← hparam]

theorem relocated_bound {f : Function} {bound : List (Param × Cell)} (h : ∀ b ∈ bound, b.2 < w.2) :
    (relocated r base).bound f w bound (bound.map r.binding) := by
  induction bound with
  | nil => exact .nil
  | cons b bound ih =>
      obtain ⟨hb, hbound⟩ := List.forall_mem_cons.1 h
      exact .cons ⟨rfl, rfl, hb⟩ (ih hbound)

theorem bindings_relocated {m : Machine} {s' : Stack} {bound : List (Param × Cell)} (hs : r.Moves base w.1 m.stack s')
    (hbound : ∀ b ∈ bound, b.2 < m.stack.cells.size) :
    { m with stack := s' }.bindings (bound.map r.binding) = m.bindings bound := by
  unfold Machine.bindings
  rw [List.map_map]
  refine List.map_congr_left fun b hb => ?_
  simp only [Function.comp_apply, Relocation.binding]
  rw [hs.content b.2 (hbound b hb)]

theorem lawful_relocated (r : Relocation) (base : List Frame) : (relocated r base).Lawful where
  refl _ := ⟨rfl, Nat.le_refl _⟩
  trans h h' := ⟨h'.1.trans h.1, h.2.trans h'.2⟩
  cell_later h hc := ⟨hc.1, hc.2.trans_le h.2⟩
  target_later h hx := ⟨hx.1, h.1 ▸ hx.2⟩
  expression_later h hn := ⟨hn.1, h.1 ▸ hn.2⟩
  statement_later h hn := ⟨hn.1, h.1 ▸ hn.2⟩
  expression_form := by
    rintro w n n' ⟨rfl, hdepth⟩
    have hcause (c : Cause) : (relocated r base).cause c := fun _ => rfl
    refine .self hcause ?_ ?_ (fun _ => ⟨rfl, hdepth⟩) fun _ _ _ => trivial
    · exact fun _ _ => ⟨rfl, hdepth⟩
    · exact fun _ _ => List.forall₂_same.2 fun _ _ => ⟨rfl, hdepth⟩
  statement_form := by
    rintro w n n' ⟨rfl, hdepth⟩
    have hcause (c : Cause) : (relocated r base).cause c := fun _ => rfl
    refine .self hcause ?_ ?_ (fun _ => ⟨rfl, hdepth⟩) ?_
    · exact fun _ _ => ⟨rfl, hdepth⟩
    · exact fun _ _ => List.forall₂_same.2 fun _ _ => ⟨rfl, hdepth⟩
    · exact fun _ _ => List.forall₂_same.2 fun _ _ => ⟨rfl, hdepth⟩
  expression_line := by
    rintro w n n' ⟨rfl, -⟩
    rfl
  statement_line := by
    rintro w n n' ⟨rfl, -⟩
    rfl
  function_name := by
    rintro f f' rfl
    rfl
  function_params := by
    rintro f f' rfl
    exact List.forall₂_same.2 fun _ _ => rfl
  param_byRef := by
    rintro f p p' rfl
    rfl
  value_boolean _ := trivial
  value_ofInt _ := trivial
  value_ofFloat _ := trivial
  value_ofToken _ := trivial
  ordinary _ _ _ := rfl
  locate := by
    rintro w m m' e e' ⟨-, s', rfl, hs⟩ rfl w'
    unfold Machine.locate Machine.stackTrace
    rw [hs.trace_eq]
    rfl
  overflow := by
    rintro w e e' rfl
    exact ⟨Iff.rfl, fun _ _ => rfl⟩
  machine_line := by
    rintro w m m' ⟨-, s', rfl, -⟩
    rfl
  machine_depth := by
    rintro w m m' ⟨-, s', rfl, hs⟩
    exact hs.depth_eq
  machine_world := by
    rintro w m m' ⟨-, s', rfl, -⟩
    rfl
  machine_options := by
    rintro w m m' ⟨-, s', rfl, -⟩
    rfl
  content := by
    rintro w m m' c c' ⟨hsize, s', rfl, hs⟩ ⟨rfl, hc⟩
    exact ⟨hs.content c (hc.trans_le hsize), trivial⟩
  setLine := by
    rintro w m m' l l' ⟨hsize, s', rfl, hs⟩ rfl
    exact ⟨hsize, s', rfl, hs⟩
  wrote := by
    rintro w m m' text ⟨hsize, s', rfl, hs⟩
    exact ⟨hsize, s', rfl, hs⟩
  nextToken := by
    rintro w m m' ⟨hsize, s', rfl, hs⟩
    unfold Eval.nextToken
    dsimp only
    split
    · exact .failed ⟨w, rfl, ⟨rfl, Nat.le_refl _⟩, hsize, s', rfl, hs⟩
    · exact .done ⟨w, ⟨rfl, Nat.le_refl _⟩, ⟨hsize, s', rfl, hs⟩, rfl⟩
  lookup := by
    rintro w name m m' ⟨hsize, s', rfl, hs⟩
    unfold Eval.function
    dsimp only
    split
    · exact .failed ⟨w, rfl, ⟨rfl, Nat.le_refl _⟩, hsize, s', rfl, hs⟩
    · split
      · exact .done ⟨w, ⟨rfl, Nat.le_refl _⟩, ⟨hsize, s', rfl, hs⟩, rfl⟩
      · exact .failed ⟨w, rfl, ⟨rfl, Nat.le_refl _⟩, hsize, s', rfl, hs⟩
  variableCell := by
    rintro w x x' ⟨rfl, hdepth⟩ m m' ⟨hsize, s', rfl, hs⟩
    unfold Eval.variableCell
    dsimp only
    rw [hs.cell_eq hdepth]
    cases hcell : m.stack.cell x' with
    | error e => exact .failed ⟨w, rfl, ⟨rfl, Nat.le_refl _⟩, hsize, s', rfl, hs⟩
    | ok c =>
        exact .done ⟨(w.1, m.stack.cells.size), ⟨rfl, hsize⟩, ⟨Nat.le_refl _, s', rfl, hs⟩, rfl, hs.lt_size hdepth hcell⟩
  alloc := by
    rintro w v - m m' ⟨hsize, s', rfl, hs⟩
    refine .done ⟨(w.1, m.stack.cells.size + 1), ⟨rfl, Nat.le_succ_of_le hsize⟩, ⟨?_, _, rfl, hs.alloc v⟩, ?_⟩
    · exact (m.stack.size_alloc v).ge
    · simp only [Array.size_push, Nat.add_sub_cancel]
      exact ⟨hs.move_size.symm, Nat.lt_succ_self _⟩
  assign := by
    rintro w x x' v ⟨rfl, hdepth⟩ - m m' ⟨hsize, s', rfl, hs⟩
    obtain ⟨f, above, -, hframes, hframes', -⟩ := hs.top hdepth
    unfold Eval.assign
    dsimp only
    rw [hframes, hframes']
    refine .done ⟨w, ⟨rfl, Nat.le_refl _⟩, ⟨?_, _, rfl, hs.assign hdepth x' v⟩, rfl⟩
    exact hsize.trans (m.stack.size_le_assign x' v)
  act := by
    rintro w m m' op fuel e lines ⟨hsize, s', rfl, hs⟩ -
    exact ⟨hsize, s', rfl, hs⟩
  refuse _ _ _ := rfl
  tellCall := by
    rintro w m m' f f' l l' bound bound' depth ⟨hsize, s', rfl, hs⟩ rfl rfl hbound
    obtain ⟨rfl, hlt⟩ := bound_relocated hbound
    refine ⟨hsize, s', ?_, hs⟩
    unfold Machine.tellCall
    rw [bindings_relocated hs fun b hb => (hlt b hb).trans_le hsize]
    rfl
  tellReturn := by
    rintro w m m' f f' v bound bound' depth ⟨hsize, s', rfl, hs⟩ rfl - hbound
    obtain ⟨rfl, hlt⟩ := bound_relocated hbound
    refine ⟨hsize, s', ?_, hs⟩
    have hfilter : (bound.map r.binding).filter (·.1.byRef) = (bound.filter (·.1.byRef)).map r.binding :=
      List.filter_map
    unfold Machine.tellReturn
    rw [hfilter, bindings_relocated hs fun b hb => (hlt b (List.mem_of_mem_filter hb)).trans_le hsize]
    rfl
  enter := by
    rintro w m m' f f' l l' bound bound' ⟨hsize, s', rfl, hs⟩ rfl rfl hbound
    obtain ⟨rfl, hlt⟩ := bound_relocated hbound
    refine ⟨(w.1 + 1, w.2), ⟨hsize, _, rfl, hs.enter (fun b hb => (hlt b hb).trans_le hsize) f' l'⟩,
      List.forall₂_same.2 fun _ _ => ⟨rfl, Nat.succ_pos _⟩, relocated_bound hlt, ?_⟩
    rintro ⟨d, k⟩ n n' ⟨rfl, hk⟩ ⟨hsize', s'', rfl, hs''⟩
    exact ⟨(w.1, k), ⟨rfl, hk⟩, hsize', _, rfl, hs''.leave⟩

end Simulation

end Rover
