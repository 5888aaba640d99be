import Rover.Proofs.Lockstep

/-!
# Invariants of a run

An invariant of a single run of a program: what holds of the stack and of the world between steps, what holds of the values
and cells that occur, and how a run may fail. It is the simulation of a machine by itself, so that all that is left to check
is what the steps that change the stack or the world do (`Invariant.Lawful`).
-/

namespace Rover

namespace Stack

/-- The stack at the start of a body. -/
def enter (s : Stack) (f : Function) (callLine : Int) (bound : List (Param × Cell)) : Stack :=
  ⟨.ofCall f callLine bound :: s.frames, s.cells⟩

theorem cell_of_frames {s : Stack} {f : Frame} {outer : List Frame} (h : s.frames = f :: outer) (x : String) :
    s.cell x = match f.cell? x with
      | some c => .ok c
      | none => .error (.undefinedVariable x) := by
  unfold cell top
  rw [h]
  rfl

theorem cell_error {s : Stack} {x : String} {e : StackError} (h : s.cell x = .error e) :
    s.frames = [] ∧ e = .noActiveFunction ∨ e = .undefinedVariable x := by
  cases hframes : s.frames with
  | nil =>
      unfold cell top at h
      rw [hframes] at h
      cases h
      exact .inl ⟨rfl, rfl⟩
  | cons f outer =>
      rw [cell_of_frames hframes] at h
      split at h
      · cases h
      · cases h
        exact .inr rfl

end Stack

theorem cause_locate (m : Machine) (e : Fault) : (m.locate e).cause = e.cause := by
  unfold Machine.locate Fault.locate
  split_ifs <;> rfl

theorem cause_report (m : Machine) (e : Fault) : (m.report e).cause = e.cause := by
  unfold Machine.report
  split_ifs
  · exact cause_locate m e
  · rfl

/-- What is kept by the run of a program. As in a simulation, it may depend on a state of knowledge. -/
structure Invariant (W : Type) where
  holds : W → Stack → World → Prop
  later : W → W → Prop
  value : Value → Prop
  cell : W → Cell → Prop
  /-- Variables may be read. -/
  reads : W → Prop
  /-- Variables may be assigned to. -/
  writes : W → Prop
  cause : Cause → Prop
  function : Function → Prop
  expression : W → Node → Prop
  statement : W → Node → Prop

namespace Invariant

variable {W : Type} (I : Invariant W)

/-- The simulation of a machine that runs a program by itself. -/
def toSimulation (p : Option Program) : Simulation W where
  machine w m m' := m' = m ∧ m.program = p ∧ I.holds w m.stack m.world
  later := I.later
  value := I.value
  cell w c c' := c' = c ∧ I.cell w c
  name w x x' := x' = x ∧ I.reads w
  target w x x' := x' = x ∧ I.writes w
  param _ p p' := p' = p
  line l l' := l' = l
  fault _ e e' := e' = e ∧ I.cause e.cause
  function f f' := f' = f ∧ I.function f
  expression w n n' := n' = n ∧ I.expression w n
  statement w n n' := n' = n ∧ I.statement w n

/-- The laws of an invariant, for the runs of a program. -/
structure Lawful (p : Option Program) : Prop where
  refl (w : W) : I.later w w
  trans {a b c : W} : I.later a b → I.later b c → I.later a c
  cell_later {w w' : W} {c : Cell} : I.later w w' → I.cell w c → I.cell w' c
  writes_later {w w' : W} : I.later w w' → I.writes w → I.writes w'
  expression_later {w w' : W} {n : Node} : I.later w w' → I.expression w n → I.expression w' n
  statement_later {w w' : W} {n : Node} : I.later w w' → I.statement w n → I.statement w' n
  expression_form {w : W} {n : Node} : I.expression w n → (I.toSimulation p).ExpressionForm w n n
  statement_form {w : W} {n : Node} : I.statement w n → (I.toSimulation p).StatementForm w n n
  value_boolean (b : Bool) : I.value (.boolean b)
  value_ofInt (n : Int) : I.value (.ofInt n)
  value_ofFloat (x : Float) : I.value (.ofFloat x)
  value_ofToken {token : String} {v : Value} : Value.ofToken token = .ok v → I.value v
  ordinary {c : Cause} : c.isOrdinary = true → I.cause c
  noFunctions : p = none → I.cause .noFunctions
  function {q : Program} {f : Function} {name : String} : p = some q → q.get? name = some f → I.function f
  content {w : W} {s : Stack} {v : World} {c : Cell} : I.holds w s v → I.cell w c → I.value (s.content c)
  variableCell {w : W} {s : Stack} {v : World} {x : String} {c : Cell} : I.holds w s v → I.reads w →
    s.cell x = .ok c → ∃ w', I.later w w' ∧ I.holds w' s v ∧ I.cell w' c
  active {w : W} {s : Stack} {v : World} : I.holds w s v → I.reads w ∨ I.writes w → s.frames = [] →
    I.cause (.stack .noActiveFunction)
  alloc {w : W} {s : Stack} {v : World} {x : Value} : I.holds w s v → I.value x →
    ∃ w', I.later w w' ∧ I.holds w' (s.alloc x).2 v ∧ I.cell w' (s.alloc x).1
  assign {w : W} {s : Stack} {v : World} {x : Value} (name : String) : I.holds w s v → I.writes w → I.value x →
    s.frames ≠ [] → ∃ w', I.later w w' ∧ I.holds w' (s.assign name x) v
  act {w : W} {s : Stack} {v : World} {op : Operation} {fuel : Nat} {e : Effect} : I.holds w s v →
    op.perform fuel v = some (.ok e) → I.holds w s e.world
  refuse {w : W} {s : Stack} {v : World} {op : Operation} {fuel : Nat} {err : WorldError} : I.holds w s v →
    op.perform fuel v = some (.error err) → I.cause (.world err)
  enter {w : W} {s : Stack} {v : World} {f : Function} (callLine : Int) {bound : List (Param × Cell)} : I.holds w s v →
    I.function f → (∀ b ∈ bound, I.cell w b.2) →
      ∃ w₁, I.holds w₁ (s.enter f callLine bound) v ∧ (∀ n ∈ f.body.children, I.statement w₁ n) ∧
        (∀ b ∈ bound, I.cell w₁ b.2) ∧
        ∀ w₂ s' v', I.later w₁ w₂ → I.holds w₂ s' v' → ∃ w₃, I.later w w₃ ∧ I.holds w₃ s'.leave v'

variable {I}

theorem forall₂_diagonal {α : Type} {P : α → Prop} {l l' : List α} :
    List.Forall₂ (fun a b => b = a ∧ P a) l l' ↔ l' = l ∧ ∀ a ∈ l, P a := by
  induction l generalizing l' with
  | nil => simp [List.forall₂_nil_left_iff]
  | cons a l ih =>
      rw [List.forall₂_cons_left_iff]
      constructor
      · rintro ⟨b, l', ⟨rfl, ha⟩, hl, rfl⟩
        obtain ⟨rfl, hl⟩ := ih.1 hl
        exact ⟨rfl, List.forall_mem_cons.2 ⟨ha, hl⟩⟩
      · rintro ⟨rfl, h⟩
        obtain ⟨ha, hl⟩ := List.forall_mem_cons.1 h
        exact ⟨a, l, ⟨rfl, ha⟩, ih.2 ⟨rfl, hl⟩, rfl⟩

theorem bound_iff {p : Option Program} {f : Function} {w : W} {bound bound' : List (Param × Cell)} :
    (I.toSimulation p).bound f w bound bound' ↔ bound' = bound ∧ ∀ b ∈ bound, I.cell w b.2 := by
  have hbound : (I.toSimulation p).bound f w bound bound' ↔
      List.Forall₂ (fun b b' => b' = b ∧ I.cell w b.2) bound bound' := by
    simp only [Simulation.bound, toSimulation, Prod.ext_iff, and_assoc]
  rw [hbound, forall₂_diagonal]

namespace Lawful

variable {p : Option Program}

theorem simulation (hI : I.Lawful p) : (I.toSimulation p).Lawful where
  refl := hI.refl
  trans := hI.trans
  cell_later h hc := ⟨hc.1, hI.cell_later h hc.2⟩
  target_later h hx := ⟨hx.1, hI.writes_later h hx.2⟩
  expression_later h hn := ⟨hn.1, hI.expression_later h hn.2⟩
  statement_later h hn := ⟨hn.1, hI.statement_later h hn.2⟩
  expression_form := by
    rintro w n n' ⟨rfl, hn⟩
    exact hI.expression_form hn
  statement_form := by
    rintro w n n' ⟨rfl, hn⟩
    exact hI.statement_form hn
  expression_line := by
    rintro w n n' ⟨rfl, -⟩
    rfl
  statement_line := by
    rintro w n n' ⟨rfl, -⟩
    rfl
  function_name := by
    rintro f f' ⟨rfl, -⟩
    rfl
  function_params := by
    rintro f f' ⟨rfl, -⟩
    exact List.forall₂_same.2 fun _ _ => rfl
  param_byRef := by
    rintro f p p' rfl
    rfl
  value_boolean := hI.value_boolean
  value_ofInt := hI.value_ofInt
  value_ofFloat := hI.value_ofFloat
  value_ofToken := hI.value_ofToken
  ordinary hc _ _ := ⟨rfl, hI.ordinary hc⟩
  locate := by
    rintro w m m' e e' ⟨rfl, -⟩ ⟨rfl, he⟩ w'
    exact ⟨rfl, (cause_locate m' e').symm ▸ he⟩
  overflow := by
    rintro w e e' ⟨rfl, he⟩
    exact ⟨Iff.rfl, fun _ _ => ⟨rfl, he⟩⟩
  machine_line := by
    rintro w m m' ⟨rfl, -⟩
    rfl
  machine_depth := by
    rintro w m m' ⟨rfl, -⟩
    rfl
  machine_world := by
    rintro w m m' ⟨rfl, -⟩
    rfl
  machine_options := by
    rintro w m m' ⟨rfl, -⟩
    rfl
  content := by
    rintro w m m' c c' ⟨rfl, -, hm⟩ ⟨rfl, hc⟩
    exact ⟨rfl, hI.content hm hc⟩
  setLine := by
    rintro w m m' l l' ⟨rfl, hm⟩ rfl
    exact ⟨rfl, hm⟩
  wrote := by
    rintro w m m' text ⟨rfl, hm⟩
    exact ⟨rfl, hm⟩
  nextToken := by
    rintro w m m' ⟨rfl, hm⟩
    unfold Eval.nextToken
    split
    · exact .failed ⟨w, ⟨rfl, hI.ordinary rfl⟩, hI.refl w, rfl, hm⟩
    · exact .done ⟨w, hI.refl w, ⟨rfl, hm⟩, rfl⟩
  lookup := by
    rintro w name m m' ⟨rfl, hp, hm⟩
    unfold Eval.function
    split
    · rename_i hnone
      exact .failed ⟨w, ⟨rfl, hI.noFunctions (hp.symm.trans hnone)⟩, hI.refl w, rfl, hp, hm⟩
    · rename_i q hq
      split
      · rename_i f hf
        exact .done ⟨w, hI.refl w, ⟨rfl, hp, hm⟩, rfl, hI.function (hp.symm.trans hq) hf⟩
      · exact .failed ⟨w, ⟨rfl, hI.ordinary rfl⟩, hI.refl w, rfl, hp, hm⟩
  variableCell := by
    rintro w x x' ⟨rfl, hreads⟩ m m' ⟨rfl, hp, hm⟩
    unfold Eval.variableCell
    cases hcell : m'.stack.cell x' with
    | ok c =>
        obtain ⟨w', hw', hm', hc⟩ := hI.variableCell hm hreads hcell
        exact .done ⟨w', hw', ⟨rfl, hp, hm'⟩, rfl, hc⟩
    | error e =>
        refine .failed ⟨w, ⟨rfl, ?_⟩, hI.refl w, rfl, hp, hm⟩
        rcases Stack.cell_error hcell with ⟨hframes, rfl⟩ | rfl
        · exact hI.active hm (.inl hreads) hframes
        · exact hI.ordinary rfl
  alloc := by
    rintro w x hx m m' ⟨rfl, hp, hm⟩
    obtain ⟨w', hw', hm', hc⟩ := hI.alloc hm hx
    exact .done ⟨w', hw', ⟨rfl, hp, hm'⟩, rfl, hc⟩
  assign := by
    rintro w x x' v ⟨rfl, hwrites⟩ hv m m' ⟨rfl, hp, hm⟩
    unfold Eval.assign
    cases hframes : m'.stack.frames with
    | nil => exact .failed ⟨w, ⟨rfl, hI.active hm (.inr hwrites) hframes⟩, hI.refl w, rfl, hp, hm⟩
    | cons f outer =>
        obtain ⟨w', hw', hm'⟩ := hI.assign x' hm hwrites hv (by simp [hframes])
        exact .done ⟨w', hw', ⟨rfl, hp, hm'⟩, rfl⟩
  act := by
    rintro w m m' op fuel e lines ⟨rfl, hp, hm⟩ hop
    exact ⟨rfl, hp, hI.act hm hop⟩
  refuse := by
    rintro w m m' op fuel err ⟨rfl, hp, hm⟩ hop w'
    exact ⟨rfl, hI.refuse hm hop⟩
  tellCall := by
    rintro w m m' f f' l l' bound bound' depth ⟨rfl, hm⟩ ⟨rfl, -⟩ rfl hbound
    obtain ⟨rfl, -⟩ := bound_iff.1 hbound
    exact ⟨rfl, hm⟩
  tellReturn := by
    rintro w m m' f f' v bound bound' depth ⟨rfl, hm⟩ ⟨rfl, -⟩ - hbound
    obtain ⟨rfl, -⟩ := bound_iff.1 hbound
    exact ⟨rfl, hm⟩
  enter := by
    rintro w m m' f f' l l' bound bound' ⟨rfl, hp, hm⟩ ⟨rfl, hf⟩ rfl hbound
    obtain ⟨rfl, hbound⟩ := bound_iff.1 hbound
    obtain ⟨w₁, hm₁, hbody, hbound₁, hleave⟩ := hI.enter l' hm hf hbound
    refine ⟨w₁, ⟨rfl, hp, hm₁⟩, forall₂_diagonal.2 ⟨rfl, hbody⟩, bound_iff.2 ⟨rfl, hbound₁⟩, ?_⟩
    rintro w₂ n n' hw₂ ⟨rfl, hpn, hn⟩
    obtain ⟨w₃, hw₃, hn₃⟩ := hleave w₂ _ _ hw₂ hn
    exact ⟨w₃, hw₃, rfl, hpn, hn₃⟩

end Lawful

end Invariant

end Rover
