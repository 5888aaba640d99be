import Mathlib.Order.Filter.AtTopBot.Basic
import Rover.Proofs.Invariant
import Rover.Proofs.Rewriting

/-!
# Computations that match

Two machines match if they differ in nothing but lines and in that their programs are variants of each other. A computation
is matched by another one if, from matching machines on, it ends as the other does with all large amounts of fuel
(`MatchedBy`). The fuel of the two need not be the same: this is what allows a rewrite to change how deep a run nests.
-/

namespace Rover

open Filter (atTop)

/-- The event without the line where it happened. -/
def Event.unlined : Event → Event
  | .called name bindings _ depth isEntry => .called name bindings 0 depth isEntry
  | .returned name result refs _ depth => .returned name result refs 0 depth
  | e => e

@[simp] theorem Event.output_unlined (narrate : Bool) (e : Event) : e.unlined.output narrate = e.output narrate := by
  cases e <;> rfl

/-- Records that differ in the line of the caller only. -/
structure Frame.Matches (f f' : Frame) : Prop where
  name_eq : f'.name = f.name
  slots_eq : f'.slots = f.slots

namespace Frame

theorem Matches.refl (f : Frame) : f.Matches f := ⟨rfl, rfl⟩

variable {f f' : Frame}

theorem Matches.cell?_eq (h : f.Matches f') (x : String) : f'.cell? x = f.cell? x := by
  rw [cell?, cell?, h.slots_eq]

theorem Matches.bind (h : f.Matches f') (x : String) (c : Cell) : (f.bind x c).Matches (f'.bind x c) :=
  ⟨h.name_eq, congrArg (bindTo x c) h.slots_eq⟩

theorem Matches.foldl_bind (h : f.Matches f') (bound : List (Param × Cell)) :
    (bound.foldl (fun frame b => frame.bind b.1.name b.2) f).Matches
      (bound.foldl (fun frame b => frame.bind b.1.name b.2) f') := by
  induction bound generalizing f f' with
  | nil => exact h
  | cons b bound ih => exact ih (h.bind b.1.name b.2)

end Frame

/-- Machines that differ in lines and by rewrites of the program only. -/
structure Machine.Matches (m m' : Machine) : Prop where
  program : ∃ p p', m.program = some p ∧ m'.program = some p' ∧ p.Variant p'
  frames : List.Forall₂ Frame.Matches m.stack.frames m'.stack.frames
  cells : m'.stack.cells = m.stack.cells
  world : m'.world = m.world
  input : m'.input = m.input
  events : m'.events.toList.map Event.unlined = m.events.toList.map Event.unlined
  options : m'.options = m.options

/-- Outcomes of one kind, with the same answer or the same cause, on machines that match. -/
def Outcome.Matches {α : Type} : Outcome α → Outcome α → Prop :=
  Outcome.Alike (fun a a' m m' => a' = a ∧ m.Matches m') fun e e' m m' => e'.cause = e.cause ∧ m.Matches m'

/-- From matching machines on, the second computation ends as the first one does, if it ends, with all large amounts of
fuel. -/
def MatchedBy {α : Type} (x : Eval α) (x' : Nat → Eval α) : Prop :=
  ∀ m m', m.Matches m' → x m ≠ .unfinished → ∃ o, (x m).Matches o ∧ ∀ᶠ fuel in atTop, x' fuel m' = o

/-! ### Steps of a machine -/

namespace Machine.Matches

variable {m m' : Machine} (h : m.Matches m')

include h

theorem setLine (l l' : Int) : Machine.Matches { m with line := l } { m' with line := l' } :=
  ⟨h.program, h.frames, h.cells, h.world, h.input, h.events, h.options⟩

theorem emit {e e' : Event} (he : e'.unlined = e.unlined) : (m.emit e).Matches (m'.emit e') := by
  refine ⟨h.program, h.frames, h.cells, h.world, h.input, ?_, h.options⟩
  simp only [Machine.emit, Array.toList_push, List.map_append, h.events, List.map_singleton, he]

theorem setStack {frames frames' : List Frame} (cells : Array Value) (hframes : List.Forall₂ Frame.Matches frames frames') :
    Machine.Matches { m with stack := ⟨frames, cells⟩ } { m' with stack := ⟨frames', cells⟩ } :=
  ⟨h.program, hframes, rfl, h.world, h.input, h.events, h.options⟩

theorem depth_eq : m'.stack.depth = m.stack.depth := h.frames.length_eq.symm

theorem content_eq (c : Cell) : m'.stack.content c = m.stack.content c := by
  rw [Stack.content, Stack.content, h.cells]

theorem cell_eq (x : String) : m'.stack.cell x = m.stack.cell x := by
  have hframes := h.frames
  unfold Stack.cell Stack.top
  generalize m.stack.frames = fs at hframes ⊢
  generalize m'.stack.frames = fs' at hframes ⊢
  cases hframes with
  | nil => rfl
  | cons hf _ =>
      dsimp only [bind, Except.bind]
      rw [hf.cell?_eq]

theorem assign (x : String) (v : Value) :
    Machine.Matches { m with stack := m.stack.assign x v } { m' with stack := m'.stack.assign x v } := by
  have hframes := h.frames
  have hcells := h.cells
  generalize m.stack = s at hframes hcells ⊢
  generalize m'.stack = s' at hframes hcells ⊢
  obtain ⟨frames, cells⟩ := s
  obtain ⟨frames', cells'⟩ := s'
  cases hcells
  cases hframes with
  | nil => exact h.setStack cells .nil
  | cons hf houter =>
      unfold Stack.assign
      dsimp only
      rw [hf.cell?_eq]
      split
      · exact h.setStack _ (.cons hf houter)
      · exact h.setStack _ (.cons (hf.bind x _) houter)

theorem bindings_eq (bound : List (Param × Cell)) : m'.bindings bound = m.bindings bound := by
  simp only [Machine.bindings, h.content_eq]

theorem tellCall {f f' : Function} (hf : f.Variant f') (l l' : Int) (depth : Nat) (bound : List (Param × Cell)) :
    (m.tellCall f l depth bound).Matches (m'.tellCall f' l' depth bound) := by
  refine h.emit ?_
  rw [h.bindings_eq, hf.name_eq, Event.unlined, Event.unlined]

theorem tellReturn {f f' : Function} (hf : f.Variant f') (v : Value) (depth : Nat) (bound : List (Param × Cell)) :
    (m.tellReturn f v depth bound).Matches (m'.tellReturn f' v depth bound) := by
  refine h.emit ?_
  rw [h.bindings_eq, hf.name_eq, Event.unlined, Event.unlined]

theorem enter {f f' : Function} (hf : f.Variant f') (l l' : Int) (bound : List (Param × Cell)) :
    (m.enter f l bound).Matches (m'.enter f' l' bound) := by
  have hframe : Frame.Matches ⟨f.name, l, []⟩ ⟨f'.name, l', []⟩ := ⟨hf.name_eq, rfl⟩
  exact ⟨h.program, .cons (hframe.foldl_bind bound) h.frames, h.cells, h.world, h.input, h.events, h.options⟩

theorem leave : m.leave.Matches m'.leave := by
  refine ⟨h.program, ?_, h.cells, h.world, h.input, h.events, h.options⟩
  rw [Machine.frames_leave, Machine.frames_leave]
  exact List.forall₂_drop 1 h.frames

end Machine.Matches

/-! ### Computations -/

namespace Eval

variable {α β γ : Type}

theorem bind_pure (x : Eval α) : x >>= Pure.pure = x := by
  funext m
  cases h : x m with
  | done a n => exact bind_of_done h
  | failed e n => exact bind_of_failed h
  | unfinished => exact bind_of_unfinished h

theorem bind_assoc (x : Eval α) (f : α → Eval β) (g : β → Eval γ) : x >>= f >>= g = x >>= fun a => f a >>= g := by
  funext m
  change Eval.bind (Eval.bind x f) g m = Eval.bind x (fun a => Eval.bind (f a) g) m
  unfold Eval.bind
  cases x m <;> rfl

/-- The second computation, unless the first one returns. -/
def next (x y : Eval (Option Value)) : Eval (Option Value) := do
  match ← x with
  | some v => return some v
  | none => y

theorem next_assoc (x y z : Eval (Option Value)) : (x.next y).next z = x.next (y.next z) := by
  unfold next
  rw [bind_assoc]
  congr 1
  funext r
  cases r <;> rfl

theorem next_pure (x : Eval (Option Value)) : x.next (Pure.pure none) = x := by
  refine Eq.trans (congrArg (x >>= ·) (funext fun r => ?_)) (bind_pure x)
  cases r <;> rfl

end Eval

namespace World

/-- A movement that ends within some fuel ends alike with more. -/
theorem advance_of_le {w : World} {cos sin direction : Float} {fuel k : Nat} {remaining x y : Float} {steps : Nat}
    {r : Except WorldError Motion} (h : w.advance cos sin direction fuel remaining x y steps = some r) (hle : fuel ≤ k) :
    w.advance cos sin direction k remaining x y steps = some r := by
  induction fuel generalizing k remaining x y steps with
  | zero => cases h
  | succ fuel ih =>
      cases k with
      | zero => cases hle
      | succ k =>
          rw [advance] at h ⊢
          by_cases hremaining : remaining > 0.0
          · simp only [if_pos hremaining] at h ⊢
            split at h
            · exact h
            · exact h
            · exact ih h (Nat.le_of_succ_le_succ hle)
          · rw [if_neg hremaining] at h ⊢
            exact h

theorem move_of_le {w : World} {fuel k : Nat} {distance : Float} {r : Except WorldError (Change Unit)}
    (h : w.move fuel distance = some r) (hle : fuel ≤ k) : w.move k distance = some r := by
  unfold move at h ⊢
  by_cases hpositioned : w.positioned = true
  · rw [if_pos hpositioned] at h ⊢
    cases hbearing : bearing w.pose.heading with
    | error e =>
        rw [hbearing] at h
        exact h
    | ok turn =>
        rw [hbearing] at h
        obtain ⟨motion, hmotion, rfl⟩ := Option.map_eq_some_iff.1 h
        exact Option.map_eq_some_iff.2 ⟨motion, advance_of_le hmotion hle, rfl⟩
  · rw [if_neg hpositioned] at h ⊢
    exact h

end World

/-! ### Matching step by step -/

namespace MatchedBy

variable {α β : Type} {x : Eval α} {x' : Nat → Eval α}

theorem of_matches {y : Eval α} (h : ∀ m m', m.Matches m' → (x m).Matches (y m')) : MatchedBy x fun _ => y :=
  fun m m' hm _ => ⟨y m', h m m' hm, .of_forall fun _ => rfl⟩

theorem of_unfinished (h : ∀ m, x m = .unfinished) : MatchedBy x x' :=
  fun m _ _ hends => absurd (h m) hends

protected theorem pure (a : α) : MatchedBy (pure a) fun _ => pure a :=
  of_matches fun _ _ hm => .done ⟨rfl, hm⟩

protected theorem fail (c : Cause) : MatchedBy (Eval.fail c : Eval α) fun _ => Eval.fail c :=
  of_matches fun _ _ hm => .failed ⟨rfl, hm⟩

protected theorem ofExcept {ε : Type} {cause : ε → Cause} (r : Except ε α) :
    MatchedBy (Eval.ofExcept cause r) fun _ => Eval.ofExcept cause r := by
  cases r with
  | error e => exact .fail (cause e)
  | ok a => exact .pure a

/-- Only large amounts of fuel count. -/
theorem shift (n : Nat) (h : MatchedBy x fun fuel => x' (fuel + n)) : MatchedBy x x' := by
  intro m m' hm hends
  obtain ⟨o, ho, hx⟩ := h m m' hm hends
  refine ⟨o, ho, ?_⟩
  rw [← Filter.map_add_atTop_eq_nat n]
  exact hx

theorem later (n : Nat) (h : MatchedBy x x') : MatchedBy x fun fuel => x' (fuel + n) := by
  intro m m' hm hends
  obtain ⟨o, ho, hx⟩ := h m m' hm hends
  exact ⟨o, ho, (Filter.tendsto_add_atTop_nat n).eventually hx⟩

/-- What follows has to be matched only after the answers that there may be. -/
theorem bind_of_done {f : α → Eval β} {f' : Nat → α → Eval β} (hx : MatchedBy x x')
    (hf : ∀ m a n, x m = .done a n → MatchedBy (f a) fun fuel => f' fuel a) :
    MatchedBy (x >>= f) fun fuel => x' fuel >>= f' fuel := by
  intro m m' hm hends
  have hfirst : x m ≠ .unfinished := fun h => hends (Eval.bind_of_unfinished h)
  obtain ⟨o, ho, hx'⟩ := hx m m' hm hfirst
  cases h : x m with
  | unfinished => exact absurd h hfirst
  | failed e n =>
      rw [h] at ho
      cases ho with
      | failed he =>
          rw [Eval.bind_of_failed h]
          exact ⟨_, .failed he, hx'.mono fun _ => Eval.bind_of_failed⟩
  | done a n =>
      rw [h] at ho
      cases ho with
      | @done _ a' _ n' ha =>
          obtain ⟨rfl, hn⟩ := ha
          rw [Eval.bind_of_done h] at hends ⊢
          obtain ⟨o, ho, hf'⟩ := hf m a' n h n n' hn hends
          refine ⟨o, ho, ?_⟩
          filter_upwards [hx', hf'] with fuel hdone hrest
          rw [Eval.bind_of_done hdone, hrest]

protected theorem bind {f : α → Eval β} {f' : Nat → α → Eval β} (hx : MatchedBy x x')
    (hf : ∀ a, MatchedBy (f a) fun fuel => f' fuel a) : MatchedBy (x >>= f) fun fuel => x' fuel >>= f' fuel :=
  hx.bind_of_done fun _ a _ _ => hf a

/-- A value that has to be a truth value. -/
theorem test {x : Eval Value} {x' : Nat → Eval Value} {f : Value → Bool → Eval β} {f' : Nat → Value → Bool → Eval β}
    (hx : MatchedBy x x') (hf : ∀ v b, MatchedBy (f v b) fun fuel => f' fuel v b) :
    MatchedBy (x >>= fun v => Eval.ofExcept id v.asBoolean >>= f v)
      fun fuel => x' fuel >>= fun v => Eval.ofExcept id v.asBoolean >>= f' fuel v :=
  hx.bind fun v => (MatchedBy.ofExcept v.asBoolean).bind (hf v)

theorem setLine (l l' : Int) : MatchedBy (Eval.setLine l) fun _ => Eval.setLine l' :=
  of_matches fun _ _ hm => .done ⟨rfl, hm.setLine l l'⟩

theorem setLine_left (l : Int) (h : MatchedBy x x') : MatchedBy (Eval.setLine l >>= fun _ => x) x' :=
  fun _ m' hm hends => h _ m' (hm.setLine l m'.line) hends

theorem setLine_right (l : Int) (h : MatchedBy x x') : MatchedBy x fun fuel => Eval.setLine l >>= fun _ => x' fuel :=
  fun m _ hm hends => h m _ (hm.setLine m.line l) hends

theorem atLine_left (l : Int) (h : MatchedBy x x') : MatchedBy (Eval.atLine l x) x' := by
  intro m m' hm hends
  have hback : MatchedBy (x >>= fun a => Eval.setLine m.line >>= fun _ => pure a) fun fuel => x' fuel >>= pure :=
    h.bind fun a => setLine_left m.line (.pure a)
  simp only [Eval.bind_pure] at hback
  exact hback _ m' (hm.setLine l m'.line) hends

theorem atLine_right (l : Int) (h : MatchedBy x x') : MatchedBy x fun fuel => Eval.atLine l (x' fuel) := by
  intro m m' hm hends
  have hback : MatchedBy (x >>= pure) fun fuel => x' fuel >>= fun a => Eval.setLine m'.line >>= fun _ => pure a :=
    h.bind fun a => setLine_right m'.line (.pure a)
  rw [Eval.bind_pure] at hback
  exact hback m _ (hm.setLine m.line l) hends

/-- What follows a computation that may return. -/
theorem next {x y : Eval (Option Value)} {x' y' : Nat → Eval (Option Value)} (hx : MatchedBy x x') (hy : MatchedBy y y') :
    MatchedBy (x.next y) fun fuel => (x' fuel).next (y' fuel) := by
  refine hx.bind fun r => ?_
  cases r with
  | none => exact hy
  | some v => exact .pure (some v)

/-- Nothing that follows a return is run. -/
theorem next_of_returns {x y : Eval (Option Value)} {x' : Nat → Eval (Option Value)} (hx : MatchedBy x x')
    (hreturns : ∀ m n, x m ≠ .done none n) (y' : Nat → Eval (Option Value)) :
    MatchedBy (x.next y) fun fuel => (x' fuel).next (y' fuel) := by
  refine hx.bind_of_done fun m r n hr => ?_
  cases r with
  | none => exact absurd hr (hreturns m n)
  | some v => exact .pure (some v)

/-! ### Variables, input and output -/

theorem write (text : String) : MatchedBy (Eval.emit (.wrote text)) fun _ => Eval.emit (.wrote text) :=
  of_matches fun _ _ hm => .done ⟨rfl, hm.emit rfl⟩

theorem variableValue (name : String) : MatchedBy (Eval.variableValue name) fun _ => Eval.variableValue name := by
  refine of_matches fun m m' hm => ?_
  unfold Eval.variableValue Stack.get
  rw [hm.cell_eq]
  cases m.stack.cell name with
  | error e => exact .failed ⟨rfl, hm⟩
  | ok c => exact .done ⟨hm.content_eq c, hm⟩

theorem variableCell (name : String) : MatchedBy (Eval.variableCell name) fun _ => Eval.variableCell name := by
  refine of_matches fun m m' hm => ?_
  unfold Eval.variableCell
  rw [hm.cell_eq]
  cases m.stack.cell name with
  | error e => exact .failed ⟨rfl, hm⟩
  | ok c => exact .done ⟨rfl, hm⟩

theorem assign (name : String) (v : Value) : MatchedBy (Eval.assign name v) fun _ => Eval.assign name v := by
  refine of_matches fun m m' hm => ?_
  have hassign := hm.assign name v
  have hframes := hm.frames
  unfold Eval.assign
  generalize m.stack.frames = fs at hframes ⊢
  generalize m'.stack.frames = fs' at hframes ⊢
  cases hframes with
  | nil => exact .failed ⟨rfl, hm⟩
  | cons => exact .done ⟨rfl, hassign⟩

theorem alloc (v : Value) : MatchedBy (Eval.alloc v) fun _ => Eval.alloc v := by
  refine of_matches fun m m' hm => ?_
  unfold Eval.alloc Stack.alloc
  rw [hm.cells]
  exact .done ⟨rfl, hm.setStack _ hm.frames⟩

theorem nextToken : MatchedBy Eval.nextToken fun _ => Eval.nextToken := by
  refine of_matches fun m m' hm => ?_
  obtain ⟨hinput, hnext⟩ := Eval.nextToken_of_input_eq hm.input
  have htaken : m.taken.Matches m'.taken := ⟨hm.program, hm.frames, hm.cells, hm.world, hinput, hm.events, hm.options⟩
  rcases hnext with ⟨hnone, hnone'⟩ | ⟨token, htoken, htoken'⟩
  · rw [hnone, hnone']
    exact .failed ⟨rfl, htaken⟩
  · rw [htoken, htoken']
    exact .done ⟨rfl, htaken⟩

/-- Matching machines find variants of one function. -/
theorem function {name : String} {f : Function → Eval β} {f' : Nat → Function → Eval β}
    (hf : ∀ g g', g.Variant g' → MatchedBy (f g) fun fuel => f' fuel g') :
    MatchedBy (Eval.function name >>= f) fun fuel => Eval.function name >>= f' fuel := by
  intro m m' hm hends
  obtain ⟨p, p', hp, hp', hvariant⟩ := hm.program
  have hget := hvariant.get? name
  cases h : p.get? name with
  | none =>
      cases h' : p'.get? name with
      | some g' =>
          rw [h, h'] at hget
          cases hget
      | none =>
          have hfailed : Eval.function name m = .failed (.bare (.undeclaredFunction name)) m := by
            simp only [Eval.function, hp, h]
          have hfailed' : Eval.function name m' = .failed (.bare (.undeclaredFunction name)) m' := by
            simp only [Eval.function, hp', h']
          rw [Eval.bind_of_failed hfailed]
          exact ⟨_, .failed ⟨rfl, hm⟩, .of_forall fun _ => Eval.bind_of_failed hfailed'⟩
  | some g =>
      cases h' : p'.get? name with
      | none =>
          rw [h, h'] at hget
          cases hget
      | some g' =>
          have hfound : Eval.function name m = .done g m := by
            simp only [Eval.function, hp, h]
          have hfound' : Eval.function name m' = .done g' m' := by
            simp only [Eval.function, hp', h']
          rw [h, h', Option.rel_some_some] at hget
          rw [Eval.bind_of_done hfound] at hends ⊢
          obtain ⟨o, ho, hf'⟩ := hf g g' hget m m' hm hends
          exact ⟨o, ho, hf'.mono fun _ h => (Eval.bind_of_done hfound').trans h⟩

/-! ### Robot operations -/

theorem ask (question : World → Except WorldError α) : MatchedBy (Eval.ask question) fun _ => Eval.ask question := by
  refine of_matches fun m m' hm => ?_
  unfold Eval.ask
  rw [hm.world]
  cases question m.world with
  | error e => exact .failed ⟨rfl, hm⟩
  | ok a => exact .done ⟨rfl, hm⟩

theorem world (operation : World → Except WorldError (Change α)) (narrate : α → World → List String) :
    MatchedBy (Eval.world operation narrate) fun _ => Eval.world operation narrate := by
  refine of_matches fun m m' hm => ?_
  unfold Eval.world
  rw [hm.world]
  cases operation m.world with
  | error e => exact .failed ⟨rfl, hm⟩
  | ok c =>
      refine .done ⟨rfl, hm.program, hm.frames, hm.cells, rfl, hm.input, ?_, hm.options⟩
      simp [hm.events]

theorem precheck (b : Builtin) (count : Nat) : MatchedBy (b.precheck count) fun _ => b.precheck count := by
  unfold Builtin.precheck
  dsimp only
  split_ifs
  · exact (MatchedBy.ask _).bind fun _ => .fail _
  · exact (MatchedBy.ask _).bind fun _ => .pure ()
  · exact .fail _
  · exact .pure ()

theorem performMove (fuel : Nat) (distance : Float) :
    MatchedBy (Builtin.performMove fuel distance) fun k => Builtin.performMove k distance := by
  intro m m' hm hends
  have hperform (k : Nat) (n : Machine) (r : Except WorldError (Change Unit)) (h : n.world.move k distance = some r) :
      Builtin.performMove k distance n =
        (Eval.world (fun _ => r) (fun _ w => Narration.moved w) >>= fun _ => pure Value.void) n := by
    rw [Builtin.performMove, h]
    rfl
  cases hmove : m.world.move fuel distance with
  | none =>
      rw [Builtin.performMove, hmove] at hends
      exact absurd rfl hends
  | some r =>
      rw [hperform fuel m r hmove] at hends ⊢
      obtain ⟨o, ho, hstep⟩ := (MatchedBy.world _ _).bind (fun _ => .pure Value.void) m m' hm hends
      refine ⟨o, ho, ?_⟩
      filter_upwards [hstep, Filter.eventually_ge_atTop fuel] with k hk hle
      rw [hperform k m' r (hm.world ▸ World.move_of_le hmove hle), hk]

theorem perform (fuel : Nat) (b : Builtin) (values : List Value) :
    MatchedBy (b.perform fuel values) fun k => b.perform k values := by
  have hvoid {x : Eval Unit} (hx : MatchedBy x fun _ => x) :
      MatchedBy (x >>= fun _ => pure Value.void) fun _ => x >>= fun _ => pure Value.void :=
    hx.bind fun _ => .pure _
  unfold Builtin.perform
  split
  · exact hvoid (world _ _)
  · exact performMove fuel _
  · exact hvoid (world _ _)
  · exact hvoid (world _ _)
  · exact hvoid (world _ _)
  · exact (ask _).bind fun _ => .pure _
  · exact (ask _).bind fun _ => .pure _
  · exact (ask _).bind fun _ => .pure _
  · exact (ask _).bind fun _ => .pure _
  · exact .fail _

end MatchedBy

end Rover
