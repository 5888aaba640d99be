import Rover.Display
import Rover.Proofs.Congruence
import Rover.Proofs.History
import Rover.Session

/-!
# What runs do to the world

A run changes the world only by its operations, and what it tells about the world is what these operations tell. This
is one case of a general fact: a relation between machines that every primitive step keeps is kept by every run
(`Stable.runsKeep`).
-/

namespace Rover

/-- The machine that an outcome leaves, if there is one, has a property. -/
def Outcome.Leaves {α : Type} (P : Machine → Prop) : Outcome α → Prop
  | .done _ m => P m
  | .failed _ m => P m
  | .unfinished => True

/-- Room for a hundred calls, and nobody who watches. -/
def Options.unobserved : Options := { limit := 100 }

/-- Events that a program tells of by itself, without a robot operation. -/
def Event.ofProgram : Event → Bool
  | .wrote _ => true
  | .called _ _ _ _ _ => true
  | .returned _ _ _ _ _ => true
  | _ => false

/-- A relation that the primitive steps of a run keep. -/
structure Stable (R : Machine → Machine → Prop) : Prop where
  refl (m : Machine) : R m m
  trans {a b c : Machine} : R a b → R b c → R a c
  line (m : Machine) (line : Int) : R m { m with line }
  stack (m : Machine) {stack : Stack} : stack.depth = m.stack.depth → R m { m with stack }
  /-- A body runs in a record of its own, which is taken away at its end. -/
  record {m m' : Machine} {name : String} {line : Int} {f : Frame} {stack : Stack} :
    R { m with stack := m.stack.push name line } m' → m'.stack.pop = .ok (f, stack) → R m { m' with stack }
  orphan {m m' : Machine} {name : String} {line : Int} {e : StackError} :
    R { m with stack := m.stack.push name line } m' → m'.stack.pop = .error e → R m m'
  reader (m : Machine) : R m { m with reader := m.reader.next.2 }
  emit (m : Machine) {e : Event} : e.ofProgram = true → R m (m.emit e)
  world (m : Machine) {op : Operation} {fuel : Nat} {e : Effect} (lines : List String) :
    op.perform fuel m.world = some (.ok e) →
      R m (m.act e.world e.events lines)

namespace Stack

theorem depth_assign (s : Stack) (name : String) (v : Value) : (s.assign name v).depth = s.depth := by
  obtain ⟨frames, cells⟩ := s
  cases frames with
  | nil => rfl
  | cons f outer =>
      unfold assign
      dsimp only
      split <;> rfl

theorem depth_bindAll {bound : List (Param × Cell)} {s s' : Stack}
    (h : bound.foldlM (fun (s : Stack) (p, c) => s.bind p.name c) s = Except.ok s') : s'.depth = s.depth := by
  induction bound generalizing s with
  | nil =>
      cases h
      rfl
  | cons b bound ih =>
      rw [List.foldlM_cons] at h
      obtain ⟨frames, cells⟩ := s
      cases frames with
      | nil => cases h
      | cons f outer => exact ih (s := ⟨f.bind b.1.name b.2 :: outer, cells⟩) h

theorem depth_of_pop {s s' : Stack} {f : Frame} (h : s.pop = .ok (f, s')) : s.depth = s'.depth + 1 := by
  obtain ⟨frames, cells⟩ := s
  cases frames with
  | nil => cases h
  | cons f outer =>
      cases h
      rfl

theorem depth_of_pop_error {s : Stack} {e : StackError} (h : s.pop = .error e) : s.depth = 0 := by
  obtain ⟨frames, cells⟩ := s
  cases frames with
  | nil => rfl
  | cons f outer => cases h

end Stack

namespace Eval

/-- Wherever the computation ends, it has kept the relation. -/
def Keeps (R : Machine → Machine → Prop) {α : Type} (x : Eval α) : Prop := ∀ m, (x m).Leaves (R m)

theorem leaves_bind {R : Machine → Machine → Prop} (htrans : ∀ {a b c : Machine}, R a b → R b c → R a c) {α β : Type}
    {x : Eval α} {f : α → Eval β} {m : Machine} (hx : (x m).Leaves (R m)) (hf : ∀ a, Keeps R (f a)) :
    ((x >>= f) m).Leaves (R m) := by
  change (Eval.bind x f m).Leaves (R m)
  unfold Eval.bind
  cases hrun : x m with
  | unfinished => trivial
  | failed fault m' =>
      rw [hrun] at hx
      exact hx
  | done a m' =>
      rw [hrun] at hx
      have hrest := hf a m'
      dsimp only
      cases hnext : f a m' with
      | unfinished => trivial
      | failed fault m'' =>
          rw [hnext] at hrest
          exact htrans hx hrest
      | done b m'' =>
          rw [hnext] at hrest
          exact htrans hx hrest

end Eval

namespace Stable

open Eval (Keeps)

variable {R : Machine → Machine → Prop} (hR : Stable R) {α β : Type}

include hR

theorem pure (a : α) : Keeps R (Pure.pure a : Eval α) := hR.refl

theorem fail (cause : Cause) : Keeps R (Eval.fail cause : Eval α) := hR.refl

theorem bindAt {x : Eval α} {f : α → Eval β} {m : Machine} (hx : (x m).Leaves (R m)) (hf : ∀ a, Keeps R (f a)) :
    ((x >>= f) m).Leaves (R m) :=
  Eval.leaves_bind (R := R) hR.trans hx hf

theorem bind {x : Eval α} {f : α → Eval β} (hx : Keeps R x) (hf : ∀ a, Keeps R (f a)) : Keeps R (x >>= f) :=
  fun m => hR.bindAt (hx m) hf

theorem guard {c : Prop} [Decidable c] {cause : Cause} {x : Unit → Eval α} (hx : Keeps R (x ())) :
    Keeps R (if c then Eval.fail cause >>= x else x ()) := by
  split
  · exact hR.bind (hR.fail cause) fun _ => hx
  · exact hx

/-! ### Primitive steps -/

theorem setLine (line : Int) : Keeps R (Eval.setLine line) := fun m => hR.line m line

theorem exchangeLine (line : Int) : Keeps R (Eval.exchangeLine line) := fun m => hR.line m line

theorem say {e : Event} (he : e.ofProgram = true) : Keeps R (Eval.emit e) := fun m => hR.emit m he

theorem tellCall (depth arity : Nat) {e : Event} (he : e.ofProgram = true) : Keeps R (Eval.tellCall depth arity e) := by
  intro m
  unfold Eval.tellCall
  split
  · exact hR.emit m he
  · exact hR.refl m

theorem needRecord (depth : Nat) : Keeps R (Eval.needRecord depth) := by
  intro m
  unfold Eval.needRecord
  split <;> exact hR.refl m

theorem variableValue (name : String) : Keeps R (Eval.variableValue name) := by
  intro m
  unfold Eval.variableValue
  split <;> exact hR.refl m

theorem variableCell (name : String) : Keeps R (Eval.variableCell name) := by
  intro m
  unfold Eval.variableCell
  split <;> exact hR.refl m

theorem assign (name : String) (v : Value) : Keeps R (Eval.assign name v) := by
  intro m
  unfold Eval.assign
  split
  · exact hR.refl m
  · exact hR.stack m (m.stack.depth_assign name v)

theorem alloc (v : Value) : Keeps R (Eval.alloc v) := fun m => hR.stack m rfl

theorem nextToken : Keeps R Eval.nextToken := by
  intro m
  have hreader := hR.reader m
  unfold Eval.nextToken
  split
  · rename_i hnext
    rw [hnext] at hreader
    exact hreader
  · rename_i hnext
    rw [hnext] at hreader
    exact hreader

theorem bindAll (bound : List (Param × Cell)) : Keeps R (Eval.bindAll bound) := by
  intro m
  unfold Eval.bindAll
  split
  · rename_i hbound
    exact hR.stack m (Stack.depth_bindAll hbound)
  · exact hR.refl m

theorem inFrame {name : String} {line : Int} {x : Eval α} (hx : Keeps R x) : Keeps R (Eval.inFrame name line x) := by
  intro m
  have hbody := hx { m with stack := m.stack.push name line }
  unfold Eval.inFrame
  cases hrun : x { m with stack := m.stack.push name line } with
  | unfinished => trivial
  | failed fault m' =>
      rw [hrun] at hbody
      dsimp only
      split
      · rename_i hpop
        exact hR.record hbody hpop
      · rename_i hpop
        exact hR.orphan hbody hpop
  | done a m' =>
      rw [hrun] at hbody
      dsimp only
      split
      · rename_i hpop
        exact hR.record hbody hpop
      · rename_i hpop
        exact hR.orphan hbody hpop

theorem ask (question : World → Except WorldError α) : Keeps R (Eval.ask question) := by
  intro m
  unfold Eval.ask
  split <;> exact hR.refl m

theorem function (name : String) : Keeps R (Eval.function name) := by
  intro m
  unfold Eval.function
  split
  · exact hR.refl m
  · split <;> exact hR.refl m

/-! ### Robot operations -/

theorem worldStep {γ : Type} {operation : World → Except WorldError (Change γ)} {narrate : γ → World → List String}
    {m : Machine} (op : Operation) (fuel : Nat)
    (hop : op.perform fuel m.world = some ((operation m.world).map Change.effect)) :
    (Eval.world operation narrate m).Leaves (R m) := by
  unfold Eval.world
  cases hc : operation m.world with
  | error e => exact hR.refl m
  | ok c =>
      rw [hc] at hop
      exact hR.world m _ hop

theorem performMove (fuel : Nat) (distance : Float) : Keeps R (Builtin.performMove fuel distance) := by
  intro m
  unfold Builtin.performMove
  cases hmove : m.world.move fuel distance with
  | none => trivial
  | some r =>
      refine hR.bindAt (hR.worldStep (.move distance) fuel ?_) fun _ => hR.pure _
      rw [Operation.perform, hmove, Option.map_some]

theorem perform (fuel : Nat) (b : Builtin) (values : List Value) : Keeps R (b.perform fuel values) := by
  unfold Builtin.perform
  split
  · exact hR.bind (fun m => hR.worldStep (.setPose _ _ _) 0 rfl) fun _ => hR.pure _
  · exact hR.performMove fuel _
  · exact hR.bind (fun m => hR.worldStep (.turn _) 0 rfl) fun _ => hR.pure _
  · exact hR.bind (fun m => hR.worldStep (.addObstacle _ _ _ _) 0 rfl) fun _ => hR.pure _
  · exact hR.bind (fun m => hR.worldStep (.setTrail _) 0 rfl) fun _ => hR.pure _
  · exact hR.bind (hR.ask _) fun _ => hR.pure _
  · exact hR.bind (hR.ask _) fun _ => hR.pure _
  · exact hR.bind (hR.ask _) fun _ => hR.pure _
  · exact hR.bind (hR.ask _) fun _ => hR.pure _
  · exact hR.fail _

/-! ### Runs -/

theorem congruence : Congruence fun x _ => Keeps R x :=
  ⟨hR.pure, hR.fail, hR.bind, hR.exchangeLine, hR.setLine, hR.variableValue, hR.variableCell, hR.assign, hR.alloc,
    hR.nextToken, fun _ => hR.say rfl, hR.ask, hR.function⟩

theorem invokeFunction_step {fuel : Nat} (ih : Related (fun x _ => Keeps R x) fuel fuel) (f : Function)
    (arguments : List Node) : Keeps R (invokeFunction (fuel + 1) f arguments) := by
  have hbindings (bound : List (Param × Cell)) : Keeps R (Eval.bindings bound) := hR.refl
  unfold invokeFunction
  refine hR.guard (hR.bind hR.refl fun (callLine, depth) => ?_)
  refine hR.bind (ih.bindArguments f.params arguments) fun bound => hR.bind (hbindings bound) fun bindings => ?_
  refine hR.bind (hR.tellCall depth _ rfl) fun _ => hR.bind (hR.needRecord depth) fun _ =>
    hR.bind (hR.inFrame ?_) fun result => ?_
  · exact hR.bind (hR.setLine f.line) fun _ => hR.bind (hR.bindAll bound) fun _ =>
      hR.bind (ih.runBlock f.body.children) fun result => hR.bind (hbindings _) fun refs =>
        hR.bind hR.refl fun line => hR.bind (hR.say rfl) fun _ => hR.pure _
  · exact hR.bind (hR.setLine callLine) fun _ => hR.pure _

/-- The functions of the evaluator keep the relation. -/
theorem runsKeep (fuel : Nat) : Related (fun x _ => Keeps R x) fuel fuel := by
  induction fuel with
  | zero => constructor <;> intros <;> intro m <;> trivial
  | succ fuel ih => exact hR.congruence.related_succ ih (hR.perform fuel) (hR.invokeFunction_step ih)

theorem call (fuel : Nat) (name : String) (arguments : List Node) : Keeps R (Machine.call fuel name arguments) := by
  intro m
  have hinvoke := (hR.runsKeep fuel).invoke name arguments m
  unfold Machine.call
  split
  · exact hR.refl m
  · split
    · rename_i fault m' hrun
      rw [hrun] at hinvoke
      exact hinvoke
    · exact hinvoke

end Stable

/-- A run leaves as many records as it finds. -/
theorem stable_depth : Stable fun m m' => m'.stack.depth = m.stack.depth where
  refl _ := rfl
  trans h h' := h'.trans h
  line _ _ := rfl
  stack _ _ h := h
  record h hpop := Nat.succ.inj ((Stack.depth_of_pop hpop).symm.trans h)
  orphan h hpop := by
    rw [Stack.depth_of_pop_error hpop] at h
    cases h
  reader _ := rfl
  emit _ _ _ := rfl
  world _ _ _ _ _ _ := rfl

/-! ### The history of a machine's world -/

/-- What a log says about the world. -/
def worldEvents (events : List Event) : List WorldEvent :=
  events.filterMap fun
    | .world e => some e
    | _ => none

theorem shown_eq (events : List Event) : Display.shown events = (worldEvents events).filter Display.shows := by
  rw [Display.shown, worldEvents, List.filter_filterMap]
  congr 1
  funext e
  cases e with
  | world e => simp [Option.filter, Display.shows]
  | _ => rfl

@[simp] theorem worldEvents_append (events events' : List Event) :
    worldEvents (events ++ events') = worldEvents events ++ worldEvents events' :=
  List.filterMap_append

@[simp] theorem worldEvents_map_world (events : List WorldEvent) : worldEvents (events.map Event.world) = events := by
  induction events with
  | nil => rfl
  | cons e events ih => exact congrArg (e :: ·) ih

theorem worldEvents_single {e : Event} (he : ∀ we, e ≠ .world we) : worldEvents [e] = [] := by
  cases e with
  | world we => exact absurd rfl (he we)
  | _ => rfl

theorem Event.ne_world {e : Event} (he : e.ofProgram = true) (we : WorldEvent) : e ≠ .world we := by
  rintro rfl
  cases he

namespace Machine

/-- The world of the second machine comes from that of the first by operations, and the log says what they tell. -/
def Advances (m m' : Machine) : Prop :=
  ∃ ts, World.History m.world ts m'.world ∧
    worldEvents m'.events.toList = worldEvents m.events.toList ++ ts.flatMap Transition.events

theorem Advances.of_world_eq {m m' : Machine} (hworld : m'.world = m.world)
    (hevents : worldEvents m'.events.toList = worldEvents m.events.toList) : m.Advances m' := by
  refine ⟨[], hworld ▸ .nil, ?_⟩
  rw [hevents, List.flatMap_nil, List.append_nil]

theorem stable_advances : Stable Advances where
  refl m := .of_world_eq rfl rfl
  trans := by
    rintro a b c ⟨ts, hts, hevents⟩ ⟨us, hus, hevents'⟩
    refine ⟨ts ++ us, hts.append hus, ?_⟩
    rw [hevents', hevents, List.flatMap_append, List.append_assoc]
  line m line := .of_world_eq rfl rfl
  stack m _ _ := .of_world_eq rfl rfl
  record h _ := h
  orphan h _ := h
  reader m := .of_world_eq rfl rfl
  emit m e he := by
    refine .of_world_eq rfl ?_
    rw [emit, Array.toList_push, worldEvents_append, worldEvents_single (Event.ne_world he), List.append_nil]
  world m op fuel e lines hperform := by
    refine ⟨[⟨m.world, op, .ok e⟩], .single (t := ⟨m.world, op, .ok e⟩) hperform, ?_⟩
    simp [act, emitAll, emit, Transition.events, worldEvents_single]

/-- The machines that programs lead to, from a new one on: by loading, and by calls that return or fail. -/
inductive Reachable (c : Config) : Machine → Prop
  | initial (input : String) (options : Options) : Reachable c (.initial c input options)
  | loaded {m m' : Machine} {tree : Node} : Reachable c m → m.loadTree tree = .ok m' → Reachable c m'
  | returned {m m' : Machine} {fuel : Nat} {name : String} {arguments : List Node} {v : Value} :
      Reachable c m → call fuel name arguments m = .done v m' → Reachable c m'
  | failed {m m' : Machine} {fuel : Nat} {name : String} {arguments : List Node} {fault : Fault} :
      Reachable c m → call fuel name arguments m = .failed fault m' → Reachable c m'

theorem loadTree_advances {m m' : Machine} {tree : Node} (h : m.loadTree tree = .ok m') : m.Advances m' := by
  unfold loadTree at h
  cases hp : Program.ofTree tree with
  | error e =>
      rw [hp] at h
      cases h
  | ok p =>
      rw [hp] at h
      cases h
      refine .of_world_eq rfl ?_
      simp [emit, worldEvents_single]

theorem Reachable.advances {c : Config} {m : Machine} (h : m.Reachable c) :
    ∃ input options, (Machine.initial c input options).Advances m := by
  induction h with
  | initial input options => exact ⟨input, options, stable_advances.refl _⟩
  | loaded _ hload ih =>
      obtain ⟨input, options, ih⟩ := ih
      exact ⟨input, options, stable_advances.trans ih (loadTree_advances hload)⟩
  | @returned m m' fuel name arguments v _ hcall ih =>
      obtain ⟨input, options, ih⟩ := ih
      have hkeeps := stable_advances.call fuel name arguments m
      rw [hcall] at hkeeps
      exact ⟨input, options, stable_advances.trans ih hkeeps⟩
  | @failed m m' fuel name arguments fault _ hcall ih =>
      obtain ⟨input, options, ih⟩ := ih
      have hkeeps := stable_advances.call fuel name arguments m
      rw [hcall] at hkeeps
      exact ⟨input, options, stable_advances.trans ih hkeeps⟩

/-- The world of a reachable machine has a history, and a display is told what the history tells. -/
theorem Reachable.history {c : Config} {m : Machine} (h : m.Reachable c) :
    ∃ ts, World.History (.initial c) ts m.world ∧
      Display.shown m.events.toList = (ts.flatMap Transition.events).filter Display.shows := by
  obtain ⟨input, options, ts, hts, hevents⟩ := h.advances
  refine ⟨ts, hts, ?_⟩
  rw [shown_eq, hevents]
  rfl

/-- Loads a tree into a new machine and runs its entry function; the answer is the machine that the run leaves. -/
def start (c : Config) (tree : Node) (entry : String) (fuel : Nat) : Option Machine := do
  let m ← ((Machine.initial c "" .unobserved).loadTree tree).toOption
  match run fuel entry m with
  | .done _ m => some m
  | .failed _ m => some m
  | .unfinished => none

theorem Reachable.of_start {c : Config} {tree : Node} {entry : String} {fuel : Nat} {m : Machine}
    (h : start c tree entry fuel = some m) : m.Reachable c := by
  obtain ⟨m', hload, h⟩ := Option.bind_eq_some_iff.1 h
  have hloaded : m'.Reachable c := by
    cases hm : (Machine.initial c "" .unobserved).loadTree tree with
    | error e =>
        rw [hm] at hload
        cases hload
    | ok m'' =>
        rw [hm] at hload
        cases hload
        exact (Reachable.initial "" .unobserved).loaded hm
  cases hrun : run fuel entry m' with
  | unfinished =>
      rw [hrun] at h
      cases h
  | done v m'' =>
      rw [hrun] at h
      cases h
      exact hloaded.returned hrun
  | failed fault m'' =>
      rw [hrun] at h
      cases h
      exact hloaded.failed hrun

end Machine

end Rover
