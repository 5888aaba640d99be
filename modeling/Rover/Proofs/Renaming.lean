import Mathlib.Data.Set.Function
import Rover.Proofs.Discipline
import Rover.Proofs.Likeness

/-!
# Local names are private

The variables of a function can be renamed, as long as different ones stay different: `local_names_are_private`. The
parameters are renamed, and with them all that is assigned to, read into or referred to in the body; the names of functions
that are called are not. What a run does is the same then, and where a name is told it is the new one: in the bindings of
calls and returns, and in the message about a variable that is not defined.
-/

namespace Rover

/-! ### Renaming -/

namespace Node

mutual

/-- The tree with its variables renamed. -/
def rename (σ : String → String) (role : Role) : Node → Node
  | ⟨k, l, t, v, cs⟩ => ⟨k, l, if role.isVariable k then σ t else t, v, renameAll σ (role.child k) cs⟩

def renameAll (σ : String → String) (roles : Nat → Role) : List Node → List Node
  | [] => []
  | n :: ns => n.rename σ (roles 0) :: renameAll σ (fun i => roles (i + 1)) ns

end

mutual

/-- The variables of a tree. -/
def vars (role : Role) : Node → List String
  | ⟨k, _, t, _, cs⟩ => (if role.isVariable k then [t] else []) ++ varsAll (role.child k) cs

def varsAll (roles : Nat → Role) : List Node → List String
  | [] => []
  | n :: ns => n.vars (roles 0) ++ varsAll (fun i => roles (i + 1)) ns

end

section

variable {N : String → String → Prop} {σ : String → String}

mutual

theorem like_rename (role : Role) : ∀ n : Node, (∀ x ∈ n.vars role, N x (σ x)) →
    Like (fun l l' => l' = l) N role n (n.rename σ role)
  | ⟨k, l, t, v, cs⟩, h => by
      rw [vars] at h
      obtain ⟨htext, hchildren⟩ := List.forall_mem_append.1 h
      rw [rename]
      refine .node rfl ?_ (likeAll_renameAll (role.child k) cs hchildren)
      split_ifs at htext ⊢
      · exact htext t List.mem_cons_self
      · rfl

theorem likeAll_renameAll (roles : Nat → Role) : ∀ ns : List Node, (∀ x ∈ varsAll roles ns, N x (σ x)) →
    LikeAll (fun l l' => l' = l) N roles ns (renameAll σ roles ns)
  | [], _ => by
      rw [renameAll]
      exact .nil
  | n :: ns, h => by
      rw [varsAll] at h
      obtain ⟨hn, hns⟩ := List.forall_mem_append.1 h
      rw [renameAll]
      exact .cons (like_rename (roles 0) n hn) (likeAll_renameAll _ ns hns)

end

end

mutual

theorem rename_id (role : Role) : ∀ n : Node, n.rename id role = n
  | ⟨k, l, t, v, cs⟩ => by
      rw [rename, renameAll_id (role.child k) cs]
      simp

theorem renameAll_id (roles : Nat → Role) : ∀ ns : List Node, renameAll id roles ns = ns
  | [] => by rw [renameAll]
  | n :: ns => by rw [renameAll, rename_id (roles 0) n, renameAll_id _ ns]

end

end Node

def Param.rename (σ : String → String) (q : Param) : Param := { q with name := σ q.name }

namespace Function

/-- The parameters of a function and all variables of its body. -/
def vars (f : Function) : List String := f.params.map Param.name ++ f.body.vars (.at .block)

def rename (σ : String → String) (f : Function) : Function :=
  { f with params := f.params.map (Param.rename σ), body := f.body.rename σ (.at .block) }

theorem rename_id (f : Function) : f.rename id = f := by
  obtain ⟨name, params, body, line⟩ := f
  simp only [rename, Node.rename_id, Function.mk.injEq, true_and, and_true]
  exact List.map_id' params

/-- How a renaming of the variables of the function `name` acts on a function. -/
def renamer (name : String) (σ : String → String) (f : Function) : String → String := if f.name = name then σ else id

end Function

/-- The program with the variables of one function renamed. -/
def Program.renameIn (p : Program) (name : String) (σ : String → String) : Program :=
  ⟨p.functions.map fun f => if f.name = name then f.rename σ else f⟩

theorem Program.renameIn_eq (p : Program) (name : String) (σ : String → String) :
    p.renameIn name σ = ⟨p.functions.map fun f => f.rename (f.renamer name σ)⟩ := by
  unfold renameIn
  refine congrArg Program.mk (List.map_congr_left fun f _ => ?_)
  unfold Function.renamer
  split_ifs
  · rfl
  · exact f.rename_id.symm

theorem Program.get?_renameIn (p : Program) (name : String) (σ : String → String) (called : String) :
    (p.renameIn name σ).get? called = (p.get? called).map fun f => f.rename (f.renamer name σ) := by
  rw [renameIn_eq, get?, List.find?_map]
  rfl

def Binding.rename (σ : String → String) (b : Binding) : Binding := { b with name := σ b.name }

/-- The event with the variables of one function renamed. -/
def Event.renameIn (name : String) (σ : String → String) : Event → Event
  | .called f bindings line depth isEntry =>
    .called f (if f = name then bindings.map (Binding.rename σ) else bindings) line depth isEntry
  | .returned f result refs line depth =>
    .returned f result (if f = name then refs.map (Binding.rename σ) else refs) line depth
  | e => e

/-- Names of variables do not show on standard output. -/
theorem outputText_renameIn (narrate : Bool) (name : String) (σ : String → String) (events : List Event) :
    outputText narrate (events.map (Event.renameIn name σ)) = outputText narrate events := by
  unfold outputText
  rw [List.map_map]
  congr 1
  refine List.map_congr_left fun e _ => ?_
  cases e <;> rfl

/-! ### Records -/

namespace Frame

def rename (σ : String → String) (g : Frame) : Frame := { g with slots := g.slots.map fun s => (σ s.1, s.2) }

/-- The variables of a record are among those of its function. -/
def Within (V : List String) (g : Frame) : Prop := ∀ s ∈ g.slots, s.1 ∈ V

section

variable {σ : String → String} {V : List String} (hσ : Set.InjOn σ {x | x ∈ V}) {g : Frame} {x : String}

include hσ

theorem cell?_rename (hg : g.Within V) (hx : x ∈ V) : (g.rename σ).cell? (σ x) = g.cell? x := by
  unfold cell? rename
  unfold Within at hg
  generalize g.slots = slots at hg
  induction slots with
  | nil => rfl
  | cons s slots ih =>
      obtain ⟨y, c⟩ := s
      obtain ⟨hy, hrest⟩ := List.forall_mem_cons.1 hg
      have hname : (σ x == σ y) = (x == y) := by
        rw [Bool.eq_iff_iff, beq_iff_eq, beq_iff_eq]
        exact ⟨fun h => hσ hx hy h, congrArg σ⟩
      simp only [List.map_cons, List.lookup_cons, hname, ih hrest]

theorem bindTo_rename {slots : List (String × Cell)} (hslots : ∀ s ∈ slots, s.1 ∈ V) (hx : x ∈ V) (c : Cell) :
    bindTo (σ x) c (slots.map fun s => (σ s.1, s.2)) = (bindTo x c slots).map fun s => (σ s.1, s.2) := by
  induction slots with
  | nil => rfl
  | cons s slots ih =>
      obtain ⟨y, d⟩ := s
      obtain ⟨hy, hrest⟩ := List.forall_mem_cons.1 hslots
      have hname : σ y = σ x ↔ y = x := ⟨fun h => hσ hy hx h, congrArg σ⟩
      simp only [List.map_cons, bindTo, hname, ih hrest]
      split_ifs <;> rfl

theorem bind_rename (hg : g.Within V) (hx : x ∈ V) (c : Cell) : (g.rename σ).bind (σ x) c = (g.bind x c).rename σ :=
  congrArg (Frame.mk g.name g.callerLine) (bindTo_rename hσ hg hx c)

end

theorem Within.bind {V : List String} {g : Frame} (hg : g.Within V) {x : String} (hx : x ∈ V) (c : Cell) :
    (g.bind x c).Within V := by
  intro s hs
  rcases mem_bindTo hs with rfl | hs
  · exact hx
  · exact hg s hs

end Frame

section

variable (name : String) (σ : String → String)

/-- Records that have been entered for the functions `w`, innermost first, and the same with the variables of one function
renamed. The records below them are the same. -/
inductive Records : List Function → List Frame → List Frame → Prop
  | base (fs : List Frame) : Records [] fs fs
  | call {f : Function} {w : List Function} {g : Frame} {fs fs' : List Frame} : g.name = f.name → g.Within f.vars →
      Records w fs fs' → Records (f :: w) (g :: fs) (g.rename (f.renamer name σ) :: fs')

variable (p : Program)

/-- The call stack of a fault starts in the function. -/
def Fault.StartsIn (e : Fault) (f : Function) : Prop :=
  ∃ line rest, e.frames = (f.name ++ " (line " ++ Numeral.ofInt line ++ ")") :: rest

/-- Faults that differ in the name of a variable only. It is a variable of the function where the fault is raised. -/
structure Fault.Renamed (raised : Function → Prop) (e e' : Fault) : Prop where
  category_eq : e'.cause.category = e.cause.category
  line_eq : e'.line = e.line
  frames_eq : e'.frames = e.frames
  cause_eq : e.cause.NamesNoVariable → e'.cause = e.cause
  undefined (x : String) : e.cause = .stack (.undefinedVariable x) →
    ∃ f ∈ p.functions, x ∈ f.vars ∧ e'.cause = .stack (.undefinedVariable (f.renamer name σ x)) ∧ raised f

/-- The variables of one function are renamed. A fault that has not been located is raised in the innermost function. -/
def renamed (options : Options) : Likeness (List Function) where
  line l l' := l' = l
  name w x x' := ∃ f ∈ p.functions, w.head? = some f ∧ x ∈ f.vars ∧ x' = f.renamer name σ x
  param f q q' := q.name ∈ f.vars ∧ q' = q.rename (f.renamer name σ)
  frames := Records name σ
  event e e' := e' = e.renameIn name σ
  fault w e := e.Renamed name σ p fun f => e.frames = [] ∧ w.head? = some f ∨ (options.traceItems = none → e.StartsIn f)
  function f f' := f ∈ p.functions ∧ f' = f.rename (f.renamer name σ)

end

variable {p : Program} {name : String} {σ : String → String}

namespace Records

variable {w : List Function} {fs fs' : List Frame}

theorem length_eq (h : Records name σ w fs fs') : fs'.length = fs.length := by
  induction h with
  | base fs => rfl
  | call _ _ _ ih => exact congrArg (· + 1) ih

theorem entries_eq (h : Records name σ w fs fs') (line : Int) : Frame.entries line fs' = Frame.entries line fs := by
  induction h generalizing line with
  | base fs => rfl
  | @call _ _ g _ _ _ _ _ ih => exact congrArg (List.cons _) (ih g.callerLine)

theorem entries_cons {f : Function} (h : Records name σ (f :: w) fs fs') (line : Int) :
    ∃ rest, Frame.entries line fs = (f.name ++ " (line " ++ Numeral.ofInt line ++ ")") :: rest := by
  cases h with
  | call hname _ _ =>
      rw [Frame.entries, hname]
      exact ⟨_, rfl⟩

theorem leave {f : Function} (h : Records name σ (f :: w) fs fs') : Records name σ w (fs.drop 1) (fs'.drop 1) := by
  cases h with
  | call _ _ h => exact h

end Records

section

variable {options : Options} {before before' : List Event} {f : Function}

/-- Parameters of a function, bound to the same cells in both runs. -/
theorem foldl_bind_rename (hσ : Set.InjOn (f.renamer name σ) {x | x ∈ f.vars}) {bound bound' : List (Param × Cell)}
    (hbound : (renamed name σ p options).Arguments f bound bound') {g : Frame} (hg : g.Within f.vars) :
    (bound.foldl (fun frame b => frame.bind b.1.name b.2) g).Within f.vars ∧
      bound'.foldl (fun frame b => frame.bind b.1.name b.2) (g.rename (f.renamer name σ)) =
        (bound.foldl (fun frame b => frame.bind b.1.name b.2) g).rename (f.renamer name σ) := by
  induction hbound generalizing g with
  | nil => exact ⟨hg, rfl⟩
  | @cons b b' bound bound' hb _ ih =>
      obtain ⟨⟨hmem, hparam⟩, hcell⟩ := hb
      have hbind := g.bind_rename hσ hg hmem b.2
      rw [List.foldl_cons, List.foldl_cons, hparam, hcell]
      exact hbind ▸ ih (hg.bind hmem b.2)

theorem bindings_rename {bs bs' : List Binding} (h : (renamed name σ p options).Bindings f bs bs') :
    bs' = if f.name = name then bs.map (Binding.rename σ) else bs := by
  have hmap : bs' = bs.map (Binding.rename (f.renamer name σ)) := by
    induction h with
    | nil => rfl
    | @cons b b' _ _ hb _ ih =>
        obtain ⟨x, v, byRef⟩ := b
        obtain ⟨x', v', byRef'⟩ := b'
        obtain ⟨⟨-, hparam⟩, rfl⟩ := hb
        have hname : x' = f.renamer name σ x := congrArg Param.name hparam
        have hbyRef : byRef' = byRef := congrArg Param.byRef hparam
        rw [ih, hname, hbyRef]
        rfl
  rw [hmap]
  unfold Function.renamer
  split_ifs
  · rfl
  · exact List.map_id' bs

theorem lawful_renamed (hσ : ∀ f ∈ p.functions, Set.InjOn (f.renamer name σ) {x | x ∈ f.vars}) :
    (renamed name σ p options).Lawful options before before' where
  function_name := by
    rintro f f' ⟨-, rfl⟩
    rfl
  function_line := by
    rintro f f' ⟨-, rfl⟩
    rfl
  function_params := by
    rintro f f' ⟨-, rfl⟩
    refine List.forall₂_map_right_iff.2 (List.forall₂_same.2 fun q hq => ⟨?_, rfl⟩)
    exact List.mem_append_left _ (List.mem_map_of_mem hq)
  param_byRef := by
    rintro f q q' ⟨-, rfl⟩
    rfl
  bare hc _ := ⟨rfl, rfl, rfl, fun _ => rfl, fun x hx => absurd hx (hc x)⟩
  undefined := by
    rintro w x x' ⟨f, hf, hw, hx, rfl⟩
    refine ⟨rfl, rfl, rfl, fun h => absurd rfl (h x), fun y hy => ?_⟩
    cases hy
    exact ⟨f, hf, hx, rfl, .inl ⟨rfl, hw⟩⟩
  locate := by
    intro w m m' e e' hm he w'
    have htrace : m'.stackTrace m'.options.traceItems = m.stackTrace m.options.traceItems := by
      unfold Machine.stackTrace Stack.trace
      rw [hm.options_eq, hm.options_eq', hm.line, hm.frames.entries_eq]
    unfold Machine.locate Fault.locate
    rw [htrace, he.category_eq, he.line_eq, he.frames_eq, hm.line]
    split_ifs with hinternal hempty
    · refine ⟨he.category_eq, he.line_eq, he.frames_eq, he.cause_eq, fun x hx => ?_⟩
      rw [hx] at hinternal
      cases hinternal
    · refine ⟨he.category_eq, rfl, rfl, he.cause_eq, fun x hx => ?_⟩
      obtain ⟨f, hf, hxf, hx', hraised⟩ := he.undefined x hx
      refine ⟨f, hf, hxf, hx', .inr fun hitems => ?_⟩
      rcases hraised with ⟨-, hw⟩ | hstarts
      · obtain ⟨w, rfl⟩ := List.head?_eq_some_iff.1 hw
        obtain ⟨rest, hrest⟩ := hm.frames.entries_cons m.line
        refine ⟨m.line, rest, ?_⟩
        rw [hm.options_eq, hitems]
        exact hrest
      · obtain ⟨line, rest, hframes⟩ := hstarts hitems
        rw [hframes] at hempty
        cases hempty
    · refine ⟨he.category_eq, rfl, rfl, he.cause_eq, fun x hx => ?_⟩
      obtain ⟨f, hf, hxf, hx', hraised⟩ := he.undefined x hx
      refine ⟨f, hf, hxf, hx', .inr fun hitems => ?_⟩
      rcases hraised with ⟨hframes, -⟩ | hstarts
      · simp [hframes] at hempty
      · exact hstarts hitems
  overflow := by
    intro w e e' he
    have hback (h' : e'.cause = .stackOverflow) : e.cause.NamesNoVariable := by
      intro x hx
      obtain ⟨f, -, -, hx', -⟩ := he.undefined x hx
      cases hx'.symm.trans h'
    refine ⟨⟨fun h' => (he.cause_eq (hback h')).symm.trans h', fun h => ?_⟩, fun h w' => ?_⟩
    · exact (he.cause_eq fun x hx => by cases h.symm.trans hx).trans h
    · exact { he with undefined := fun x hx => by cases h.symm.trans hx }
  length_frames h := h.length_eq
  cell := by
    rintro w g g' fs fs' x x' hframes ⟨f, hf, hw, hx, rfl⟩
    cases hframes with
    | base => cases hw
    | call _ hg _ =>
        cases hw
        exact Frame.cell?_rename (hσ f hf) hg hx
  bind := by
    rintro w g g' fs fs' x x' c hframes ⟨f, hf, hw, hx, rfl⟩
    cases hframes with
    | base => cases hw
    | call hname hg hfs =>
        cases hw
        rw [Frame.bind_rename (hσ f hf) hg hx]
        exact .call hname (hg.bind hx c) hfs
  plain := by
    intro e he
    cases e with
    | called => cases he
    | returned => cases he
    | _ => rfl
  called := by
    rintro f f' bs bs' l l' depth isEntry ⟨-, rfl⟩ rfl hbs
    rw [bindings_rename hbs]
    rfl
  returned := by
    rintro f f' bs bs' l l' v depth ⟨-, rfl⟩ rfl hbs
    rw [bindings_rename hbs]
    rfl
  enter := by
    rintro w fs fs' f f' l l' bound bound' hfs ⟨hmem, rfl⟩ rfl hbound
    have hempty : Frame.Within f.vars ⟨f.name, l', []⟩ := nofun
    obtain ⟨hwithin, hrecord⟩ := foldl_bind_rename (hσ f hmem) hbound hempty
    refine ⟨f :: w, ?_, ?_, fun gs gs' hgs => hgs.leave⟩
    · have hname : (Frame.ofCall f l' bound).name = f.name := congrArg Prod.fst (Frame.head_ofCall f l' bound)
      have hcall := Records.call hname hwithin hfs
      rwa [Frame.ofCall, ← hrecord] at hcall
    · refine (Node.like_rename (.at .block) f.body fun x hx => ?_).statements
      exact ⟨f, hmem, rfl, List.mem_append_right _ hx, rfl⟩

end

/-- What two runs that started at `m` have in common if the variables of one function are renamed. -/
structure Machine.Renamed (name : String) (σ : String → String) (m n n' : Machine) : Prop where
  world_eq : n'.world = n.world
  input_eq : n'.input = n.input
  line_eq : n'.line = n.line
  /-- The same is written, and what is told of calls is the same but for the names. -/
  told : ∃ told, n.events.toList = m.events.toList ++ told ∧
    n'.events.toList = m.events.toList ++ told.map (Event.renameIn name σ) ∧
    ∀ narrate, outputText narrate (told.map (Event.renameIn name σ)) = outputText narrate told

theorem Likeness.Machines.renamed {options : Options} {m n n' : Machine} {w : List Function}
    (h : (Rover.renamed name σ p options).Machines options m.events.toList m.events.toList w n n') :
    Machine.Renamed name σ m n n' := by
  obtain ⟨told, told', htold, htold', hlogs⟩ := h.logs
  have hrenamed : told' = told.map (Event.renameIn name σ) := by
    clear htold htold'
    induction hlogs with
    | nil => rfl
    | cons he _ ih => rw [List.map_cons, ih, he]
  subst hrenamed
  exact ⟨h.world_eq, h.input_eq, h.line, told, htold, htold', fun narrate => outputText_renameIn narrate name σ told⟩

/-- Local names are private: if the variables of a function are renamed, and different ones stay different, a program runs as
before, from every machine on, for every entry and with every fuel. Both runs end or neither does. They end with the same
value, or with faults of the same category, at the same line and with the same call stack; they write the same, and leave the
same world and the same input. The cause is the same too, unless a variable is not defined: it is named then as the
function where this happens names it, which, if call stacks are kept whole, is the innermost one. -/
theorem local_names_are_private (p : Program) (name : String) (σ : String → String)
    (hσ : ∀ f ∈ p.functions, f.name = name → Set.InjOn σ {x | x ∈ f.vars}) (m : Machine) (fuel : Nat) (entry : String) :
    Outcome.Alike (fun v v' n n' => v' = v ∧ Machine.Renamed name σ m n n')
      (fun e e' n n' => e.Renamed name σ p (fun f => m.options.traceItems = none → e.StartsIn f) e' ∧
        Machine.Renamed name σ m n n')
      (Machine.run fuel entry { m with program := some p })
      (Machine.run fuel entry { m with program := some (p.renameIn name σ) }) := by
  have hinjective : ∀ f ∈ p.functions, Set.InjOn (f.renamer name σ) {x | x ∈ f.vars} := by
    intro f hf
    unfold Function.renamer
    split_ifs with hname
    · exact hσ f hf hname
    · exact Function.injective_id.injOn
  have hfunctions (called : String) :
      Option.Rel (renamed name σ p m.options).function (p.get? called) ((p.renameIn name σ).get? called) := by
    rw [Program.get?_renameIn]
    cases hf : p.get? called with
    | none => exact .none
    | some f => exact .some ⟨Program.mem_of_get? hf, rfl⟩
  have hmachines : (renamed name σ p m.options).Machines m.options m.events.toList m.events.toList []
      { m with program := some p } { m with program := some (p.renameIn name σ) } :=
    ⟨⟨p, p.renameIn name σ, rfl, rfl, hfunctions⟩, rfl, .base _, rfl, rfl, rfl, rfl, rfl,
      [], [], (List.append_nil _).symm, (List.append_nil _).symm, .nil⟩
  refine ((lawful_renamed hinjective).run hmachines fuel entry).imp ?_ ?_
  · rintro v v' n n' ⟨hv, hn⟩
    exact ⟨hv, hn.renamed⟩
  · rintro e e' n n' ⟨he, hn⟩
    refine ⟨{ he with undefined := fun x hx => ?_ }, hn.renamed⟩
    -- No function is running at the start, so that the fault has been raised in one that was entered since.
    obtain ⟨f, hf, hxf, hx', ⟨-, hnone⟩ | hstarts⟩ := he.undefined x hx
    · cases hnone
    · exact ⟨f, hf, hxf, hx', hstarts⟩

/-! Two functions that use the same names, one of them with its variables exchanged. -/

namespace Crossed

def source : String :=
  "func main()\n  x = 2;\n  bump(x);\n  write(x);\n  write(y);\nendfunc\nfunc bump(&y)\n  x = y;\n  y = x + y;\nendfunc\n"

/-- Exchanges two names. -/
def exchange : String → String := Equiv.swap "x" "y"

/-- How a program fails, and what it has written until then. -/
def failing? (p : Program) (m : Machine) : Option (Cause × String) :=
  (Machine.run 40 "main" { m with program := some p }).fault?.map fun f => (f.1.cause, outputText false f.2.events.toList)

theorem failed_of_failing? {p : Program} {m : Machine} {c : Cause} {text : String} (h : failing? p m = some (c, text)) :
    ∃ e n, Machine.run 40 "main" { m with program := some p } = .failed e n ∧ e.cause = c ∧
      outputText false n.events.toList = text := by
  obtain ⟨⟨e, n⟩, hfault, h⟩ := Option.map_eq_some_iff.1 h
  obtain ⟨hcause, houtput⟩ := Prod.mk.inj h
  exact ⟨e, n, Outcome.eq_failed hfault, hcause, houtput⟩

/-- What `bump` does to the variable of `main` does not depend on its name, and the variable that is missing is named anew. -/
theorem exchanged : ∃ p m e n e' n',
    Machine.run 40 "main" { m with program := some p } = .failed e n ∧
    Machine.run 40 "main" { m with program := some (p.renameIn "main" exchange) } = .failed e' n' ∧
    e.cause = .stack (.undefinedVariable "y") ∧ e'.cause = .stack (.undefinedVariable "x") ∧
    outputText false n.events.toList = "4" ∧
    e.Renamed "main" exchange p (fun f => m.options.traceItems = none → e.StartsIn f) e' ∧
      Machine.Renamed "main" exchange m n n' := by
  have hrun : ((Machine.initial .default "" .unobserved).loadSource source).toOption.bind (fun loaded =>
      loaded.2.program.bind fun p =>
        (failing? p loaded.2).bind fun before =>
          (failing? (p.renameIn "main" exchange) loaded.2).map fun after => (before, after)) =
      some ((.stack (.undefinedVariable "y"), "4"), (.stack (.undefinedVariable "x"), "4")) := by decide +kernel
  obtain ⟨⟨tree, m⟩, -, hrun⟩ := Option.bind_eq_some_iff.1 hrun
  obtain ⟨p, -, hrun⟩ := Option.bind_eq_some_iff.1 hrun
  obtain ⟨before, hbefore, hrun⟩ := Option.bind_eq_some_iff.1 hrun
  obtain ⟨after, hafter, hpair⟩ := Option.map_eq_some_iff.1 hrun
  obtain ⟨rfl, rfl⟩ := Prod.mk.inj hpair
  obtain ⟨e, n, he, hcause, houtput⟩ := failed_of_failing? hbefore
  obtain ⟨e', n', he', hcause', -⟩ := failed_of_failing? hafter
  have halike := local_names_are_private p "main" exchange (fun _ _ _ => (Equiv.injective _).injOn) m 40 "main"
  rw [he, he'] at halike
  cases halike with
  | failed h => exact ⟨p, m, e, n, e', n', he, he', hcause, hcause', houtput, h.1, h.2⟩

end Crossed

end Rover
