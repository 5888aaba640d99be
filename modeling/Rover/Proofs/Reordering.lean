import Mathlib.Data.List.Find
import Rover.Proofs.Equivalence
import Rover.Proofs.Likeness
import Rover.Proofs.Printing

/-!
# Lines and the order of definitions do not matter

Two trees that differ in the lines of their nodes and in the order of their functions run alike, step by step and with the
same fuel: `reordering_preserves_runs`. Lines show in faults and in what is told of calls, and nowhere else. The order of
the functions shows nowhere at all: functions are found by their names, and the names of a program that loads are distinct.
-/

namespace Rover

/-! ### Trees and programs without lines -/

namespace Node

theorem eraseLines_node (k : Kind) (l : Int) (t : String) (v : Option Value) (cs : List Node) :
    eraseLines ⟨k, l, t, v, cs⟩ = ⟨k, 0, t, v, cs.map eraseLines⟩ := by
  rw [eraseLines, mapLines, mapLinesAll_eq_map]
  rfl

@[simp] theorem kind_eraseLines (n : Node) : n.eraseLines.kind = n.kind := by
  cases n
  rw [eraseLines_node]

@[simp] theorem text_eraseLines (n : Node) : n.eraseLines.text = n.text := by
  cases n
  rw [eraseLines_node]

@[simp] theorem children_eraseLines (n : Node) : n.eraseLines.children = n.children.map eraseLines := by
  cases n
  rw [eraseLines_node]

mutual

/-- Whether a literal has a constant does not depend on its line. -/
theorem eraseLines_fill : ∀ n : Node, n.fill.eraseLines = n.eraseLines.fill
  | ⟨k, l, t, v, cs⟩ => by
      rw [fill, eraseLines_node, eraseLines_node, fill, constant?_line k l 0 t, map_eraseLines_fillAll cs]

theorem map_eraseLines_fillAll : ∀ ns : List Node, (fillAll ns).map eraseLines = fillAll (ns.map eraseLines)
  | [] => rfl
  | n :: ns => by rw [fillAll, List.map_cons, List.map_cons, fillAll, eraseLines_fill n, map_eraseLines_fillAll ns]

end

/-- Lines are free, names are the same. -/
abbrev Relined : Role → Node → Node → Prop := Like (fun _ _ => True) fun x x' => x' = x

mutual

theorem relined_of_eraseLines (role : Role) : ∀ n n' : Node, n'.eraseLines = n.eraseLines → Relined role n n'
  | ⟨k, l, t, v, cs⟩, ⟨k', l', t', v', cs'⟩, h => by
      rw [eraseLines_node, eraseLines_node] at h
      obtain ⟨rfl, -, rfl, rfl, hchildren⟩ := Node.mk.inj h
      exact .node trivial (by split <;> rfl) (relined_of_map_eraseLines (role.child k') cs cs' hchildren)

theorem relined_of_map_eraseLines (roles : Nat → Role) : ∀ ns ns' : List Node,
    ns'.map eraseLines = ns.map eraseLines → LikeAll (fun _ _ => True) (fun x x' => x' = x) roles ns ns'
  | [], [], _ => .nil
  | n :: ns, n' :: ns', h =>
      .cons (relined_of_eraseLines (roles 0) n n' (List.cons.inj h).1)
        (relined_of_map_eraseLines _ ns ns' (List.cons.inj h).2)

end

/-- Trees that differ in the lines of their nodes and in the order of their children. -/
structure Reordered (tree tree' : Node) : Prop where
  kind_eq : tree'.kind = tree.kind
  text_eq : tree'.text = tree.text
  value_eq : tree'.value = tree.value
  children : (tree'.children.map eraseLines).Perm (tree.children.map eraseLines)

end Node

/-- The function without its lines. -/
def Function.unlined (f : Function) : Function := { f with body := f.body.eraseLines, line := 0 }

/-- Functions that differ in lines only. -/
structure Function.Relined (f f' : Function) : Prop where
  name_eq : f'.name = f.name
  params_eq : f'.params = f.params
  body_eq : f'.body.eraseLines = f.body.eraseLines

theorem Function.relined_of_unlined {f f' : Function} (h : f'.unlined = f.unlined) : f.Relined f' := by
  obtain ⟨hname, hparams, hbody, -⟩ := Function.mk.inj h
  exact ⟨hname, hparams, hbody⟩

namespace Program

theorem map_param_eraseLines (ns : List Node) : (ns.map Node.eraseLines).map param = ns.map param := by
  rw [List.map_map]
  refine List.map_congr_left fun n _ => ?_
  rw [Function.comp_apply, param, param, Node.text_eraseLines, Node.kind_eraseLines]

theorem unlined_ofNode (n : Node) : (Function.ofNode n).unlined = .ofNode n.eraseLines := by
  obtain ⟨k, l, t, v, cs⟩ := n
  rw [Node.eraseLines_node]
  rcases cs with _ | ⟨params, _ | ⟨body, rest⟩⟩
  · rfl
  · rfl
  · change (⟨t, params.children.map param, body.eraseLines, 0⟩ : Function) =
      ⟨t, params.eraseLines.children.map param, body.eraseLines, 0⟩
    rw [Node.children_eraseLines, map_param_eraseLines]

theorem unlined_draft (tree : Node) :
    (draft tree).functions.map Function.unlined = (Node.fillAll (tree.children.map Node.eraseLines)).map .ofNode := by
  rw [draft, List.map_map, Node.children_fill, ← Node.map_eraseLines_fillAll, List.map_map]
  exact List.map_congr_left fun n _ => unlined_ofNode n

theorem fillAll_eq_map (ns : List Node) : Node.fillAll ns = ns.map Node.fill := by
  induction ns with
  | nil => rfl
  | cons n ns ih => rw [Node.fillAll, List.map_cons, ih]

theorem name_ofNode (n : Node) : (Function.ofNode n).name = n.text := by
  unfold Function.ofNode
  split <;> rfl

theorem nodup_foldlM {nodes : List Node} {done done' : List Function} (h : nodes.foldlM define done = .ok done')
    (hdone : (done.map Function.name).Nodup) : (done'.map Function.name).Nodup := by
  induction nodes generalizing done with
  | nil =>
      cases h
      exact hdone
  | cons n nodes ih =>
      rw [List.foldlM_cons] at h
      obtain ⟨next, hnext, h⟩ := ok_of_bind h
      refine ih h ?_
      rw [define_eq hnext, List.map_append]
      refine hdone.append (List.nodup_singleton _) (List.disjoint_singleton.2 ?_)
      rw [name_ofNode, Node.text_fill]
      unfold define at hnext
      split_ifs at hnext with hkind hduplicate
      simpa using hduplicate

/-- The names of a program that loads are distinct. -/
theorem nodup_names {tree : Node} {p : Program} (h : ofTree tree = .ok p) : p.names.Nodup := by
  unfold ofTree at h
  split_ifs at h
  obtain ⟨functions, hfunctions, h⟩ := ok_of_bind h
  cases h
  exact nodup_foldlM hfunctions List.nodup_nil

theorem find?_unlined (fs : List Function) (name : String) :
    (fs.map Function.unlined).find? (·.name == name) = (fs.find? (·.name == name)).map Function.unlined := by
  rw [List.find?_map]
  rfl

/-- A name finds the same function in both programs, but for lines. -/
theorem get?_of_perm {p p' : Program} (hp : p.names.Nodup)
    (hperm : (p'.functions.map Function.unlined).Perm (p.functions.map Function.unlined)) (name : String) :
    (p'.get? name).map Function.unlined = (p.get? name).map Function.unlined := by
  unfold get?
  rw [← find?_unlined, ← find?_unlined]
  refine (List.find?_eq_find?_of_perm hperm.symm ?_).symm
  have hnames : ((p.functions.map Function.unlined).map Function.name).Nodup := by rwa [List.map_map]
  rintro f ⟨hf, hfname⟩ g ⟨hg, hgname⟩
  have hname : f.name = g.name := (beq_iff_eq.1 hfname).trans (beq_iff_eq.1 hgname).symm
  exact List.inj_on_of_nodup_map hnames hf hg hname

end Program

theorem Node.Reordered.get? {tree tree' : Node} (h : tree.Reordered tree') {p p' : Program} (hp : Program.ofTree tree = .ok p)
    (hp' : Program.ofTree tree' = .ok p') (name : String) :
    (p'.get? name).map Function.unlined = (p.get? name).map Function.unlined := by
  refine Program.get?_of_perm (Program.nodup_names hp) ?_ name
  rw [Program.ofTree_eq hp, Program.ofTree_eq hp', Program.unlined_draft, Program.unlined_draft, Program.fillAll_eq_map,
    Program.fillAll_eq_map]
  exact (h.children.map _).map _

/-! ### Call stacks without lines -/

/-- Entries of two call stacks for the same function. An entry that stands for those left out is the same in both. -/
inductive SameEntry : String → String → Prop
  | record (name : String) (line line' : Int) :
      SameEntry (name ++ " (line " ++ Numeral.ofInt line ++ ")") (name ++ " (line " ++ Numeral.ofInt line' ++ ")")
  | skipped (entry : String) : SameEntry entry entry

theorem sameEntries {fs fs' : List Frame} (h : List.Forall₂ Frame.Matches fs fs') (line line' : Int) :
    List.Forall₂ SameEntry (Frame.entries line fs) (Frame.entries line' fs') := by
  induction h generalizing line line' with
  | nil => exact .nil
  | @cons f f' _ _ hf _ ih =>
      rw [Frame.entries, Frame.entries, hf.name_eq]
      exact .cons (.record _ _ _) (ih _ _)

section

variable {es es' : List String} (h : List.Forall₂ SameEntry es es') (n : Int)

include h

theorem sameEntries_front : List.Forall₂ SameEntry (Stack.front n es) (Stack.front n es') := by
  unfold Stack.front
  rw [h.length_eq]
  split_ifs
  · exact List.forall₂_take _ h
  · exact List.forall₂_take _ h

theorem sameEntries_back : List.Forall₂ SameEntry (Stack.back n es) (Stack.back n es') := by
  unfold Stack.back
  rw [h.length_eq]
  split_ifs
  · exact List.forall₂_drop _ h
  · exact List.forall₂_drop _ h

/-- As many entries are left out of both. -/
theorem sameEntries_summary : List.Forall₂ SameEntry (Stack.summary n es) (Stack.summary n es') := by
  unfold Stack.summary
  rw [h.length_eq]
  dsimp only
  split_ifs
  · have hskipped (entry : String) : List.Forall₂ SameEntry [entry] [entry] := .cons (.skipped entry) .nil
    exact List.rel_append (List.rel_append (sameEntries_front h n) (hskipped _)) (sameEntries_back h (-n))
  · exact h

end

theorem sameEntries_trace {s s' : Stack} (h : List.Forall₂ Frame.Matches s.frames s'.frames) (line line' : Int)
    (items : Option Int) : List.Forall₂ SameEntry (s.trace line items) (s'.trace line' items) := by
  cases items with
  | none => exact sameEntries h line line'
  | some n => exact sameEntries_summary (sameEntries h line line') n

/-- Faults that differ in lines only. -/
structure Fault.Relined (e e' : Fault) : Prop where
  cause_eq : e'.cause = e.cause
  line : e'.line.isSome = e.line.isSome
  frames : List.Forall₂ SameEntry e.frames e'.frames

theorem Fault.Relined.locate {e e' : Fault} (h : e.Relined e') (line line' : Int) {frames frames' : List String}
    (hframes : List.Forall₂ SameEntry frames frames') : (e.locate line frames).Relined (e'.locate line' frames') := by
  obtain ⟨c, l, fs⟩ := e
  obtain ⟨c', l', fs'⟩ := e'
  obtain ⟨rfl, hline, hfs⟩ := h
  unfold Fault.locate
  dsimp only
  split
  · exact ⟨rfl, hline, hfs⟩
  · refine ⟨rfl, rfl, ?_⟩
    cases hfs with
    | nil => exact hframes
    | cons hf hfs => exact .cons hf hfs

/-! ### Runs without lines -/

/-- Lines are free, and all that is told is the same but for lines. -/
def relined : Likeness Unit where
  line _ _ := True
  name _ x x' := x' = x
  param _ p p' := p' = p
  frames _ := List.Forall₂ Frame.Matches
  event e e' := e'.unlined = e.unlined
  fault _ := Fault.Relined
  function := Function.Relined

theorem lawful_relined (options : Options) (before before' : List Event) : relined.Lawful options before before' where
  function_name hf := hf.name_eq
  function_line _ := trivial
  function_params hf := by
    rw [hf.params_eq]
    exact List.forall₂_same.2 fun _ _ => rfl
  param_byRef hp := congrArg Param.byRef hp
  bare _ _ := ⟨rfl, rfl, .nil⟩
  undefined := by
    rintro w x x' rfl
    exact ⟨rfl, rfl, .nil⟩
  locate := by
    intro w m m' e e' hm he _
    have htrace := sameEntries_trace hm.frames m.line m'.line options.traceItems
    unfold Machine.locate Machine.stackTrace
    rw [hm.options_eq, hm.options_eq']
    exact he.locate m.line m'.line htrace
  overflow he := ⟨by rw [he.cause_eq], fun _ _ => he⟩
  length_frames h := h.length_eq.symm
  cell := by
    rintro w f f' fs fs' x x' (_ | ⟨hf, -⟩) rfl
    exact hf.cell?_eq x'
  bind := by
    rintro w f f' fs fs' x x' c (_ | ⟨hf, hfs⟩) rfl
    exact .cons (hf.bind x' c) hfs
  plain _ := rfl
  called := by
    intro f f' bs bs' l l' depth isEntry hf _ hbs
    rw [Likeness.bindings_eq (fun _ _ _ h => h) hbs, hf.name_eq]
    rfl
  returned := by
    intro f f' bs bs' l l' v depth hf _ hbs
    rw [Likeness.bindings_eq (fun _ _ _ h => h) hbs, hf.name_eq]
    rfl
  enter := by
    intro w fs fs' f f' l l' bound bound' hfs hf _ hbound
    have hframe : Frame.Matches ⟨f.name, l, []⟩ ⟨f'.name, l', []⟩ := ⟨hf.name_eq, rfl⟩
    rw [Likeness.arguments_eq (fun _ _ _ h => h) hbound]
    refine ⟨w, .cons (hframe.foldl_bind bound) hfs, ?_, fun gs gs' hgs => List.forall₂_drop 1 hgs⟩
    exact (Node.relined_of_eraseLines (.at .block) f.body f'.body hf.body_eq).statements

/-- What two runs that started at `m₁` and `m₂` have in common, lines aside. -/
structure Machine.Relined (m₁ m₂ n n' : Machine) : Prop where
  world_eq : n'.world = n.world
  input_eq : n'.input = n.input
  /-- The same is written, shown and told of calls. -/
  told : ∃ told told', n.events.toList = m₁.events.toList ++ told ∧ n'.events.toList = m₂.events.toList ++ told' ∧
    told'.map Event.unlined = told.map Event.unlined ∧
    (∀ narrate, outputText narrate told' = outputText narrate told) ∧ Display.shown told' = Display.shown told

/-- Lines do not show on a display. -/
theorem shown_unlined (events : List Event) : Display.shown (events.map Event.unlined) = Display.shown events := by
  unfold Display.shown
  rw [List.filterMap_map]
  refine List.filterMap_congr fun e _ => ?_
  cases e <;> rfl

theorem Likeness.Machines.relined {options : Options} {m₁ m₂ n n' : Machine} {w : Unit}
    (h : Rover.relined.Machines options m₁.events.toList m₂.events.toList w n n') : Machine.Relined m₁ m₂ n n' := by
  obtain ⟨told, told', htold, htold', hlogs⟩ := h.logs
  have hunlined : told'.map Event.unlined = told.map Event.unlined := by
    clear htold htold'
    induction hlogs with
    | nil => rfl
    | cons he _ ih => rw [List.map_cons, List.map_cons, he, ih]
  refine ⟨h.world_eq, h.input_eq, told, told', htold, htold', hunlined, fun narrate => ?_, ?_⟩
  · rw [← outputText_unlined, hunlined, outputText_unlined]
  · rw [← shown_unlined, hunlined, shown_unlined]

/-- Lines and the order of definitions do not matter: two trees that differ in the lines of their nodes and in the order of
their functions, and that both load, run alike from every machine on, for every entry and with every fuel. Both runs end or
neither does. They end with the same value, or with the same cause and with call stacks of the same functions; they leave the
same world and the same input; and they have told the same, but for lines. -/
theorem reordering_preserves_runs {tree tree' : Node} (h : tree.Reordered tree') {m m₁ m₂ : Machine}
    (hload : m.loadTree tree = .ok m₁) (hload' : m.loadTree tree' = .ok m₂) (fuel : Nat) (entry : String) :
    Outcome.Alike (fun v v' n n' => v' = v ∧ Machine.Relined m₁ m₂ n n')
      (fun e e' n n' => e.Relined e' ∧ Machine.Relined m₁ m₂ n n') (Machine.run fuel entry m₁)
      (Machine.run fuel entry m₂) := by
  obtain ⟨p, hp, rfl⟩ := loaded_of_loadTree hload
  obtain ⟨p', hp', rfl⟩ := loaded_of_loadTree hload'
  have hfunctions (name : String) : Option.Rel relined.function (p.get? name) (p'.get? name) := by
    have hget := h.get? hp hp' name
    cases hf : p.get? name with
    | none =>
        rw [hf, Option.map_none, Option.map_eq_none_iff] at hget
        rw [hget]
        exact .none
    | some f =>
        rw [hf, Option.map_some, Option.map_eq_some_iff] at hget
        obtain ⟨f', hf', hff'⟩ := hget
        rw [hf']
        exact .some (Function.relined_of_unlined hff')
  have hmachines : relined.Machines m.options
      ({ m with program := some p }.emit (.loaded p.names)).events.toList
      ({ m with program := some p' }.emit (.loaded p'.names)).events.toList ()
      ({ m with program := some p }.emit (.loaded p.names)) ({ m with program := some p' }.emit (.loaded p'.names)) :=
    ⟨⟨p, p', rfl, rfl, hfunctions⟩, trivial, List.forall₂_same.2 fun f _ => .refl f, rfl, rfl, rfl, rfl, rfl,
      [], [], (List.append_nil _).symm, (List.append_nil _).symm, .nil⟩
  refine ((lawful_relined _ _ _).run hmachines fuel entry).imp ?_ ?_
  · rintro v v' n n' ⟨hv, hn⟩
    exact ⟨hv, hn.relined⟩
  · rintro e e' n n' ⟨he, hn⟩
    exact ⟨he, hn.relined⟩

/-! A program of two functions, and the same with its functions exchanged and moved to other lines. -/

namespace Exchanged

def main (line : Int) : Node :=
  ⟨.function, line, "main", none, [.branch .paramList line [], .branch .block line
    [.branch .write (line + 1) [.leaf .string (line + 1) "go"],
      .branch .call (line + 2) [.leaf .id (line + 2) "part",
        .branch .argList (line + 2) [.leaf .int (line + 2) "0"]]]]⟩

def part (line : Int) : Node :=
  ⟨.function, line, "part", none, [.branch .paramList line [.leaf .paramValue line "k"], .branch .block line
    [.branch .ret (line + 1) [.branch (.arithmetic .div) (line + 1) [.leaf .int (line + 1) "1",
      .leaf .id (line + 1) "k"]]]]⟩

def before : Node := .branch .functionList 1 [main 1, part 5]

def after : Node := .branch .functionList 8 [part 8, main 20]

theorem reordered : before.Reordered after :=
  ⟨rfl, rfl, rfl, List.Perm.swap (main 20).eraseLines (part 8).eraseLines []⟩

/-- Both runs fail in the same function, called from the same one. -/
theorem fails_alike : ∃ m₁ m₂ e n e' n', (Machine.initial .default "" .unobserved).loadTree before = .ok m₁ ∧
    (Machine.initial .default "" .unobserved).loadTree after = .ok m₂ ∧ Machine.run 20 "main" m₁ = .failed e n ∧
    Machine.run 20 "main" m₂ = .failed e' n' ∧ e.frames = ["part (line 6)", "main (line 3)"] ∧ e.Relined e' ∧
    Machine.Relined m₁ m₂ n n' := by
  have hrun : ((Machine.initial .default "" .unobserved).loadTree before).toOption.bind (fun m =>
      (Machine.run 20 "main" m).fault?.map (·.1.frames)) = some ["part (line 6)", "main (line 3)"] := by decide +kernel
  have hload' : ((Machine.initial .default "" .unobserved).loadTree after).toOption.isSome = true := by decide +kernel
  obtain ⟨m₁, hm₁, hrun⟩ := Option.bind_eq_some_iff.1 hrun
  obtain ⟨m₂, hm₂⟩ := Option.isSome_iff_exists.1 hload'
  obtain ⟨⟨e, n⟩, hfault, hframes⟩ := Option.map_eq_some_iff.1 hrun
  have hload := eq_ok_of_toOption hm₁
  have hload' := eq_ok_of_toOption hm₂
  have hfailed := Outcome.eq_failed hfault
  have halike := reordering_preserves_runs reordered hload hload' 20 "main"
  rw [hfailed] at halike
  generalize ho' : Machine.run 20 "main" m₂ = o' at halike
  cases halike with
  | failed h => exact ⟨m₁, m₂, e, n, _, _, hload, hload', hfailed, ho', hframes, h.1, h.2⟩

end Exchanged

end Rover
