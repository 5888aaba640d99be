import Mathlib.Logic.Relation
import Rover.Proofs.VariantRuns

/-!
# Rewriting keeps the meaning

A program and its rewritten form end alike: `rewriting_preserves_meaning`. A chain of rewrites, back and forth, keeps how a
run ends: its result or the cause of its failure, what it wrote and told, what it read, and the world that it leaves.
-/

namespace Rover

/-! ### Endings -/

/-- How a run ends, lines aside. -/
structure Machine.Ending where
  /-- The result, or why there is none. -/
  result : Except Cause Value
  /-- All that the run has told: what it wrote, its calls and returns, its narration. -/
  events : List Event
  /-- The tokens that are left. -/
  input : List String
  world : World

/-- The ending of a run that ends. -/
def Outcome.ending? : Outcome Value → Option Machine.Ending
  | .done v m => some ⟨.ok v, m.events.toList.map Event.unlined, m.input, m.world⟩
  | .failed e m => some ⟨.error e.cause, m.events.toList.map Event.unlined, m.input, m.world⟩
  | .unfinished => none

/-- Lines do not show on standard output. -/
theorem outputText_unlined (narrate : Bool) (events : List Event) :
    outputText narrate (events.map Event.unlined) = outputText narrate events := by
  simp [outputText, Function.comp_def]

/-- The run of the entry function, with enough fuel, ends so. -/
def Machine.Ends (m : Machine) (entry : String) (ending : Machine.Ending) : Prop :=
  ∃ fuel, (run fuel entry m).ending? = some ending

theorem Outcome.Matches.ending?_eq {o o' : Outcome Value} (h : o.Matches o') : o'.ending? = o.ending? := by
  cases h with
  | done h =>
      obtain ⟨rfl, hm⟩ := h
      rw [ending?, ending?, hm.events, hm.input, hm.world]
  | failed h =>
      obtain ⟨he, hm⟩ := h
      rw [ending?, ending?, he, hm.events, hm.input, hm.world]
  | unfinished => rfl

namespace Machine

variable {m m' : Machine} {entry : String} {ending ending' : Ending}

/-- A matching machine ends alike with all large amounts of fuel. -/
theorem Matches.eventually_ending (hm : m.Matches m') (h : m.Ends entry ending) :
    ∀ᶠ fuel in Filter.atTop, (run fuel entry m').ending? = some ending := by
  obtain ⟨fuel, hfuel⟩ := h
  have hends : run fuel entry m ≠ .unfinished := by
    intro h
    rw [h] at hfuel
    cases hfuel
  obtain ⟨o, ho, hrun⟩ := run_matched fuel entry m m' hm hends
  filter_upwards [hrun] with k hk
  rw [hk, ho.ending?_eq, hfuel]

theorem Matches.ends (hm : m.Matches m') (h : m.Ends entry ending) : m'.Ends entry ending :=
  (hm.eventually_ending h).exists

theorem matches_of_variant {p p' : Program} (h : p.Variant p') (m : Machine) :
    Machine.Matches { m with program := some p } { m with program := some p' } :=
  ⟨⟨p, p', rfl, rfl, h⟩, List.forall₂_same.2 fun f _ => .refl f, rfl, rfl, rfl, rfl, rfl⟩

/-- A run has one ending at most. -/
theorem Ends.unique {p : Program} (hp : m.program = some p) (h : m.Ends entry ending) (h' : m.Ends entry ending') :
    ending = ending' := by
  have hm : m.Matches m :=
    ⟨⟨p, p, hp, hp, .refl p⟩, List.forall₂_same.2 fun f _ => .refl f, rfl, rfl, rfl, rfl, rfl⟩
  obtain ⟨fuel, hfuel, hfuel'⟩ := ((hm.eventually_ending h).and (hm.eventually_ending h')).exists
  exact Option.some.inj (hfuel.symm.trans hfuel')

end Machine

/-- Programs with the same names that, whatever function is called on whatever machine, end alike. -/
structure Program.Equivalent (p p' : Program) : Prop where
  names_eq : p.names = p'.names
  ends_iff (m : Machine) (entry : String) (ending : Machine.Ending) :
    Machine.Ends { m with program := some p } entry ending ↔ Machine.Ends { m with program := some p' } entry ending

/-- A chain of rewrites, back and forth. -/
theorem equivalent_of_rewrites {tree tree' : Node} (h : Relation.EqvGen (Rewrite .program) tree tree') :
    (Program.draft tree).Equivalent (.draft tree') := by
  induction h with
  | rel tree tree' h =>
      obtain ⟨hto, hback⟩ := h.draft_variants
      exact ⟨hback.names_eq, fun m _ _ =>
        ⟨(Machine.matches_of_variant hto m).ends, (Machine.matches_of_variant hback m).ends⟩⟩
  | refl tree => exact ⟨rfl, fun _ _ _ => Iff.rfl⟩
  | symm tree tree' _ ih => exact ⟨ih.names_eq.symm, fun m entry ending => (ih.ends_iff m entry ending).symm⟩
  | trans tree tree' tree'' _ _ ih ih' =>
      exact ⟨ih.names_eq.trans ih'.names_eq, fun m entry ending =>
        (ih.ends_iff m entry ending).trans (ih'.ends_iff m entry ending)⟩

/-- Rewriting keeps the meaning: two trees that are joined by a chain of rewrites, each at any place of a function body and in
either direction, and that both load, end alike from every machine on and for every entry. Trees in the middle of the chain
need not load. A run has one ending at most, so that it is the same one. -/
theorem rewriting_preserves_meaning {tree tree' : Node} (hrewrites : Relation.EqvGen (Rewrite .program) tree tree')
    {m m₁ m₂ : Machine} (hload : m.loadTree tree = .ok m₁) (hload' : m.loadTree tree' = .ok m₂) (entry : String) :
    (∀ ending, m₁.Ends entry ending ↔ m₂.Ends entry ending) ∧
      ∀ ending ending', m₁.Ends entry ending → m₂.Ends entry ending' → ending = ending' := by
  obtain ⟨p, hp, rfl⟩ := loaded_of_loadTree hload
  obtain ⟨p', hp', rfl⟩ := loaded_of_loadTree hload'
  have hequivalent : p.Equivalent p' := by
    rw [Program.ofTree_eq hp, Program.ofTree_eq hp']
    exact equivalent_of_rewrites hrewrites
  have hiff (ending : Machine.Ending) := hequivalent.ends_iff (m.emit (.loaded p.names)) entry ending
  rw [← hequivalent.names_eq]
  exact ⟨hiff, fun ending ending' h h' => Machine.Ends.unique rfl h ((hiff ending').2 h')⟩

/-! A program whose loop does one round, and what the three rewrites make of it. -/

namespace Toggle

/-- A program of one function, all on one line. -/
def inMain (body : List Node) : Node :=
  .branch .functionList 1 [⟨.function, 1, "main", none, [.branch .paramList 1 [], .branch .block 1 body]⟩]

def x : Node := .leaf .id 1 "x"

def set (text : String) : Node := .branch .assign 1 [x, .leaf .boolean 1 text]

def loop : Node := .branch .whileDo 1 [x, .branch .block 1 [set "false"]]

def unrolled : Node := .branch .ifElse 1 [x, .branch .block 1 [set "false", loop]]

def result : Node := .branch .ret 1 [.branch .not 1 [.branch .and 1 [x, x]]]

def result' : Node := .branch .ret 1 [.branch .or 1 [.branch .not 1 [x], .branch .not 1 [x]]]

def before : Node := inMain [set "true", loop, result, .branch .write 1 [x]]

def after : Node := inMain [set "true", unrolled, result']

theorem rewrite_inMain {body body' : List Node}
    (h : Rewrite .block (.branch .block 1 body) (.branch .block 1 body')) : Rewrite .program (inMain body) (inMain body') :=
  .inside [] [] (.inside [.branch .paramList 1 []] [] h)

theorem rewrites : Relation.EqvGen (Rewrite .program) before after := by
  have hloop : Rewrite .statement loop unrolled := .unroll 1 x (.branch .block 1 [set "false"])
  have hresult : Rewrite .statement result result' := .inside [] [] (.deMorgan 1 x x)
  have hcut : Rewrite .program before (inMain [set "true", loop, result]) :=
    rewrite_inMain (.unreachable [set "true", loop] [.branch .write 1 [x]] rfl)
  refine .trans _ _ _ (.rel _ _ hcut) ?_
  refine .trans _ _ _ (.rel _ _ (rewrite_inMain (.inside [set "true"] [result] hloop))) ?_
  exact .rel _ _ (rewrite_inMain (.inside [set "true", unrolled] [] hresult))

/-- The truth value that a run ends with. -/
def truth? (ending : Machine.Ending) : Option Bool :=
  match ending.result with
  | .ok (.boolean b) => some b
  | _ => none

/-- Both forms of the program return the same. -/
theorem ends_alike : ∃ m₁ m₂ ending,
    (Machine.initial .default "" .unobserved).loadTree before = .ok m₁ ∧
    (Machine.initial .default "" .unobserved).loadTree after = .ok m₂ ∧
    m₁.Ends "main" ending ∧ m₂.Ends "main" ending ∧ ending.result = .ok (.boolean true) := by
  have hrun : ((Machine.initial .default "" .unobserved).loadTree before).toOption.bind (fun m =>
      (Machine.run 20 "main" m).ending?.bind truth?) = some true := by decide +kernel
  have hload' : ((Machine.initial .default "" .unobserved).loadTree after).toOption.isSome = true := by decide +kernel
  obtain ⟨m₁, hm₁, hrun⟩ := Option.bind_eq_some_iff.1 hrun
  obtain ⟨m₂, hm₂⟩ := Option.isSome_iff_exists.1 hload'
  obtain ⟨ending, hending, hrun⟩ := Option.bind_eq_some_iff.1 hrun
  have hload := eq_ok_of_toOption hm₁
  have hload' := eq_ok_of_toOption hm₂
  have hends : m₁.Ends "main" ending := ⟨20, hending⟩
  have hends' := ((rewriting_preserves_meaning rewrites hload hload' "main").1 ending).1 hends
  refine ⟨m₁, m₂, ending, hload, hload', hends, hends', ?_⟩
  unfold truth? at hrun
  split at hrun
  · rename_i b hresult
    cases hrun
    exact hresult
  · cases hrun

end Toggle

end Rover
