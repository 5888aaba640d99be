import Rover.Proofs.Discipline
import Rover.Proofs.Observers
import Rover.Proofs.Relocation
import Rover.Proofs.Reordering

/-!
# Runs on one machine are independent

Calls on a machine, also those that fail, leave nothing behind that a later run could notice but the world and the input
that is left: `runs_are_independent`. What they do leave are cells that no record binds, a log, and the line where a call
failed. The cells are out of reach, the log is never read, and the line only shows where no function is running.
-/

namespace Rover

/-! ### Another line and another log -/

/-- The same records, but the outermost one may have been called from anywhere. -/
inductive SameRecords : List Frame → List Frame → Prop
  | nil : SameRecords [] []
  | outermost {g g' : Frame} : g.Matches g' → SameRecords [g] [g']
  | cons (g : Frame) {fs fs' : List Frame} : SameRecords fs fs' → SameRecords (g :: fs) (g :: fs')

namespace SameRecords

variable {fs fs' : List Frame}

theorem length_eq (h : SameRecords fs fs') : fs'.length = fs.length := by
  induction h with
  | nil => rfl
  | outermost => rfl
  | cons g _ ih => exact congrArg (· + 1) ih

/-- Where the outermost function was called from does not show. -/
theorem entries_eq (h : SameRecords fs fs') (line : Int) : Frame.entries line fs' = Frame.entries line fs := by
  induction h generalizing line with
  | nil => rfl
  | outermost hg =>
      rw [Frame.entries, Frame.entries, hg.name_eq]
      rfl
  | cons g _ ih => exact congrArg (List.cons _) (ih g.callerLine)

theorem leave (h : SameRecords fs fs') : SameRecords (fs.drop 1) (fs'.drop 1) := by
  cases h with
  | nil => exact .nil
  | outermost => exact .nil
  | cons _ h => exact h

end SameRecords

/-- The same program on the same machine, but for what has been told before and where the outermost function has been called
from. -/
def detached : Likeness Unit where
  line l l' := l' = l
  name _ x x' := x' = x
  param _ q q' := q' = q
  frames _ := SameRecords
  event e e' := e' = e ∧ e.isTold = true
  fault _ e e' := e' = e
  function f f' := f' = f

theorem lawful_detached (options : Options) (before before' : List Event) : detached.Lawful options before before' where
  function_name hf := congrArg Function.name hf
  function_line hf := congrArg Function.line hf
  function_params := by
    rintro f f' rfl
    exact List.forall₂_same.2 fun _ _ => rfl
  param_byRef hq := congrArg Param.byRef hq
  bare _ _ := rfl
  undefined := by
    rintro w x x' rfl
    rfl
  locate := by
    rintro w m m' e e' hm rfl _
    have htrace : m'.stackTrace m'.options.traceItems = m.stackTrace m.options.traceItems := by
      unfold Machine.stackTrace Stack.trace
      rw [hm.options_eq, hm.options_eq', hm.line, hm.frames.entries_eq]
    change m'.locate e' = m.locate e'
    rw [Machine.locate, Machine.locate, htrace, hm.line]
  overflow := by
    rintro w e e' rfl
    exact ⟨.rfl, fun _ _ => rfl⟩
  length_frames h := h.length_eq
  cell := by
    rintro w g g' fs fs' x x' hframes rfl
    cases hframes with
    | outermost hg => exact hg.cell?_eq x'
    | cons => rfl
  bind := by
    rintro w g g' fs fs' x x' c hframes rfl
    cases hframes with
    | outermost hg => exact .outermost (hg.bind x' c)
    | cons _ hfs => exact .cons _ hfs
  plain := by
    intro e he
    refine ⟨rfl, ?_⟩
    cases e with
    | loaded => cases he
    | noted => cases he
    | _ => rfl
  called := by
    rintro f f' bs bs' l l' depth isEntry rfl rfl hbs
    rw [Likeness.bindings_eq (fun _ _ _ h => h) hbs]
    exact ⟨rfl, rfl⟩
  returned := by
    rintro f f' bs bs' l l' v depth rfl rfl hbs
    rw [Likeness.bindings_eq (fun _ _ _ h => h) hbs]
    exact ⟨rfl, rfl⟩
  enter := by
    rintro w fs fs' f f' l l' bound bound' hfs rfl rfl hbound
    rw [Likeness.arguments_eq (fun _ _ _ h => h) hbound]
    exact ⟨w, .cons _ hfs, Likeness.forall₂_node (fun _ => rfl) (fun _ => rfl) _, fun gs gs' hgs => hgs.leave⟩

theorem Likeness.Logs.told_eq {before before' : List Event} {events events' : Array Event}
    (h : detached.Logs before before' events events') :
    ∃ told, events.toList = before ++ told ∧ events'.toList = before' ++ told ∧ ∀ e ∈ told, e.isTold = true := by
  obtain ⟨told, told', htold, htold', hlogs⟩ := h
  obtain ⟨rfl, hall⟩ := Invariant.forall₂_diagonal.1 hlogs
  exact ⟨told', htold, htold', hall⟩

/-! ### Entries -/

theorem operation_acts (fuel : Nat) (b : Builtin) (m : Machine) :
    ((do
      b.precheck 0
      let values ← evaluateArguments fuel b.arguments []
      b.perform fuel values : Eval Value) m).Acts m := by
  rcases precheck_cases b 0 m with hcheck | ⟨c, hcheck⟩
  · rw [Eval.bind_of_done hcheck]
    cases fuel with
    | zero => exact .unfinished
    | succ k =>
        have harguments : evaluateArguments (k + 1) b.arguments [] m = .done [] m := by
          cases b.arguments <;> rfl
        rw [Eval.bind_of_done harguments]
        exact .perform _ b [] m
  · rw [Eval.bind_of_failed hcheck]
    exact .failed

/-- A function that is called without arguments is entered at once or not at all. -/
theorem invokeFunction_entry (fuel : Nat) (f : Function) :
    (∀ m, (invokeFunction fuel f [] m).Acts m) ∨
      ∃ k, ∀ m, invokeFunction fuel f [] m = callWith k f m.line m.stack.depth [] m := by
  cases fuel with
  | zero => exact .inl fun m => .unfinished
  | succ fuel =>
      cases hparams : f.params with
      | nil =>
          cases fuel with
          | zero =>
              refine .inl fun m => ?_
              rw [invokeFunction_eq, hparams]
              exact .unfinished
          | succ k =>
              have hbound (m : Machine) : bindArguments (k + 1) f.params [] m = .done [] m := by
                rw [hparams]
                rfl
              have hlength : f.params.length = ([] : List Node).length := congrArg List.length hparams
              exact .inr ⟨k + 1, fun m => invokeFunction_of_bound hlength (hbound m)⟩
      | cons q params =>
          refine .inl fun m => ?_
          rw [invokeFunction_eq, hparams]
          exact .failed

/-- A call without arguments from outside enters a function of the program at once, or none at all. -/
theorem invoke_entry (p : Program) (fuel : Nat) (entry : String) :
    (∀ m : Machine, m.program = some p → (invoke fuel entry [] m).Acts m) ∨
      ∃ f k, ∀ m : Machine, m.program = some p → invoke fuel entry [] m = callWith k f m.line m.stack.depth [] m := by
  cases fuel with
  | zero => exact .inl fun m _ => .unfinished
  | succ fuel =>
      cases hb : Builtin.ofName? entry with
      | some b =>
          refine .inl fun m _ => ?_
          rw [invoke_operation hb]
          exact operation_acts fuel b m
      | none =>
          rw [invoke_function hb]
          cases hf : p.get? entry with
          | none =>
              refine .inl fun m hm => ?_
              have hlookup : Eval.function entry m = .failed (.bare (.undeclaredFunction entry)) m := by
                simp only [Eval.function, hm, hf]
              rw [Eval.bind_of_failed hlookup]
              exact .failed
          | some f =>
              have hlookup {m : Machine} (hm : m.program = some p) : Eval.function entry m = .done f m := by
                simp only [Eval.function, hm, hf]
              rcases invokeFunction_entry fuel f with hacts | ⟨k, hcall⟩
              · refine .inl fun m hm => ?_
                rw [Eval.bind_of_done (hlookup hm)]
                exact hacts m
              · refine .inr ⟨f, k, fun m hm => ?_⟩
                rw [Eval.bind_of_done (hlookup hm)]
                exact hcall m

/-! ### Another line and another log -/

namespace Machine

/-- The same machine, but for the line and the log. -/
structure Beside (m m' : Machine) : Prop where
  program_eq : m'.program = m.program
  stack_eq : m'.stack = m.stack
  world_eq : m'.world = m.world
  input_eq : m'.input = m.input
  options_eq : m'.options = m.options

/-- What two runs have in common, one from `m` and the other from `m'`, that have told of themselves since and whose observers
have heard of it. -/
structure Repeats (m m' : Machine) (told told' : List Event) (n n' : Machine) : Prop where
  world_eq : n'.world = n.world
  input_eq : n'.input = n.input
  heard : m.Heard told n
  heard' : m'.Heard told' n'
  output_eq (narrate : Bool) : outputText narrate told' = outputText narrate told
  trace_eq : CallTrace.text told' = CallTrace.text told

end Machine

/-- Two runs that repeat each other: they have the same value, or faults of the same cause. A fault that is raised after a
function has been called is the same in all. -/
def Outcome.Repeats (m m' : Machine) : Outcome Value → Outcome Value → Prop :=
  Outcome.Alike (fun v v' n n' => v' = v ∧ ∃ told told', m.Repeats m' told told' n n')
    (fun e e' n n' => e'.cause = e.cause ∧ ∃ told told', m.Repeats m' told told' n n' ∧
      ((∃ x ∈ told, x.isCall = true) → e' = e))

theorem Machine.Acts.not_isCall {m n : Machine} (h : m.Acts n) {told : List Event}
    (htold : n.events.toList = m.events.toList ++ told) : ∀ x ∈ told, x.isCall = false := by
  obtain ⟨es, lines, hevents⟩ := h.events_eq
  cases List.append_cancel_left (htold.symm.trans hevents)
  intro x hx
  rcases List.mem_append.1 hx with hx | hx
  · obtain ⟨e, -, rfl⟩ := List.mem_map.1 hx
    rfl
  · obtain ⟨l, -, rfl⟩ := List.mem_map.1 hx
    rfl

theorem map_unlined_of_not_isCall {told : List Event} (h : ∀ x ∈ told, x.isCall = false) :
    told.map Event.unlined = told := by
  refine (List.map_congr_left fun x hx => ?_).trans (List.map_id told)
  have hcall := h x hx
  cases x with
  | called => cases hcall
  | returned => cases hcall
  | _ => rfl

theorem acts_of_run {fuel : Nat} {entry : String} {m n : Machine} {p : Program} (hp : m.program = some p)
    (h : (invoke fuel entry [] m).Acts m) (hn : (Machine.run fuel entry m).machine? = some n) : m.Acts n := by
  rw [Machine.run, Machine.call_of_program hp] at hn
  cases hinvoke : invoke fuel entry [] m with
  | done v n' =>
      rw [hinvoke] at hn
      cases hn
      exact h.of_done hinvoke
  | failed e n' =>
      obtain ⟨rfl, -⟩ := h.of_failed hinvoke
      rw [hinvoke] at hn
      cases hn
      exact .refl _
  | unfinished =>
      rw [hinvoke] at hn
      cases hn

/-- How a run from outside ends, from how the body of its entry function does. -/
def Outcome.ofEntry (f : Function) (line : Int) : Outcome (Option Value) → Outcome Value
  | .done r n => .done (r.getD .void) { (n.tellReturn f (r.getD .void) 0 []).leave with line := line }
  | .failed e n => .failed (n.leave.locate (n.report e)) n.leave
  | .unfinished => .unfinished

section

variable {fuel k : Nat} {entry : String} {f : Function} {m : Machine} {p : Program} (hp : m.program = some p)
  (hdepth : m.stack.depth = 0) (h : invoke fuel entry [] m = callWith k f m.line m.stack.depth [] m)

include hp hdepth h

theorem run_of_call (htell : m.options.canTell 0 f.params.length = true) :
    Machine.run fuel entry m =
      (runBlock k f.body.children ((m.tellCall f m.line 0 []).enter f m.line [])).ofEntry f m.line := by
  rw [Machine.run, Machine.call_of_program hp, h, hdepth, callWith_eq, if_pos htell, if_pos m.options.limit_pos]
  generalize runBlock k f.body.children ((m.tellCall f m.line 0 []).enter f m.line []) = o
  cases o <;> rfl

/-- The tracer cannot be told of any call. -/
theorem run_of_untold (htell : ¬ m.options.canTell 0 f.params.length = true) :
    Machine.run fuel entry m = .failed (m.locate (.bare .stackOverflow)) m := by
  rw [Machine.run, Machine.call_of_program hp, h, hdepth, callWith_eq, if_neg htell]
  rfl

end

/-- A trace of an entry does not show a line. -/
theorem Machine.Repeats.of_entry {m m' n n' : Machine} (f : Function) (body : List Event) (hworld : n'.world = n.world)
    (hinput : n'.input = n.input) (hheard : ∃ told, m.Heard told n) (hheard' : ∃ told, m'.Heard told n')
    (htold : n.events.toList = (m.tellCall f m.line 0 []).events.toList ++ body)
    (htold' : n'.events.toList = (m'.tellCall f m'.line 0 []).events.toList ++ body) :
    m.Repeats m' (.called f.name [] m.line 0 true :: body) (.called f.name [] m'.line 0 true :: body) n n' where
  world_eq := hworld
  input_eq := hinput
  heard := by
    obtain ⟨told, hheard⟩ := hheard
    rw [hheard.events_eq, tellCall, emit, Array.toList_push, List.append_assoc] at htold
    cases List.append_cancel_left htold
    exact hheard
  heard' := by
    obtain ⟨told, hheard⟩ := hheard'
    rw [hheard.events_eq, tellCall, emit, Array.toList_push, List.append_assoc] at htold'
    cases List.append_cancel_left htold'
    exact hheard
  output_eq narrate := rfl
  trace_eq := rfl

section

variable {m m' : Machine} {p : Program} (hp : m.program = some p) (h : m.Beside m') {fuel : Nat} {entry : String}

include hp h

/-- No function is entered: the line shows nowhere but in the fault. -/
theorem repeats_of_acts (hacts : ∀ m : Machine, m.program = some p → (invoke fuel entry [] m).Acts m) :
    Outcome.Repeats m m' (Machine.run fuel entry m) (Machine.run fuel entry m') := by
  have hp' : m'.program = some p := h.program_eq.trans hp
  have hfunctions (name : String) := optionRel_refl (R := relined.function) (fun _ => ⟨rfl, rfl, rfl⟩) (p.get? name)
  have hmachines : relined.Machines m.options m.events.toList m'.events.toList () m m' := by
    refine ⟨⟨p, p, hp, hp', hfunctions⟩, trivial, ?_, congrArg Stack.cells h.stack_eq, h.world_eq, h.input_eq, rfl,
      h.options_eq, [], [], (List.append_nil _).symm, (List.append_nil _).symm, .nil⟩
    rw [h.stack_eq]
    exact List.forall₂_same.2 fun f _ => .refl f
  have hrepeats {n n' : Machine} (hn : (Machine.run fuel entry m).machine? = some n)
      (hn' : (Machine.run fuel entry m').machine? = some n') (hlike : Machine.Relined m m' n n') :
      ∃ told, m.Repeats m' told told n n' ∧ ∀ x ∈ told, x.isCall = false := by
    obtain ⟨told, told', htold, htold', hunlined, -, -⟩ := hlike.told
    have hplain := (acts_of_run hp (hacts m hp) hn).not_isCall htold
    have hplain' := (acts_of_run hp' (hacts m' hp') hn').not_isCall htold'
    rw [map_unlined_of_not_isCall hplain, map_unlined_of_not_isCall hplain'] at hunlined
    subst hunlined
    obtain ⟨told, hheard⟩ := exists_heard hn
    obtain rfl := List.append_cancel_left (hheard.events_eq.symm.trans htold)
    obtain ⟨told', hheard'⟩ := exists_heard hn'
    obtain rfl := List.append_cancel_left (hheard'.events_eq.symm.trans htold')
    exact ⟨_, ⟨hlike.world_eq, hlike.input_eq, hheard, hheard', fun _ => rfl, rfl⟩, hplain⟩
  have hrun := (lawful_relined _ _ _).run hmachines fuel entry
  unfold Outcome.Repeats
  generalize Machine.run fuel entry m = o at hrun hrepeats ⊢
  generalize Machine.run fuel entry m' = o' at hrun hrepeats ⊢
  cases hrun with
  | unfinished => exact .unfinished
  | done hdone =>
      obtain ⟨told, hsame, -⟩ := hrepeats rfl rfl hdone.2.relined
      exact .done ⟨hdone.1, told, told, hsame⟩
  | failed hfailed =>
      obtain ⟨told, hsame, hplain⟩ := hrepeats rfl rfl hfailed.2.relined
      refine .failed ⟨hfailed.1.cause_eq, told, told, hsame, fun ⟨x, hx, hcall⟩ => ?_⟩
      rw [hplain x hx] at hcall
      cases hcall

/-- Where the entry function has been called from only shows in its record. -/
theorem entered_detached (hframes : m.stack.frames = []) (f : Function) :
    detached.Machines m.options (m.tellCall f m.line 0 []).events.toList (m'.tellCall f m'.line 0 []).events.toList ()
      ((m.tellCall f m.line 0 []).enter f m.line []) ((m'.tellCall f m'.line 0 []).enter f m'.line []) := by
  have hp' : m'.program = some p := h.program_eq.trans hp
  have hfunctions (name : String) := optionRel_refl (R := detached.function) (fun _ => rfl) (p.get? name)
  refine ⟨⟨p, p, hp, hp', hfunctions⟩, rfl, ?_, congrArg (·.cells) h.stack_eq, h.world_eq, h.input_eq, rfl, h.options_eq,
    [], [], (List.append_nil _).symm, (List.append_nil _).symm, .nil⟩
  change SameRecords (Frame.ofCall f m.line [] :: m.stack.frames) (Frame.ofCall f m'.line [] :: m'.stack.frames)
  rw [h.stack_eq, hframes]
  exact .outermost ⟨rfl, rfl⟩

/-- The entry function is entered: the line only shows in what is told of the entry, and not in a trace of it. -/
theorem repeats_of_entered (hframes : m.stack.frames = []) {f : Function} {k : Nat}
    (hrun : Machine.run fuel entry m =
      (runBlock k f.body.children ((m.tellCall f m.line 0 []).enter f m.line [])).ofEntry f m.line)
    (hrun' : Machine.run fuel entry m' =
      (runBlock k f.body.children ((m'.tellCall f m'.line 0 []).enter f m'.line [])).ofEntry f m'.line) :
    Outcome.Repeats m m' (Machine.run fuel entry m) (Machine.run fuel entry m') := by
  have hL := lawful_detached m.options (m.tellCall f m.line 0 []).events.toList
    (m'.tellCall f m'.line 0 []).events.toList
  have hbody : List.Forall₂ (detached.node () .statement) f.body.children f.body.children :=
    Likeness.forall₂_node (fun _ => rfl) (fun _ => rfl) _
  have hbodies := (hL.simulation.follows_runs k).runBlock hbody _ _ (entered_detached hp h hframes f)
  have hheard {n : Machine} (hn : (Machine.run fuel entry m).machine? = some n) := exists_heard hn
  have hheard' {n : Machine} (hn : (Machine.run fuel entry m').machine? = some n) := exists_heard hn
  unfold Outcome.Repeats
  rw [hrun] at hheard ⊢
  rw [hrun'] at hheard' ⊢
  generalize runBlock k f.body.children ((m.tellCall f m.line 0 []).enter f m.line []) = o at hbodies hheard ⊢
  generalize runBlock k f.body.children ((m'.tellCall f m'.line 0 []).enter f m'.line []) = o' at hbodies hheard' ⊢
  cases hbodies with
  | unfinished => exact .unfinished
  | @done r r' n n' hdone =>
      obtain ⟨w, -, hn, rfl, -⟩ := hdone
      obtain ⟨body, htold, htold', -⟩ := hn.logs.told_eq
      have hreturned {o : Machine} (hline : o.line = n.line) : (o.tellReturn f (r'.getD .void) 0 []).events.toList =
          o.events.toList ++ [.returned f.name (r'.getD .void) [] n.line 0] := by
        rw [← hline, Machine.tellReturn, Machine.emit, Array.toList_push]
        rfl
      refine .done ⟨rfl, _, _, .of_entry f (body ++ [.returned f.name (r'.getD .void) [] n.line 0]) hn.world_eq
        hn.input_eq (hheard rfl) (hheard' rfl) ?_ ?_⟩
      · rw [← List.append_assoc, ← htold]
        exact hreturned rfl
      · rw [← List.append_assoc, ← htold']
        exact hreturned hn.line
  | @failed e e' n n' hfailed =>
      obtain ⟨w, rfl, -, hn⟩ := hfailed
      obtain ⟨body, htold, htold', -⟩ := hn.logs.told_eq
      have hleave : detached.Machines m.options (m.tellCall f m.line 0 []).events.toList
          (m'.tellCall f m'.line 0 []).events.toList () n.leave n'.leave :=
        { hn with frames := hn.frames.leave, cells_eq := hn.cells_eq }
      have hreport : n'.report e' = n.report e' := by
        have hdepth : n'.stack.depth = n.stack.depth := hn.frames.length_eq
        rw [Machine.report, Machine.report, hn.options_eq, hn.options_eq', hdepth, hL.locate hn rfl ()]
      have hlocate : n'.leave.locate (n'.report e') = n.leave.locate (n.report e') := hL.locate hleave hreport ()
      have hheard := hheard rfl
      have hheard' := hheard' rfl
      rw [Outcome.ofEntry, Outcome.ofEntry, hlocate]
      exact .failed ⟨rfl, _, _, .of_entry f body hn.world_eq hn.input_eq hheard hheard' htold htold', fun _ => rfl⟩

theorem repeats_of_call (hframes : m.stack.frames = []) {f : Function} {k : Nat}
    (hcall : ∀ m : Machine, m.program = some p → invoke fuel entry [] m = callWith k f m.line m.stack.depth [] m) :
    Outcome.Repeats m m' (Machine.run fuel entry m) (Machine.run fuel entry m') := by
  have hp' : m'.program = some p := h.program_eq.trans hp
  have hdepth : m.stack.depth = 0 := by rw [Stack.depth, hframes, List.length_nil]
  have hdepth' : m'.stack.depth = 0 := by rw [h.stack_eq, hdepth]
  by_cases htell : m.options.canTell 0 f.params.length = true
  · have htell' : m'.options.canTell 0 f.params.length = true := by rwa [h.options_eq]
    exact repeats_of_entered hp h hframes (run_of_call hp hdepth (hcall m hp) htell)
      (run_of_call hp' hdepth' (hcall m' hp') htell')
  · have htell' : ¬ m'.options.canTell 0 f.params.length = true := by rwa [h.options_eq]
    rw [run_of_untold hp hdepth (hcall m hp) htell, run_of_untold hp' hdepth' (hcall m' hp') htell']
    refine .failed ⟨(cause_locate _ _).trans (cause_locate _ _).symm, [], [],
      ⟨h.world_eq, h.input_eq, .of_eq rfl rfl rfl, .of_eq rfl rfl rfl, fun _ => rfl, rfl⟩, ?_⟩
    rintro ⟨x, hx, -⟩
    cases hx

end

/-! ### Cells of earlier runs -/

/-- All cells are so much further up. -/
def Relocation.shift (added : Nat) : Relocation where
  move c := c + added
  first := 0
  added := added
  injective _ _ := Nat.add_right_cancel
  move_of_le _ _ := rfl
  move_lt c hc := absurd hc c.not_lt_zero

/-- Cells that no record binds are out of reach: a run goes as it does without them. -/
theorem run_without_cells {m : Machine} (hframes : m.stack.frames = []) (fuel : Nat) (entry : String) :
    Outcome.Alike (fun v v' n n' => v' = v ∧ ∃ s, n' = { n with stack := s })
      (fun e e' n n' => e' = e ∧ ∃ s, n' = { n with stack := s })
      (Machine.run fuel entry { m with stack := .empty }) (Machine.run fuel entry m) := by
  have hmoves : (Relocation.shift m.stack.cells.size).Moves [] 0 .empty m.stack :=
    ⟨Nat.zero_le _, (Nat.zero_add _).symm, nofun, [], rfl, rfl, hframes, nofun⟩
  have hmachine : (Simulation.relocated (.shift m.stack.cells.size) []).machine (0, 0) { m with stack := .empty } m :=
    ⟨Nat.zero_le _, m.stack, rfl, hmoves⟩
  obtain hp | ⟨p, hp⟩ := Option.eq_none_or_eq_some m.program
  · have hp' : { m with stack := .empty }.program = none := hp
    rw [Machine.run, Machine.call_of_no_program hp, Machine.call_of_no_program hp']
    exact .failed ⟨rfl, m.stack, rfl⟩
  · refine ((Simulation.lawful_relocated _ _).follows_run hmachine hp hp fuel entry).imp ?_ ?_
    · rintro v v' n n' ⟨w, -, ⟨-, s, hn, -⟩, hv⟩
      exact ⟨hv, s, hn⟩
    · rintro e e' n n' ⟨w, he, -, -, s, hn, -⟩
      exact ⟨he, s, hn⟩

/-! ### Sessions -/

namespace Machine

variable {c : Config} {m : Machine}

theorem Reachable.of_machine? {n : Machine} {fuel : Nat} {name : String} {nodes : List Node} (h : m.Reachable c)
    (hn : (call fuel name nodes m).machine? = some n) : n.Reachable c := by
  cases hcall : call fuel name nodes m with
  | done v n' =>
      rw [hcall] at hn
      cases hn
      exact h.returned hcall
  | failed e n' =>
      rw [hcall] at hn
      cases hn
      exact h.failed hcall
  | unfinished =>
      rw [hcall] at hn
      cases hn

/-- Between calls no function is active. -/
theorem Reachable.frames_eq_nil (h : m.Reachable c) : m.stack.frames = [] := by
  induction h with
  | initial => rfl
  | loaded _ hload ih =>
      obtain ⟨p, -, rfl⟩ := loaded_of_loadTree hload
      exact ih
  | returned _ hcall ih => exact (frames_of_call (congrArg Outcome.machine? hcall)).trans ih
  | failed _ hcall ih => exact (frames_of_call (congrArg Outcome.machine? hcall)).trans ih

/-- A machine on which nothing has been called yet, with the program, the world, the input and the options that another one
has now. -/
structure Renews (m m' : Machine) : Prop where
  stack_eq : m'.stack = .empty
  program_eq : m'.program = m.program
  world_eq : m'.world = m.world
  input_eq : m'.input = m.input
  options_eq : m'.options = m.options

end Machine

/-- The stacks of the second run do not matter. -/
theorem Machine.Repeats.of_stack {m m' n n' : Machine} {s s' : Stack} {told told' : List Event}
    (h : m.Repeats { m' with stack := s } told told' n { n' with stack := s' }) : m.Repeats m' told told' n n' :=
  ⟨h.world_eq, h.input_eq, h.heard, ⟨h.heard'.options_eq, h.heard'.events_eq, h.heard'.watch_eq, h.heard'.isTold⟩, h.output_eq,
    h.trace_eq⟩

/-- With no function active, the line and the log do not matter. -/
theorem run_repeats {m m' : Machine} (h : m.Beside m') (hframes : m.stack.frames = []) (fuel : Nat) (entry : String) :
    Outcome.Repeats m m' (Machine.run fuel entry m) (Machine.run fuel entry m') := by
  obtain hp | ⟨p, hp⟩ := Option.eq_none_or_eq_some m.program
  · have hp' : m'.program = none := h.program_eq.trans hp
    rw [Machine.run, Machine.call_of_no_program hp, Machine.call_of_no_program hp']
    exact .failed ⟨rfl, [], [], ⟨h.world_eq, h.input_eq, .of_eq rfl rfl rfl, .of_eq rfl rfl rfl, fun _ => rfl, rfl⟩,
      fun _ => rfl⟩
  · rcases invoke_entry p fuel entry with hacts | ⟨f, k, hcall⟩
    · exact repeats_of_acts hp h hacts
    · exact repeats_of_call hp h hframes hcall

/-- Runs on one machine are independent. Whatever has been loaded and called on it before, with results or without, a run goes
as it does on any machine on which nothing has been called, with the same program, world, options and tokens to read: with the
same value or a fault of the same cause, the same output and trace, the same world and input in the end. Once a function has been
called, the fault has the same line and the same call stack too. -/
theorem runs_are_independent {c : Config} {m m' : Machine} (hm : m.Reachable c) (h : m.Renews m') (fuel : Nat)
    (entry : String) : Outcome.Repeats m m' (Machine.run fuel entry m) (Machine.run fuel entry m') := by
  -- in between is the new machine with the cells that the old one has left
  have hbeside : m.Beside { m' with stack := m.stack } := ⟨h.program_eq, rfl, h.world_eq, h.input_eq, h.options_eq⟩
  have hrepeats := run_repeats hbeside hm.frames_eq_nil fuel entry
  have hempty : { m' with stack := .empty } = m' := by rw [← h.stack_eq]
  have hcells := run_without_cells (m := { m' with stack := m.stack }) hm.frames_eq_nil fuel entry
  change Outcome.Alike _ _ (Machine.run fuel entry { m' with stack := .empty }) _ at hcells
  rw [hempty] at hcells
  unfold Outcome.Repeats at hrepeats ⊢
  generalize Machine.run fuel entry m = o at hrepeats ⊢
  generalize Machine.run fuel entry { m' with stack := m.stack } = o₁ at hrepeats hcells
  generalize Machine.run fuel entry m' = o' at hcells ⊢
  cases hcells with
  | unfinished =>
      cases hrepeats
      exact .unfinished
  | done hdone =>
      obtain ⟨rfl, s, rfl⟩ := hdone
      cases hrepeats with
      | done h =>
          obtain ⟨rfl, told, told', h⟩ := h
          exact .done ⟨rfl, told, told', h.of_stack⟩
  | failed hfailed =>
      obtain ⟨rfl, s, rfl⟩ := hfailed
      cases hrepeats with
      | failed h =>
          obtain ⟨hcause, told, told', h, he⟩ := h
          exact .failed ⟨hcause, told, told', h.of_stack, he⟩

/-! A program that fails in the same way each time that it reads a zero. -/

namespace Repeated

def source : String :=
  "func main()\n  read k;\n  rTrail(true);\n  part(k);\nendfunc\nfunc part(k)\n  write 1 / k;\nendfunc\n"

/-- What the first run leaves, and how the second one fails: the lines and the tokens left, the call stack, and whether a
function has been called. -/
def second (m : Machine) : Option ((Int × List String) × List String × List String × Bool) :=
  (Machine.run 40 "main" m).fault?.map fun f =>
    ((m.line, m.input), f.1.frames, f.2.input, (f.2.events.toList.drop m.events.size).any Event.isCall)

/-- The second run, after one that failed, and the run on a new machine fail with the same fault. -/
theorem fails_again : ∃ m m' e n n', m.Reachable .default ∧ m.line = 7 ∧ m.input = ["0", "7"] ∧ m.Renews m' ∧
    m'.line = -1 ∧ Machine.run 40 "main" m = .failed e n ∧ Machine.run 40 "main" m' = .failed e n' ∧
    e.frames = ["part (line 7)", "main (line 4)"] ∧ n'.input = ["7"] ∧ n'.world = n.world := by
  have hrun : ((Machine.initial .default "0 0 7" .unobserved).loadSource source).toOption.bind (fun loaded =>
      (Machine.run 40 "main" loaded.2).machine?.bind second) =
      some ((7, ["0", "7"]), ["part (line 7)", "main (line 4)"], ["7"], true) := by decide +kernel
  obtain ⟨⟨tree, m₀⟩, hload, hrun⟩ := Option.bind_eq_some_iff.1 hrun
  obtain ⟨m, hm, hrun⟩ := Option.bind_eq_some_iff.1 hrun
  have hloaded : m₀.Reachable .default :=
    (Machine.Reachable.initial _ _).loaded (loadTree_of_loadSource (eq_ok_of_toOption hload))
  have hreachable : m.Reachable .default := hloaded.of_machine? hm
  obtain ⟨⟨e, n⟩, hfault, hrun⟩ := Option.map_eq_some_iff.1 hrun
  have hfailed := Outcome.eq_failed hfault
  simp only [Prod.mk.injEq] at hrun
  obtain ⟨⟨hline, hinput⟩, hframes, hleft, hcalls⟩ := hrun
  -- A new machine that reads what the first run has left.
  have hleft' : (WordReader.ofText "0 7").remaining = ["0", "7"] := by decide +kernel
  have hrenews : m.Renews { Machine.initial .default "0 7" m.options with program := m.program, world := m.world } :=
    ⟨rfl, rfl, rfl, hleft'.trans hinput.symm, rfl⟩
  have hrepeats := runs_are_independent hreachable hrenews 40 "main"
  rw [hfailed] at hrepeats
  generalize hnew : Machine.run 40 "main" _ = o at hrepeats
  cases hrepeats with
  | @failed _ e' _ n' h =>
      obtain ⟨-, told, told', h, he⟩ := h
      rw [h.heard.events_eq, ← Array.length_toList, List.drop_left, List.any_eq_true] at hcalls
      cases he hcalls
      exact ⟨m, _, e, n, n', hreachable, hline, hinput, hrenews, rfl, hfailed, hnew, hframes, h.input_eq.trans hleft, h.world_eq⟩

end Repeated

end Rover
