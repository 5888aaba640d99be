import Rover.Proofs.Matching

/-!
# Runs with more input

Two runs of the same task, the second one with more tokens behind those of the first and perhaps with more fuel. As long as
the first one finds a token whenever it wants one, both do the same; and when it finds none and fails, the second one goes on
with the tokens that only it has, so that fewer of these are left in the end (`runsAhead`). Without more tokens this says that
a run depends on the tokens alone, not on how they are kept, and that a run that ends does not change with more fuel.
-/

namespace Rover

/-- Machines that are equal but for the input. The second one has more tokens at the end. -/
def Machine.Ahead (more : List String) (m n : Machine) : Prop :=
  ∃ reader, n = { m with reader } ∧ reader.remaining = m.input ++ more

/-- The outcome of a run, and that of the run with more tokens. `same` says that both have the same fuel. -/
inductive Outcome.Ahead {α : Type} (more : List String) (same : Prop) : Outcome α → Outcome α → Prop
  | done {a : α} {m n : Machine} : m.Ahead more n → Ahead more same (.done a m) (.done a n)
  | failed {e : Fault} {m n : Machine} : m.Ahead more n → Ahead more same (.failed e m) (.failed e n)
  | starved {e : Fault} {m : Machine} {o : Outcome α} : e.cause = .noInput → more ≠ [] →
      o.Leaves (fun n => n.input.length < more.length) → Ahead more same (.failed e m) o
  | unfinished {o : Outcome α} : (same → o = .unfinished) → Ahead more same .unfinished o

/-- Tokens are only taken away. -/
theorem stable_input : Stable fun m m' => m'.input <:+ m.input where
  refl _ := List.suffix_refl _
  trans h h' := h'.trans h
  line _ _ := List.suffix_refl _
  stack _ _ _ := List.suffix_refl _
  record h _ := h
  orphan h _ := h
  reader m := by
    have htaken := m.input_taken
    rw [Machine.taken] at htaken
    rw [htaken]
    exact List.tail_suffix _
  emit _ _ _ := List.suffix_refl _
  world _ _ _ _ _ _ := List.suffix_refl _

/-- From machines of which the second one has more tokens, the second computation does what the first one does, until the
first one lacks a token. -/
structure Eval.Ahead {α : Type} (more : List String) (same : Prop) (x x' : Eval α) : Prop where
  ahead (m n : Machine) : m.Ahead more n → (x m).Ahead more same (x' n)
  keeps : Eval.Keeps (fun m m' => m'.input <:+ m.input) x'

/-- The outcome with another reader. -/
def Outcome.reading {α : Type} (reader : WordReader) : Outcome α → Outcome α
  | .done a m => .done a { m with reader }
  | .failed e m => .failed e { m with reader }
  | .unfinished => .unfinished

namespace Eval.Ahead

variable {α β : Type} {more : List String} {same : Prop}

/-- A computation that takes no token, and that may end with more fuel where it did not. -/
theorem of_reading {x x' : Eval α} (hx : ∀ m reader, x { m with reader } = (x m).reading reader)
    (hx' : ∀ m, x m = x' m ∨ x m = .unfinished ∧ ¬same) (hkeeps : Keeps (fun m m' => m'.input <:+ m.input) x') :
    Ahead more same x x' := by
  refine ⟨?_, hkeeps⟩
  rintro m _ ⟨reader, rfl, hreader⟩
  -- The reader that is left is the one that has been there.
  have hself : x m = (x m).reading m.reader := hx m m.reader
  have hsecond : x { m with reader } = x' { m with reader } ∨ x { m with reader } = .unfinished ∧ ¬same := hx' _
  rw [hx] at hsecond
  cases h : x m with
  | done a m' =>
      rw [h] at hself hsecond
      obtain hsecond | ⟨hsecond, -⟩ := hsecond
      · rw [← hsecond]
        refine .done ⟨reader, rfl, ?_⟩
        rw [(Outcome.done.inj hself).2]
        exact hreader
      · cases hsecond
  | failed e m' =>
      rw [h] at hself hsecond
      obtain hsecond | ⟨hsecond, -⟩ := hsecond
      · rw [← hsecond]
        refine .failed ⟨reader, rfl, ?_⟩
        rw [(Outcome.failed.inj hself).2]
        exact hreader
      · cases hsecond
  | unfinished =>
      rw [h] at hsecond
      refine .unfinished fun hsame => ?_
      obtain hsecond | ⟨-, hsame'⟩ := hsecond
      · exact hsecond.symm
      · exact absurd hsame hsame'

theorem of_reading_self {x : Eval α} (hx : ∀ m reader, x { m with reader } = (x m).reading reader)
    (hkeeps : Keeps (fun m m' => m'.input <:+ m.input) x) : Ahead more same x x :=
  of_reading hx (fun _ => .inl rfl) hkeeps

protected theorem pure (a : α) : Ahead more same (Pure.pure a : Eval α) (Pure.pure a) :=
  of_reading_self (fun _ _ => rfl) (stable_input.pure a)

protected theorem fail (c : Cause) : Ahead more same (Eval.fail c : Eval α) (Eval.fail c) :=
  of_reading_self (fun _ _ => rfl) (stable_input.fail c)

protected theorem bind {x x' : Eval α} {f f' : α → Eval β} (hx : Ahead more same x x')
    (hf : ∀ a, Ahead more same (f a) (f' a)) : Ahead more same (x >>= f) (x' >>= f') := by
  refine ⟨?_, stable_input.bind hx.keeps fun a => (hf a).keeps⟩
  intro m n hm
  have hfirst := hx.ahead m n hm
  change Outcome.Ahead more same (Eval.bind x f m) (Eval.bind x' f' n)
  unfold Eval.bind
  generalize x m = o at hfirst ⊢
  generalize x' n = o' at hfirst ⊢
  cases hfirst with
  | done hn => exact (hf _).ahead _ _ hn
  | failed hn => exact .failed hn
  | unfinished h =>
      refine .unfinished fun hsame => ?_
      rw [h hsame]
  | starved hcause hmore hleaves =>
      refine .starved hcause hmore ?_
      -- What follows in the second run takes no token back.
      cases o' with
      | unfinished => trivial
      | failed e n' => exact hleaves
      | done a n' =>
          have hrest := (hf a).keeps n'
          change (f' a n').Leaves _
          cases hend : f' a n' with
          | unfinished => trivial
          | done b n'' =>
              rw [hend] at hrest
              exact hrest.length_le.trans_lt hleaves
          | failed e n'' =>
              rw [hend] at hrest
              exact hrest.length_le.trans_lt hleaves

protected theorem exchangeLine (line : Int) : Ahead more same (Eval.exchangeLine line) (Eval.exchangeLine line) :=
  of_reading_self (fun _ _ => rfl) (stable_input.exchangeLine line)

protected theorem setLine (line : Int) : Ahead more same (Eval.setLine line) (Eval.setLine line) :=
  of_reading_self (fun _ _ => rfl) (stable_input.setLine line)

protected theorem write (text : String) : Ahead more same (Eval.emit (.wrote text)) (Eval.emit (.wrote text)) :=
  of_reading_self (fun _ _ => rfl) (stable_input.say rfl)

theorem site : Ahead more same Eval.site Eval.site := of_reading_self (fun _ _ => rfl) stable_input.refl

protected theorem variableValue (name : String) : Ahead more same (Eval.variableValue name) (Eval.variableValue name) := by
  refine of_reading_self (fun m reader => ?_) (stable_input.variableValue name)
  unfold Eval.variableValue
  dsimp only
  cases m.stack.get name <;> rfl

protected theorem variableCell (name : String) : Ahead more same (Eval.variableCell name) (Eval.variableCell name) := by
  refine of_reading_self (fun m reader => ?_) (stable_input.variableCell name)
  unfold Eval.variableCell
  dsimp only
  cases m.stack.cell name <;> rfl

protected theorem assign (name : String) (v : Value) : Ahead more same (Eval.assign name v) (Eval.assign name v) := by
  refine of_reading_self (fun m reader => ?_) (stable_input.assign name v)
  unfold Eval.assign
  dsimp only
  cases m.stack.frames <;> rfl

protected theorem alloc (v : Value) : Ahead more same (Eval.alloc v) (Eval.alloc v) :=
  of_reading_self (fun _ _ => rfl) (stable_input.alloc v)

protected theorem function (name : String) : Ahead more same (Eval.function name) (Eval.function name) := by
  refine of_reading_self (fun m reader => ?_) (stable_input.function name)
  obtain ⟨program, stack, line, world, _, events, items⟩ := m
  unfold Eval.function
  cases program with
  | none => rfl
  | some p =>
      dsimp only
      cases p.get? name <;> rfl

protected theorem ask (question : World → Except WorldError α) :
    Ahead more same (Eval.ask question) (Eval.ask question) := by
  refine of_reading_self (fun m reader => ?_) (stable_input.ask question)
  unfold Eval.ask
  dsimp only
  cases question m.world <;> rfl

/-- The only computation that looks at the input. -/
protected theorem nextToken : Ahead more same Eval.nextToken Eval.nextToken := by
  refine ⟨?_, stable_input.nextToken⟩
  rintro m _ ⟨reader, rfl, hreader⟩
  have htaken : m.input ≠ [] → m.taken.Ahead more { m with reader }.taken := by
    intro hne
    refine ⟨reader.next.2, rfl, ?_⟩
    rw [WordReader.remaining_next, hreader, m.input_taken, List.tail_append_of_ne_nil hne]
  cases hinput : m.input with
  | cons token rest =>
      have hsecond : ({ m with reader } : Machine).input = token :: (rest ++ more) := by
        change reader.remaining = _
        rw [hreader, hinput]
        rfl
      rw [Eval.nextToken_of_cons hinput, Eval.nextToken_of_cons hsecond]
      exact .done (htaken (by rw [hinput]; exact List.cons_ne_nil _ _))
  | nil =>
      have hsecond : ({ m with reader } : Machine).input = more := by
        change reader.remaining = _
        rw [hreader, hinput]
        rfl
      rw [Eval.nextToken_of_nil hinput]
      cases more with
      | nil =>
          rw [Eval.nextToken_of_nil hsecond]
          refine .failed ⟨reader.next.2, rfl, ?_⟩
          rw [WordReader.remaining_next, hreader, m.input_taken, hinput]
          rfl
      | cons token rest =>
          rw [Eval.nextToken_of_cons hsecond]
          refine .starved rfl (List.cons_ne_nil _ _) ?_
          change (Machine.taken _).input.length < _
          rw [Machine.input_taken, hsecond]
          exact Nat.lt_succ_self _

theorem congruence : Congruence (Ahead more same) :=
  ⟨.pure, .fail, .bind, .exchangeLine, .setLine, .variableValue, .variableCell, .assign, .alloc, .nextToken, .write, .ask,
    .function⟩

/-! ### Robot operations -/

theorem world (operation : World → Except WorldError (Change α)) (narrate : α → World → List String)
    (hkeeps : Keeps (fun m m' => m'.input <:+ m.input) (Eval.world operation narrate)) :
    Ahead more same (Eval.world operation narrate) (Eval.world operation narrate) := by
  refine of_reading_self (fun m reader => ?_) hkeeps
  unfold Eval.world
  dsimp only
  cases operation m.world <;> rfl

theorem performMove (fuel extra : Nat) (distance : Float) :
    Ahead more (extra = 0) (Builtin.performMove fuel distance) (Builtin.performMove (fuel + extra) distance) := by
  refine of_reading (fun m reader => ?_) (fun m => ?_) (stable_input.performMove _ distance)
  · unfold Builtin.performMove
    dsimp only
    cases m.world.move fuel distance with
    | none => rfl
    | some r => cases r <;> rfl
  · unfold Builtin.performMove
    cases hmove : m.world.move fuel distance with
    | none =>
        by_cases hextra : extra = 0
        · subst hextra
          rw [Nat.add_zero, hmove]
          exact .inl rfl
        · exact .inr ⟨rfl, hextra⟩
    | some r =>
        rw [World.move_of_le hmove (Nat.le_add_right fuel extra)]
        exact .inl rfl

theorem perform (fuel extra : Nat) (b : Builtin) (values : List Value) :
    Ahead more (extra = 0) (b.perform fuel values) (b.perform (fuel + extra) values) := by
  have hworld {γ : Type} {operation : World → Except WorldError (Change γ)} {narrate : γ → World → List String}
      (op : Operation) (hop : ∀ w, op.perform 0 w = some ((operation w).map Change.effect)) :
      Ahead more (extra = 0) (Eval.world operation narrate >>= fun _ => Pure.pure Value.void)
        (Eval.world operation narrate >>= fun _ => Pure.pure Value.void) :=
    (Ahead.world operation narrate fun m => stable_input.worldStep op 0 (hop m.world)).bind fun _ => .pure _
  unfold Builtin.perform
  split
  · exact hworld (.setPose _ _ _) fun _ => rfl
  · exact performMove fuel extra _
  · exact hworld (.turn _) fun _ => rfl
  · exact hworld (.addObstacle _ _ _ _) fun _ => rfl
  · exact hworld (.setTrail _) fun _ => rfl
  · exact (Ahead.ask _).bind fun _ => .pure _
  · exact (Ahead.ask _).bind fun _ => .pure _
  · exact (Ahead.ask _).bind fun _ => .pure _
  · exact (Ahead.ask _).bind fun _ => .pure _
  · exact .fail _

end Eval.Ahead

/-! ### Runs -/

section Runs

open Eval (Ahead)

variable {more : List String}

/-- Without fuel nothing ends. -/
theorem runsAhead_zero (extra : Nat) : Related (Ahead more (extra = 0)) 0 (0 + extra) := by
  have hkeeps := stable_input.runsKeep (0 + extra)
  have hzero {α : Type} (x : Nat → Eval α) (hx : ∀ m, x 0 m = .unfinished)
      (hx' : Eval.Keeps (fun m m' => m'.input <:+ m.input) (x (0 + extra))) :
      Ahead more (extra = 0) (x 0) (x (0 + extra)) := by
    refine ⟨fun m n _ => ?_, hx'⟩
    rw [hx]
    refine .unfinished fun hextra => ?_
    rw [hextra]
    exact hx n
  exact ⟨fun n => hzero (evaluate · n) (fun _ => rfl) (hkeeps.evaluate n),
    fun n => hzero (evaluateNode · n) (fun _ => rfl) (hkeeps.evaluateNode n),
    fun name nodes => hzero (invoke · name nodes) (fun _ => rfl) (hkeeps.invoke name nodes),
    fun types nodes => hzero (evaluateArguments · types nodes) (fun _ => rfl) (hkeeps.evaluateArguments types nodes),
    fun f nodes => hzero (invokeFunction · f nodes) (fun _ => rfl) (hkeeps.invokeFunction f nodes),
    fun params nodes => hzero (bindArguments · params nodes) (fun _ => rfl) (hkeeps.bindArguments params nodes),
    fun nodes => hzero (runBlock · nodes) (fun _ => rfl) (hkeeps.runBlock nodes),
    fun n => hzero (runStatement · n) (fun _ => rfl) (hkeeps.runStatement n),
    fun condition body => hzero (runLoop · condition body) (fun _ => rfl) (hkeeps.runLoop condition body)⟩

variable {fuel extra : Nat} (ih : Related (Ahead more (extra = 0)) fuel (fuel + extra))

include ih

/-- The body of a call runs in a record of its own, and its fault is located there; the tokens play no part in this. -/
theorem callWith_ahead (f : Function) (line : Int) (depth : Nat) (bound : List (Param × Cell)) :
    Ahead more (extra = 0) (callWith fuel f line depth bound) (callWith (fuel + extra) f line depth bound) := by
  refine ⟨?_, fun n => ?_⟩
  · rintro m _ ⟨reader, rfl, hreader⟩
    rw [callWith_eq, callWith_eq]
    split_ifs
    · have hbody := (ih.runBlock f.body.children).ahead ((m.tellCall f line depth bound).enter f line bound)
        ((({ m with reader } : Machine).tellCall f line depth bound).enter f line bound) ⟨reader, rfl, hreader⟩
      generalize runBlock fuel f.body.children _ = o at hbody ⊢
      generalize runBlock (fuel + extra) f.body.children _ = o' at hbody ⊢
      cases hbody with
      | done hn =>
          obtain ⟨reader', rfl, hreader'⟩ := hn
          exact .done ⟨reader', rfl, hreader'⟩
      | failed hn =>
          obtain ⟨reader', rfl, hreader'⟩ := hn
          exact .failed ⟨reader', rfl, hreader'⟩
      | unfinished h =>
          refine .unfinished fun hextra => ?_
          rw [h hextra]
      | starved hcause hmore hleaves =>
          refine .starved ((cause_report _ _).trans hcause) hmore ?_
          cases o' <;> exact hleaves
    · exact .failed ⟨reader, rfl, hreader⟩
    · exact .failed ⟨reader, rfl, hreader⟩
  · rw [callWith_eq]
    split_ifs
    · have hbody := (ih.runBlock f.body.children).keeps ((n.tellCall f line depth bound).enter f line bound)
      generalize runBlock (fuel + extra) f.body.children _ = o at hbody ⊢
      cases o <;> exact hbody
    · exact List.suffix_refl _
    · exact List.suffix_refl _

theorem invokeFunction_ahead (f : Function) (nodes : List Node) :
    Ahead more (extra = 0) (invokeFunction (fuel + 1) f nodes) (invokeFunction (fuel + extra + 1) f nodes) := by
  rw [invokeFunction_eq, invokeFunction_eq]
  exact Ahead.congruence.guard (Ahead.site.bind fun site => (ih.bindArguments f.params nodes).bind fun bound =>
    callWith_ahead ih f site.1 site.2 bound)

theorem argumentCell_ahead (p : Param) (n : Node) :
    Ahead more (extra = 0) (argumentCell fuel p n) (argumentCell (fuel + extra) p n) := by
  unfold argumentCell
  split_ifs
  · exact .variableCell _
  · exact .fail _
  · exact (ih.evaluate n).bind fun v => .alloc v

end Runs

/-- The induction over the evaluator, on the fuel of the first run. -/
theorem runsAhead (more : List String) (fuel extra : Nat) :
    Related (Eval.Ahead more (extra = 0)) fuel (fuel + extra) := by
  induction fuel with
  | zero => exact runsAhead_zero extra
  | succ fuel ih =>
      rw [Nat.add_right_comm]
      exact Eval.Ahead.congruence.related_succ ih (.perform fuel extra) (invokeFunction_ahead ih)

end Rover
