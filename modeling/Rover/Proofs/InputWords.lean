import Rover.Proofs.MoreInput
import Rover.Proofs.Origin

/-!
# Tokens that a run reads

What a run does depends on the words of its input text, and only on those that it reads. It fails for want of input exactly
if it comes to a read statement when no word is left: no other check fails for this cause, and a fault of a task is one of the
task that has started it (`Task.Starts.breaks`).
-/

namespace Rover

open Filter (atTop)

/-! ### Faults on the way out -/

theorem Machine.Ahead.refl (m : Machine) : m.Ahead [] m := ⟨m.reader, rfl, (List.append_nil _).symm⟩

theorem Machine.Ahead.input_eq {m n : Machine} (h : m.Ahead [] n) : n.input = m.input := by
  obtain ⟨reader, rfl, hreader⟩ := h
  exact hreader.trans (List.append_nil _)

theorem Machine.Ahead.input_eq_nil {more : List String} {m n : Machine} (h : m.Ahead more n) (hn : n.input = more) :
    m.input = [] := by
  obtain ⟨reader, rfl, hreader⟩ := h
  have happend : m.input ++ more = more := hreader.symm.trans hn
  exact List.append_left_eq_self.1 happend

theorem Outcome.Leaves.of_machine? {α : Type} {P : Machine → Prop} {o : Outcome α} {m : Machine} (h : o.Leaves P)
    (hm : o.machine? = some m) : P m := by
  cases o with
  | done a n =>
      cases hm
      exact h
  | failed e n =>
      cases hm
      exact h
  | unfinished => cases hm

/-- The computation fails for this cause with all large amounts of fuel, on all machines that have the tokens of this one. -/
def Breaks {α : Type} (x : Nat → Eval α) (m : Machine) (c : Cause) : Prop :=
  ∀ᶠ fuel in atTop, ∀ n, m.Ahead [] n → ∃ e n', x fuel n = .failed e n' ∧ e.cause = c

/-- The computation gives an answer with all large amounts of fuel, on all machines that have the tokens of this one. -/
def Settles {α : Type} (x : Nat → Eval α) (m : Machine) (a : α) (m' : Machine) : Prop :=
  ∀ᶠ fuel in atTop, ∀ n, m.Ahead [] n → ∃ n', x fuel n = .done a n' ∧ m'.Ahead [] n'

section Settles

variable {α β : Type} {x : Nat → Eval α} {f : Nat → α → Eval β} {m m' : Machine} {a : α} {c : Cause}

theorem Gives.settles (h : Gives x m a m')
    (hx : ∀ fuel extra, Eval.Ahead [] (extra = 0) (x fuel) (x (fuel + extra))) : Settles x m a m' := by
  obtain ⟨fuel, h⟩ := h
  filter_upwards [Filter.eventually_ge_atTop fuel] with k hk n hn
  obtain ⟨extra, rfl⟩ := Nat.exists_eq_add_of_le hk
  have hahead := (hx fuel extra).ahead m n hn
  rw [h] at hahead
  generalize x (fuel + extra) n = o at hahead ⊢
  cases hahead with
  | done hn' => exact ⟨_, rfl, hn'⟩

theorem Settles.of_ahead {y : Eval α} (h : y m = .done a m') (hy : Eval.Ahead [] True y y) : Settles (fun _ => y) m a m' := by
  refine .of_forall fun _ n hn => ?_
  have hahead := hy.ahead m n hn
  rw [h] at hahead
  dsimp only
  generalize y n = o at hahead ⊢
  cases hahead with
  | done hn' => exact ⟨_, rfl, hn'⟩

theorem Settles.breaks (h : Settles x m a m') (hf : Breaks (f · a) m' c) : Breaks (fun fuel => x fuel >>= f fuel) m c := by
  filter_upwards [h, hf] with fuel hx hf n hn
  obtain ⟨n₁, hdone, hn₁⟩ := hx n hn
  rw [Eval.bind_of_done hdone]
  exact hf n₁ hn₁

theorem Breaks.bind (h : Breaks x m c) : Breaks (fun fuel => x fuel >>= f fuel) m c := by
  filter_upwards [h] with fuel hx n hn
  obtain ⟨e, n', hfailed, he⟩ := hx n hn
  exact ⟨e, n', Eval.bind_of_failed hfailed, he⟩

/-- Only large amounts of fuel count. -/
theorem Breaks.succ (h : Breaks (fun fuel => x (fuel + 1)) m c) : Breaks x m c := by
  rw [Breaks, ← Filter.map_add_atTop_eq_nat 1]
  exact h

theorem Settles.setLine (line : Int) : Settles (fun _ => Eval.setLine line) m () { m with line } :=
  .of_ahead rfl (.setLine line)

theorem Settles.ok {r : Except Cause α} (h : r = .ok a) : Settles (fun _ => Eval.ofExcept id r) m a m :=
  .of_ahead (by rw [h]; rfl) (Eval.Ahead.congruence.ofExcept r)

theorem Settles.boolean {x : Nat → Eval Value} {f : Nat → Value → Bool → Eval β} {b : Bool}
    (h : Settles x m (.boolean b) m') (hf : Breaks (f · (.boolean b) b) m' c) :
    Breaks (fun fuel => x fuel >>= fun v => Eval.ofExcept id v.asBoolean >>= f fuel v) m c :=
  h.breaks ((Settles.ok (a := b) rfl).breaks hf)

end Settles

section Gives

variable {m m' : Machine}

theorem settles_evaluate {n : Node} {v : Value} (h : Gives (evaluate · n) m v m') : Settles (evaluate · n) m v m' :=
  h.settles fun fuel extra => (runsAhead [] fuel extra).evaluate n

theorem settles_runStatement {n : Node} {r : Option Value} (h : Gives (runStatement · n) m r m') :
    Settles (runStatement · n) m r m' :=
  h.settles fun fuel extra => (runsAhead [] fuel extra).runStatement n

theorem settles_runBlock {nodes : List Node} {r : Option Value} (h : Gives (runBlock · nodes) m r m') :
    Settles (runBlock · nodes) m r m' :=
  h.settles fun fuel extra => (runsAhead [] fuel extra).runBlock nodes

theorem settles_bindArguments {params : List Param} {nodes : List Node} {bound : List (Param × Cell)}
    (h : Gives (bindArguments · params nodes) m bound m') : Settles (bindArguments · params nodes) m bound m' :=
  h.settles fun fuel extra => (runsAhead [] fuel extra).bindArguments params nodes

theorem settles_argumentCell {p : Param} {n : Node} {cell : Cell} (h : Gives (argumentCell · p n) m cell m') :
    Settles (argumentCell · p n) m cell m' :=
  h.settles fun fuel extra => argumentCell_ahead (runsAhead [] fuel extra) p n

end Gives

/-- The task fails for this cause with all large amounts of fuel. -/
def Task.Breaks (m : Machine) (c : Cause) : Task → Prop
  | evaluate n => Rover.Breaks (Rover.evaluate · n) m c
  | node n => Rover.Breaks (evaluateNode · n) m c
  | invoke name nodes => Rover.Breaks (Rover.invoke · name nodes) m c
  | arguments types nodes => Rover.Breaks (evaluateArguments · types nodes) m c
  | call f nodes => Rover.Breaks (invokeFunction · f nodes) m c
  | binding params nodes => Rover.Breaks (bindArguments · params nodes) m c
  | block nodes => Rover.Breaks (runBlock · nodes) m c
  | statement n => Rover.Breaks (runStatement · n) m c
  | loop condition body => Rover.Breaks (runLoop · condition body) m c

section Steps

variable {m m' : Machine} {c : Cause} {k : Kind} {l : Int} {t : String} {v : Option Value}

theorem breaks_operand {a : Node} {cs : List Node} (hk : k.isOperator = true) (ha : Breaks (evaluate · a) m c) :
    Breaks (evaluateNode · ⟨k, l, t, v, a :: cs⟩) m c := by
  refine Breaks.succ ?_
  simp only [evaluateNode_operator hk]
  rcases cs with _ | ⟨b, cs⟩
  · exact ha.bind
  · unfold operation
    dsimp only
    split
    · exact ha.bind
    · exact ha.bind
    · exact ha.bind

theorem breaks_right {a b : Node} {cs : List Node} {x : Value} (hk : k.isOperator = true)
    (ha : Gives (evaluate · a) m x m') (hx : k.needsRight x) (hb : Breaks (evaluate · b) m' c) :
    Breaks (evaluateNode · ⟨k, l, t, v, a :: b :: cs⟩) m c := by
  refine Breaks.succ ?_
  simp only [evaluateNode_operator hk]
  unfold operation
  dsimp only
  split
  · cases hx
    exact (settles_evaluate ha).boolean hb.bind
  · cases hx
    exact (settles_evaluate ha).boolean hb.bind
  · exact (settles_evaluate ha).breaks hb.bind

/-- The body of a call fails: the fault is located, and keeps its cause. -/
theorem breaks_body {f : Function} {nodes : List Node} {bound : List (Param × Cell)}
    (hlength : f.params.length = nodes.length) (hbound : Gives (bindArguments · f.params nodes) m bound m')
    (hadmits : m'.options.Admits m.stack.depth f.params.length)
    (hbody : Breaks (runBlock · f.body.children) ((m'.tellCall f m.line m.stack.depth bound).enter f m.line bound) c) :
    Breaks (invokeFunction · f nodes) m c := by
  refine Breaks.succ ?_
  filter_upwards [settles_bindArguments hbound, hbody] with fuel hbound hbody n hn
  obtain ⟨n₁, hdone, ⟨reader, rfl, hreader⟩⟩ := hbound n hn
  obtain ⟨e, n', hfailed, he⟩ := hbody _ ⟨reader, rfl, hreader⟩
  obtain ⟨_, rfl, -⟩ := hn
  refine ⟨n'.report e, n'.leave, ?_, (cause_report n' e).trans he⟩
  rw [invokeFunction_of_bound hlength hdone, callWith_eq, if_pos hadmits.1, if_pos hadmits.2]
  have hrun : runBlock fuel f.body.children
      ((({ m' with reader } : Machine).tellCall f m.line m.stack.depth bound).enter f m.line bound) = .failed e n' := hfailed
  dsimp only
  rw [hrun]

end Steps

/-- No task catches the fault of one that it has started. -/
theorem Task.Starts.breaks {t t' : Task} {m m' : Machine} {c : Cause} (h : t.Starts m t' m') (ht : t'.Breaks m' c) :
    t.Breaks m c := by
  cases h with
  | @node n =>
      refine Breaks.succ ?_
      filter_upwards [ht] with fuel ht n' hn
      obtain ⟨reader, rfl, hreader⟩ := hn
      obtain ⟨e, n', hfailed, he⟩ := ht _ ⟨reader, rfl, hreader⟩
      refine ⟨e, n', ?_, he⟩
      rw [evaluate_eq]
      dsimp only at hfailed ⊢
      rw [hfailed]
  | operand hk => exact breaks_operand hk ht
  | right hk ha hx => exact breaks_right hk ha hx ht
  | call =>
      refine Breaks.succ ?_
      simp only [evaluateNode_call]
      exact Breaks.bind ht
  | operation hname hcheck =>
      refine Breaks.succ ?_
      simp only [invoke_operation hname]
      exact (Settles.of_ahead hcheck (Eval.Ahead.congruence.precheck _ _)).breaks (Breaks.bind ht)
  | argument =>
      refine Breaks.succ ?_
      simp only [evaluateArguments]
      exact Breaks.bind ht
  | arguments ha hcheck =>
      refine Breaks.succ ?_
      simp only [evaluateArguments]
      exact (settles_evaluate ha).breaks ((Settles.ok hcheck).breaks (Breaks.bind ht))
  | function hname hfunction =>
      refine Breaks.succ ?_
      simp only [invoke_function hname]
      exact (Settles.of_ahead hfunction (.function _)).breaks ht
  | @parameters f nodes hlength =>
      refine Breaks.succ ?_
      simp only [invokeFunction_eq, if_neg (not_not.2 hlength)]
      have hsite : Settles (fun _ => Eval.site) m (m.line, m.stack.depth) m := .of_ahead rfl .site
      exact hsite.breaks (Breaks.bind ht)
  | parameter hp =>
      refine Breaks.succ ?_
      simp only [bindArguments_cons, argumentCell, hp, Bool.false_eq_true, if_false]
      exact (Settles.setLine _).breaks (Breaks.bind (Breaks.bind ht))
  | binding hcell =>
      refine Breaks.succ ?_
      simp only [bindArguments_cons]
      exact (Settles.setLine _).breaks ((settles_argumentCell hcell).breaks (Breaks.bind ht))
  | body hlength hbound hdepth => exact breaks_body hlength hbound hdepth ht
  | statement =>
      refine Breaks.succ ?_
      simp only [runBlock]
      exact Breaks.bind ht
  | block hstatement =>
      refine Breaks.succ ?_
      simp only [runBlock]
      exact (settles_runStatement hstatement).breaks ht
  | assigned =>
      refine Breaks.succ ?_
      simp only [runStatement_assign]
      exact (Settles.setLine _).breaks (Breaks.bind ht)
  | condition =>
      refine Breaks.succ ?_
      simp only [runStatement_ifElse]
      exact (Settles.setLine _).breaks (Breaks.bind ht)
  | consequent hc =>
      refine Breaks.succ ?_
      simp only [runStatement_ifElse]
      exact (Settles.setLine _).breaks ((settles_evaluate hc).boolean ht)
  | alternative hc =>
      refine Breaks.succ ?_
      simp only [runStatement_ifElse]
      exact (Settles.setLine _).breaks ((settles_evaluate hc).boolean ht)
  | loop =>
      refine Breaks.succ ?_
      simp only [runStatement_whileDo]
      exact (Settles.setLine _).breaks ht
  | test =>
      refine Breaks.succ ?_
      simp only [runLoop]
      exact Breaks.bind ht
  | round hc =>
      refine Breaks.succ ?_
      simp only [runLoop]
      exact (settles_evaluate hc).boolean (Breaks.bind ht)
  | again hc hbody =>
      refine Breaks.succ ?_
      simp only [runLoop]
      exact (settles_evaluate hc).boolean ((settles_runBlock hbody).breaks ht)
  | returned =>
      refine Breaks.succ ?_
      simp only [runStatement_ret]
      exact (Settles.setLine _).breaks (Breaks.bind ht)
  | written hliteral =>
      refine Breaks.succ ?_
      simp only [runStatement_write, writeNode_value hliteral]
      exact (Settles.setLine _).breaks (Breaks.bind ht)
  | called =>
      refine Breaks.succ ?_
      simp only [runStatement_call]
      exact (Settles.setLine _).breaks (Breaks.bind ht)

theorem Machine.Visits.breaks {m n : Machine} {first t : Task} {c : Cause} (h : m.Visits first t n) (ht : t.Breaks n c) :
    first.Breaks m c := by
  induction h with
  | first => exact ht
  | step _ hstarts ih => exact ih (hstarts.breaks ht)

/-! ### Reads without a token -/

/-- A run from a task comes to a read statement when no token is left. -/
def Machine.Starves (m : Machine) (first : Task) : Prop :=
  ∃ read n, m.Visits first (.statement read) n ∧ read.kind = .read ∧ n.input = []

theorem breaks_read {n : Node} (hn : n.kind = .read) {m : Machine} (hm : m.input = []) :
    (Task.statement n).Breaks m .noInput := by
  obtain ⟨k, l, t, v, cs⟩ := n
  cases hn
  refine Breaks.succ (.of_forall fun fuel n' hn' => ?_)
  have hinput : ({ n' with line := l } : Machine).input = [] := hn'.input_eq.trans hm
  refine ⟨.bare .noInput, ({ n' with line := l } : Machine).taken, ?_, rfl⟩
  dsimp only
  rw [runStatement]
  have hline : Eval.setLine l n' = .done () { n' with line := l } := rfl
  refine (Eval.bind_of_done hline).trans ?_
  exact Eval.bind_of_failed (Eval.nextToken_of_nil hinput)

theorem Machine.Starves.breaks {m : Machine} {first : Task} (h : m.Starves first) : first.Breaks m .noInput := by
  obtain ⟨read, n, hvisits, hread, hinput⟩ := h
  exact hvisits.breaks (breaks_read hread hinput)

/-! ### Checks that do not look at the input -/

namespace Eval

/-- The computation never fails for want of input. -/
def Sated {α : Type} (x : Eval α) : Prop := ∀ m e m', x m = .failed e m' → e.cause ≠ .noInput

namespace Sated

variable {α β : Type}

theorem pure (a : α) : Sated (Pure.pure a : Eval α) := by
  intro m e m' h
  cases h

theorem fail {c : Cause} (hc : c ≠ .noInput) : Sated (Eval.fail c : Eval α) := by
  intro m e m' h
  cases h
  exact hc

theorem bind {x : Eval α} {f : α → Eval β} (hx : Sated x) (hf : ∀ a, Sated (f a)) : Sated (x >>= f) := by
  intro m e m' h
  rcases Eval.failed_of_bind h with hfailed | ⟨a, m₁, -, hfailed⟩
  · exact hx m e m' hfailed
  · exact hf a m₁ e m' hfailed

theorem ask (question : World → Except WorldError α) : Sated (Eval.ask question) := by
  intro m e m' h
  unfold Eval.ask at h
  split at h
  · cases h
    exact nofun
  · cases h

theorem world (operation : World → Except WorldError (Change α)) (narrate : α → World → List String) :
    Sated (Eval.world operation narrate) := by
  intro m e m' h
  unfold Eval.world at h
  split at h
  · cases h
    exact nofun
  · cases h

theorem function (name : String) : Sated (Eval.function name) := by
  intro m e m' h
  unfold Eval.function at h
  split at h
  · cases h
    exact nofun
  · split at h
    · cases h
    · cases h
      exact nofun

theorem precheck (b : Builtin) (count : Nat) : Sated (b.precheck count) := by
  unfold Builtin.precheck
  dsimp only
  split_ifs
  · exact (Sated.ask _).bind fun _ => Sated.fail nofun
  · exact (Sated.ask _).bind fun _ => Sated.pure ()
  · exact Sated.fail nofun
  · exact Sated.pure ()

theorem perform (fuel : Nat) (b : Builtin) (values : List Value) : Sated (b.perform fuel values) := by
  unfold Builtin.perform
  split
  · exact (Sated.world _ _).bind fun _ => Sated.pure _
  · intro m e m' h
    unfold Builtin.performMove at h
    split at h
    · cases h
    · exact (Sated.world _ _).bind (fun _ => Sated.pure Value.void) m e m' h
  · exact (Sated.world _ _).bind fun _ => Sated.pure _
  · exact (Sated.world _ _).bind fun _ => Sated.pure _
  · exact (Sated.world _ _).bind fun _ => Sated.pure _
  · exact (Sated.ask _).bind fun _ => Sated.pure _
  · exact (Sated.ask _).bind fun _ => Sated.pure _
  · exact (Sated.ask _).bind fun _ => Sated.pure _
  · exact (Sated.ask _).bind fun _ => Sated.pure _
  · exact Sated.fail nofun

end Sated

end Eval

theorem asBoolean_ne_noInput (v : Value) : v.asBoolean ≠ .error .noInput := by
  cases v <;> exact nofun

theorem check_ne_noInput (t : ArgumentType) (v : Value) : t.check v ≠ .error .noInput := by
  unfold ArgumentType.check
  split <;> exact nofun

theorem mapError_ne_noInput {α : Type} (r : Except OperandError α) : r.mapError Cause.operand ≠ .error .noInput := by
  cases r <;> exact nofun

theorem unaryValue_ne_noInput (k : Kind) (v : Value) : unaryValue k v ≠ .error .noInput := by
  unfold unaryValue
  split
  · split_ifs <;> exact nofun
  · exact mapError_ne_noInput _
  · exact mapError_ne_noInput _
  · exact nofun

theorem arithmeticOperand_ne_noInput (op : ArithmeticOp) (v : Value) : arithmeticOperand op v ≠ .error .noInput := by
  unfold arithmeticOperand
  split <;> exact nofun

theorem binaryValue_ne_noInput (k : Kind) (x y : Value) : binaryValue k x y ≠ .error .noInput := by
  unfold binaryValue
  split
  · exact mapError_ne_noInput _
  · rename_i op
    have hx := arithmeticOperand_ne_noInput op x
    have hy := arithmeticOperand_ne_noInput op y
    generalize arithmeticOperand op x = r at hx ⊢
    generalize arithmeticOperand op y = r' at hy ⊢
    cases r with
    | error c => exact fun h => hx (congrArg Except.error (Except.error.inj h))
    | ok u =>
        cases r' with
        | error c => exact fun h => hy (congrArg Except.error (Except.error.inj h))
        | ok u => exact mapError_ne_noInput _
  · exact nofun

theorem statementDefect?_ne_noInput (k : Kind) (cs : List Node) : statementDefect? k cs ≠ some .noInput := by
  unfold statementDefect?
  split <;> exact nofun

/-- The only check that fails for want of input is that of a read statement. -/
theorem Task.Fails.read {t : Task} {m m' : Machine} {c : Cause} (h : t.Fails m c m') (hc : c = .noInput) :
    ∃ n, t = .statement n ∧ n.kind = .read ∧ m.input = [] := by
  cases h with
  | input hinput => exact ⟨_, rfl, rfl, hinput⟩
  | unary _ _ herror => exact absurd (hc ▸ herror) (unaryValue_ne_noInput _ _)
  | left _ _ herror => exact absurd (hc ▸ herror) (asBoolean_ne_noInput _)
  | right _ _ _ _ herror => exact absurd (hc ▸ herror) (asBoolean_ne_noInput _)
  | binary _ _ _ herror => exact absurd (hc ▸ herror) (binaryValue_ne_noInput _ _ _)
  | precheck _ hfailed => exact absurd hc (Eval.Sated.precheck _ _ _ _ _ hfailed)
  | argument _ herror => exact absurd (hc ▸ herror) (check_ne_noInput _ _)
  | perform _ _ hfailed => exact absurd hc (Eval.Sated.perform _ _ _ _ _ _ hfailed)
  | lookup _ hfailed => exact absurd hc (Eval.Sated.function _ _ _ _ hfailed)
  | defect hdefect => exact absurd (hc ▸ hdefect) (statementDefect?_ne_noInput _ _)
  | condition _ herror => exact absurd (hc ▸ herror) (asBoolean_ne_noInput _)
  | test _ herror => exact absurd (hc ▸ herror) (asBoolean_ne_noInput _)
  | _ => cases hc

/-! ### Calls -/

namespace Machine

variable {m : Machine} {fuel : Nat} {name : String} {nodes : List Node}

/-- A call with more tokens. -/
theorem call_ahead (more : List String) (fuel : Nat) (name : String) (nodes : List Node) {m n : Machine}
    (h : m.Ahead more n) : (call fuel name nodes m).Ahead more True (call fuel name nodes n) := by
  have hprogram : n.program = m.program := by
    obtain ⟨reader, rfl, -⟩ := h
    rfl
  obtain hp | ⟨p, hp⟩ := Option.eq_none_or_eq_some m.program
  · rw [call_of_no_program hp, call_of_no_program (hprogram.trans hp)]
    exact .failed h
  · rw [call_of_program hp, call_of_program (hprogram.trans hp)]
    have hinvoke := ((runsAhead more fuel 0).invoke name nodes).ahead m n h
    rw [Nat.add_zero] at hinvoke
    generalize invoke fuel name nodes m = o at hinvoke ⊢
    generalize invoke fuel name nodes n = o' at hinvoke ⊢
    cases hinvoke with
    | done hn => exact .done hn
    | failed hn =>
        obtain ⟨reader, rfl, hreader⟩ := hn
        exact .failed ⟨reader, rfl, hreader⟩
    | unfinished hsame =>
        rw [hsame rfl]
        exact .unfinished fun _ => rfl
    | starved hcause hmore hleaves =>
        refine .starved ((cause_locate _ _).trans hcause) hmore ?_
        cases o' <;> exact hleaves

theorem input_of_call {m' : Machine} (h : (call fuel name nodes m).machine? = some m') : m'.input <:+ m.input :=
  (stable_input.call fuel name nodes m).of_machine? h

/-- The same machine with a text to read from the start. -/
def reading (m : Machine) (text : String) : Machine := { m with reader := .ofText text }

theorem input_reading (m : Machine) (text : String) : (m.reading text).input = words text.toList :=
  WordReader.remaining_ofText text

/-- The machine with some tokens left. -/
def left (m : Machine) (tokens : List String) : Machine := { m with reader := ⟨tokens, []⟩ }

theorem left_ahead (m : Machine) {tokens more : List String} {text : String} (h : words text.toList = tokens ++ more) :
    (m.left tokens).Ahead more (m.reading text) := by
  have htokens : (m.left tokens).input = tokens := List.append_nil _
  refine ⟨.ofText text, rfl, ?_⟩
  rw [htokens, WordReader.remaining_ofText, h]

/-- The same answer or the same fault, on machines that differ in their readers only. -/
def Agree (P : Machine → Machine → Prop) : Outcome Value → Outcome Value → Prop :=
  Outcome.Alike (fun v v' n n' => v' = v ∧ (∃ reader, n' = { n with reader }) ∧ P n n')
    fun e e' n n' => e' = e ∧ (∃ reader, n' = { n with reader }) ∧ P n n'

/-- If a run that takes `k` tokens does not fail for want of another one, it only depends on them: the run with nothing but
these tokens stands between it and every run of a text that starts with them. -/
theorem agree_of_take {a b : String} {n : Machine} {k : Nat}
    (hn : (call fuel name nodes (m.reading a)).machine? = some n) (hk : n.input = (words a.toList).drop k)
    (hfed : ∀ e n, call fuel name nodes (m.reading a) = .failed e n → e.cause ≠ .noInput)
    (hb : (words b.toList).take k = (words a.toList).take k) :
    Agree (fun _ n' => n'.input = (words b.toList).drop k) (call fuel name nodes (m.reading a))
      (call fuel name nodes (m.reading b)) := by
  have ha' := call_ahead _ fuel name nodes (m.left_ahead (List.take_append_drop k (words a.toList)).symm)
  have hb' := call_ahead _ fuel name nodes
    (m.left_ahead (hb ▸ (List.take_append_drop k (words b.toList)).symm : words b.toList = (words a.toList).take k ++ _))
  generalize call fuel name nodes (m.reading a) = o at hn hfed ha' ⊢
  generalize call fuel name nodes (m.reading b) = o' at hb' ⊢
  generalize call fuel name nodes (m.left _) = o₀ at ha' hb'
  cases ha' with
  | done h =>
      cases hn
      have hempty := h.input_eq_nil hk
      obtain ⟨reader, rfl, -⟩ := h
      cases hb' with
      | done h' =>
          obtain ⟨reader', rfl, hreader'⟩ := h'
          rw [hempty] at hreader'
          exact .done ⟨rfl, ⟨reader', rfl⟩, hreader'⟩
  | failed h =>
      cases hn
      have hempty := h.input_eq_nil hk
      have hcause := hfed _ _ rfl
      obtain ⟨reader, rfl, -⟩ := h
      cases hb' with
      | failed h' =>
          obtain ⟨reader', rfl, hreader'⟩ := h'
          rw [hempty] at hreader'
          exact .failed ⟨rfl, ⟨reader', rfl⟩, hreader'⟩
      | starved hnoInput => exact absurd hnoInput hcause
  | starved _ _ hleaves =>
      have hless : n.input.length < ((words a.toList).drop k).length := hleaves.of_machine? hn
      rw [hk] at hless
      exact absurd hless (Nat.lt_irrefl _)
  | unfinished h =>
      rw [h trivial] at hn
      cases hn

theorem agree_of_words {a b : String} (h : words b.toList = words a.toList) :
    Agree (fun n n' => n'.input = n.input) (call fuel name nodes (m.reading a)) (call fuel name nodes (m.reading b)) := by
  have hahead : (m.reading a).Ahead [] (m.reading b) := by
    refine ⟨.ofText b, rfl, ?_⟩
    rw [List.append_nil, input_reading, WordReader.remaining_ofText, h]
  have hcall := call_ahead [] fuel name nodes hahead
  generalize call fuel name nodes (m.reading a) = o at hcall ⊢
  generalize call fuel name nodes (m.reading b) = o' at hcall ⊢
  cases hcall with
  | done hn =>
      have hinput := hn.input_eq
      obtain ⟨reader, rfl, -⟩ := hn
      exact .done ⟨rfl, ⟨reader, rfl⟩, hinput⟩
  | failed hn =>
      have hinput := hn.input_eq
      obtain ⟨reader, rfl, -⟩ := hn
      exact .failed ⟨rfl, ⟨reader, rfl⟩, hinput⟩
  | starved _ hmore => exact absurd rfl hmore
  | unfinished hsame =>
      rw [hsame trivial]
      exact .unfinished

theorem starves_of_call {p : Program} (hp : m.program = some p) {e : Fault} {m' : Machine}
    (h : call fuel name nodes m = .failed e m') (he : e.cause = .noInput) : m.Starves (.invoke name nodes) := by
  obtain ⟨t, ts, n, n', htrail, hfails, -⟩ := origin_of_call hp h
  obtain ⟨read, rfl, hread, hinput⟩ := hfails.read he
  exact ⟨read, n, htrail.visits, hread, hinput⟩

/-- A run that comes to a read statement without a token fails there, as soon as the fuel is enough for it to end. -/
theorem Starves.call {p : Program} (hp : m.program = some p) (h : m.Starves (.invoke name nodes)) :
    (∃ fuel, call fuel name nodes m ≠ .unfinished) ∧
      ∀ fuel, call fuel name nodes m ≠ .unfinished →
        ∃ e m', call fuel name nodes m = .failed e m' ∧ e.cause = .noInput := by
  obtain ⟨bound, hbreaks⟩ := Filter.eventually_atTop.1 h.breaks
  have hfails (k : Nat) (hk : bound ≤ k) : ∃ e m', invoke k name nodes m = .failed e m' ∧ e.cause = .noInput :=
    hbreaks k hk m (.refl m)
  refine ⟨⟨bound, ?_⟩, fun fuel hends => ?_⟩
  · obtain ⟨e, m', hfailed, -⟩ := hfails bound le_rfl
    rw [call_of_program hp, hfailed]
    exact nofun
  · obtain ⟨e, m', hfailed, he⟩ := hfails (fuel + bound) (Nat.le_add_left _ _)
    have hahead := ((runsAhead [] fuel bound).invoke name nodes).ahead m m (.refl m)
    rw [call_of_program hp] at hends ⊢
    rw [hfailed] at hahead
    generalize invoke fuel name nodes m = o at hends hahead ⊢
    cases hahead with
    | failed => exact ⟨_, _, rfl, (cause_locate _ _).trans he⟩
    | starved _ hmore => exact absurd rfl hmore
    | unfinished => exact absurd rfl hends

end Machine

/-- What a call does depends on the words of the text that it reads from, and only on those that it reads. Texts with the same
words make calls with the same outcome, but for how the tokens are kept that are left. If the call takes `k` tokens and does
not fail for want of input, so do the calls with the texts that have the same `k` first words. And it fails for want of input
exactly if it comes to a read statement when no word of the text is left. -/
theorem call_depends_on_words {m : Machine} {p : Program} (hp : m.program = some p) (fuel : Nat) (name : String)
    (nodes : List Node) (a : String) :
    (∀ b : String, words b.toList = words a.toList →
      Machine.Agree (fun n n' => n'.input = n.input) (Machine.call fuel name nodes (m.reading a))
        (Machine.call fuel name nodes (m.reading b))) ∧
      (∀ n, (Machine.call fuel name nodes (m.reading a)).machine? = some n →
        ∃ k ≤ (words a.toList).length, n.input = (words a.toList).drop k ∧
          ((∀ e n, Machine.call fuel name nodes (m.reading a) = .failed e n → e.cause ≠ .noInput) →
            ∀ b : String, (words b.toList).take k = (words a.toList).take k →
              Machine.Agree (fun _ n' => n'.input = (words b.toList).drop k)
                (Machine.call fuel name nodes (m.reading a)) (Machine.call fuel name nodes (m.reading b)))) ∧
      (Machine.call fuel name nodes (m.reading a) ≠ .unfinished →
        ((∃ e n, Machine.call fuel name nodes (m.reading a) = .failed e n ∧ e.cause = .noInput) ↔
          (m.reading a).Starves (.invoke name nodes))) ∧
      ((m.reading a).Starves (.invoke name nodes) →
        ∃ enough, Machine.call enough name nodes (m.reading a) ≠ .unfinished) := by
  have hprogram : (m.reading a).program = some p := hp
  refine ⟨fun b hb => Machine.agree_of_words hb, ?_, fun hends => ⟨?_, fun h => (h.call hprogram).2 fuel hends⟩,
    fun h => (h.call hprogram).1⟩
  · intro n hn
    obtain ⟨taken, htaken⟩ := Machine.input_of_call hn
    rw [Machine.input_reading] at htaken
    have hdrop : n.input = (words a.toList).drop taken.length := by rw [← htaken, List.drop_left]
    refine ⟨taken.length, ?_, hdrop, fun hfed b hb => Machine.agree_of_take hn hdrop hfed hb⟩
    rw [← htaken, List.length_append]
    exact Nat.le_add_right _ _
  · rintro ⟨e, n, hfailed, he⟩
    exact Machine.starves_of_call hprogram hfailed he

/-! A program that reads in a function and in its caller, with three texts. -/

namespace Factors

def source : String :=
  "func main()\n  read n;\n  write times(n);\nendfunc\nfunc times(n)\n  read k;\n  return n * k;\nendfunc\n"

def loaded? : Option Machine := ((Machine.initial .default "" .unobserved).loadSource source).toOption.map Prod.snd

/-- What is left of a text after a call, and the cause of its fault. -/
def ending (m : Machine) (text : String) : Option (List String) × Option Cause :=
  let o := Machine.call 40 "main" [] (m.reading text)
  (o.machine?.map Machine.input, o.fault?.map (·.1.cause))

theorem done_of_ending {m : Machine} {text : String} {rest : List String} (h : ending m text = (some rest, none)) :
    ∃ v n, Machine.call 40 "main" [] (m.reading text) = .done v n ∧ n.input = rest := by
  unfold ending at h
  generalize Machine.call 40 "main" [] (m.reading text) = o at h ⊢
  cases o with
  | done v n => exact ⟨v, n, rfl, Option.some.inj (Prod.mk.inj h).1⟩
  | failed e n => cases (Prod.mk.inj h).2
  | unfinished => cases (Prod.mk.inj h).1

theorem failed_of_ending {m : Machine} {text : String} {rest : List String} {c : Cause}
    (h : ending m text = (some rest, some c)) :
    ∃ e n, Machine.call 40 "main" [] (m.reading text) = .failed e n ∧ e.cause = c := by
  unfold ending at h
  generalize Machine.call 40 "main" [] (m.reading text) = o at h ⊢
  cases o with
  | done v n => cases (Prod.mk.inj h).2
  | failed e n => exact ⟨e, n, rfl, Option.some.inj (Prod.mk.inj h).2⟩
  | unfinished => cases (Prod.mk.inj h).1

/-- Two tokens are taken of the first text, so the second one makes the same call; and the third text has one token only. -/
theorem call_reads_two : ∃ m p v n n', loaded? = some m ∧ m.program = some p ∧
    Machine.call 40 "main" [] (m.reading "3 \n\n\t4 5\n") = .done v n ∧ n.input = ["5"] ∧
    Machine.call 40 "main" [] (m.reading "\u30003\u001f4") = .done v n' ∧ n'.input = [] ∧ n'.events = n.events ∧
    (m.reading "3\n").Starves (.invoke "main" []) := by
  have hends : loaded?.bind (fun m => m.program.map fun _ => (ending m "3 \n\n\t4 5\n", ending m "3\n")) =
      some ((some ["5"], none), some [], some .noInput) := by decide +kernel
  obtain ⟨m, hm, hends⟩ := Option.bind_eq_some_iff.1 hends
  obtain ⟨p, hp, hends⟩ := Option.map_eq_some_iff.1 hends
  obtain ⟨hfirst, hthird⟩ := Prod.mk.inj hends
  obtain ⟨v, n, hdone, hrest⟩ := done_of_ending hfirst
  obtain ⟨e, n₃, hfailed, hcause⟩ := failed_of_ending hthird
  obtain ⟨-, -, hstarves, -⟩ := call_depends_on_words hp 40 "main" [] "3\n"
  rw [hfailed] at hstarves
  obtain ⟨-, hagree, -⟩ := call_depends_on_words hp 40 "main" [] "3 \n\n\t4 5\n"
  obtain ⟨k, hk, hdrop, hagree⟩ := hagree n (by rw [hdone]; rfl)
  have hwords : words "3 \n\n\t4 5\n".toList = ["3", "4", "5"] := by decide +kernel
  rw [hrest, hwords] at hdrop
  rw [hwords] at hk
  have hk : k = 2 := by
    have hlength := congrArg List.length hdrop
    simp only [List.length_drop, List.length_cons, List.length_nil] at hlength
    omega
  subst hk
  rw [hdone] at hagree
  have hsame := hagree (fun _ _ h => by cases h) "\u30003\u001f4" (by decide +kernel)
  generalize hsecond : Machine.call 40 "main" [] (m.reading "\u30003\u001f4") = o at hsame
  cases hsame with
  | done h =>
      obtain ⟨rfl, ⟨reader, rfl⟩, hinput⟩ := h
      refine ⟨m, p, _, n, _, hm, hp, hdone, hrest, hsecond, hinput.trans (by decide +kernel), rfl, ?_⟩
      exact (hstarves fun h => by cases h).1 ⟨e, n₃, rfl, hcause⟩

end Factors

end Rover
