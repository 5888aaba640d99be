import Rover.Proofs.Origin

/-!
# What a log says about calls

A log tells of every call and of every return. Read from the start, it leaves some calls open, and these are at every moment
the records on the stack (`Machine.ToldSince`). Hence the report of a fault and the log agree: the call stack of the fault is the
list of the calls that the log leaves open, each at the line of the call that it makes, and the innermost at the line of the
fault. Only an overflow has a shorter report, since a call is told of before it has a record, and a report takes room itself.
-/

namespace Rover

/-! ### Open calls -/

/-- What an event makes of the open calls, innermost first: their functions and the lines they are called from. A call has to
give the number of calls open around it, and so has a return, which must be that of the innermost open call. -/
def Event.follow? (opens : List (String × Int)) : Event → Option (List (String × Int))
  | .called name _ line depth _ => if depth = opens.length then some ((name, line) :: opens) else none
  | .returned name _ _ _ depth =>
    match opens with
    | [] => none
    | c :: outer => if c.1 = name ∧ depth = outer.length then some outer else none
  | _ => some opens

/-- The calls that a log leaves open, if its calls and returns are properly nested. -/
def openCalls? (events : List Event) : Option (List (String × Int)) := events.foldlM Event.follow? []

/-- The call stack for a fault at a line inside open calls. -/
def callReport (line : Int) : List (String × Int) → List String
  | [] => []
  | c :: outer => (c.1 ++ " (line " ++ Numeral.ofInt line ++ ")") :: callReport c.2 outer

theorem entries_eq_callReport (line : Int) (frames : List Frame) :
    Frame.entries line frames = callReport line (frames.map Frame.head) := by
  induction frames generalizing line with
  | nil => rfl
  | cons f outer ih =>
      rw [Frame.entries, ih]
      rfl

/-- A report names the records on the stack without the innermost that it has lost. -/
theorem Machine.Reports.frames_eq_callReport {n : Machine} {k : Nat} {c : Cause} {e : Fault} (h : n.Reports k c e)
    (hc : c.category ≠ .internal) (hitems : n.options.traceItems = none) :
    e.frames = callReport n.line (n.stack.heads.drop k) := by
  rw [h.frames_eq hc hitems, entries_eq_callReport, List.map_drop]
  rfl

/-- What the log has been told since it was `before` leaves open the calls whose records are on the stack. -/
def Machine.ToldSince (m : Machine) (before : List Event) : Prop :=
  ∃ told, m.events.toList = before ++ told ∧ openCalls? told = some m.stack.heads

namespace Machine.ToldSince

variable {m m' : Machine} {before : List Event}

theorem of_eq (hm : m.ToldSince before) (hevents : m'.events = m.events) (hframes : m'.stack.heads = m.stack.heads) :
    m'.ToldSince before := by
  rw [ToldSince, hevents, hframes]
  exact hm

/-- Events that do not tell of calls. -/
theorem quiet (hm : m.ToldSince before) {es : List Event} (hes : ∀ e ∈ es, ∀ opens, Event.follow? opens e = some opens)
    (hevents : m'.events.toList = m.events.toList ++ es) (hframes : m'.stack.heads = m.stack.heads) : m'.ToldSince before := by
  have hquiet : es.foldlM Event.follow? m.stack.heads = some m.stack.heads := by
    clear hevents
    induction es with
    | nil => rfl
    | cons e es ih =>
        rw [List.foldlM_cons, hes e List.mem_cons_self]
        exact ih fun e' he' => hes e' (List.mem_cons_of_mem _ he')
  obtain ⟨told, htold, hopen⟩ := hm
  refine ⟨told ++ es, by rw [hevents, htold, List.append_assoc], ?_⟩
  rw [openCalls?] at hopen ⊢
  rw [List.foldlM_append, hopen, hframes]
  exact hquiet

theorem emit (hm : m.ToldSince before) {e : Event} (opens : List (String × Int)) {stack : Stack}
    (he : Event.follow? m.stack.heads e = some opens) (hstack : stack.heads = opens) (line : Int) :
    ({ m.emit e with stack, line } : Machine).ToldSince before := by
  obtain ⟨told, htold, hopen⟩ := hm
  refine ⟨told ++ [e], by rw [Machine.emit, Array.toList_push, htold, List.append_assoc], ?_⟩
  rw [openCalls?] at hopen ⊢
  rw [List.foldlM_append, hopen, hstack]
  simpa using he

theorem acts (hm : m.ToldSince before) (h : m.Acts m') : m'.ToldSince before := by
  obtain ⟨es, lines, hevents⟩ := h.events_eq
  refine hm.quiet ?_ hevents (by rw [h.stack_eq])
  intro e he opens
  simp only [List.mem_append, List.mem_map] at he
  rcases he with ⟨_, -, rfl⟩ | ⟨_, -, rfl⟩
  · rfl
  · rfl

/-- A call is told of. -/
theorem tellCall (hm : m.ToldSince before) (f : Function) (line : Int) (bound : List (Param × Cell)) :
    ∃ told, (m.tellCall f line m.stack.depth bound).events.toList = before ++ told ∧
      openCalls? told = some ((f.name, line) :: m.stack.heads) := by
  obtain ⟨told, htold, hopen⟩ := hm
  refine ⟨told ++ [_], by rw [Machine.tellCall, Machine.emit, Array.toList_push, htold, List.append_assoc], ?_⟩
  rw [openCalls?] at hopen ⊢
  rw [List.foldlM_append, hopen]
  simp [Event.follow?, Stack.heads, Stack.depth]

/-- The start of a body: the call is told of, and its record made. -/
theorem enter (hm : m.ToldSince before) (f : Function) (line : Int) (bound : List (Param × Cell)) :
    ((m.tellCall f line m.stack.depth bound).enter f line bound).ToldSince before := by
  obtain ⟨told, htold, hopen⟩ := hm.tellCall f line bound
  refine ⟨told, htold, hopen.trans ?_⟩
  simp [Machine.enter, Machine.tellCall, Machine.emit, Stack.heads, Frame.head_ofCall]

/-- The end of a body: the return is told, and the record taken away. -/
theorem leave (hm : m.ToldSince before) {f : Function} {line : Int} {outer : List (String × Int)}
    (hheads : m.stack.heads = (f.name, line) :: outer) (v : Value) (bound : List (Param × Cell)) :
    ({ (m.tellReturn f v outer.length bound).leave with line } : Machine).ToldSince before := by
  refine hm.emit outer ?_ ?_ line
  · rw [hheads]
    simp [Event.follow?]
  · have hleave : m.leave.stack.heads = m.stack.heads.drop 1 := List.map_drop ..
    rw [hheads] at hleave
    exact hleave

end Machine.ToldSince

/-! ### Runs that answer -/

theorem Stack.heads_assign (s : Stack) (x : String) (v : Value) : (s.assign x v).heads = s.heads :=
  ((Base.holds_self s.frames true).assign rfl x v).heads

namespace Eval

/-- If the computation answers, the log still leaves open the calls on the stack. -/
def Tells {α : Type} (x : Eval α) : Prop := ∀ ⦃m a m'⦄, x m = .done a m' → ∀ ⦃before⦄, m.ToldSince before → m'.ToldSince before

namespace Tells

variable {α β : Type}

/-- A computation that leaves the log and the records alone. -/
theorem silent {x : Eval α} (hx : ∀ m a m', x m = .done a m' → m'.events = m.events ∧ m'.stack.heads = m.stack.heads) :
    Tells x := by
  intro m a m' h before hm
  obtain ⟨hevents, hframes⟩ := hx m a m' h
  exact hm.of_eq hevents hframes

theorem pure (a : α) : Tells (Pure.pure a : Eval α) := by
  intro m b m' h before hm
  cases h
  exact hm

theorem fail (c : Cause) : Tells (Eval.fail c : Eval α) := by
  intro m a m' h
  cases h

theorem bind {x : Eval α} {f : α → Eval β} (hx : Tells x) (hf : ∀ a, Tells (f a)) : Tells (x >>= f) := by
  intro m b m' h before hm
  obtain ⟨a, m₁, ha, hb⟩ := Eval.done_of_bind h
  exact hf a hb (hx ha hm)

theorem exchangeLine (line : Int) : Tells (Eval.exchangeLine line) := by
  refine silent fun m a m' h => ?_
  cases h
  exact ⟨rfl, rfl⟩

theorem setLine (line : Int) : Tells (Eval.setLine line) := by
  refine silent fun m a m' h => ?_
  cases h
  exact ⟨rfl, rfl⟩

theorem variableValue (name : String) : Tells (Eval.variableValue name) := by
  refine silent fun m a m' h => ?_
  unfold Eval.variableValue at h
  split at h <;> cases h
  exact ⟨rfl, rfl⟩

theorem variableCell (name : String) : Tells (Eval.variableCell name) := by
  refine silent fun m a m' h => ?_
  unfold Eval.variableCell at h
  split at h <;> cases h
  exact ⟨rfl, rfl⟩

theorem assign (name : String) (v : Value) : Tells (Eval.assign name v) := by
  refine silent fun m a m' h => ?_
  unfold Eval.assign at h
  split at h <;> cases h
  exact ⟨rfl, m.stack.heads_assign name v⟩

theorem alloc (v : Value) : Tells (Eval.alloc v) := by
  refine silent fun m a m' h => ?_
  cases h
  exact ⟨rfl, rfl⟩

theorem nextToken : Tells Eval.nextToken := by
  refine silent fun m a m' h => ?_
  unfold Eval.nextToken at h
  split at h <;> cases h
  exact ⟨rfl, rfl⟩

theorem write (text : String) : Tells (Eval.emit (.wrote text)) := by
  intro m a m' h before hm
  cases h
  exact hm.emit m.stack.heads rfl rfl m.line

theorem ask (question : World → Except WorldError α) : Tells (Eval.ask question) := by
  refine silent fun m a m' h => ?_
  unfold Eval.ask at h
  split at h <;> cases h
  exact ⟨rfl, rfl⟩

theorem perform (fuel : Nat) (b : Builtin) (values : List Value) : Tells (b.perform fuel values) := by
  intro m a m' h before hm
  exact hm.acts ((Outcome.Acts.perform fuel b values m).of_done h)

theorem function (name : String) : Tells (Eval.function name) := by
  intro m a m' h before hm
  rw [machine_of_function h]
  exact hm

theorem congruence : Congruence fun x _ => Tells x :=
  ⟨pure, fail, bind, exchangeLine, setLine, variableValue, variableCell, assign, alloc, nextToken, write, ask, function⟩

end Tells

end Eval

/-- A call that returns tells of both, and its body keeps its record in between. -/
theorem invokeFunction_tells {fuel : Nat} (ih : Related (fun x _ => Eval.Tells x) fuel fuel) (f : Function) (nodes : List Node) :
    (invokeFunction (fuel + 1) f nodes).Tells := by
  intro m v m' h before hm
  obtain ⟨-, bound, m₁, hbound, h⟩ := bound_of_invokeFunction h
  have hm₁ := ih.bindArguments f.params nodes hbound hm
  have hproceeds : m.Proceeds m₁ := .binding .refl ⟨fuel, hbound⟩
  have hdepth : m.stack.depth = m₁.stack.depth := hproceeds.depth.symm
  rw [callWith_eq, hdepth] at h
  split_ifs at h
  cases hbody : runBlock fuel f.body.children ((m₁.tellCall f m.line m₁.stack.depth bound).enter f m.line bound) with
  | done r m₂ =>
      rw [hbody] at h
      cases h
      have hm₂ := ih.runBlock f.body.children hbody (hm₁.enter f m.line bound)
      have hheads : m₂.stack.heads = (f.name, m.line) :: m₁.stack.heads := by
        have hanswers : (Task.block f.body.children).Answers fuel _ m₂ := ⟨r, hbody⟩
        rw [(frames_of_final hanswers.final).1]
        simp [Machine.enter, Stack.heads, Frame.head_ofCall]
      rw [← m₁.stack.length_heads]
      exact hm₂.leave hheads _ bound
  | failed e m₂ =>
      rw [hbody] at h
      cases h
  | unfinished =>
      rw [hbody] at h
      cases h

/-- The functions of the evaluator keep the log and the stack in step. -/
theorem runsTell (fuel : Nat) : Related (fun x _ => Eval.Tells x) fuel fuel := by
  induction fuel with
  | zero => constructor <;> intros <;> intro m a m' h <;> cases h
  | succ fuel ih => exact Eval.Tells.congruence.related_succ ih (.perform fuel) (invokeFunction_tells ih)

/-! ### Points of a run -/

theorem Task.Answers.toldSince {fuel : Nat} {m m' : Machine} {t : Task} {before : List Event} (h : t.Answers fuel m m')
    (hm : m.ToldSince before) : m'.ToldSince before := by
  exact h.of_related (runsTell fuel) fun htells hdone => htells hdone hm

theorem Machine.Proceeds.toldSince {m n : Machine} {before : List Event} (h : m.Proceeds n) (hm : m.ToldSince before) :
    n.ToldSince before := by
  induction h with
  | refl => exact hm
  | line l _ ih => exact ih.of_eq rfl rfl
  | token _ ih => exact ih.of_eq rfl rfl
  | alloc v _ ih => exact ih.of_eq rfl rfl
  | answer _ hanswer ih => exact hanswer.toldSince ih

/-- The step from a task to one that it starts. -/
theorem Task.Starts.toldSince {t t' : Task} {n n' : Machine} {before : List Event} (h : t.Starts n t' n') (hn : n.ToldSince before) :
    n'.ToldSince before := by
  rcases h.proceeds with ⟨hproceeds, -⟩ | henters
  · exact hproceeds.toldSince hn
  · cases henters with
    | body hproceeds _ => exact (hproceeds.toldSince hn).enter _ _ _

theorem Machine.Visits.toldSince {m n : Machine} {first t : Task} {before : List Event} (h : m.Visits first t n)
    (hm : m.ToldSince before) : n.ToldSince before := by
  induction h with
  | first => exact hm
  | step _ hstarts ih => exact hstarts.toldSince ih

/-- At a check that is not passed the calls open are those on the stack, and the one that is stuck if there is one. -/
theorem Task.Fails.told {t : Task} {n n' : Machine} {c : Cause} {before : List Event} (h : t.Fails n c n')
    (hn : n.ToldSince before) :
    ∃ told, n'.events.toList = before ++ told ∧ openCalls? told = some (t.announced n c ++ n.stack.heads) := by
  rcases h.proceeds with ⟨hproceeds, hnone⟩ | hstuck
  · obtain ⟨told, htold, hopen⟩ := hproceeds.toldSince hn
    exact ⟨told, htold, by rw [hopen, hproceeds.heads, hnone, List.nil_append]⟩
  · cases hstuck with
    | @told f nodes bound n₁ hproceeds htell _ =>
        obtain ⟨told, htold, hopen⟩ := (hproceeds.toldSince hn).tellCall f n.line bound
        rw [hproceeds.options] at htell
        rw [hproceeds.depth] at htold
        exact ⟨told, htold, by rw [hopen, hproceeds.heads, Task.announced, if_pos ⟨rfl, htell⟩, List.singleton_append]⟩

theorem Task.Fails.stack {t : Task} {n n' : Machine} {c : Cause} (h : t.Fails n c n') :
    n'.stack.heads = n.stack.heads ∧ n'.options = n.options := by
  rcases h.proceeds with ⟨hproceeds, -⟩ | hstuck
  · exact ⟨hproceeds.heads, hproceeds.options⟩
  · cases hstuck with
    | told hproceeds _ _ => exact ⟨hproceeds.heads, hproceeds.options⟩

/-! ### The nodes of calls -/

/-- A node that calls a function of this name. -/
def Node.Calls (w : Node) (name : String) : Prop := w.kind = .call ∧ w.children.head?.map Node.text = some name

/-- The call under way is that of the node under way; without one it comes from outside, and no body is under way. -/
def Trail.Aims (name : String) (ts : List Task) : Prop :=
  match Trail.owner? ts with
  | some w => w.Calls name
  | none => Trail.calls ts = []

/-- Every call has a node that calls the function, but for the outermost one, which may come from outside. -/
def Trail.Sited : List (Function × Option Node) → Prop
  | [] => True
  | (f, some w) :: outer => w.Calls f.name ∧ Sited outer
  | (_, none) :: outer => outer = []

theorem name_of_function {name : String} {f : Function} {m m' : Machine} (h : Eval.function name m = .done f m') :
    f.name = name := by
  rcases function_cases name m with ⟨p, g, -, hget, hdone⟩ | ⟨c, hfailed⟩
  · rw [hdone] at h
    cases h
    simpa using List.find?_some hget
  · rw [hfailed] at h
    cases h

theorem Trail.Sited.cons {f : Function} {ts : List Task} (haims : Trail.Aims f.name ts)
    (hsited : Trail.Sited (Trail.calls ts)) : Trail.Sited ((f, Trail.owner? ts) :: Trail.calls ts) := by
  unfold Trail.Aims at haims
  cases howner : Trail.owner? ts with
  | none =>
      rw [howner] at haims
      exact haims
  | some w =>
      rw [howner] at haims
      exact ⟨haims, hsited⟩

/-- The nodes of the calls under way, and of the call about to be made. -/
theorem Machine.Trails.sited {m n : Machine} {name : String} {nodes : List Node} {ts : List Task}
    (h : m.Trails (.invoke name nodes) ts n) :
    Trail.Sited (Trail.calls ts) ∧ (∀ callee arguments rest, ts = .invoke callee arguments :: rest → Trail.Aims callee rest) ∧
      ∀ f arguments rest, ts = .call f arguments :: rest → Trail.Aims f.name rest := by
  induction h with
  | first =>
      refine ⟨trivial, ?_, nofun⟩
      intro callee arguments rest h
      cases h
      rfl
  | step _ hstarts ih =>
      obtain ⟨hsited, hinvoke, hcall⟩ := ih
      cases hstarts with
      | call =>
          refine ⟨hsited, ?_, nofun⟩
          intro callee arguments rest h
          cases h
          exact ⟨rfl, rfl⟩
      | called =>
          refine ⟨hsited, ?_, nofun⟩
          intro callee arguments rest h
          cases h
          exact ⟨rfl, rfl⟩
      | function _ hlookup =>
          refine ⟨hsited, nofun, ?_⟩
          intro f arguments rest h
          cases h
          rw [name_of_function hlookup]
          have haims := hinvoke _ _ _ rfl
          exact haims
      | body => exact ⟨Trail.Sited.cons (hcall _ _ _ rfl) hsited, nofun, nofun⟩
      | _ => exact ⟨hsited, nofun, nofun⟩

/-! ### Reports -/

theorem Machine.ToldSince.call {fuel : Nat} {name : String} {nodes : List Node} {m m' : Machine} {v : Value}
    {before : List Event} (hm : m.ToldSince before) (h : Machine.call fuel name nodes m = .done v m') :
    m'.ToldSince before ∧ m'.stack.frames = m.stack.frames := by
  have hinvoke : invoke fuel name nodes m = .done v m' := by
    unfold Machine.call at h
    split at h
    · cases h
    · split at h
      · cases h
      · exact h
  have hrestores := invoke_restores fuel name nodes m
  rw [hinvoke] at hrestores
  exact ⟨(runsTell fuel).invoke name nodes hinvoke hm, hrestores.1⟩

/-- The log leaves open the calls whose records are on the stack. -/
def Machine.Told (m : Machine) : Prop := openCalls? m.events.toList = some m.stack.heads

theorem Machine.told_iff {m : Machine} : m.Told ↔ m.ToldSince [] := by
  refine ⟨fun hm => ⟨_, rfl, hm⟩, ?_⟩
  rintro ⟨told, htold, hopen⟩
  rw [Told, htold]
  exact hopen

theorem told_of_loadTree {c : Config} {input : String} {options : Options} {tree : Node} {m : Machine}
    (h : (Machine.initial c input options).loadTree tree = .ok m) : m.Told := by
  obtain ⟨p, -, rfl⟩ := loaded_of_loadTree h
  rfl

theorem Machine.Visits.told {m n : Machine} {first t : Task} (h : m.Visits first t n) (hm : m.Told) : n.Told :=
  told_iff.2 (h.toldSince (told_iff.1 hm))

theorem Machine.Told.call {fuel : Nat} {name : String} {nodes : List Node} {m m' : Machine} {v : Value} (hm : m.Told)
    (h : Machine.call fuel name nodes m = .done v m') : m'.Told ∧ m'.stack.frames = m.stack.frames := by
  obtain ⟨htold, hframes⟩ := (told_iff.1 hm).call h
  exact ⟨told_iff.2 htold, hframes⟩

/-- The log of a call on a new machine, the stack and the report of a fault agree. At every point calls and returns are
properly nested so far. A call that answers leaves no call open. After a fault the calls open are those under way at the
check that did not pass, each with the line of its node; and the call stack of the fault is made of them and of the line of
the fault, however many records it has left since.

A stack overflow is the exception. The call that finds no room for its record may have been told of, and the innermost records
are gone before there is room for a report: the report leaves out that call and those records. -/
theorem report_matches_log {c : Config} {input : String} {options : Options} {tree : Node} {m : Machine}
    (hitems : options.traceItems = none) (hload : (Machine.initial c input options).loadTree tree = .ok m) (fuel : Nat)
    (name : String) (nodes : List Node) :
    (∀ t n, m.Visits (.invoke name nodes) t n → (openCalls? n.events.toList).isSome) ∧
      (∀ v m', Machine.call fuel name nodes m = .done v m' → openCalls? m'.events.toList = some []) ∧
      ∀ e m', Machine.call fuel name nodes m = .failed e m' →
        ∃ t ts n n' calls, m.Trails (.invoke name nodes) (t :: ts) n ∧ t.Fails n e.cause n' ∧
          calls = Trail.records m.line (Trail.calls (t :: ts)) ∧ Trail.Sited (Trail.calls (t :: ts)) ∧
          (e.cause ≠ .stackOverflow → openCalls? m'.events.toList = some calls ∧
            (e.cause.category ≠ .internal → ∃ line, e.line = some line ∧ e.frames = callReport line calls)) ∧
          (e.cause = .stackOverflow → openCalls? m'.events.toList = some (t.announced n .stackOverflow ++ calls) ∧
            ∃ line lost, lost = calls.length - (options.limit - options.reportRoom) ∧ lost ≤ options.reportRoom ∧
              e.line = some line ∧ e.frames = callReport line (calls.drop lost)) := by
  have hm := told_of_loadTree hload
  obtain ⟨p, -, hloaded⟩ := loaded_of_loadTree hload
  have hempty : m.stack.frames = [] := by rw [hloaded]; rfl
  have hoptions : m.options = options := by rw [hloaded]; rfl
  refine ⟨?_, ?_, ?_⟩
  · intro t n hvisits
    rw [hvisits.told hm]
    rfl
  · intro v m' hcall
    obtain ⟨htold, hframes⟩ := hm.call hcall
    rw [htold, Stack.heads, hframes, hempty]
    rfl
  · intro e m' hcall
    have hprogram : m.program = some p := by rw [hloaded]; rfl
    obtain ⟨t, ts, n, n', htrail, hfails, ⟨stack, rfl⟩, k, -, hk, hreports⟩ := origin_of_call hprogram hcall
    obtain ⟨told, htold, hopen⟩ := hfails.told (Machine.told_iff.1 (htrail.visits.told hm))
    obtain ⟨hheads, hkept⟩ := hfails.stack
    have hrecords : n.stack.heads = Trail.records m.line (Trail.calls (t :: ts)) := by
      rw [htrail.heads, Stack.heads, hempty]
      exact List.append_nil _
    have hdepth : n'.stack.depth = n.stack.heads.length := by rw [← hheads, Stack.length_heads]
    have hoptions' : n'.options = options := hkept.trans (htrail.visits.options.trans hoptions)
    have hlost : k = n'.unreported e.cause := hk ((frames_of_call (congrArg Outcome.machine? hcall)).trans hempty)
    have hframes (hc : e.cause.category ≠ .internal) : e.frames = callReport n'.line (n.stack.heads.drop k) := by
      rw [← hheads]
      exact hreports.frames_eq_callReport hc (by rw [hoptions', hitems])
    have hevents : openCalls? n'.events.toList = some (t.announced n e.cause ++ n.stack.heads) := by
      rw [htold, List.nil_append, hopen]
    refine ⟨t, ts, n, n', n.stack.heads, htrail, hfails, hrecords, htrail.sited.1, fun hc => ?_, fun hc => ?_⟩
    · refine ⟨by rw [hevents, Task.announced_of_ne hc, List.nil_append], fun hcategory => ?_⟩
      refine ⟨n'.line, hreports.line_eq hcategory, ?_⟩
      rw [hframes hcategory, hlost, Machine.unreported_of_ne hc, List.drop_zero]
    · have hcategory : e.cause.category ≠ .internal := by rw [hc]; decide
      rw [Machine.unreported, if_pos hc, hdepth, hoptions'] at hlost
      have hle := htrail.visits.depth_le (by rw [Stack.depth, hempty]; exact Nat.zero_le _)
      rw [hoptions, ← n.stack.length_heads] at hle
      exact ⟨by rw [hevents, hc], n'.line, k, hlost, by omega, hreports.line_eq hcategory, hframes hcategory⟩

/-- A program that fails two calls deep, inside an operand. -/
def nested : String :=
  "func main()\n  outer(2);\nendfunc\nfunc outer(k)\n  x = 1 + inner(k);\nendfunc\n" ++
  "func inner(k)\n  return 1 / (k - 2);\nendfunc\n"

theorem nested_report : ∃ tree m e m', (Machine.initial .default "" .unobserved).loadTree tree = .ok m ∧
    Machine.call 40 "main" [] m = .failed e m' ∧ e.cause ≠ .stackOverflow ∧ e.line = some 8 ∧
      e.frames = ["inner (line 8)", "outer (line 5)", "main (line 2)"] ∧
      openCalls? m'.events.toList = some [("inner", 5), ("outer", 2), ("main", -1)] ∧
      ∃ t ts n n' calls, m.Trails (.invoke "main" []) (t :: ts) n ∧ t.Fails n e.cause n' ∧
        openCalls? m'.events.toList = some calls ∧ calls = Trail.records m.line (Trail.calls (t :: ts)) ∧
        Trail.Sited (Trail.calls (t :: ts)) ∧
        (e.cause.category ≠ .internal → ∃ line, e.line = some line ∧ e.frames = callReport line calls) := by
  have hfailed : ((Machine.initial .default "" .unobserved).loadSource nested).toOption.bind (fun loaded =>
      (Machine.call 40 "main" [] loaded.2).fault?.map fun fault =>
        ((fault.1.cause == .stackOverflow, fault.1.line), fault.1.frames, openCalls? fault.2.events.toList)) =
      some ((false, some 8), ["inner (line 8)", "outer (line 5)", "main (line 2)"],
        some [("inner", 5), ("outer", 2), ("main", -1)]) := by decide +kernel
  obtain ⟨⟨tree, m⟩, hm, hfailed⟩ := Option.bind_eq_some_iff.1 hfailed
  obtain ⟨⟨e, m'⟩, hfault, hfailed⟩ := Option.map_eq_some_iff.1 hfailed
  have hload := loadTree_of_loadSource (eq_ok_of_toOption hm)
  have hcall := Outcome.eq_failed hfault
  obtain ⟨hordinary, hline, hframes, hopen⟩ : e.cause ≠ .stackOverflow ∧ e.line = some 8 ∧ e.frames = _ ∧
      openCalls? m'.events.toList = _ := by simpa [and_assoc] using hfailed
  obtain ⟨t, ts, n, n', calls, htrail, hfails, hcalls, hsited, hreport, -⟩ :=
    (report_matches_log rfl hload 40 "main" []).2.2 e m' hcall
  obtain ⟨hcallsOpen, hlocated⟩ := hreport hordinary
  exact ⟨tree, m, e, m', hload, hcall, hordinary, hline, hframes, hopen, t, ts, n, n', calls, htrail, hfails, hcallsOpen, hcalls,
    hsited, hlocated⟩

/-- A function that calls itself for ever, on a machine that has room for three records and for a report inside two of them: the
log leaves four calls open, and the report names two. -/
theorem overflow_report : ∃ tree m e m',
    (Machine.initial .default "" { limit := 3, reportRoom := 1, observers := { tracer := .silent } }).loadTree tree = .ok m ∧
      Machine.call 40 "main" [] m = .failed e m' ∧ e.cause = .stackOverflow ∧
      e.frames = ["main (line 2)", "main (line 2)"] ∧
      openCalls? m'.events.toList = some [("main", 2), ("main", 2), ("main", 2), ("main", -1)] := by
  have hfailed : ((Machine.initial .default "" { limit := 3, reportRoom := 1, observers := { tracer := .silent } }).loadSource
      "func main()\n  main();\nendfunc\n").toOption.bind (fun loaded =>
        (Machine.call 40 "main" [] loaded.2).fault?.map fun fault =>
          (fault.1.cause == .stackOverflow, fault.1.frames, openCalls? fault.2.events.toList)) =
      some (true, ["main (line 2)", "main (line 2)"],
        some [("main", 2), ("main", 2), ("main", 2), ("main", -1)]) := by decide +kernel
  obtain ⟨⟨tree, m⟩, hm, hfailed⟩ := Option.bind_eq_some_iff.1 hfailed
  obtain ⟨⟨e, m'⟩, hfault, hfailed⟩ := Option.map_eq_some_iff.1 hfailed
  have hload := loadTree_of_loadSource (eq_ok_of_toOption hm)
  have hcall := Outcome.eq_failed hfault
  obtain ⟨hcause, hframes, hopen⟩ : e.cause = .stackOverflow ∧ e.frames = _ ∧ openCalls? m'.events.toList = _ := by
    simpa using hfailed
  exact ⟨tree, m, e, m', hload, hcall, hcause, hframes, hopen⟩

end Rover
