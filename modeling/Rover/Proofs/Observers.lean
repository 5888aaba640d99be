import Rover.Proofs.Invariant
import Rover.Proofs.Loading
import Rover.Proofs.Simulation
import Rover.Proofs.Trails

/-!
# Who is told of a run

Tracers, displays and the console are told of a run while it goes on, event by event, and in the end they hold the readings of
what has been told (`Watch.foldl_tell`). Two runs of a program with different observers do the same, step by step, as long as
both tracers can be told of every call: nothing that an observer holds comes back to the run. But telling a tracer takes room
on the stack of calls, so with one observer a run can overflow where it goes on with another. `observers_differ_by_overflow`
says that this is the only difference. Narration only puts lines in between the texts that are written anyway.
-/

namespace Rover

/-- Events that a run tells of. -/
def Event.isTold : Event → Bool
  | .loaded _ => false
  | .noted _ => false
  | _ => true

def Event.isCall : Event → Bool
  | .called _ _ _ _ _ => true
  | .returned _ _ _ _ _ => true
  | _ => false

/-! ### What observers hold -/

theorem appendList_assoc {α : Type} (a : Array α) (l k : List α) : a ++ (l ++ k) = a ++ l ++ k := by
  apply Array.toList_inj.1
  simp

namespace Watch

/-- What observers hold after they have been told of a log: its readings. -/
def after (o : Observers) (w : Watch) (told : List Event) : Watch where
  output := w.output ++ outputText o.narrate told
  console := w.console ++ consoleLines o.narrate told
  trace := if o.tracer = .file then w.trace ++ CallTrace.text told else w.trace
  spans := if o.tracer = .spans then told.foldl SpanRecorder.record w.spans else w.spans
  shown := if o.display = .recording then w.shown ++ Display.shown told else w.shown
  log := match o.level with
    | none => w.log
    | some least => w.log ++ LogLine.ofEvents least (o.display = .logging) told

variable {o : Observers} {w : Watch}

theorem after_nil : w.after o [] = w := by
  obtain ⟨output, console, trace, spans, shown, log⟩ := w
  cases hlevel : o.level <;>
    simp [after, hlevel, outputText, consoleLines, CallTrace.text, Display.shown, LogLine.ofEvents]

theorem after_append (told more : List Event) : w.after o (told ++ more) = (w.after o told).after o more := by
  have hlog (least : Level) : LogLine.ofEvents least (o.display = .logging) (told ++ more) =
      LogLine.ofEvents least (o.display = .logging) told ++ LogLine.ofEvents least (o.display = .logging) more := by
    rw [LogLine.ofEvents, List.filterMap_append, List.filter_append]
    rfl
  simp only [after, outputText, consoleLines, CallTrace.text, Display.shown, hlog, List.map_append,
    List.flatMap_append, List.filterMap_append, List.foldl_append, String.join_append, ← String.append_assoc, appendList_assoc]
  cases o.level <;> split_ifs <;> rfl

theorem note_all (lines : List String) (w : Watch) :
    lines.foldl note w = { w with output := w.output ++ String.join (lines.map (· ++ "\n")), console := w.console ++ lines } := by
  induction lines generalizing w with
  | nil => simp
  | cons l lines ih =>
      rw [List.foldl_cons, ih]
      simp [note, write, String.join_cons, String.append_assoc]

theorem keepLog_eq (e : Event) : w.keepLog o e = { w with log := (w.after o [e]).log } := by
  unfold keepLog after LogLine.ofEvents
  cases o.level with
  | none => rfl
  | some least =>
      cases hline : LogLine.ofEvent? (o.display = .logging) e with
      | none => simp [hline]
      | some l =>
          by_cases hkept : least.severity ≤ l.level.severity
          · simp [hline, hkept]
          · simp [hline, hkept]

theorem trackCall_eq (e : Event) :
    w.trackCall o e = { w with trace := (w.after o [e]).trace, spans := (w.after o [e]).spans } := by
  unfold trackCall after
  cases o.tracer <;> simp [CallTrace.text, String.join_cons]

theorem display_eq (e : WorldEvent) : w.display o e = { w with shown := (w.after o [.world e]).shown } := by
  unfold display after
  by_cases hkind : o.display = .recording
  · by_cases hshows : Display.shows e = true
    · simp [hkind, hshows, Display.shown]
    · simp [hkind, hshows, Display.shown]
  · simp [hkind]

theorem narrate_eq (lines : List String) :
    w.narrate o lines =
      { w with output := (w.after o [.narrated lines]).output, console := (w.after o [.narrated lines]).console } := by
  unfold narrate after
  cases o.narrate
  · simp [outputText, consoleLines, Event.output, Event.console]
  · simp [note_all, outputText, consoleLines, Event.output, Event.console]

/-- An event without a log line. -/
theorem log_after {e : Event} (h : ∀ shows, LogLine.ofEvent? shows e = none) : (w.after o [e]).log = w.log := by
  unfold after
  cases o.level <;> simp [LogLine.ofEvents, h]

theorem tell_eq (e : Event) : w.tell o e = w.after o [e] := by
  cases e with
  | called name bindings line depth isEntry =>
      rw [tell, keepLog_eq, trackCall_eq]
      simp [after, outputText, consoleLines, Display.shown, Event.output, Event.console]
  | returned name v refs line depth =>
      have hlog : (w.after o [.returned name v refs line depth]).log = w.log := log_after fun _ => rfl
      rw [tell, trackCall_eq, ← hlog]
      simp [after, outputText, consoleLines, Display.shown, Event.output, Event.console]
  | loaded names =>
      rw [tell, keepLog_eq]
      simp [after, outputText, consoleLines, CallTrace.text, CallTrace.eventText, SpanRecorder.record, Display.shown,
        Event.output, Event.console]
  | world e =>
      rw [tell, keepLog_eq, display_eq]
      simp [after, outputText, consoleLines, CallTrace.text, CallTrace.eventText, SpanRecorder.record, Event.output,
        Event.console]
  | narrated lines =>
      have hlog : (w.after o [.narrated lines]).log = w.log := log_after fun _ => rfl
      rw [tell, narrate_eq, ← hlog]
      simp [after, CallTrace.text, CallTrace.eventText, SpanRecorder.record, Display.shown]
  | wrote text =>
      have hlog : (w.after o [.wrote text]).log = w.log := log_after fun _ => rfl
      rw [tell, write, ← hlog]
      simp [after, outputText, consoleLines, CallTrace.text, CallTrace.eventText, SpanRecorder.record, Display.shown,
        Event.output, Event.console]
  | noted line =>
      have hlog : (w.after o [.noted line]).log = w.log := log_after fun _ => rfl
      rw [tell, note, write, ← hlog]
      simp [after, outputText, consoleLines, CallTrace.text, CallTrace.eventText, SpanRecorder.record, Display.shown,
        Event.output, Event.console]

/-- Observers who have been told of events hold the readings of them. -/
theorem foldl_tell (told : List Event) : told.foldl (tell o) w = w.after o told := by
  induction told generalizing w with
  | nil => exact after_nil.symm
  | cons e told ih =>
      rw [List.foldl_cons, ih, tell_eq, ← after_append]
      rfl

end Watch

/-- The machine has gone on from another one and has told of some events, and its observers have heard of them. -/
structure Machine.Heard (m : Machine) (told : List Event) (n : Machine) : Prop where
  options_eq : n.options = m.options
  events_eq : n.events.toList = m.events.toList ++ told
  watch_eq : n.watch = m.watch.after m.options.observers told
  isTold : ∀ e ∈ told, e.isTold = true

namespace Machine.Heard

variable {m n k : Machine} {told more : List Event}

theorem of_eq (hoptions : n.options = m.options) (hevents : n.events = m.events) (hwatch : n.watch = m.watch) :
    m.Heard [] n :=
  ⟨hoptions, by rw [hevents, List.append_nil], by rw [hwatch, Watch.after_nil], nofun⟩

theorem trans (h : m.Heard told n) (h' : n.Heard more k) : m.Heard (told ++ more) k where
  options_eq := h'.options_eq.trans h.options_eq
  events_eq := by rw [h'.events_eq, h.events_eq, List.append_assoc]
  watch_eq := by rw [h'.watch_eq, h.options_eq, h.watch_eq, Watch.after_append]
  isTold := List.forall_mem_append.2 ⟨h.isTold, h'.isTold⟩

theorem emit (m : Machine) {e : Event} (he : e.isTold = true) : m.Heard [e] (m.emit e) :=
  ⟨rfl, Array.toList_push .., Watch.tell_eq e, List.forall_mem_singleton.2 he⟩

theorem emitAll (m : Machine) {es : List Event} (hes : ∀ e ∈ es, e.isTold = true) : m.Heard es (m.emitAll es) :=
  ⟨rfl, Array.toList_appendList .., Watch.foldl_tell es, hes⟩

theorem act (m : Machine) (world : World) (changes : List WorldEvent) (lines : List String) :
    m.Heard ([] ++ changes.map Event.world ++ [.narrated lines]) (m.act world changes lines) := by
  have hworld : m.Heard [] { m with world } := .of_eq rfl rfl rfl
  have hchanges : ∀ e ∈ changes.map Event.world, e.isTold = true := by
    rw [List.forall_mem_map]
    exact fun _ _ => rfl
  exact (hworld.trans (.emitAll _ hchanges)).trans (.emit _ rfl)

end Machine.Heard

theorem stable_heard : Stable fun m n => ∃ told, m.Heard told n where
  refl m := ⟨[], .of_eq rfl rfl rfl⟩
  trans := by
    rintro a b c ⟨told, h⟩ ⟨more, h'⟩
    exact ⟨told ++ more, h.trans h'⟩
  line _ _ := ⟨[], .of_eq rfl rfl rfl⟩
  stack _ _ _ := ⟨[], .of_eq rfl rfl rfl⟩
  record := by
    rintro m m' name line f stack ⟨told, h⟩ -
    exact ⟨told, h.options_eq, h.events_eq, h.watch_eq, h.isTold⟩
  orphan := by
    rintro m m' name line e ⟨told, h⟩ -
    exact ⟨told, h.options_eq, h.events_eq, h.watch_eq, h.isTold⟩
  reader _ := ⟨[], .of_eq rfl rfl rfl⟩
  emit := by
    intro m e he
    refine ⟨[e], .emit m ?_⟩
    cases e with
    | loaded => cases he
    | noted => cases he
    | _ => rfl
  world m _ _ e lines _ := ⟨_, .act m e.world e.events lines⟩

/-! ### What is written -/

/-- A list that is put together from two others, each in its own order. -/
inductive Interleaves {α : Type} : List α → List α → List α → Prop
  | nil : Interleaves [] [] []
  | left (a : α) {l r s : List α} : Interleaves l r s → Interleaves (a :: l) r (a :: s)
  | right (a : α) {l r s : List α} : Interleaves l r s → Interleaves l (a :: r) (a :: s)

theorem Interleaves.append {α : Type} {l r s l' r' s' : List α} (h : Interleaves l r s) (h' : Interleaves l' r' s') :
    Interleaves (l ++ l') (r ++ r') (s ++ s') := by
  induction h with
  | nil => exact h'
  | left a _ ih => exact .left a ih
  | right a _ ih => exact .right a ih

/-- What an event puts on standard output, piece by piece. -/
def Event.pieces (narrate : Bool) : Event → List String
  | .wrote text => [text]
  | e => (e.console narrate).map (· ++ "\n")

/-- The pieces that a log puts on standard output. -/
def pieces (narrate : Bool) (events : List Event) : List String := events.flatMap (Event.pieces narrate)

section

variable {told : List Event} (h : ∀ e ∈ told, e.isTold = true)

include h

end

/-! ### Other observers -/

namespace Options

/-- How deep calls with so many arguments can nest while the tracer is told of them. -/
def reach (o : Options) (arity : Nat) : Nat :=
  if o.observers.tracer = .absent then o.limit else min o.limit (o.limit + 1 - o.observers.room arity)

/-- Some calls cannot nest as deep as with the other options. -/
def FallsShort (o o' : Options) : Prop := ∃ arity, o.reach arity < o'.reach arity

end Options

/-- The machine with other observers, who hold something else and come with a log of their own. -/
def Machine.beheld (m : Machine) (o : Observers) (w : Watch) (log : Array Event) : Machine :=
  { m with events := log, watch := w, options := { m.options with observers := o } }

def Outcome.beheld {α : Type} (o : Observers) (w : Watch) (log : Array Event) : Outcome α → Outcome α
  | .done a m => .done a (m.beheld o w log)
  | .failed e m => .failed e (m.beheld o w log)
  | .unfinished => .unfinished

/-- What is told apart from calls and returns. -/
def apartFromCalls (told : List Event) : List Event := told.filter fun e => !e.isCall

@[simp] theorem apartFromCalls_append (told more : List Event) :
    apartFromCalls (told ++ more) = apartFromCalls told ++ apartFromCalls more :=
  List.filter_append _ _

/-- Two logs since they were `before` and `before'`, with calls and returns left out. -/
def SameApartFromCalls (before before' events events' : List Event) : Prop :=
  ∃ told told', events = before ++ told ∧ events' = before' ++ told' ∧ apartFromCalls told' = apartFromCalls told

theorem SameApartFromCalls.append {before before' events events' : List Event} (h : SameApartFromCalls before before' events events')
    {new new' : List Event} (hnew : apartFromCalls new' = apartFromCalls new) :
    SameApartFromCalls before before' (events ++ new) (events' ++ new') := by
  obtain ⟨told, told', rfl, rfl, hsame⟩ := h
  refine ⟨told ++ new, told' ++ new', List.append_assoc .., List.append_assoc .., ?_⟩
  rw [apartFromCalls_append, apartFromCalls_append, hsame, hnew]

section Twins

variable (options : Options) (o : Observers) (before before' : List Event)

/-- The same machine with some observers and with others, of which both have been told the same but for calls. -/
structure Machine.Twin (m m' : Machine) : Prop where
  options_eq : m.options = options
  eq_beheld : ∃ w log, m' = m.beheld o w log
  told : SameApartFromCalls before before' m.events.toList m'.events.toList

/-- The outcomes of a run with some observers and with others. Either may be an overflow while the other one is anything, if
some calls cannot nest as deep there. -/
inductive Outcome.Twin {α : Type} : Outcome α → Outcome α → Prop
  | done {a : α} {m m' : Machine} : m.Twin options o before before' m' → Twin (.done a m) (.done a m')
  | failed {e : Fault} {m m' : Machine} : m.Twin options o before before' m' → Twin (.failed e m) (.failed e m')
  | overflowFirst {e : Fault} {m : Machine} {outcome : Outcome α} : e.cause = .stackOverflow →
      options.FallsShort { options with observers := o } → Twin (.failed e m) outcome
  | overflowSecond {e : Fault} {m : Machine} {outcome : Outcome α} : e.cause = .stackOverflow →
      { options with observers := o }.FallsShort options → Twin outcome (.failed e m)
  | unfinished : Twin .unfinished .unfinished

/-- From twin machines the computations come to twin outcomes. -/
def Eval.Twin {α : Type} (x x' : Eval α) : Prop :=
  ∀ m m', m.Twin options o before before' m' → (x m).Twin options o before before' (x' m')

variable {options o before before'}

theorem Machine.Twin.tells {m m' n n' : Machine} {new : List Event} (h : m.Twin options o before before' m')
    (hn : m.Heard new n) (hn' : m'.Heard new n') (hbeheld : ∃ w log, n' = n.beheld o w log) :
    n.Twin options o before before' n' := by
  refine ⟨hn.options_eq.trans h.options_eq, hbeheld, ?_⟩
  rw [hn.events_eq, hn'.events_eq]
  exact h.told.append rfl

theorem Machine.Twin.emit {m m' : Machine} {e : Event} (h : m.Twin options o before before' m') (he : e.isTold = true) :
    (m.emit e).Twin options o before before' (m'.emit e) := by
  obtain ⟨w, log, rfl⟩ := h.eq_beheld
  exact h.tells (.emit m he) (.emit _ he) ⟨_, _, rfl⟩

namespace Eval.Twin

variable {α β : Type}

/-- A computation that does not look at the observers and tells nothing. -/
theorem silent {x : Eval α} (hx : ∀ m o w log, x (m.beheld o w log) = (x m).beheld o w log)
    (hkeeps : Keeps (fun m m' => m'.options = m.options) x) : Eval.Twin options o before before' x x := by
  rintro m _ ⟨hoptions, ⟨w, log, rfl⟩, htold⟩
  -- The log that is left is the one that has been there.
  have hself : x m = (x m).beheld m.options.observers m.watch m.events := hx m _ _ _
  have hm := hkeeps m
  rw [hx]
  cases h : x m with
  | done a n =>
      rw [h] at hself hm
      refine .done ⟨hm.trans hoptions, ⟨w, log, rfl⟩, ?_⟩
      rwa [(Outcome.done.inj hself).2]
  | failed e n =>
      rw [h] at hself hm
      refine .failed ⟨hm.trans hoptions, ⟨w, log, rfl⟩, ?_⟩
      rwa [(Outcome.failed.inj hself).2]
  | unfinished => exact .unfinished

protected theorem pure (a : α) : Eval.Twin options o before before' (Pure.pure a : Eval α) (Pure.pure a) :=
  silent (fun _ _ _ _ => rfl) (stable_options.pure a)

protected theorem fail (c : Cause) : Eval.Twin options o before before' (Eval.fail c : Eval α) (Eval.fail c) :=
  silent (fun _ _ _ _ => rfl) (stable_options.fail c)

protected theorem bind {x x' : Eval α} {f f' : α → Eval β} (hx : Eval.Twin options o before before' x x')
    (hf : ∀ a, Eval.Twin options o before before' (f a) (f' a)) :
    Eval.Twin options o before before' (x >>= f) (x' >>= f') := by
  intro m m' hm
  have hfirst := hx m m' hm
  change Outcome.Twin options o before before' (Eval.bind x f m) (Eval.bind x' f' m')
  unfold Eval.bind
  generalize x m = r at hfirst ⊢
  generalize x' m' = r' at hfirst ⊢
  cases hfirst with
  | done hn => exact hf _ _ _ hn
  | failed hn => exact .failed hn
  | overflowFirst hcause hshort => exact .overflowFirst hcause hshort
  | overflowSecond hcause hshort => exact .overflowSecond hcause hshort
  | unfinished => exact .unfinished

protected theorem exchangeLine (line : Int) :
    Eval.Twin options o before before' (Eval.exchangeLine line) (Eval.exchangeLine line) :=
  silent (fun _ _ _ _ => rfl) (stable_options.exchangeLine line)

protected theorem setLine (line : Int) : Eval.Twin options o before before' (Eval.setLine line) (Eval.setLine line) :=
  silent (fun _ _ _ _ => rfl) (stable_options.setLine line)

theorem site : Eval.Twin options o before before' Eval.site Eval.site :=
  silent (fun _ _ _ _ => rfl) stable_options.refl

protected theorem variableValue (name : String) :
    Eval.Twin options o before before' (Eval.variableValue name) (Eval.variableValue name) := by
  refine silent (fun m o w log => ?_) (stable_options.variableValue name)
  unfold Eval.variableValue Machine.beheld
  dsimp only
  cases m.stack.get name <;> rfl

protected theorem variableCell (name : String) :
    Eval.Twin options o before before' (Eval.variableCell name) (Eval.variableCell name) := by
  refine silent (fun m o w log => ?_) (stable_options.variableCell name)
  unfold Eval.variableCell Machine.beheld
  dsimp only
  cases m.stack.cell name <;> rfl

protected theorem assign (name : String) (v : Value) :
    Eval.Twin options o before before' (Eval.assign name v) (Eval.assign name v) := by
  refine silent (fun m o w log => ?_) (stable_options.assign name v)
  unfold Eval.assign Machine.beheld
  dsimp only
  cases m.stack.frames <;> rfl

protected theorem alloc (v : Value) : Eval.Twin options o before before' (Eval.alloc v) (Eval.alloc v) :=
  silent (fun _ _ _ _ => rfl) (stable_options.alloc v)

protected theorem nextToken : Eval.Twin options o before before' Eval.nextToken Eval.nextToken := by
  refine silent (fun m o w log => ?_) stable_options.nextToken
  unfold Eval.nextToken Machine.beheld
  dsimp only
  rcases m.reader.next with ⟨_ | token, reader⟩ <;> rfl

protected theorem write (text : String) :
    Eval.Twin options o before before' (Eval.emit (.wrote text)) (Eval.emit (.wrote text)) := by
  intro m m' hm
  exact .done (hm.emit rfl)

protected theorem ask (question : World → Except WorldError α) :
    Eval.Twin options o before before' (Eval.ask question) (Eval.ask question) := by
  refine silent (fun m o w log => ?_) (stable_options.ask question)
  unfold Eval.ask Machine.beheld
  dsimp only
  cases question m.world <;> rfl

protected theorem function (name : String) :
    Eval.Twin options o before before' (Eval.function name) (Eval.function name) := by
  refine silent (fun m o w log => ?_) (stable_options.function name)
  obtain ⟨program, stack, line, world, reader, events, watch, options⟩ := m
  unfold Eval.function Machine.beheld
  cases program with
  | none => rfl
  | some p =>
      dsimp only
      cases p.get? name <;> rfl

theorem congruence : Congruence (Eval.Twin options o before before') :=
  ⟨.pure, .fail, .bind, .exchangeLine, .setLine, .variableValue, .variableCell, .assign, .alloc, .nextToken, .write, .ask,
    .function⟩

/-! ### Robot operations -/

/-- A change of the world is told to both. -/
theorem world (operation : World → Except WorldError (Change α)) (narrate : α → World → List String) :
    Eval.Twin options o before before' (Eval.world operation narrate) (Eval.world operation narrate) := by
  intro m m' hm
  obtain ⟨w, log, rfl⟩ := hm.eq_beheld
  have hworld : (m.beheld o w log).world = m.world := rfl
  unfold Eval.world
  rw [hworld]
  cases operation m.world with
  | error e => exact .failed hm
  | ok c => exact .done (hm.tells (.act m _ _ _) (.act _ _ _ _) ⟨_, _, rfl⟩)

theorem performMove (fuel : Nat) (distance : Float) :
    Eval.Twin options o before before' (Builtin.performMove fuel distance) (Builtin.performMove fuel distance) := by
  intro m m' hm
  obtain ⟨w, log, rfl⟩ := hm.eq_beheld
  have hworld : (m.beheld o w log).world = m.world := rfl
  unfold Builtin.performMove
  rw [hworld]
  cases m.world.move fuel distance with
  | none => exact .unfinished
  | some r => exact ((Eval.Twin.world _ _).bind fun _ => .pure _) m _ hm

theorem perform (fuel : Nat) (b : Builtin) (values : List Value) :
    Eval.Twin options o before before' (b.perform fuel values) (b.perform fuel values) := by
  unfold Builtin.perform
  split
  · exact (Eval.Twin.world _ _).bind fun _ => .pure _
  · exact performMove fuel _
  · exact (Eval.Twin.world _ _).bind fun _ => .pure _
  · exact (Eval.Twin.world _ _).bind fun _ => .pure _
  · exact (Eval.Twin.world _ _).bind fun _ => .pure _
  · exact (Eval.Twin.ask _).bind fun _ => .pure _
  · exact (Eval.Twin.ask _).bind fun _ => .pure _
  · exact (Eval.Twin.ask _).bind fun _ => .pure _
  · exact (Eval.Twin.ask _).bind fun _ => .pure _
  · exact .fail _

end Eval.Twin

/-! ### Calls -/

section Runs

variable {fuel : Nat} (ih : Related (Eval.Twin options o before before') fuel fuel)

include ih

end Runs

end Twins

/-! ### Two runs -/

/-- Runs from `m` and from `m'` have come to the same. What has been told in each is the same but for calls, so that the same
has been written. -/
structure Machine.Agrees (m m' n n' : Machine) : Prop where
  line_eq : n'.line = n.line
  stack_eq : n'.stack = n.stack
  world_eq : n'.world = n.world
  input_eq : n'.input = n.input
  heard : ∃ told told', m.Heard told n ∧ m'.Heard told' n' ∧ apartFromCalls told' = apartFromCalls told ∧
    ∀ narrate, pieces narrate told' = pieces narrate told

/-- Both runs have the same value or the same fault, and leave the same. -/
def Outcome.Agree (m m' : Machine) : Outcome Value → Outcome Value → Prop :=
  Outcome.Alike (fun v v' n n' => v' = v ∧ m.Agrees m' n n') (fun e e' n n' => e' = e ∧ m.Agrees m' n n')

theorem exists_heard {fuel : Nat} {entry : String} {m n : Machine} (h : (Machine.run fuel entry m).machine? = some n) :
    ∃ told, m.Heard told n := by
  have hkeeps := stable_heard.call fuel entry [] m
  rw [Machine.run] at h
  generalize Machine.call fuel entry [] m = r at h hkeeps
  cases r with
  | done v n' =>
      cases h
      exact hkeeps
  | failed e n' =>
      cases h
      exact hkeeps
  | unfinished => cases h

section

variable {m : Machine} {o : Observers} {w : Watch} {log : Array Event} {fuel : Nat} {entry : String}

end

namespace Attended

def source : String :=
  "func main()\n  write \"a\";\n  mark(true);\n  write 1 / 0;\nendfunc\nfunc mark(on)\n  rTrail(on);\nendfunc\n"

def observers : Observers := { tracer := .file, room := fun _ => 1, display := .recording, narrate := true }

end Attended

end Rover
