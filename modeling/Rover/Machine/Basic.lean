import Rover.Machine.Fault
import Rover.Observer
import Rover.Text.WordReader

/-!
# Machines

The state that a run changes, and computations on it. A computation ends with an answer, ends with a fault, or does not end
within its fuel; the first two leave a machine.
-/

namespace Rover

/-- What a machine is given from outside, and keeps as it is. -/
structure Options where
  /-- How many entries a fault keeps at each end of its call stack; `none` keeps all. -/
  traceItems : Option Int := none
  /-- How deep calls of functions may nest: as deep as the host has room for, which is one call at least. -/
  limit : Nat
  limit_pos : 0 < limit := by decide
  /-- How much of that room the report of an overflow takes, counted in calls. -/
  reportRoom : Nat := 0
  observers : Observers := {}

namespace Options

/-- Whether the tracer, if there is one, can be told of a call with so many arguments at a depth. -/
def canTell (o : Options) (depth arity : Nat) : Bool :=
  o.observers.tracer == .absent || depth + o.observers.room arity ≤ o.limit

/-- Whether a fault can be reported inside so many records: an overflow only where there is room again. -/
def canReport (o : Options) (c : Cause) (depth : Nat) : Bool :=
  c != .stackOverflow || depth + o.reportRoom ≤ o.limit

end Options

structure Machine where
  program : Option Program
  stack : Stack
  /-- The line of the node being evaluated. -/
  line : Int
  world : World
  reader : WordReader
  /-- All that has happened, whoever has been told of it. -/
  events : Array Event
  watch : Watch
  options : Options

inductive Outcome (α : Type) where
  | done (answer : α) (m : Machine)
  | failed (fault : Fault) (m : Machine)
  | unfinished

/-- A computation on a machine. -/
def Eval (α : Type) : Type := Machine → Outcome α

namespace Machine

/-- A machine in a new world, without a program, that reads a text. -/
def initial (config : Config) (input : String) (options : Options) : Machine :=
  ⟨none, .empty, -1, .initial config, .ofText input, #[], {}, options⟩

/-- The tokens that have not been read yet. -/
def input (m : Machine) : List String := m.reader.remaining

def stackTrace (m : Machine) (items : Option Int) : List String := m.stack.trace m.line items

/-- Something happens, and the observers are told. -/
def emit (m : Machine) (e : Event) : Machine :=
  { m with events := m.events.push e, watch := m.watch.tell m.options.observers e }

def emitAll (m : Machine) (es : List Event) : Machine :=
  { m with events := m.events ++ es, watch := es.foldl (Watch.tell m.options.observers) m.watch }

/-- The world changes; the display is told of every change, and the console of the operation. -/
def act (m : Machine) (world : World) (changes : List WorldEvent) (lines : List String) : Machine :=
  ({ m with world }.emitAll (changes.map Event.world)).emit (.narrated lines)

/-- Locates a fault where the machine stands. -/
def locate (m : Machine) (f : Fault) : Fault := f.locate m.line (m.stackTrace m.options.traceItems)

/-- Locates a fault on its way out of a record, if it can be reported there. -/
def report (m : Machine) (f : Fault) : Fault :=
  if m.options.canReport f.cause m.stack.depth then m.locate f else f

end Machine

namespace Eval

@[always_inline, inline]
def pure {α : Type} (a : α) : Eval α := fun m => .done a m

@[always_inline, inline]
def bind {α β : Type} (x : Eval α) (f : α → Eval β) : Eval β := fun m =>
  match x m with
  | .done a m => f a m
  | .failed e m => .failed e m
  | .unfinished => .unfinished

@[always_inline]
instance : Monad Eval where
  pure := pure
  bind := bind

/-- Computations that do not end within their fuel. -/
@[inline]
def unfinished {α : Type} : Eval α := fun _ => .unfinished

@[inline]
def fail {α : Type} (cause : Cause) : Eval α := fun m => .failed (.bare cause) m

@[inline]
def ofExcept {ε α : Type} (cause : ε → Cause) : Except ε α → Eval α
  | .ok a => fun m => .done a m
  | .error e => fail (cause e)

@[noinline]
def currentLine : Eval Int := fun m => .done m.line m

@[inline]
def setLine (line : Int) : Eval Unit := fun m => .done () { m with line }

@[inline]
def emit (e : Event) : Eval Unit := fun m => .done () (m.emit e)

/-- Tells of a call at a depth, unless the tracer that is told of it exhausts the stack. -/
def tellCall (depth arity : Nat) (e : Event) : Eval Unit := fun m =>
  if m.options.canTell depth arity then .done () (m.emit e) else .failed (.bare .stackOverflow) m

/-- The stack has room for one more record above so many. -/
def needRecord (depth : Nat) : Eval Unit := fun m =>
  if depth < m.options.limit then .done () m else .failed (.bare .stackOverflow) m

/-- The current line and the depth of the stack. -/
@[noinline]
def site : Eval (Int × Nat) := fun m => .done (m.line, m.stack.depth) m

/-- Moves to a line; the answer is the line before. -/
@[noinline]
def exchangeLine (line : Int) : Eval Int := fun m => .done m.line { m with line }

/-- Runs a computation at a line and, if it ends well, goes back to the line before it. -/
@[inline]
def atLine {α : Type} (line : Int) (x : Eval α) : Eval α :=
  bind (exchangeLine line) fun before => bind x fun a => bind (setLine before) fun _ => pure a

/-- The value of a variable. -/
def variableValue (name : String) : Eval Value := fun m =>
  match m.stack.get name with
  | .ok v => .done v m
  | .error e => .failed (.bare (.stack e)) m

/-- The cell of a variable. -/
def variableCell (name : String) : Eval Cell := fun m =>
  match m.stack.cell name with
  | .ok c => .done c m
  | .error e => .failed (.bare (.stack e)) m

/-- Assigns to a variable of the running function. -/
def assign (name : String) (v : Value) : Eval Unit := fun m =>
  match m.stack.frames with
  | [] => .failed (.bare (.stack .noActiveFunction)) m
  | _ :: _ => .done () { m with stack := m.stack.assign name v }

/-- A new cell with this content. -/
def alloc (v : Value) : Eval Cell := fun m =>
  let (cell, stack) := m.stack.alloc v
  .done cell { m with stack }

/-- The next token of the input. -/
def nextToken : Eval String := fun m =>
  match m.reader.next with
  | (none, reader) => .failed (.bare .noInput) { m with reader }
  | (some token, reader) => .done token { m with reader }

/-- Binds parameters to cells in the innermost record. -/
def bindAll (bound : List (Param × Cell)) : Eval Unit := fun m =>
  match bound.foldlM (fun (s : Stack) (p, c) => s.bind p.name c) m.stack with
  | .ok stack => .done () { m with stack }
  | .error e => .failed (.bare (.stack e)) m

/-- Runs the body of a call in a record of its own. A fault is reported inside the record, and the record is taken away
either way. -/
@[inline]
def inFrame {α : Type} (name : String) (callerLine : Int) (x : Eval α) : Eval α := fun m =>
  match x { m with stack := m.stack.push name callerLine } with
  | .done a m =>
    match m.stack.pop with
    | .ok (_, stack) => .done a { m with stack }
    | .error e => .failed (.bare (.stack e)) m
  | .failed fault m =>
    match m.stack.pop with
    | .ok (_, stack) => .failed (m.report fault) { m with stack }
    | .error e => .failed (.bare (.stack e)) m
  | .unfinished => .unfinished

/-- Applies an operation to the world and tells about it. -/
def world {α : Type} (operation : World → Except WorldError (Change α)) (narrate : α → World → List String) :
    Eval Unit := fun m =>
  match operation m.world with
  | .error e => .failed (.bare (.world e)) m
  | .ok c => .done () (m.act c.world c.events (narrate c.answer c.world))

/-- Asks the world without changing it. -/
def ask {α : Type} (question : World → Except WorldError α) : Eval α := fun m =>
  match question m.world with
  | .error e => .failed (.bare (.world e)) m
  | .ok a => .done a m

end Eval

end Rover
