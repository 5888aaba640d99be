import Rover.CallTrace
import Rover.Display
import Rover.Log
import Rover.Span

/-!
# Observers

Who is told of a run while it goes on. A tracer hears of calls and returns, a display of changes of the world, the console of
robot operations if these are narrated, and a log of what is at its level. A `Watch` is what they hold. They never answer,
but to tell a tracer of a call takes room on the stack of calls.
-/

namespace Rover

inductive TracerKind where
  | absent
  /-- A tracer that only listens. -/
  | silent
  | file
  | spans
  deriving DecidableEq, Repr

inductive DisplayKind where
  /-- A display that only listens. -/
  | silent
  | recording
  | logging
  deriving DecidableEq, Repr

structure Observers where
  tracer : TracerKind := .absent
  /-- How much room telling the tracer of a call with so many arguments takes, counted in calls. -/
  room : Nat → Nat := fun _ => 0
  display : DisplayKind := .silent
  /-- Whether robot operations are narrated on the console. -/
  narrate : Bool := false
  /-- The least level of the log lines that are kept, if there is a log. -/
  level : Option Level := none

structure Watch where
  /-- Standard output. -/
  output : String := ""
  console : Array String := #[]
  /-- The text of a trace file. -/
  trace : String := ""
  spans : SpanRecorder := .empty
  /-- What a recording display has been told. -/
  shown : Array WorldEvent := #[]
  log : Array LogLine := #[]

namespace Watch

def write (w : Watch) (text : String) : Watch := { w with output := w.output ++ text }

/-- A line for the console goes to standard output too. -/
def note (w : Watch) (line : String) : Watch := { w.write (line ++ "\n") with console := w.console.push line }

def narrate (o : Observers) (w : Watch) (lines : List String) : Watch := if o.narrate then lines.foldl note w else w

/-- Tells the tracer of a call or a return. -/
def trackCall (o : Observers) (w : Watch) (e : Event) : Watch :=
  match o.tracer with
  | .absent => w
  | .silent => w
  | .file => { w with trace := w.trace ++ CallTrace.eventText e }
  | .spans => { w with spans := w.spans.record e }

/-- Tells the display of a change of the world. -/
def display (o : Observers) (w : Watch) (e : WorldEvent) : Watch :=
  if o.display = .recording ∧ Display.shows e then { w with shown := w.shown.push e } else w

/-- Keeps the log line of an event, if it has one and a log is kept at its level. -/
def keepLog (o : Observers) (w : Watch) (e : Event) : Watch :=
  match o.level, LogLine.ofEvent? (o.display = .logging) e with
  | some least, some l => if least.severity ≤ l.level.severity then { w with log := w.log.push l } else w
  | _, _ => w

/-- Tells the observers of an event. -/
def tell (o : Observers) (w : Watch) (e : Event) : Watch :=
  match e with
  | .wrote text => w.write text
  | .noted line => w.note line
  | .narrated lines => w.narrate o lines
  | .world change => (w.display o change).keepLog o e
  | .called _ _ _ _ _ => (w.trackCall o e).keepLog o e
  | .returned _ _ _ _ _ => w.trackCall o e
  | .loaded _ => w.keepLog o e

end Watch

end Rover
