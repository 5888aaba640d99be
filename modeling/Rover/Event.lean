import Rover.Value
import Rover.World.Basic

/-!
# Events

What there is to tell about a run. A run keeps the list of its events, and tells the observers of each of them when it
happens; standard output, the console, call traces, log lines and displays are different readings of the list.
-/

namespace Rover

/-- A parameter and its value at a call or a return. -/
structure Binding where
  name : String
  value : Value
  byRef : Bool

inductive Event where
  /-- A program with these functions has been loaded. -/
  | loaded (names : List String)
  /-- A `write` statement. -/
  | wrote (text : String)
  /-- A line for the console. -/
  | noted (line : String)
  /-- Lines for the console about a robot operation, if operations are narrated. -/
  | narrated (lines : List String)
  | called (name : String) (bindings : List Binding) (line : Int) (depth : Int) (isEntry : Bool)
  | returned (name : String) (result : Value) (refs : List Binding) (line : Int) (depth : Int)
  | world (e : WorldEvent)

namespace Event

/-- The console lines of an event. -/
def console (narrate : Bool) : Event → List String
  | noted line => [line]
  | narrated lines => if narrate then lines else []
  | _ => []

/-- What an event puts on standard output: console lines appear there too. -/
def output (narrate : Bool) : Event → String
  | wrote text => text
  | e => String.join ((e.console narrate).map (· ++ "\n"))

end Event

/-- The standard output of a log. -/
def outputText (narrate : Bool) (events : List Event) : String := String.join (events.map (Event.output narrate))

def consoleLines (narrate : Bool) (events : List Event) : List String := events.flatMap (Event.console narrate)

end Rover
