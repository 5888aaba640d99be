import Rover.Event

/-!
# Log lines

Diagnostics about a run, each at a level. What happens inside is told at `debug`; a logging display tells every change of
the world at `info`.
-/

namespace Rover

/-- Levels from low to high. -/
inductive Level where
  | trace
  | debug
  | info
  | success
  | warning
  | error
  | critical
  deriving DecidableEq, Repr

namespace Level

def name : Level → String
  | trace => "TRACE"
  | debug => "DEBUG"
  | info => "INFO"
  | success => "SUCCESS"
  | warning => "WARNING"
  | error => "ERROR"
  | critical => "CRITICAL"

def severity : Level → Nat
  | trace => 0
  | debug => 1
  | info => 2
  | success => 3
  | warning => 4
  | error => 5
  | critical => 6

def ofName? (name : String) : Option Level :=
  [trace, debug, info, success, warning, error, critical].find? (·.name == name)

end Level

structure LogLine where
  level : Level
  message : String

namespace LogLine

def text (l : LogLine) : String := l.level.name ++ " " ++ l.message

def triple (x y z : Float) : String := "(" ++ doubleText x ++ ", " ++ doubleText y ++ ", " ++ doubleText z ++ ")"

/-- The line of a logging display for a change of the world. -/
def display? : WorldEvent → Option String
  | .position p =>
    some ("robot at x=" ++ fixedText 3 p.x ++ " y=" ++ fixedText 3 p.y ++ " heading=" ++ fixedText 1 p.heading)
  | .obstacle o =>
    some ("obstacle at x=" ++ doubleText o.x ++ " y=" ++ doubleText o.y ++ " size=" ++ doubleText o.sizeX ++ "x" ++
      doubleText o.sizeY)
  | .positioned => some "robot positioned=True"
  | .trail enabled => some (if enabled then "trail on" else "trail off")
  | _ => none

def diagnostic? : Event → Option String
  | .loaded names =>
    some ("loaded " ++ Numeral.ofNat names.length ++ " function(s): " ++ ", ".intercalate names)
  | .called name _ line depth _ =>
    some ("call " ++ name ++ " depth=" ++ Numeral.ofInt depth ++ " line=" ++ Numeral.ofInt line)
  | .world (.placed p) => some ("rSet -> " ++ triple p.x p.y p.heading)
  | .world (.stopped steps x y) =>
    some ("rMove stopped after " ++ Numeral.ofNat steps ++ " step(s) at (" ++ doubleText x ++ ", " ++ doubleText y ++ ")")
  | _ => none

/-- The line of an event, if it has one; `showDisplay` if a logging display is attached. -/
def ofEvent? (showDisplay : Bool) (e : Event) : Option LogLine :=
  match e with
  | .world w =>
    match if showDisplay then display? w else none with
    | some message => some ⟨.info, message⟩
    | none => (diagnostic? e).map (⟨.debug, ·⟩)
  | e => (diagnostic? e).map (⟨.debug, ·⟩)

/-- The log lines of at least a level. -/
def ofEvents (least : Level) (showDisplay : Bool) (events : List Event) : List LogLine :=
  (events.filterMap (ofEvent? showDisplay)).filter (least.severity ≤ ·.level.severity)

end LogLine

end Rover
