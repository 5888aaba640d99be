import Rover.Event

/-!
# The recording display

Keeps every change of the world that it is told of, and from them the path and the flags that a drawing would need.
-/

namespace Rover

structure Display where
  events : List WorldEvent
  path : List (Float × Float)
  positioned : Bool
  trail : Bool

namespace Display

/-- Whether a display is told of an event. -/
def shows : WorldEvent → Bool
  | .placed _ => false
  | .stopped _ _ _ => false
  | _ => true

/-- What a display is told of a log. -/
def shown (events : List Event) : List WorldEvent :=
  events.filterMap fun
    | .world e => if shows e then some e else none
    | _ => none

/-- The path that the position events draw. -/
def pathOf (events : List WorldEvent) : List (Float × Float) :=
  events.filterMap fun
    | .position p => some (p.x, p.y)
    | _ => none

/-- The last setting of the trail. -/
def trailOf (events : List WorldEvent) : Bool :=
  events.foldl (fun trail e => match e with
    | .trail enabled => enabled
    | _ => trail) false

def positionedOf (events : List WorldEvent) : Bool := events.any (· matches .positioned)

/-- The display after some events. -/
def ofEvents (events : List WorldEvent) : Display :=
  ⟨events, pathOf events, positionedOf events, trailOf events⟩

end Display

end Rover
