import Rover.Machine.Basic

/-!
# Robot operations

The built-in functions of the language. Each one first checks, if it needs to, that the robot has been placed, then the
number of its arguments, then evaluates and checks the arguments from left to right, and only then acts.
-/

namespace Rover

inductive Builtin where
  | set
  | move
  | turn
  | obstacle
  | trail
  | feel
  | xPosition
  | yPosition
  | rotation
  deriving DecidableEq, Repr

inductive ArgumentType where
  | number
  | integer
  | boolean
  deriving DecidableEq, Repr

namespace Builtin

def name : Builtin → String
  | set => "rSet"
  | move => "rMove"
  | turn => "rTurn"
  | obstacle => "oSet"
  | trail => "rTrail"
  | feel => "rFeel"
  | xPosition => "rXPosition"
  | yPosition => "rYPosition"
  | rotation => "rRotation"

def ofName? (name : String) : Option Builtin :=
  [set, move, turn, obstacle, trail, feel, xPosition, yPosition, rotation].find? (·.name == name)

/-- Whether the robot has to be placed before anything else is looked at. -/
def needsPosition : Builtin → Bool
  | set => false
  | obstacle => false
  | trail => false
  | _ => true

def arguments : Builtin → List ArgumentType
  | set => [.number, .number, .number]
  | move => [.number]
  | turn => [.number]
  | obstacle => [.number, .number, .number, .number]
  | trail => [.boolean]
  | feel => [.integer]
  | xPosition => []
  | yPosition => []
  | rotation => []

end Builtin

/-- An argument of the wanted type; numbers of both types become floats. -/
def ArgumentType.check (t : ArgumentType) (v : Value) : Except Cause Value :=
  match t, v with
  | .number, .integer n => .ok (.float (toSingle (ofWord n)))
  | .number, .float x => .ok (.float (toSingle x))
  | .number, _ => .error .argumentType
  | .integer, .integer n => .ok (.integer n)
  | .integer, _ => .error (.operand .notInteger)
  | .boolean, .boolean b => .ok (.boolean b)
  | .boolean, _ => .error (.operand .notBoolean)

namespace Narration

def place (x y : Float) : String := "X: " ++ singleText x ++ ", Y: " ++ singleText y

def rotation (degrees : Float) : String := "Rotation(Deg): " ++ singleText degrees

def placed (first : Bool) (w : World) : List String :=
  [if first then "Robot positioned:" else "Robot repositioned:",
    place w.pose.x w.pose.y ++ ", " ++ rotation w.pose.heading]

def moved (w : World) : List String := ["Robot moved:", place w.pose.x w.pose.y]

def turned (w : World) : List String := ["Robot rotated:", rotation w.pose.heading]

def obstacle (o : Obstacle) : List String :=
  ["Obstacle set:", place o.x o.y ++ ", H. size: " ++ singleText o.sizeX ++ ", V. size: " ++ singleText o.sizeY]

def trail (enabled : Bool) : List String := [if enabled then "Trailing enabled." else "Trailing disabled."]

end Narration

namespace Builtin

/-- Moves the robot, within the fuel. -/
def performMove (fuel : Nat) (distance : Float) : Eval Value := fun m =>
  match m.world.move fuel distance with
  | none => .unfinished
  | some r => (Eval.world (fun _ => r) (fun _ w => Narration.moved w) >>= fun _ => Eval.pure .void) m

/-- The effect and the answer of an operation on arguments of the right types. -/
def perform (fuel : Nat) : Builtin → List Value → Eval Value
  | set, [.float x, .float y, .float degrees] => do
    Eval.world (·.setPose x y degrees) Narration.placed
    return .void
  | move, [.float distance] => performMove fuel distance
  | turn, [.float degrees] => do
    Eval.world (·.turn degrees) fun _ w => Narration.turned w
    return .void
  | obstacle, [.float x, .float y, .float sizeX, .float sizeY] => do
    Eval.world (·.addObstacle x y sizeX sizeY) fun o _ => Narration.obstacle o
    return .void
  | trail, [.boolean enabled] => do
    Eval.world (fun w => .ok (w.setTrail enabled)) fun _ _ => Narration.trail enabled
    return .void
  | feel, [.integer sensor] => do return .boolean (← Eval.ask (·.feel sensor))
  | xPosition, [] => do return .ofFloat (← Eval.ask (·.xPosition))
  | yPosition, [] => do return .ofFloat (← Eval.ask (·.yPosition))
  | rotation, [] => do return .ofFloat (← Eval.ask (·.rotation))
  | _, _ => Eval.fail .argumentCount

/-- The checks before the arguments are evaluated. -/
def precheck (b : Builtin) (count : Nat) : Eval Unit := do
  if b.needsPosition then Eval.ask (·.requirePositioned)
  if count ≠ b.arguments.length then Eval.fail .argumentCount

end Builtin

end Rover
