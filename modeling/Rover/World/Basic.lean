import Rover.Numeric.Layout
import Rover.Numeric.Square
import Rover.Numeric.Trig
import Rover.Text.Json
import Rover.World.Config

/-!
# The arena

A disk robot in the square from (0, 0) to (size, size), among axis-aligned rectangles. A position is valid if the disk and
the margin around it lie in the square. Coordinates and headings are kept in single precision; the geometry is computed in
doubles.

Every operation either fails and changes nothing, or gives the new world together with what there is to tell about it. A
snapshot is the state of a world as a JSON document.
-/

namespace Rover

/-! ### Headings -/

/-- The remainder of a division by 360, at least zero. The division is exact; the remainder of a negative number is
rounded once. -/
def modTurn (x : Float) : Float :=
  match parts x with
  | .finite neg m q =>
    let den := 1 <<< (-q).toNat
    let rest := m <<< q.toNat % (360 * den)
    let y := Format.double.nearest false rest den
    if neg ∧ rest ≠ 0 then 360.0 - y else y
  | _ => notANumber

/-- The heading of an angle in degrees. A small negative angle can round up to a full turn, which is the heading 0. -/
def heading (degrees : Float) : Float :=
  let h := toSingle (modTurn degrees)
  if h ≥ 360.0 then 0.0 else h

/-- An angle in degrees as radians. -/
def radians (degrees : Float) : Float := degrees * (3.141592653589793 / 180.0)

/-! ### Worlds -/

structure Obstacle where
  x : Float
  y : Float
  sizeX : Float
  sizeY : Float
  deriving DecidableEq

structure Pose where
  x : Float
  y : Float
  heading : Float
  deriving DecidableEq

structure World where
  config : Config
  pose : Pose
  positioned : Bool
  trail : Bool
  obstacles : Array Obstacle
  path : Array (Float × Float)

inductive WorldError where
  | notPositioned
  | outOfBounds
  | obstacleOverlap
  | obstacleBounds
  | badSensor
  /-- The square of a distance is too large for a double. -/
  | squareOverflow
  /-- An infinite angle points nowhere. -/
  | infiniteAngle
  deriving DecidableEq, Repr

def WorldError.message : WorldError → String
  | notPositioned => "robot is not positioned yet"
  | outOfBounds => "Position out of bounds"
  | obstacleOverlap => "obstacle overlaps with robot"
  | obstacleBounds => "obstacle out of bounds"
  | badSensor => "incorrect sensor number"
  | squareOverflow => "(34, 'Numerical result out of range')"
  | infiniteAngle => "math domain error"

/-- What there is to tell about a change of the world. -/
inductive WorldEvent where
  | position (pose : Pose)
  | obstacle (o : Obstacle)
  /-- The robot has been placed for the first time. -/
  | positioned
  | trail (enabled : Bool)
  /-- A placement has ended at this pose. -/
  | placed (pose : Pose)
  /-- A movement has met something after so many steps. -/
  | stopped (steps : Nat) (x y : Float)
  deriving DecidableEq

/-- The answer of an operation, the world after it, and what there is to tell. -/
structure Change (α : Type) where
  answer : α
  world : World
  events : List WorldEvent

namespace World

/-- The robot of a new world stands nowhere. -/
def initial (config : Config) : World := ⟨config, ⟨-1.0, -1.0, 0.0⟩, false, false, #[], #[]⟩

/-! ### Geometry -/

/-- The square of a number; a finite number has to have a finite square. -/
def finiteSquare (x : Float) : Except WorldError Float :=
  if x.isFinite && x.abs ≥ squareLimit then .error .squareOverflow else .ok (square x)

/-- Whether the disk around (x, y) touches a rectangle. -/
def intersects (x y radius : Float) (o : Obstacle) : Except WorldError Bool :=
  let halfX := o.sizeX / 2.0
  let halfY := o.sizeY / 2.0
  let dx := (x - o.x).abs
  let dy := (y - o.y).abs
  if dx > halfX + radius || dy > halfY + radius then .ok false
  else if dx ≤ halfX || dy ≤ halfY then .ok true
  else do
    let cornerX ← finiteSquare (dx - halfX)
    let cornerY ← finiteSquare (dy - halfY)
    let reach ← finiteSquare radius
    return cornerX + cornerY ≤ reach

/-- Whether the disk around (x, y) and its margin lie in the arena. -/
def isValidPosition (w : World) (x y : Float) : Bool :=
  let reach := w.config.robotRadius + w.config.margin
  let size := w.config.envSize
  x - reach ≥ 0.0 && x + reach ≤ size && y - reach ≥ 0.0 && y + reach ≤ size

/-- Whether one of the obstacles, tried in order, touches the disk. -/
def collidesAny (x y radius : Float) : List Obstacle → Except WorldError Bool
  | [] => .ok false
  | o :: rest => do if ← intersects x y radius o then return true else collidesAny x y radius rest

/-- Whether the robot at (x, y) would touch an obstacle. -/
def collides (w : World) (x y : Float) : Except WorldError Bool :=
  collidesAny x y w.config.robotRadius w.obstacles.toList

def isBlocked (w : World) (x y : Float) : Except WorldError Bool :=
  if w.isValidPosition x y then w.collides x y else .ok true

/-- The cosine and the sine of an angle in degrees; the angle has to be no infinity. -/
def bearing (degrees : Float) : Except WorldError (Float × Float) :=
  let angle := radians degrees
  if angle.isInf then .error .infiniteAngle else .ok (cosine angle, sine angle)

def requirePositioned (w : World) : Except WorldError Unit :=
  if w.positioned then .ok () else .error .notPositioned

/-! ### Operations -/

/-- Moves the robot to a pose, rounded to single precision, and adds the place to the path. -/
def commit (w : World) (x y heading : Float) : World × WorldEvent :=
  let pose : Pose := ⟨toSingle x, toSingle y, toSingle heading⟩
  ({ w with pose, path := w.path.push (pose.x, pose.y) }, .position pose)

/-- Places the robot; the answer says whether it is the first time. -/
def setPose (w : World) (x y degrees : Float) : Except WorldError (Change Bool) :=
  let x := toSingle x
  let y := toSingle y
  let degrees := heading degrees
  if w.isValidPosition x y then
    let first := !w.positioned
    let (w, moved) := w.commit x y degrees
    let placed := WorldEvent.placed ⟨x, y, degrees⟩
    .ok ⟨first, { w with positioned := true }, if first then [moved, .positioned, placed] else [moved, placed]⟩
  else .error .outOfBounds

/-- How far a movement got: the last free place, the number of steps, and whether something stopped it. -/
structure Motion where
  x : Float
  y : Float
  steps : Nat
  blocked : Bool

/-- Steps on from (x, y) until the distance is covered or the next place is blocked. Candidate places are rounded to single
precision before they are tested. The answer is `none` if the fuel does not last. -/
def advance (w : World) (cos sin direction : Float) :
    (fuel : Nat) → (remaining x y : Float) → (steps : Nat) → Option (Except WorldError Motion)
  | 0, _, _, _, _ => none
  | fuel + 1, remaining, x, y, steps =>
    if remaining > 0.0 then
      let step := (if remaining < w.config.speed then remaining else w.config.speed) * direction
      let nextX := toSingle (x + step * cos)
      let nextY := toSingle (y + step * sin)
      match w.isBlocked nextX nextY with
      | .error e => some (.error e)
      | .ok true => some (.ok ⟨x, y, steps, true⟩)
      | .ok false => advance w cos sin direction fuel (remaining - step.abs) nextX nextY (steps + 1)
    else some (.ok ⟨x, y, steps, false⟩)

/-- Puts the robot where a movement has ended. -/
def arrive (w : World) (m : Motion) : Change Unit :=
  let (w, moved) := w.commit m.x m.y w.pose.heading
  ⟨(), w, if m.blocked then [.stopped m.steps m.x m.y, moved] else [moved]⟩

/-- Moves the robot along its heading, backwards for a negative distance. -/
def move (w : World) (fuel : Nat) (distance : Float) : Option (Except WorldError (Change Unit)) :=
  if w.positioned then
    match bearing w.pose.heading with
    | .error e => some (.error e)
    | .ok (cos, sin) =>
      let direction : Float := if distance ≥ 0.0 then 1.0 else -1.0
      (w.advance cos sin direction fuel distance.abs w.pose.x w.pose.y 0).map (·.map w.arrive)
  else some (.error .notPositioned)

/-- Turns the robot by an angle in degrees. -/
def turn (w : World) (degrees : Float) : Except WorldError (Change Unit) := do
  w.requirePositioned
  let (w, moved) := w.commit w.pose.x w.pose.y (heading (w.pose.heading + degrees))
  return ⟨(), w, [moved]⟩

/-- Whether a side of a rectangle sticks out of the arena. -/
def sticksOut (w : World) (o : Obstacle) : Bool :=
  let size := w.config.envSize
  o.x - o.sizeX / 2.0 < 0.0 || o.x + o.sizeX / 2.0 > size || o.y - o.sizeY / 2.0 < 0.0 || o.y + o.sizeY / 2.0 > size

/-- Adds an obstacle, away from a placed robot and inside the arena. -/
def addObstacle (w : World) (x y sizeX sizeY : Float) : Except WorldError (Change Obstacle) := do
  let o : Obstacle := ⟨toSingle x, toSingle y, toSingle sizeX, toSingle sizeY⟩
  let overlap ← if w.positioned then intersects w.pose.x w.pose.y w.config.robotRadius o else .ok false
  if overlap then throw .obstacleOverlap
  if w.sticksOut o then throw .obstacleBounds
  return ⟨o, { w with obstacles := w.obstacles.push o }, [.obstacle o]⟩

def setTrail (w : World) (enabled : Bool) : Change Unit :=
  ⟨(), { w with trail := enabled }, [.trail enabled]⟩

/-- Reads one of the eight sensors, each an eighth of a turn from the last. -/
def feel (w : World) (sensor : Int) : Except WorldError Bool := do
  w.requirePositioned
  if sensor < 0 ∨ 8 ≤ sensor then throw .badSensor
  let (cos, sin) ← bearing (w.pose.heading + 45.0 * ofWord sensor)
  w.isBlocked (w.pose.x + w.config.sensorRange * cos) (w.pose.y + w.config.sensorRange * sin)

def xPosition (w : World) : Except WorldError Float := do
  w.requirePositioned
  return w.pose.x

def yPosition (w : World) : Except WorldError Float := do
  w.requirePositioned
  return w.pose.y

def rotation (w : World) : Except WorldError Float := do
  w.requirePositioned
  return w.pose.heading

/-! ### Snapshots -/

/-- A number of a snapshot; JSON has no text for one that is not finite. -/
def snapshotNumber (x : Float) : Json :=
  match parts x with
  | .finite neg m q => .number (Layout.snapshot.double x neg (quotient m q).1 (quotient m q).2)
  | _ => .null

def snapshotObstacle (o : Obstacle) : Json :=
  .object [("x", snapshotNumber o.x), ("y", snapshotNumber o.y), ("size_x", snapshotNumber o.sizeX),
    ("size_y", snapshotNumber o.sizeY)]

def snapshot (w : World) : Json :=
  .object [("positioned", .bool w.positioned), ("x", snapshotNumber w.pose.x), ("y", snapshotNumber w.pose.y),
    ("heading", snapshotNumber w.pose.heading), ("trail_enabled", .bool w.trail),
    ("obstacles", .array (w.obstacles.toList.map snapshotObstacle)),
    ("path", .array (w.path.toList.map fun p => .array [snapshotNumber p.1, snapshotNumber p.2]))]

end World

end Rover
