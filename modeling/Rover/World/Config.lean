import Rover.Numeric.Reading

/-!
# Configuration

The constants of the arena and the robot. Each field has a default and a lower bound, and may be given as an integer, a
number, a truth value or a text that reads as a number.
-/

namespace Rover

structure Config where
  /-- Side of the square arena. -/
  envSize : Float
  /-- Radius of the robot disk. -/
  robotRadius : Float
  /-- Distance kept from the walls. -/
  margin : Float
  /-- Distance covered by one step of a movement. -/
  speed : Float
  /-- Distance of a sensor point from the robot's centre. -/
  sensorRange : Float
  deriving DecidableEq

namespace Config

def default : Config := ⟨50.0, 1.0, 0.01, 0.001, 1.1⟩

/-- Fields in the order of their declaration. -/
inductive Field where
  | envSize
  | robotRadius
  | margin
  | speed
  | sensorRange
  deriving DecidableEq, Repr

namespace Field

def all : List Field := [envSize, robotRadius, margin, speed, sensorRange]

def name : Field → String
  | envSize => "env_size"
  | robotRadius => "robot_radius"
  | margin => "margin"
  | speed => "speed"
  | sensorRange => "sensor_range"

/-- The environment variable that sets a field. -/
def envName : Field → String
  | envSize => "ROBOTLANG_ENV_SIZE"
  | robotRadius => "ROBOTLANG_ROBOT_RADIUS"
  | margin => "ROBOTLANG_MARGIN"
  | speed => "ROBOTLANG_SPEED"
  | sensorRange => "ROBOTLANG_SENSOR_RANGE"

/-- Whether zero is allowed. -/
def allowsZero : Field → Bool
  | margin => true
  | _ => false

end Field

/-- A setting as it is given. -/
inductive Setting where
  | integer (n : Int)
  | number (x : Float)
  | flag (b : Bool)
  | text (s : String)
  | other

inductive Problem where
  | unreadable
  | notNumber
  | notPositive
  | negative
  deriving DecidableEq, Repr

namespace Problem

def code : Problem → String
  | unreadable => "float_parsing"
  | notNumber => "float_type"
  | notPositive => "greater_than"
  | negative => "greater_than_equal"

def message : Problem → String
  | unreadable => "Input should be a valid number, unable to parse string as a number"
  | notNumber => "Input should be a valid number"
  | notPositive => "Input should be greater than 0"
  | negative => "Input should be greater than or equal to 0"

end Problem

/-- Whether two underscores stand side by side. -/
def doubled : List Char → Bool
  | '_' :: '_' :: _ => true
  | _ :: rest => doubled rest
  | [] => false

/-- A text without its underscores, if they only separate. -/
def ungrouped? (text : List Char) : Option (List Char) :=
  if text.head? = some '_' ∨ text.getLast? = some '_' ∨ doubled text then none else some (text.filter (· ≠ '_'))

def readText? (s : String) : Option Float :=
  Reading.plainFloat? (trimBlank s.toList) <|> (ungrouped? s.toList).bind Reading.plainFloat?

/-- The double nearest to an integer. -/
def nearestTo (n : Int) : Float := Format.double.nearestScaled (decide (n < 0)) n.natAbs 0

/-- The number of a setting. An integer beyond all doubles is none. -/
def Setting.read : Setting → Except Problem Float
  | integer n => if (nearestTo n).isFinite then .ok (nearestTo n) else .error .notNumber
  | number x => .ok x
  | flag b => .ok (if b then 1.0 else 0.0)
  | text s => match readText? s with
    | some x => .ok x
    | none => .error .unreadable
  | other => .error .notNumber

/-- A bound that holds of no not-a-number. -/
def Field.check (f : Field) (x : Float) : Except Problem Float :=
  if f.allowsZero then if x ≥ 0.0 then .ok x else .error .negative
  else if x > 0.0 then .ok x else .error .notPositive

def get (c : Config) : Field → Float
  | .envSize => c.envSize
  | .robotRadius => c.robotRadius
  | .margin => c.margin
  | .speed => c.speed
  | .sensorRange => c.sensorRange

/-- The number of a field under the given settings. -/
def value (settings : Field → Option Setting) (f : Field) : Except Problem Float :=
  match settings f with
  | none => .ok (default.get f)
  | some s => s.read.bind f.check

def problem? (settings : Field → Option Setting) (f : Field) : Option (Field × Problem) :=
  match value settings f with
  | .ok _ => none
  | .error p => some (f, p)

/-- The configuration under the given settings, or every problem in the order of the fields. -/
def ofSettings (settings : Field → Option Setting) : Except (List (Field × Problem)) Config :=
  match value settings .envSize, value settings .robotRadius, value settings .margin, value settings .speed,
      value settings .sensorRange with
  | .ok envSize, .ok robotRadius, .ok margin, .ok speed, .ok sensorRange =>
    .ok ⟨envSize, robotRadius, margin, speed, sensorRange⟩
  | _, _, _, _, _ => .error (Field.all.filterMap (problem? settings))

/-- Settings from environment variables, over which explicit ones win. -/
def settings (env : String → Option String) (overrides : String → Option Setting) (f : Field) : Option Setting :=
  overrides f.name <|> (env f.envName).map .text

end Config

end Rover
