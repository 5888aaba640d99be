import Rover.Text.Quoted

/-!
# JSON texts

Documents and how they are written: on one line without blanks, or with a line for every part and some blanks for every
level.
-/

namespace Rover

inductive Json where
  | null
  | bool (b : Bool)
  /-- A number by its text. -/
  | number (text : String)
  | string (s : String)
  | array (items : List Json)
  | object (fields : List (String × Json))

namespace Json

def escapeChar (c : Char) : List Char :=
  if c = '"' ∨ c = '\\' then ['\\', c]
  else if c = '\n' then ['\\', 'n']
  else if c = '\r' then ['\\', 'r']
  else if c = '\t' then ['\\', 't']
  else if c.toNat < 32 then ['\\', 'u'] ++ Quoted.hexDigits 4 c.toNat
  else [c]

def stringText (s : String) : String := "\"" ++ String.ofList (s.toList.flatMap escapeChar) ++ "\""

/-- Parts between two brackets, on lines of their own if there is an indent. -/
def bracket (indent : Option Nat) (level : Nat) (left right : String) (parts : List String) : String :=
  if parts.isEmpty then left ++ right
  else match indent with
    | none => left ++ ",".intercalate parts ++ right
    | some width =>
      let line (level : Nat) : String := "\n" ++ String.ofList (List.replicate (width * level) ' ')
      left ++ line (level + 1) ++ ("," ++ line (level + 1)).intercalate parts ++ line level ++ right

/-- What stands between a key and its value. -/
def colon (indent : Option Nat) : String := if indent.isSome then ": " else ":"

mutual

/-- The text of a document at a level of nesting. -/
def write (indent : Option Nat) (level : Nat) : Json → String
  | null => "null"
  | bool b => if b then "true" else "false"
  | number text => text
  | string s => stringText s
  | array items => bracket indent level "[" "]" (writeItems indent (level + 1) items)
  | object fields => bracket indent level "\x7b" "\x7d" (writeFields indent (level + 1) fields)

def writeItems (indent : Option Nat) (level : Nat) : List Json → List String
  | [] => []
  | j :: rest => write indent level j :: writeItems indent level rest

def writeFields (indent : Option Nat) (level : Nat) : List (String × Json) → List String
  | [] => []
  | (key, j) :: rest => (stringText key ++ colon indent ++ write indent level j) :: writeFields indent level rest

end

/-- The text of a document; an indent puts every part on a line of its own. -/
def text (indent : Option Nat) (j : Json) : String := write indent 0 j

end Json

end Rover
