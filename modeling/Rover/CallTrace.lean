import Rover.Event

/-!
# Call traces

The text form of a call trace: a line for every call and every normal return, indented by the depth of the call.
-/

namespace Rover.CallTrace

def indent (depth : Int) : String := String.join (List.replicate depth.toNat "|   ")

def argument (b : Binding) : String := (if b.byRef then "&" else "") ++ b.name ++ "=" ++ b.value.text

def place (line : Int) : String := "<line " ++ Numeral.ofInt line ++ ">"

def callLine (name : String) (bindings : List Binding) (line : Int) (depth : Int) (isEntry : Bool) : String :=
  indent depth ++ name ++ "(" ++ ", ".intercalate (bindings.map argument) ++ ") " ++
    (if isEntry then "<entry point>" else place line) ++ "\n"

/-- A void result is not shown. -/
def returnLine (result : Value) (refs : List Binding) (line : Int) (depth : Int) : String :=
  indent depth ++ "return" ++ (if result.isVoid then "" else " " ++ result.text) ++
    String.join (refs.map fun b => ", &" ++ b.name ++ "=" ++ b.value.text) ++ " " ++ place line ++ "\n"

def eventText : Event → String
  | .called name bindings line depth isEntry => callLine name bindings line depth isEntry
  | .returned _ result refs line depth => returnLine result refs line depth
  | _ => ""

/-- The trace of a log. -/
def text (events : List Event) : String := String.join (events.map eventText)

/-- A trace on its way to a file. -/
structure Recorder where
  /-- Whether the file is closed together with the trace. -/
  owned : Bool
  closed : Bool
  text : String

/-- Nothing can be written to a closed file. -/
inductive RecordError where
  | closed

def RecordError.message : RecordError → String
  | closed => "I/O operation on closed file"

namespace Recorder

def start (owned : Bool) : Recorder := ⟨owned, false, ""⟩

def record (r : Recorder) (e : Event) : Except RecordError Recorder :=
  if r.closed then .error .closed else .ok { r with text := r.text ++ eventText e }

def close (r : Recorder) : Recorder := { r with closed := r.closed || r.owned }

end Recorder

end Rover.CallTrace
