import Rover.Event
import Rover.Text.Json

/-!
# Call spans

The span form of a call trace: every call opens a span under the innermost open one, and a normal return ends the
innermost one. A call that fails leaves its span open until the recorder is closed.
-/

namespace Rover

inductive Attribute where
  | int (n : Int)
  | bool (b : Bool)
  | text (s : String)

def Attribute.json : Attribute → Json
  | int n => .number (Numeral.ofInt n)
  | bool b => .bool b
  | text s => .string s

structure Span where
  /-- Spans are numbered in the order in which they open. -/
  number : Nat
  name : String
  parent : Option Nat
  attributes : List (String × Attribute)
  /-- How many attributes had to go. -/
  dropped : Nat

/-- Spans that are open, innermost first, and those that have ended, last first. -/
structure SpanRecorder where
  opened : List Span
  ended : List Span
  count : Nat

namespace Span

/-- How many attributes a span keeps. -/
def maxAttributes : Nat := 128

/-- Sets an attribute, in place of an earlier one of the same key. If there are too many then, the oldest one goes. -/
def set (s : Span) (key : String) (a : Attribute) : Span :=
  let attributes := s.attributes.filter (·.1 ≠ key) ++ [(key, a)]
  let excess := attributes.length - maxAttributes
  { s with attributes := attributes.drop excess, dropped := s.dropped + excess }

def setValues (s : Span) (group : String) (bindings : List Binding) : Span :=
  bindings.foldl (fun s b => s.set ("robotlang." ++ group ++ "." ++ b.name) (.text b.value.text)) s

/-- The document of a span under a parent of some name. -/
def json (s : Span) (parent : Option String) : Json :=
  .object [("name", .string s.name), ("parent", parent.elim .null .string),
    ("attributes", .object (s.attributes.map fun (key, a) => (key, a.json)))]

end Span

namespace SpanRecorder

def empty : SpanRecorder := ⟨[], [], 0⟩

def call (r : SpanRecorder) (name : String) (bindings : List Binding) (line : Int) (depth : Int) (isEntry : Bool) :
    SpanRecorder :=
  let span : Span := ⟨r.count, "call:" ++ name, r.opened.head?.map (·.number), [], 0⟩
  let span := span.set "robotlang.line" (.int line) |>.set "robotlang.depth" (.int depth)
    |>.set "robotlang.entry_point" (.bool isEntry) |>.setValues "arg" bindings
  ⟨span :: r.opened, r.ended, r.count + 1⟩

def ret (r : SpanRecorder) (result : Value) (refs : List Binding) : SpanRecorder :=
  match r.opened with
  | [] => r
  | span :: outer =>
    let span := if result.isVoid then span else span.set "robotlang.result" (.text result.text)
    { r with opened := outer, ended := span.setValues "ref" refs :: r.ended }

/-- Ends the spans that are still open, innermost first. -/
def close (r : SpanRecorder) : SpanRecorder := { r with opened := [], ended := r.opened.reverse ++ r.ended }

def record (r : SpanRecorder) : Event → SpanRecorder
  | .called name bindings line depth isEntry => r.call name bindings line depth isEntry
  | .returned _ result refs _ _ => r.ret result refs
  | _ => r

def ofEvents (events : List Event) : SpanRecorder := events.foldl record empty

/-- The ended spans in the order of their ends. -/
def spans (r : SpanRecorder) : List Span := r.ended.reverse

/-- A warning for every attribute that had to go. -/
def warnings (r : SpanRecorder) : List String :=
  List.replicate ((r.opened ++ r.ended).foldl (fun total s => total + s.dropped) 0)
    "Attributes dict is full. Dropping the oldest key-value pair from attributes to make space for the new key-value pair."

/-- The name of the parent of a span: `none` without a parent, and a question mark for one that has not ended. -/
def parentName (r : SpanRecorder) (s : Span) : Option String :=
  s.parent.map fun n => match r.ended.find? (·.number == n) with
    | some p => p.name
    | none => "?"

end SpanRecorder

end Rover
