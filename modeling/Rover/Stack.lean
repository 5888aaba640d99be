import Rover.Value

/-!
# Activation records

Every variable lives in a cell of the store. A record binds names to cells; a by-reference parameter is a second name for
a cell of the caller, so the callee writes straight into it. Cells are never given back, so an address stays good after the
record that made it has gone.
-/

namespace Rover

/-- The address of a cell. -/
abbrev Cell := Nat

structure Frame where
  name : String
  /-- The line of the caller at the call. -/
  callerLine : Int
  slots : List (String × Cell)
  deriving DecidableEq, Repr

inductive StackError where
  | noActiveFunction
  | emptyStack
  | undefinedVariable (name : String)
  deriving DecidableEq, Repr

def StackError.message : StackError → String
  | noActiveFunction => "No active function"
  | emptyStack => "Pop from an empty call stack"
  | undefinedVariable name => "Variable " ++ name ++ " not defined"

namespace Frame

def cell? (f : Frame) (name : String) : Option Cell := f.slots.lookup name

/-- Binds a name to a cell, in place of an earlier binding. -/
def bindTo (name : String) (cell : Cell) : List (String × Cell) → List (String × Cell)
  | [] => [(name, cell)]
  | (n, c) :: rest => if n = name then (n, cell) :: rest else (n, c) :: bindTo name cell rest

def bind (f : Frame) (name : String) (cell : Cell) : Frame := { f with slots := bindTo name cell f.slots }

/-- The lines of a stack trace: the innermost frame is at `line`, and each outer one where it called the next. -/
def entries (line : Int) : List Frame → List String
  | [] => []
  | f :: outer => (f.name ++ " (line " ++ Numeral.ofInt line ++ ")") :: entries f.callerLine outer

end Frame

/-- Records, innermost first, and the contents of all cells. -/
structure Stack where
  frames : List Frame
  cells : Array Value

namespace Stack

def empty : Stack := ⟨[], #[]⟩

def depth (s : Stack) : Nat := s.frames.length

def top (s : Stack) : Except StackError Frame :=
  match s.frames with
  | [] => .error .noActiveFunction
  | f :: _ => .ok f

def push (s : Stack) (name : String) (callerLine : Int) : Stack :=
  { s with frames := ⟨name, callerLine, []⟩ :: s.frames }

/-- Leaves the innermost record. -/
def leave (s : Stack) : Stack := { s with frames := s.frames.drop 1 }

/-- The innermost record and the stack without it. -/
def pop (s : Stack) : Except StackError (Frame × Stack) :=
  match s.frames with
  | [] => .error .emptyStack
  | f :: _ => .ok (f, s.leave)

/-- A new cell with this content: the last of the store. -/
def alloc (s : Stack) (v : Value) : Cell × Stack :=
  let cells := s.cells.push v
  (cells.size - 1, { s with cells })

def content (s : Stack) (cell : Cell) : Value := s.cells.getD cell .void

/-- Binds a name of the innermost record to a cell. -/
def bind (s : Stack) (name : String) (cell : Cell) : Except StackError Stack :=
  match s.frames with
  | [] => .error .noActiveFunction
  | f :: outer => .ok { s with frames := f.bind name cell :: outer }

/-- The cell of a name in the innermost record. -/
def cell (s : Stack) (name : String) : Except StackError Cell := do
  match (← s.top).cell? name with
  | some c => return c
  | none => throw (.undefinedVariable name)

def get (s : Stack) (name : String) : Except StackError Value := do return s.content (← s.cell name)

/-- Puts a value into the variable of a name in the innermost record, which has to exist. -/
def assign (s : Stack) (name : String) (v : Value) : Stack :=
  match s with
  | ⟨[], cells⟩ => ⟨[], cells⟩
  | ⟨f :: outer, cells⟩ =>
    match f.cell? name with
    | some c => ⟨f :: outer, cells.setIfInBounds c v⟩
    | none =>
      let cells := cells.push v
      ⟨f.bind name (cells.size - 1) :: outer, cells⟩

/-- Assigns to a variable of the innermost record; the first assignment declares it. -/
def define (s : Stack) (name : String) (v : Value) : Except StackError Stack :=
  match s.frames with
  | [] => .error .noActiveFunction
  | _ :: _ => .ok (s.assign name v)

/-- The first `n` entries of a list, or all but the last `-n`. -/
def front {α : Type} (n : Int) (l : List α) : List α := if 0 ≤ n then l.take n.toNat else l.take (l.length + n).toNat

/-- The list from its entry `n` on; a negative `n` counts from the end. -/
def back {α : Type} (n : Int) (l : List α) : List α := if 0 ≤ n then l.drop n.toNat else l.drop (l.length + n).toNat

/-- A long list of entries cut down to `n` at each end. -/
def summary (n : Int) (entries : List String) : List String :=
  let skipped := entries.length - 2 * n
  if 0 < skipped then front n entries ++ ["... (" ++ Numeral.ofInt skipped ++ " more)"] ++ back (-n) entries
  else entries

/-- The stack trace at a line, innermost first; with `items`, cut down to so many entries at each end. -/
def trace (s : Stack) (line : Int) (items : Option Int) : List String :=
  let entries := Frame.entries line s.frames
  match items with
  | none => entries
  | some n => summary n entries

end Stack

end Rover
