import Rover.Machine.Run
import Rover.Syntax.Source

/-!
# Sessions

What can be asked of a machine from outside: to load a program, to call one of its functions, and to look at its call
stack. A program that cannot be loaded leaves the one before it in place.
-/

namespace Rover

/-- Why a source text cannot be loaded. -/
inductive SourceError where
  | rejected (r : Rejection)
  | notLoaded (e : LoadError)

namespace Machine

def loadTree (m : Machine) (tree : Node) : Except LoadError Machine := do
  let p ← Program.ofTree tree
  return { m with program := some p }.emit (.loaded p.names)

/-- Loads a source text; the answer is also the tree that was read. -/
def loadSource (m : Machine) (source : String) : Except SourceError (Node × Machine) :=
  match readProgram source with
  | .error r => .error (.rejected r)
  | .ok tree => match m.loadTree tree with
    | .error e => .error (.notLoaded e)
    | .ok m => .ok (tree, m)

/-- Calls a function with argument trees. A fault that no function has located is located here. -/
def call (fuel : Nat) (name : String) (arguments : List Node) : Eval Value := fun m =>
  match m.program with
  | none => .failed (.bare .noProgram) m
  | some _ => match invoke fuel name arguments m with
    | .failed f m => .failed (m.locate f) m
    | outcome => outcome

/-- Calls the entry function, without arguments. -/
def run (fuel : Nat) (entry : String) : Eval Value := call fuel entry []

end Machine

end Rover
