import Rover.CallTrace
import Rover.Command.Directory
import Rover.Command.Help
import Rover.Command.Invocation
import Rover.Log
import Rover.Session
import Rover.Span
import Rover.Text.UpperCase

/-!
# Executing a command line

What a command line does, as a function of what it can see: its arguments, the files around it, the environment and the
standard input. The report holds everything that it leaves behind.
-/

namespace Rover

/-- What a command can see. -/
structure Surroundings where
  files : Directory
  env : String → Option String
  input : String
  /-- A bound on the run of the program. -/
  fuel : Nat
  /-- How deep calls may nest on this host. -/
  limit : Nat
  limit_pos : 0 < limit := by decide

/-- Why a command ends abnormally. -/
inductive Crash where
  | noLevel
  | unknownLevel (name : String)
  | badConfig (problems : List (Config.Field × Config.Problem))
  | file (e : FileError)
  | load (e : LoadError)
  | fault (c : Cause)
  | unfinished

inductive Ending where
  | returned
  | exited (status : Nat)
  | crashed (c : Crash)

structure Report where
  ending : Ending
  output : String
  errors : List String
  log : List LogLine
  spans : SpanRecorder
  files : Directory

namespace Report

/-- A report of nothing but an ending. -/
def silent (d : Directory) (e : Ending) : Report := ⟨e, "", [], [], .empty, d⟩

end Report

namespace Command

/-- How many frames of a call stack are shown at each end. -/
def shownFrames : Int := 5

/-- A path seen from the folder of example programs, unless it starts at the root. -/
def amongExamples (path : String) : String := if path.startsWith "/" then path else "examples/" ++ path

/-- Where a program of this name may be. -/
def candidates (name : String) : List String :=
  [name, name ++ ".rl", amongExamples name, amongExamples (name ++ ".rl")].map Directory.normalPath

/-- The first path with a file. A path that is too long ends the search. -/
def firstFile (d : Directory) : List String → Except FileError (Option String)
  | [] => .ok none
  | path :: rest => match d.read path with
    | .ok _ => .ok (some path)
    | .error e => if e.problem = .nameTooLong then .error e else firstFile d rest

def findProgram (d : Directory) (name : String) : Except FileError (Option String) := firstFile d (candidates name)

/-- All three ways to end a line become one. -/
def unifyNewlines : List Char → List Char
  | '\r' :: '\n' :: rest => '\n' :: unifyNewlines rest
  | '\r' :: rest => '\n' :: unifyNewlines rest
  | c :: rest => c :: unifyNewlines rest
  | [] => []

def programText (d : Directory) (path : String) : String :=
  match d.read path with
  | .ok text => String.ofList (unifyNewlines text.toList)
  | .error _ => ""

def notFound (d : Directory) (name : String) : Report :=
  { Report.silent d (.exited 1) with errors := ["Error: Could not find program file for '" ++ name ++ "'"] }

def faultLines (f : Fault) : List String :=
  let line := (f.line.map Numeral.ofInt).getD "None"
  ("Runtime error (line " ++ line ++ "): " ++ f.cause.message) :: f.frames.map ("  at " ++ ·)

def loadCrash? : LoadError → Option Crash
  | .notInt text => some (.load (.notInt text))
  | .oversize e => some (.load (.oversize e))
  | .notFloat text => some (.load (.notFloat text))
  | .missingPart => some (.load .missingPart)
  | _ => none

/-- How running a program ends, what it says about it, and the machine it leaves. -/
def runSource (fuel : Nat) (m : Machine) (source : String) : Ending × List String × Machine :=
  match m.loadSource source with
  | .error (.rejected r) => (.exited 1, ["[Error] " ++ r.message], m)
  | .error (.notLoaded e) =>
    match loadCrash? e with
    | some crash => (.crashed crash, [], m)
    | none => (.exited 1, ["[Error] " ++ locatedText e.message e.line?], m)
  | .ok (_, m) =>
    match Machine.run fuel "main" m with
    | .done _ m => (.exited 0, [], m)
    | .failed f m =>
      if f.cause.category = .internal then (.crashed (.fault f.cause), [], m) else (.exited 1, faultLines f, m)
    | .unfinished => (.crashed .unfinished, [], m)

/-- Writes a file at the end of a run; if that is not possible, this is how the run ends. -/
def leaveFile (path : Option String) (text : String) (r : Report) : Report :=
  match path with
  | none => r
  | some path => match r.files.write path text with
    | .ok files => { r with files }
    | .error e => { r with ending := .crashed (.file e) }

/-- Who is told of the run. A trace file takes the place of spans. -/
def observers (level : Level) (options : RunOptions) : Observers where
  tracer := if options.trace.isSome then .file else if options.spans then .spans else .absent
  display := if options.showDisplay then .logging else .silent
  narrate := options.narrate
  level := some level

/-- Runs the program at a path. The trace file is opened before the configuration is read, and before the program is. -/
def runProgram (s : Surroundings) (level : Level) (options : RunOptions) (path : String) : Report :=
  match options.trace.elim (.ok s.files) (s.files.write · "") with
  | .error e => Report.silent s.files (.crashed (.file e))
  | .ok files =>
    match Config.ofSettings (Config.settings s.env fun _ => none) with
    | .error problems => Report.silent files (.crashed (.badConfig problems))
    | .ok config =>
      let machine := Machine.initial config s.input {
        traceItems := some shownFrames, limit := s.limit, limit_pos := s.limit_pos, observers := observers level options }
      let (ending, errors, machine) := runSource s.fuel machine (programText files path)
      let spans := machine.watch.spans.close
      let report : Report := {
        ending, files, spans
        output := machine.watch.output
        errors := spans.warnings ++ errors
        log := machine.watch.log.toList }
      report |> leaveFile options.trace machine.watch.trace
        |> leaveFile (options.dumpWorld.map Directory.normalPath) (machine.world.snapshot.text (some 2))

/-- Shows the tree of the program at a path. -/
def showTree (d : Directory) (path : String) : Report :=
  match readProgram (programText d path) with
  | .ok tree => { Report.silent d (.exited 0) with output := tree.pretty 0 ++ "\n" }
  | .error r => { Report.silent d (.exited 1) with errors := ["[Error] " ++ r.message] }

/-- Does something with the path of a program. -/
def withProgram (d : Directory) (name : String) (act : String → Report) : Report :=
  match findProgram d name with
  | .ok (some path) => act path
  | .ok none => notFound d name
  | .error e => Report.silent d (.crashed (.file e))

def execute (s : Surroundings) (level : Level) : Command → Report
  | .help => { Report.silent s.files .returned with output := Help.text (Help.width s.env) Invocation.mainGrammar }
  | .run options => withProgram s.files options.name (runProgram s level options)
  | .ast name => withProgram s.files name (showTree s.files)

/-- The paths that a command may read. -/
def sources : Command → List String
  | .help => []
  | .run options => candidates options.name
  | .ast name => candidates name

/-- The paths that a command may write. -/
def targets : Command → List String
  | .run options => options.trace.toList ++ options.dumpWorld.toList
  | _ => []

/-- Whether the program that a command runs has a statement that reads input. -/
def readsInput (d : Directory) : Command → Bool
  | .run options => match findProgram d options.name with
    | .ok (some path) => match readProgram (programText d path) with
      | .ok tree => tree.has .read
      | .error _ => false
    | _ => false
  | _ => false

end Command

/-- What a command line does. -/
def executeLine (s : Surroundings) (arguments : List String) : Report :=
  match Invocation.read arguments with
  | .error h =>
    let width := Help.width s.env
    { Report.silent s.files (.exited h.status) with output := h.output width, errors := h.errors width }
  | .ok invocation =>
    match invocation.logLevel.map upperCase with
    | none => Report.silent s.files (.crashed .noLevel)
    | some name => match Level.ofName? name with
      | none => Report.silent s.files (.crashed (.unknownLevel name))
      | some level => invocation.command.execute s level

namespace Crash

def message : Crash → String
  | noLevel => "'list' object has no attribute 'upper'"
  | unknownLevel name => "Level '" ++ name ++ "' does not exist"
  | badConfig problems =>
    "\n".intercalate (problems.map fun (f, p) => f.name ++ ": " ++ p.message)
  | file e => e.message
  | load e => e.message
  | fault c => c.message
  | unfinished => "the run did not end"

end Crash

end Rover
