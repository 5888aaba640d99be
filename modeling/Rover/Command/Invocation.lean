import Rover.Command.Flags

/-!
# Invocations

What the command line can be asked to do: to run a program, to show its tree, or nothing, which shows the help.
-/

namespace Rover

structure RunOptions where
  name : String
  /-- Where the call trace goes. -/
  trace : Option String
  /-- Whether calls are exported as spans. -/
  spans : Bool
  /-- Whether robot operations are narrated. -/
  narrate : Bool
  /-- Whether display events are logged. -/
  showDisplay : Bool
  /-- Where the final world goes. -/
  dumpWorld : Option String

inductive Command where
  | run (options : RunOptions)
  | ast (name : String)
  | help

structure Invocation where
  /-- The level by name; none if its flag is there without a value. -/
  logLevel : Option String
  command : Command

namespace Invocation

def logLevelFlag : Flag := ⟨["--log-level"], some "LOG_LEVEL", "loguru level for diagnostics on stderr"⟩

def traceFlag : Flag := ⟨["--trace"], some "FILE", "Write the function call trace to FILE"⟩

def spansFlag : Flag := ⟨["--otel"], none, "Export one OpenTelemetry span per call"⟩

def textTraceFlag : Flag := ⟨["--text-trace"], none, "Print a line for every robot operation"⟩

def showFlag : Flag := ⟨["--show"], none, "Log display events (position, obstacles, trail)"⟩

def dumpWorldFlag : Flag := ⟨["--dump-world"], some "JSON", "Write the final world state as JSON"⟩

def nameTopic : Topic := ⟨"name", "Name or path of the program file"⟩

def mainGrammar : Grammar where
  program := "rlang"
  about := some "Interpreter for the robot simulation language"
  flags := [.help, logLevelFlag]
  free := .word [⟨"run", "Run a robot program (entry point: main)"⟩, ⟨"ast", "Print the parse tree of a program"⟩]

def runGrammar : Grammar where
  program := "rlang run"
  about := none
  flags := [.help, traceFlag, spansFlag, textTraceFlag, showFlag, dumpWorldFlag]
  free := .argument nameTopic

def astGrammar : Grammar where
  program := "rlang ast"
  about := none
  flags := [.help]
  free := .argument nameTopic

/-- Reads the arguments of a subcommand, which needs a name. -/
def readNamed (g : Grammar) (arguments : List String) : Except Halt (String × Arguments) := do
  let given ← g.read arguments
  match given.free with
  | some (name :: _) => return (name, given)
  | _ => .error (.usage g "the following arguments are required: name")

/-- An empty file name is none. -/
def fileName (given : Arguments) (f : Flag) : Option String :=
  (given.value? f).filter fun name => name ≠ "" ∧ name ≠ Arguments.dashes

def givenLevel (given : Arguments) : Option String :=
  some ((given.value? logLevelFlag).getD "WARNING") |>.filter (· ≠ Arguments.dashes)

def runOptions (name : String) (given : Arguments) : RunOptions where
  name
  trace := fileName given traceFlag
  spans := given.isSet spansFlag
  narrate := given.isSet textTraceFlag
  showDisplay := given.isSet showFlag
  dumpWorld := fileName given dumpWorldFlag

/-- The subcommand of a word and its arguments, and what is left over. -/
def readCommand : List String → Except Halt (Command × List String)
  | [] => .ok (.help, [])
  | "run" :: rest => do
    let (name, given) ← readNamed runGrammar rest
    return (.run (runOptions name given), given.extras)
  | "ast" :: rest => do
    let (name, given) ← readNamed astGrammar rest
    return (.ast name, given.extras)
  | word :: _ =>
    .error (.usage mainGrammar
      ("argument command: invalid choice: " ++ quoted word ++ " (choose from 'run', 'ast')"))

/-- Reads a whole command line. Arguments that nothing takes are an error of the main command. -/
def read (arguments : List String) : Except Halt Invocation := do
  let given ← mainGrammar.read arguments
  let (command, extras) ← readCommand (given.free.getD [])
  let extras := given.extras ++ extras
  if extras.isEmpty then return ⟨givenLevel given, command⟩
  else .error (.usage mainGrammar ("unrecognized arguments: " ++ " ".intercalate extras))

end Invocation

end Rover
