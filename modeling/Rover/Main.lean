import Rover.Command.Execute

/-!
# The command line

Looks at the part of the file system that a command may touch, executes the command on what is there, and puts its report
into effect.
-/

namespace Rover

/-- The folder at a place, if there is one. -/
def lookFolder (place : List String) : IO (List (List String × Entry)) := do
  try
    if ← (← IO.FS.realPath (Directory.pathText place)).isDir then return [(place, .folder)] else return []
  catch _ => return []

/-- The file at a place, if there is one. -/
def lookFile (place : List String) : IO (List (List String × Entry)) := do
  try return [(place, .file (← IO.FS.readFile (Directory.pathText place)))]
  catch _ => return []

/-- What stands at the places that a command may visit. A file that may only be written is not read. -/
def survey (c : Command) : IO Directory := do
  let mut entries := []
  for path in c.sources do
    for place in Directory.visits [] (Directory.pathParts path) do
      entries := entries ++ (← lookFolder place) ++ (← lookFile place)
  for path in c.targets do
    let places := Directory.visits [] (Directory.pathParts path)
    for place in places do
      entries := entries ++ (← lookFolder place)
    for place in places.dropLast do
      entries := entries ++ (← lookFile place)
  return ⟨entries⟩

/-- The environment, as far as a command looks at it. -/
def readEnvironment : IO (String → Option String) := do
  let names := Help.columnsName :: Config.Field.all.map (·.envName)
  let set ← names.filterMapM fun name => do return (← IO.getEnv name).map (name, ·)
  return (set.lookup ·)

def readSurroundings (arguments : List String) : IO Surroundings := do
  let command := match Invocation.read arguments with
    | .ok invocation => invocation.command
    | .error _ => .help
  let files ← survey command
  let input ← if command.readsInput files then (← IO.getStdin).readToEnd else pure ""
  return ⟨files, ← readEnvironment, input, 1 <<< 62, 1000, by decide⟩

/-- Writes out what a command leaves behind, and gives its status. -/
def Report.publish (r : Report) (before : Directory) : IO UInt32 := do
  IO.print r.output
  (← IO.getStdout).flush
  for line in r.log do
    IO.eprintln line.text
  for span in r.spans.spans do
    IO.eprintln ((span.json (r.spans.parentName span)).text (some 4))
  for line in r.errors do
    IO.eprintln line
  for (place, entry) in r.files.entries do
    match entry with
    | .file text => if before.entries.lookup place ≠ some entry then IO.FS.writeFile (Directory.pathText place) text
    | .folder => pure ()
  match r.ending with
  | .returned => return 0
  | .exited status => return status.toUInt32
  | .crashed c =>
    IO.eprintln c.message
    return 1

end Rover

def main (arguments : List String) : IO UInt32 := do
  let surroundings ← Rover.readSurroundings arguments
  (Rover.executeLine surroundings arguments).publish surroundings.files
