import Rover.Command.Flags
import Rover.Numeric.Reading

/-!
# Help texts

The usage of a command and its help, laid out for the width of a terminal. The usage goes on one line if it fits; otherwise
flags and free arguments are broken over lines of their own. In the help every flag and every free argument has an entry: how
it is written, and beside or below that what it is about.

Words are put on lines of limited width, as many as fit, with one blank between two of them. A word that fits on no line is
cut, and its first part goes where there is room left.
-/

namespace Rover.Wrap

/-- Fills lines with words; `line` is the one begun. A blank that just fits before a cut word is kept. -/
def fill (width : Nat) (line : List Char) : List (List Char) → List (List Char)
  | [] => if line.isEmpty then [] else [line]
  | word :: rest =>
    if line.isEmpty then
      if word.length ≤ width ∨ width = 0 then fill width word rest
      else word.take width :: fill width [] (word.drop width :: rest)
    else if line.length + 1 + word.length ≤ width then fill width (line ++ ' ' :: word) rest
    else if width < word.length ∧ line.length < width then
      let room := width - line.length - 1
      (line ++ ' ' :: word.take room) :: fill width [] (word.drop room :: rest)
    else line :: fill width [] (word :: rest)
termination_by words => 2 * (words.flatten.length + words.length) + if line.isEmpty then 0 else 1
decreasing_by
  all_goals
    simp only [List.flatten_cons, List.length_append, List.length_cons, List.length_drop, List.isEmpty_nil, if_true]
  · split <;> omega
  · split <;> omega
  · split <;> omega
  · split <;> first | contradiction | omega
  · split <;> first | contradiction | omega

/-- The lines of a text whose words are separated by single blanks. -/
def lines (width : Nat) (text : String) : List String :=
  (fill width [] ((text.splitOn " ").map String.toList)).map String.ofList

end Rover.Wrap

namespace Rover.Help

/-- The environment variable that gives the columns of the terminal. -/
def columnsName : String := "COLUMNS"

/-- The width of a text on the terminal. -/
def width (env : String → Option String) : Int :=
  let columns := ((env columnsName).bind fun text => (Reading.int text).toOption.join).getD 0
  (if 0 < columns then columns else 80) - 2

def blanks (n : Int) : String := String.ofList (List.replicate n.toNat ' ')

/-! ### Usage -/

/-- A flag with its value under one of its names. -/
def spelled (f : Flag) (name : String) : String := f.value.elim name (name ++ " " ++ ·)

/-- The words that a free argument is chosen from, as one. -/
def choices (topics : List Topic) : String := "\x7b" ++ ",".intercalate (topics.map (·.name)) ++ "\x7d"

def flagParts (g : Grammar) : List String := g.flags.map fun f => "[" ++ spelled f (f.names.headD "") ++ "]"

def freeParts (g : Grammar) : List String :=
  match g.free with
  | .argument topic => [topic.name]
  | .word topics => [choices topics, "..."]

/-- Puts parts on lines, a line being `length` long before its first part; further lines have an indent. -/
def pack (width : Int) (indent : Nat) : List String → Int → List String → List (List String)
  | line, _, [] => if line.isEmpty then [] else [line]
  | line, length, part :: rest =>
    if line.isEmpty ∨ length + 1 + part.length ≤ width then
      pack width indent (line ++ [part]) (length + 1 + part.length) rest
    else line :: pack width indent [part] (indent + part.length) rest

/-- Lines of parts, all of them indented. -/
def packed (width : Int) (indent : Nat) (parts : List String) : List String :=
  (pack width indent [] ((indent : Int) - 1) parts).map (blanks indent ++ " ".intercalate ·)

def usageMark : String := "usage: "

/-- The lines of the usage. -/
def usage (width : Int) (g : Grammar) : List String :=
  let whole := usageMark ++ " ".intercalate (g.program :: flagParts g ++ freeParts g)
  let start := usageMark.length + g.program.length
  if whole.length ≤ width then [whole]
  else if 4 * (start : Int) ≤ 3 * width then
    let indent := start + 1
    match pack width indent [] ((usageMark.length : Int) - 1) (g.program :: flagParts g) with
    | [] => packed width indent (freeParts g)
    | first :: others =>
      (usageMark ++ " ".intercalate first) :: others.map (blanks indent ++ " ".intercalate ·) ++
        packed width indent (freeParts g)
  else
    let indent := usageMark.length
    let together := packed width indent (flagParts g ++ freeParts g)
    (usageMark ++ g.program) ::
      if together.length ≤ 1 then together else packed width indent (flagParts g) ++ packed width indent (freeParts g)

/-! ### Entries -/

/-- An entry: its indent, how the thing is written, and what it is about if that is said. -/
structure Entry where
  indent : Nat
  header : String
  about : Option String

def freeEntries (g : Grammar) : List Entry :=
  match g.free with
  | .argument topic => [⟨2, topic.name, some topic.about⟩]
  | .word topics => ⟨2, choices topics, none⟩ :: topics.map fun topic => ⟨4, topic.name, some topic.about⟩

def flagEntries (g : Grammar) : List Entry :=
  g.flags.map fun f => ⟨2, ", ".intercalate (f.names.map (spelled f)), some f.about⟩

/-- The column where explanations start: beyond the longest header, but not too far right. -/
def position (width : Int) (entries : List Entry) : Int :=
  let longest := (entries.map fun e => e.header.length).foldl max 0
  min ((longest : Int) + 4) (min 24 (max (width - 20) 4))

/-- The least width of a column of text. -/
def leastWidth : Int := 11

def Entry.lines (width position : Int) (e : Entry) : List String :=
  let header := blanks e.indent ++ e.header
  match e.about with
  | none => [header]
  | some about =>
    let lines := Wrap.lines (max (width - position) leastWidth).toNat about
    let below := lines.map (blanks position ++ ·)
    if e.indent + e.header.length + 2 ≤ position then
      (header ++ blanks (position - e.indent - e.header.length) ++ lines.headD "") :: below.drop 1
    else header :: below

/-- The lines of the help. -/
def lines (width : Int) (g : Grammar) : List String :=
  let place := position width (freeEntries g ++ flagEntries g)
  let about := g.about.elim [] fun about => Wrap.lines (max width leastWidth).toNat about ++ [""]
  usage width g ++ [""] ++ about ++
    "positional arguments:" :: (freeEntries g).flatMap (Entry.lines width place) ++
    ["", "options:"] ++ (flagEntries g).flatMap (Entry.lines width place)

def text (width : Int) (g : Grammar) : String := String.join ((lines width g).map (· ++ "\n"))

end Rover.Help

namespace Rover.Halt

/-- The standard output of an early end. -/
def output (width : Int) : Halt → String
  | help g => Help.text width g
  | usage _ _ => ""

/-- The lines on standard error. -/
def errors (width : Int) : Halt → List String
  | help _ => []
  | usage g message => Help.usage width g ++ [g.program ++ ": error: " ++ message]

end Rover.Halt
