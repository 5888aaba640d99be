import Rover.Numeric.Reading
import Rover.Text.Quoted

/-!
# Flags and free arguments

How a list of argument strings is split into flags, their values and free arguments. Flags may stand anywhere, may be
shortened as long as they stay unambiguous, and take a value from the next argument or after an equals sign. After two
dashes everything is free. Help and errors end the reading at once.
-/

namespace Rover

structure Flag where
  names : List String
  /-- What the help calls its value; none if it takes no value. -/
  value : Option String
  about : String
  deriving DecidableEq, Repr

namespace Flag

def takesValue (f : Flag) : Bool := f.value.isSome

def help : Flag := ⟨["-h", "--help"], none, "show this help message and exit"⟩

end Flag

/-- Something that is named in the help, and what it is about. -/
structure Topic where
  name : String
  about : String

/-- What stands free among the flags: one argument, or one of some words and all that follows it. -/
inductive Free where
  | argument (topic : Topic)
  | word (topics : List Topic)

/-- What a command takes. -/
structure Grammar where
  program : String
  about : Option String
  flags : List Flag
  free : Free

/-- Why the reading of arguments ends early. -/
inductive Halt where
  | help (g : Grammar)
  | usage (g : Grammar) (message : String)

def Halt.status : Halt → Nat
  | help _ => 0
  | usage _ _ => 2

/-- An argument string by its form. -/
inductive Argument where
  | free
  /-- The two dashes. -/
  | dashes
  /-- A flag, and a text given together with it: after an equals sign, or run together with a short flag. -/
  | flag (f : Flag) (spelling : String) (attached : Option (List Char))
  | unknown

/-- What has been read. -/
structure Arguments where
  values : List (Flag × String)
  /-- The free argument, or the word and all that follows it. -/
  free : Option (List String)
  extras : List String

namespace Arguments

/-- The value of a flag; the last one given counts. -/
def value? (a : Arguments) (f : Flag) : Option String := a.values.reverse.lookup f

def isSet (a : Arguments) (f : Flag) : Bool := (a.value? f).isSome

/-- The two dashes, which are no value: a flag that has them after an equals sign has none. -/
def dashes : String := "--"

end Arguments

namespace Grammar

/-- Whether a free argument takes all that follows it. -/
def takesRest (g : Grammar) : Bool :=
  match g.free with
  | .argument _ => false
  | .word _ => true

/-- All spellings of flags, in order. -/
def spellings (g : Grammar) : List (String × Flag) := g.flags.flatMap fun f => f.names.map (·, f)

def isLong (text : List Char) : Bool := text.take 2 == ['-', '-']

/-- A text up to its first equals sign, and what follows the sign. -/
def splitEquals (text : List Char) : List Char × Option (List Char) :=
  match text.dropWhile (· ≠ '=') with
  | [] => (text, none)
  | _ :: rest => (text.takeWhile (· ≠ '='), some rest)

/-- The flags that a long text abbreviates, or whose short spelling it starts with. -/
def candidates (g : Grammar) (text : List Char) : List (String × Flag × Option (List Char)) :=
  if isLong text then
    let (head, value) := splitEquals text
    g.spellings.filterMap fun (spelling, f) =>
      if head.isPrefixOf spelling.toList then some (spelling, f, value) else none
  else
    g.spellings.filterMap fun (spelling, f) =>
      if spelling.toList == text.take 2 then some (spelling, f, some (text.drop 2))
      else if text.isPrefixOf spelling.toList then some (spelling, f, none)
      else none

/-- Texts such as `-5` and `-.5`, which are no flags. One line end may follow. -/
def isNegativeNumber (text : List Char) : Bool :=
  match if text.getLast? = some '\n' then text.dropLast else text with
  | '-' :: rest =>
    let whole := rest.takeWhile isDecimalDigit
    match rest.dropWhile isDecimalDigit with
    | [] => !whole.isEmpty
    | '.' :: fraction => !fraction.isEmpty && fraction.all isDecimalDigit
    | _ => false
  | _ => false

/-- The form of an argument that is not the two dashes. -/
def classify (g : Grammar) (argument : String) : Except Halt Argument :=
  let text := argument.toList
  if text.head? ≠ some '-' then .ok .free
  else match g.spellings.lookup argument with
    | some f => .ok (.flag f argument none)
    | none =>
      if text.length = 1 then .ok .free
      else
        let (head, value) := splitEquals text
        match value, g.spellings.lookup (String.ofList head) with
        | some value, some f => .ok (.flag f (String.ofList head) (some value))
        | _, _ => match g.candidates text with
          | [(spelling, f, attached)] => .ok (.flag f spelling attached)
          | [] => .ok (if isNegativeNumber text || text.contains ' ' then .free else .unknown)
          | several => .error (.usage g ("ambiguous option: " ++ argument ++ " could match " ++
              ", ".intercalate (several.map (·.1))))

def classifyAll (g : Grammar) : List String → Except Halt (List Argument)
  | [] => .ok []
  | "--" :: rest => .ok (.dashes :: rest.map fun _ => .free)
  | a :: rest => do
    let first ← g.classify a
    let others ← classifyAll g rest
    return first :: others

def argumentError {α : Type} (g : Grammar) (f : Flag) (message : String) : Except Halt α :=
  .error (.usage g ("argument " ++ "/".intercalate f.names ++ ": " ++ message))

def ignored {α : Type} (g : Grammar) (f : Flag) (text : List Char) : Except Halt α :=
  g.argumentError f ("ignored explicit argument " ++ quoted (String.ofList text))

/-- Short flags run together: the flag `f`, and those that a text after it names. Short flags take no values. -/
def cluster (g : Grammar) (f : Flag) : List Char → Except Halt (List Flag)
  | [] => g.ignored f []
  | c :: rest => match g.spellings.lookup (String.ofList ['-', c]) with
    | none => g.ignored f (c :: rest)
    | some next => if rest.isEmpty then .ok [f, next] else (f :: ·) <$> g.cluster next rest

/-- The flags of an argument with an attached text, and the value of the last. -/
def attach (g : Grammar) (f : Flag) (spelling : String) (text : List Char) : Except Halt (List (Flag × String)) :=
  if f.takesValue then .ok [(f, String.ofList text)]
  else if isLong spelling.toList then g.ignored f text
  else (·.map (·, "")) <$> g.cluster f text

/-- Takes the flags of one argument; the help flag ends the reading. -/
def take (g : Grammar) (read : Arguments) (flags : List (Flag × String)) : Except Halt Arguments :=
  if flags.any (·.1 = Flag.help) then .error (.help g) else .ok { read with values := read.values ++ flags }

/-- Reads on from what has been read, over arguments beside their strings. A free argument that is not wanted any more is
left over, and so are the two dashes unless a wanted one follows or precedes them. -/
def readAll (g : Grammar) (done : Arguments) : List (String × Argument) → Except Halt Arguments
  | [] => .ok done
  | (text, .unknown) :: rest => readAll g { done with extras := done.extras ++ [text] } rest
  | (_, .flag f spelling (some text)) :: rest => do
    readAll g (← g.take done (← g.attach f spelling text)) rest
  | (_, .flag f _ none) :: rest =>
    if f.takesValue then
      match rest with
      | (value, .free) :: rest => readAll g { done with values := done.values ++ [(f, value)] } rest
      | _ => g.argumentError f "expected one argument"
    else do readAll g (← g.take done [(f, "")]) rest
  | (text, .free) :: rest =>
    if done.free.isSome then readAll g { done with extras := done.extras ++ [text] } rest
    else if g.takesRest then .ok { done with free := some (text :: rest.map (·.1)) }
    else match rest with
      | (_, .dashes) :: rest => readAll g { done with free := some [text] } rest
      | rest => readAll g { done with free := some [text] } rest
  | (text, .dashes) :: rest =>
    if done.free.isSome then .ok { done with extras := done.extras ++ text :: rest.map (·.1) }
    else if g.takesRest then
      if rest.isEmpty then .ok { done with extras := done.extras ++ [text] }
      else .ok { done with free := some (text :: rest.map (·.1)) }
    else match rest with
      | [] => .ok { done with extras := done.extras ++ [text] }
      | (word, _) :: rest => readAll g { done with free := some [word] } rest

/-- The flags, the free argument and the left-over arguments of a list of strings. -/
def read (g : Grammar) (arguments : List String) : Except Halt Arguments := do
  let forms ← g.classifyAll arguments
  g.readAll ⟨[], none, []⟩ (arguments.zip forms)

end Grammar

end Rover
