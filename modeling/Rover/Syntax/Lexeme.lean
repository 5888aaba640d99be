import Rover.Numeric.Reading
import Rover.Syntax.Terminal

/-!
# Lexemes

The pieces that a source text is cut into: tokens, and the blanks and comments between them. For each class a function
gives the length of the piece at the start of a text, and 0 if there is none. Which piece is taken depends on the terminals
that are possible at that place: a literal or a name goes before a mark, and a name that is spelled like a possible keyword
is that keyword. Where names are not possible, a keyword is recognised even if more letters follow.
-/

namespace Rover.Lexeme

/-- How many characters at the start belong to a class. -/
def run (p : Char → Bool) (cs : List Char) : Nat := (cs.takeWhile p).length

def isNameStart (c : Char) : Bool := c.isAlpha || c == '_'

def isNamePart (c : Char) : Bool := c.isAlphanum || c == '_'

def isLayout (c : Char) : Bool := c == ' ' || c == '\t' || c == '\x0c' || c == '\r' || c == '\n'

def nameLength : List Char → Nat
  | [] => 0
  | c :: cs => if isNameStart c then run isNamePart cs + 1 else 0

def intLength (cs : List Char) : Nat := run isDecimalDigit cs

/-- An `e`, a sign or none, and digits. -/
def exponentLength : List Char → Nat
  | [] => 0
  | e :: cs =>
    if e = 'e' ∨ e = 'E' then
      let signLength := match cs with
        | '+' :: _ => 1
        | '-' :: _ => 1
        | _ => 0
      let digits := intLength (cs.drop signLength)
      if digits = 0 then 0 else 1 + signLength + digits
    else 0

/-- Digits with a point among them and an exponent or none, or digits with an exponent. -/
def floatLength (cs : List Char) : Nat :=
  let whole := intLength cs
  if whole = 0 then 0
  else match cs.drop whole with
    | '.' :: rest =>
      let fraction := intLength rest
      if fraction = 0 then 0 else whole + 1 + fraction + exponentLength (rest.drop fraction)
    | rest =>
      let exponent := exponentLength rest
      if exponent = 0 then 0 else whole + exponent

/-- The length up to and with the closing quote, after the opening one. An escape covers the next character; a line does
not end inside a literal. -/
def closingLength : List Char → Nat
  | [] => 0
  | [c] => if c = '"' then 1 else 0
  | c :: d :: rest =>
    if c = '"' then 1
    else if c = '\n' then 0
    else if c = '\\' then
      if d = '\n' then 0
      else match closingLength rest with
        | 0 => 0
        | n => n + 2
    else match closingLength (d :: rest) with
      | 0 => 0
      | n => n + 1

def stringLength : List Char → Nat
  | '"' :: cs =>
    match closingLength cs with
    | 0 => 0
    | n => n + 1
  | _ => 0

/-- The length up to and with the first end mark of a block comment. -/
def blockEndLength : List Char → Nat
  | [] => 0
  | c :: rest =>
    if c = '*' ∧ rest.head? = some '/' then 2
    else match blockEndLength rest with
      | 0 => 0
      | n => n + 1

/-- A run of blanks, a comment up to the end of its line, or a block comment. -/
def fillerLength : List Char → Nat
  | '/' :: '/' :: rest => 2 + run (· != '\n') rest
  | '/' :: '*' :: rest =>
    match blockEndLength rest with
    | 0 => 0
    | n => n + 2
  | cs => run isLayout cs

/-- The length of a fixed spelling if the text starts with it. -/
def spellingLength (spelling : String) (cs : List Char) : Nat :=
  if spelling.toList.isPrefixOf cs then spelling.length else 0

end Rover.Lexeme

namespace Rover

/-- What stands at the start of a text: something to skip, or a token, and its length. -/
inductive Lexeme where
  | filler (length : Nat)
  | token (terminal : Terminal) (length : Nat)
  deriving DecidableEq, Repr

namespace Lexeme

def length : Lexeme → Nat
  | filler n => n
  | token _ n => n

/-- A token of this length, if it is possible and not empty. -/
def token? (possible : Terminal → Bool) (terminal : Terminal) (length : Nat) : Option Lexeme :=
  if possible terminal ∧ 0 < length then some (token terminal length) else none

/-- The terminal of a name: the keyword that is spelled so, if it is possible. -/
def nameTerminal (possible : Terminal → Bool) (text : List Char) : Terminal :=
  match Keyword.all.find? fun k => possible (.keyword k) && k.spelling.toList == text with
  | some k => .keyword k
  | none => .name

def name? (possible : Terminal → Bool) (cs : List Char) : Option Lexeme :=
  let n := nameLength cs
  if possible .name ∧ 0 < n then some (token (nameTerminal possible (cs.take n)) n) else none

def filler? (cs : List Char) : Option Lexeme :=
  let n := fillerLength cs
  if 0 < n then some (filler n) else none

def keyword? (possible : Terminal → Bool) (cs : List Char) : Option Lexeme :=
  Keyword.all.findSome? fun k => token? possible (.keyword k) (spellingLength k.spelling cs)

def mark? (possible : Terminal → Bool) (cs : List Char) : Option Lexeme :=
  Mark.all.findSome? fun m => token? possible (.mark m) (spellingLength m.spelling cs)

/-- The lexeme at the start of a text. -/
def first? (possible : Terminal → Bool) (cs : List Char) : Option Lexeme :=
  token? possible .float (floatLength cs) <|>
  name? possible cs <|>
  token? possible .string (stringLength cs) <|>
  filler? cs <|>
  token? possible .int (intLength cs) <|>
  keyword? possible cs <|>
  mark? possible cs

theorem length_pos_of_token? {possible : Terminal → Bool} {t : Terminal} {n : Nat} {l : Lexeme}
    (h : token? possible t n = some l) : 0 < l.length := by
  simp only [token?] at h
  split at h <;> grind [length]

theorem length_pos_of_first? {possible : Terminal → Bool} {cs : List Char} {l : Lexeme}
    (h : first? possible cs = some l) : 0 < l.length := by
  simp only [first?, Option.orElse_eq_orElse, Option.orElse_eq_or, Option.or_eq_some_iff] at h
  rcases h with h | ⟨_, h | ⟨_, h | ⟨_, h | ⟨_, h | ⟨_, h | ⟨_, h⟩⟩⟩⟩⟩⟩
  · exact length_pos_of_token? h
  · simp only [name?] at h
    split at h <;> grind [length]
  · exact length_pos_of_token? h
  · simp only [filler?] at h
    split at h <;> grind [length]
  · exact length_pos_of_token? h
  · obtain ⟨_, _, _, _, h, _⟩ := List.findSome?_eq_some_iff.1 h
    exact length_pos_of_token? h
  · obtain ⟨_, _, _, _, h, _⟩ := List.findSome?_eq_some_iff.1 h
    exact length_pos_of_token? h

end Lexeme

end Rover
