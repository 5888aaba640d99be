import Rover.Syntax.Lexeme
import Rover.Syntax.Reader

/-!
# Reading a source text

`readProgram` cuts a text into lexemes, each chosen among the terminals that the reader tries at that place, and feeds the
tokens to the reader. A text that is no program is refused at the first place where it cannot go on: at a token that the
reader refuses, at a character where no lexeme starts, or at the end.
-/

namespace Rover

/-- A place in a text; lines and columns count from 1. -/
structure Place where
  line : Nat
  column : Nat
  deriving DecidableEq, Repr

namespace Place

def start : Place := ⟨1, 1⟩

/-- The place after one more character. -/
def next (p : Place) (c : Char) : Place := if c = '\n' then ⟨p.line + 1, 1⟩ else ⟨p.line, p.column + 1⟩

/-- The place after some more characters. -/
def advance (p : Place) (cs : List Char) : Place := cs.foldl next p

end Place

/-- Why, and where, a text is refused. -/
inductive Rejection where
  | token (t : Token)
  | character (c : Char) (place : Place)
  /-- The text ends too early; the place is that of its last token. -/
  | ended (place : Place)
  deriving DecidableEq, Repr

namespace Rejection

def line : Rejection → Nat
  | token t => t.line
  | character _ place => place.line
  | ended place => place.line

def unexpected (label text : String) (line column : Nat) : String :=
  "Unexpected token Token('" ++ label ++ "', " ++ quoted text ++ ") at line " ++ Numeral.ofNat line ++ ", column " ++
    Numeral.ofNat column ++ "."

def message : Rejection → String
  | token t => unexpected t.terminal.label t.text t.line t.column
  | character c place =>
    "No terminal matches '" ++ c.toString ++ "' in the current parser context, at line " ++ Numeral.ofNat place.line ++
      " col " ++ Numeral.ofNat place.column
  | ended place => unexpected "$END" "" place.line place.column

end Rejection

/-- The token of the first `n` characters of a text. -/
def tokenAt (place : Place) (terminal : Terminal) (text : List Char) (n : Nat) : Token :=
  ⟨terminal, String.ofList (text.take n), place.line, place.column⟩

/-- The refusal of a text where no possible lexeme starts: by the token that would stand there if every terminal were
possible, else by its first character. -/
def refuse (place : Place) (c : Char) (rest : List Char) : Rejection :=
  match Lexeme.first? (fun _ => true) (c :: rest) with
  | some (.token terminal n) => .token (tokenAt place terminal (c :: rest) n)
  | _ => .character c place

/-- Reads on from a state, at a place; `last` is the place of the last token. -/
def Reader.read (s : Reader) (last place : Place) (text : List Char) : Except Rejection Node :=
  match text with
  | [] => match s.finish? with
    | some program => .ok program
    | none => .error (.ended last)
  | c :: rest => match _h : Lexeme.first? s.takes (c :: rest) with
    | none => .error (refuse place c rest)
    | some (.filler n) => s.read last (place.advance ((c :: rest).take n)) ((c :: rest).drop n)
    | some (.token terminal n) =>
      let t := tokenAt place terminal (c :: rest) n
      match s.feed t with
      | none => .error (.token t)
      | some next => next.read place (place.advance ((c :: rest).take n)) ((c :: rest).drop n)
termination_by text.length
decreasing_by
  all_goals
    have := Lexeme.length_pos_of_first? _h
    simp only [Lexeme.length] at this
    simp only [List.length_drop, List.length_cons]
    omega

/-- The program that a source text denotes. -/
def readProgram (source : String) : Except Rejection Node :=
  Reader.initial.read Place.start Place.start source.toList

end Rover
