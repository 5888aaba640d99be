import Rover.Text.Printable

/-!
# Quoted text

A text in quotes on one line. Single quotes are used unless the text holds one and no double quote; the quote in use and
the backslash are escaped, and so is every character that is not printable.

String literals have escapes of their own: a backslash gives the next character another meaning, and at the very end it
stands for itself. `Escape.decode` replaces each escape by what it stands for.
-/

namespace Rover.Quoted

/-- The quote for a text. -/
def mark (text : List Char) : Char := if '\'' ∈ text ∧ '"' ∉ text then '"' else '\''

/-- The last `width` hexadecimal digits of `n`. -/
def hexDigits : (width n : Nat) → List Char
  | 0, _ => []
  | width + 1, n => hexDigits width (n / 16) ++ [(n % 16).digitChar]

/-- An unprintable character by its code point. -/
def escapeCode (c : Char) : List Char :=
  let n := c.toNat
  if n < 0x100 then ['\\', 'x'] ++ hexDigits 2 n
  else if n < 0x10000 then ['\\', 'u'] ++ hexDigits 4 n
  else ['\\', 'U'] ++ hexDigits 8 n

def escapeChar (quote c : Char) : List Char :=
  if c = quote ∨ c = '\\' then ['\\', c]
  else if c = '\n' then ['\\', 'n']
  else if c = '\r' then ['\\', 'r']
  else if c = '\t' then ['\\', 't']
  else if isPrintable c then [c]
  else escapeCode c

def encode (text : List Char) : List Char :=
  let quote := mark text
  quote :: text.flatMap (escapeChar quote) ++ [quote]

end Rover.Quoted

namespace Rover.Escape

/-- What a character stands for after a backslash. -/
def meaning : Char → Char
  | 'n' => '\n'
  | 't' => '\t'
  | 'r' => '\r'
  | c => c

def decode : List Char → List Char
  | [] => []
  | [c] => [c]
  | c :: d :: rest => if c = '\\' then meaning d :: decode rest else c :: decode (d :: rest)

end Rover.Escape

namespace Rover

/-- The text in quotes. -/
def quoted (text : String) : String := String.ofList (Quoted.encode text.toList)

end Rover
