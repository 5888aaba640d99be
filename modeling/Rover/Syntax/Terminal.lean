/-!
# Terminals

The kinds of token: names, three kinds of literal, keywords and marks. Keywords and marks have a fixed spelling, and every
terminal has the label by which messages name it.
-/

namespace Rover

inductive Keyword where
  | kwFunc
  | kwEndfunc
  | kwIf
  | kwThen
  | kwElse
  | kwEndif
  | kwWhile
  | kwDo
  | kwEndwhile
  | kwReturn
  | kwRead
  | kwWrite
  | kwTrue
  | kwFalse
  | kwAnd
  | kwOr
  | kwNot
  deriving DecidableEq, Repr

inductive Mark where
  | lpar
  | rpar
  | comma
  | ampersand
  | equal
  | semicolon
  | less
  | greater
  | plus
  | minus
  | star
  | slash
  | percent
  | equalEqual
  | notEqual
  | lessEqual
  | greaterEqual
  deriving DecidableEq, Repr

inductive Terminal where
  | float
  | name
  | string
  | int
  | keyword (k : Keyword)
  | mark (m : Mark)
  deriving DecidableEq, Repr

def Keyword.spelling : Keyword → String
  | kwFunc => "func"
  | kwEndfunc => "endfunc"
  | kwIf => "if"
  | kwThen => "then"
  | kwElse => "else"
  | kwEndif => "endif"
  | kwWhile => "while"
  | kwDo => "do"
  | kwEndwhile => "endwhile"
  | kwReturn => "return"
  | kwRead => "read"
  | kwWrite => "write"
  | kwTrue => "true"
  | kwFalse => "false"
  | kwAnd => "and"
  | kwOr => "or"
  | kwNot => "not"

def Keyword.label : Keyword → String
  | kwFunc => "FUNC"
  | kwEndfunc => "ENDFUNC"
  | kwIf => "IF"
  | kwThen => "THEN"
  | kwElse => "ELSE"
  | kwEndif => "ENDIF"
  | kwWhile => "WHILE"
  | kwDo => "DO"
  | kwEndwhile => "ENDWHILE"
  | kwReturn => "RETURN"
  | kwRead => "READ"
  | kwWrite => "WRITE"
  | kwTrue => "TRUE"
  | kwFalse => "FALSE"
  | kwAnd => "AND"
  | kwOr => "OR"
  | kwNot => "NOT"

def Mark.spelling : Mark → String
  | lpar => "("
  | rpar => ")"
  | comma => ","
  | ampersand => "&"
  | equal => "="
  | semicolon => ";"
  | less => "<"
  | greater => ">"
  | plus => "+"
  | minus => "-"
  | star => "*"
  | slash => "/"
  | percent => "%"
  | equalEqual => "=="
  | notEqual => "!="
  | lessEqual => "<="
  | greaterEqual => ">="

def Mark.label : Mark → String
  | lpar => "LPAR"
  | rpar => "RPAR"
  | comma => "COMMA"
  | ampersand => "AMPERSAND"
  | equal => "EQUAL"
  | semicolon => "SEMICOLON"
  | less => "LESSTHAN"
  | greater => "MORETHAN"
  | plus => "PLUS"
  | minus => "MINUS"
  | star => "STAR"
  | slash => "SLASH"
  | percent => "PERCENT"
  | equalEqual => "__ANON_0"
  | notEqual => "__ANON_1"
  | lessEqual => "__ANON_2"
  | greaterEqual => "__ANON_3"

def Terminal.label : Terminal → String
  | float => "FLOAT"
  | name => "NAME"
  | string => "STRING"
  | int => "INT"
  | keyword k => k.label
  | mark m => m.label

/-- All keywords, a longer spelling before a shorter one. -/
def Keyword.all : List Keyword :=
  [kwEndwhile, kwEndfunc, kwReturn, kwEndif, kwWhile, kwWrite, kwFalse, kwFunc, kwThen, kwElse, kwRead, kwTrue, kwAnd,
    kwNot, kwIf, kwDo, kwOr]

/-- All marks, a longer spelling before a shorter one. -/
def Mark.all : List Mark :=
  [equalEqual, notEqual, lessEqual, greaterEqual, lpar, rpar, comma, ampersand, equal, semicolon, less, greater, plus,
    minus, star, slash, percent]

end Rover
