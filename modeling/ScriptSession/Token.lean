/-!
The words of the script language: token classes, spans of bytes, and lexemes, which are tokens
together with their text and the place they were read from.
-/
namespace ScriptSession

/-- A half-open range of byte offsets. -/
structure Span where
  start : Nat
  stop : Nat
deriving DecidableEq, Repr

/-- The classes of tokens; comments and directive markers are tokens of their own. -/
inductive Token
  | comment | directive
  | kwLet | kwUse | kwTrue | kwFalse
  | lparen | rparen | comma | dot | semi | assign
  | plus | minus | star | slash | percent
  | eqEq | notEq | lt | ltEq | gt | gtEq | andAnd | orOr | bang
  | int | str | ident
deriving DecidableEq, Repr

namespace Token

def isKeyword : Token → Bool
  | kwLet | kwUse | kwTrue | kwFalse => true
  | _ => false

def isOperator : Token → Bool
  | assign | plus | minus | star | slash | percent
  | eqEq | notEq | lt | ltEq | gt | gtEq | andAnd | orOr | bang => true
  | _ => false

/-- The spellings that are reserved, in alphabetical order. -/
def keywords : List String := ["false", "let", "true", "use"]

/-- The token of a word: a reserved spelling is a keyword, any other an identifier. -/
def ofWord (word : List Char) : Token :=
  if word = ['l', 'e', 't'] then kwLet
  else if word = ['u', 's', 'e'] then kwUse
  else if word = ['t', 'r', 'u', 'e'] then kwTrue
  else if word = ['f', 'a', 'l', 's', 'e'] then kwFalse
  else ident

end Token

/-- A token with its text and span. -/
structure Lexeme where
  token : Token
  text : String
  span : Span
deriving DecidableEq, Repr

/-- A piece of text that is no token. -/
structure Stray where
  text : String
  span : Span
deriving DecidableEq, Repr

end ScriptSession
