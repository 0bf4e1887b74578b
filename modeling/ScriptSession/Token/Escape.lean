import ScriptSession.Text.Cut
/-!
The contents of string literals. Inside the quotes a backslash with `n`, `t` or `0` stands for a
line feed, a tab or a NUL, a backslash with any other character for that character, and a backslash
at the very end for itself.
-/
namespace ScriptSession.Token

/-- The character that a backslash with `c` stands for. -/
def escaped : Char → Char
  | 'n' => '\n'
  | 't' => '\t'
  | '0' => Char.ofNat 0
  | c => c

/-- Decodes a string body onto the reversed characters `done`. -/
def decodeOnto (done : List Char) : List Char → List Char
  | '\\' :: c :: cs => decodeOnto (escaped c :: done) cs
  | c :: cs => decodeOnto (c :: done) cs
  | [] => done.reverse

/-- The text between the two quotes of a literal; a text that is not quoted is taken whole. -/
def unquoted (literal : List Char) : List Char :=
  match Text.afterLead ['"'] literal with
  | some rest => (Text.beforeTail ['"'] rest).getD literal
  | none => literal

/-- The string that a literal denotes. -/
def unescape (literal : List Char) : List Char :=
  decodeOnto [] (unquoted literal)

end ScriptSession.Token
