import ScriptSession.Syntax
import ScriptSession.Token.Lexer
/-!
The names that a text mentions, read from its tokens alone. The text need not parse, so an outline
never fails. Comments are not passed over: where none stands between a keyword and what it names, an
outline sees the same `use` paths and `let` names as the reader does where the text parses.
-/
namespace ScriptSession.Outline

/-- The longest run `IDENT ('.' IDENT)*` at the front, dots included. -/
def pathRun : List Lexeme → List Lexeme
  | [] => []
  | t :: rest =>
    if t.token = .ident then
      match rest with
      | d :: n :: rest' =>
        if d.token = .dot ∧ n.token = .ident then t :: d :: pathRun (n :: rest') else [t]
      | _ => [t]
    else []
termination_by ts => ts.length

/-- The identifiers of a path run. -/
def segments (run : List Lexeme) : List String :=
  (run.filter (·.token = .ident)).map (·.text)

/-- The paths after the `use` keywords of a token list; a keyword with no name after it has none. -/
def usePaths : List Lexeme → List (List String)
  | [] => []
  | t :: rest =>
    if t.token = .kwUse ∧ pathRun rest ≠ [] then segments (pathRun rest) :: usePaths rest
    else usePaths rest

/-- The names that directly follow a `let` keyword. -/
def letNames (tokens : List Lexeme) : List String :=
  (tokens.zip tokens.tail).filterMap fun (t, n) =>
    if t.token = .kwLet ∧ n.token = .ident then some n.text else none

/-- The modules that a text imports, in the order of first mention. -/
def imports (text : String) : List String :=
  ((usePaths (lex text.toList).tokens).map dotted).eraseDups

/-- The names that a text binds, in the order of first mention. -/
def bindings (text : String) : List String :=
  (letNames (lex text.toList).tokens).eraseDups

end ScriptSession.Outline
