import Std.Data.ExtTreeMap
import ScriptSession.Module.Identity
import ScriptSession.Text.Lines
import ScriptSession.Token.Escape
import ScriptSession.Token.Lexer
import ScriptSession.Value
/-!
Module files. After the header line a module file lists its exports, one `export name = literal`
on a line; blank lines and lines that start with `//` say nothing, and a later export of a name
stands for an earlier one.
-/
namespace ScriptSession

/-- A loaded module. -/
structure Module where
  identity : Identity
  path : Path
  exports : Std.ExtTreeMap String Value

def Module.name (m : Module) : String :=
  m.identity.name

/-- Why a file could not be loaded as a module. -/
inductive ModuleError
  | unreadable (path : Path) (cause : ReadError)
  | missingHeader (path : Path)
  | malformedExport (path : Path) (line : Nat) (text : String)
deriving DecidableEq, Repr

def ModuleError.message : ModuleError → String
  | unreadable path cause => s!"cannot read module '{path.text}': {cause.message}"
  | missingHeader path => s!"'{path.text}' is not a managed module (missing header)"
  | malformedExport path line text => s!"{path.text}:{line}: malformed export: {text}"

namespace ModuleFile

/-- The value of an export: an integer, perhaps negated, a string, `true` or `false`. -/
def literal? (cs : List Char) : Option Value :=
  let lexing := lex cs
  if lexing.strays ≠ [] then none
  else match lexing.tokens with
    | [t] =>
      match t.token with
      | .int => (Word.ofDigits? t.text).map .int
      | .str => some (.str (String.ofList (Token.unescape t.text.toList)))
      | .kwTrue => some (.bool true)
      | .kwFalse => some (.bool false)
      | _ => none
    | [s, t] =>
      if s.token = .minus ∧ t.token = .int then (Word.ofNegatedDigits? t.text).map .int else none
    | _ => none

/-- Whether the tokens of a text are one identifier. -/
def isName (cs : List Char) : Bool :=
  (lex cs).tokens.map (·.token) = [.ident]

/-- Reads `export name = literal`. -/
def export? (line : List Char) : Option (String × Value) := do
  let rest ← Text.afterLead "export".toList line
  guard (Text.startsBlank rest)
  let (name, value) ← Text.cutFirst '=' rest
  let name := Text.trim name
  guard (isName name)
  return (String.ofList name, ← literal? (Text.trim value))

/-- Whether a trimmed line says nothing. -/
def isSilent (line : List Char) : Bool :=
  line = [] || "//".toList.isPrefixOf line

/-- Adds the exports of numbered lines, from the top down, to those read before. -/
def readExports (path : Path) :
    Std.ExtTreeMap String Value → List (Nat × List Char) →
      Except ModuleError (Std.ExtTreeMap String Value)
  | exports, [] => .ok exports
  | exports, (number, line) :: rest =>
    let line := Text.trim line
    if isSilent line then readExports path exports rest
    else match export? line with
      | some (name, value) => readExports path (exports.insert name value) rest
      | none => .error (.malformedExport path number (String.ofList line))

/-- Reads the text of a module file. -/
def parse (path : Path) (text : List Char) : Except ModuleError Module :=
  match Text.lines text with
  | [] => .error (.missingHeader path)
  | first :: rest =>
    match Identity.ofHeader? first with
    | none => .error (.missingHeader path)
    | some identity => do
      let exports ← readExports path ∅ (Text.numbered 2 rest)
      return ⟨identity, path, exports⟩

/-- Loads a module from a file. -/
def load (files : FileTree) (path : Path) : Except ModuleError Module :=
  match files.readText path with
  | .ok text => parse path text.toList
  | .error cause => .error (.unreadable path cause)

end ModuleFile
end ScriptSession
