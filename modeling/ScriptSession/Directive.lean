import ScriptSession.Text.Ascii
import ScriptSession.Text.Blank
import ScriptSession.Text.Lines
import Std.Data.HashSet
/-!
Reference directives. A directive takes a whole line, `#r "value"`, perhaps with a semicolon and a
comment after it; a line that only looks similar is left in the text.
-/
namespace ScriptSession

/-- A directive on a line, which is counted from zero. -/
structure Directive where
  line : Nat
  value : String
deriving DecidableEq, Repr

namespace Directive

/-- A directive that no submission holds. -/
def detached (value : String) : Directive := ⟨0, value⟩

/-- What follows `scheme:` in the value; blanks around the parts and letter case do not matter. -/
def afterScheme? (d : Directive) (scheme : String) : Option String := do
  let (head, rest) ← Text.cutFirst ':' (Text.trimStart d.value.toList)
  guard (Text.sameIgnoringCase (String.ofList (Text.trim head)) scheme)
  return String.ofList (Text.trim rest)

/-- Whether nothing of meaning follows the value of a directive. -/
def isTail (cs : List Char) : Bool :=
  let tail := Text.trim cs
  let tail := match Text.afterLead [';'] tail with
    | some rest => Text.trimStart rest
    | none => tail
  tail = [] || ['/', '/'].isPrefixOf tail

/-- The value of a line that is a directive. -/
def valueOf? (line : List Char) : Option String := do
  let rest ← Text.afterLead ['#', 'r'] (Text.trimStart line)
  guard (Text.startsBlank rest)
  let rest ← Text.afterLead ['"'] (Text.trimStart rest)
  let (value, tail) ← Text.cutFirst '"' rest
  guard (isTail tail)
  return String.ofList value

/-- The directives of a text, in line order. -/
def scan (text : String) : List Directive :=
  (Text.numbered 0 (Text.lines text.toList)).filterMap fun (line, content) =>
    (valueOf? content).map fun value => ⟨line, value⟩

/-- Empties some lines of a text and leaves all others where they are. -/
def blank (text : String) (lines : List Nat) : String :=
  let emptied := Std.HashSet.ofList lines
  let rows := (Text.numbered 0 (Text.rows text.toList)).map fun (line, content) =>
    if line ∈ emptied then [] else content
  String.ofList (Text.joinWith ['\n'] rows)

end Directive
end ScriptSession
