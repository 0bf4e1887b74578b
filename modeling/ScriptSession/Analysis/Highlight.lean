import ScriptSession.Analysis.Workspace
import ScriptSession.Syntax.Outline
/-!
Highlighting. Every token gets a kind from its class alone, except that in a dotted path the
longest front part that names a module or namespace is highlighted as a module, and so is all of
a path after `use`.
-/
namespace ScriptSession

inductive HighlightKind
  | keyword | identifier | module | number | string | operator | punctuation | directive | comment
deriving DecidableEq, Repr

def HighlightKind.display : HighlightKind → String
  | keyword => "keyword"
  | identifier => "identifier"
  | module => "module"
  | number => "number"
  | string => "string"
  | operator => "operator"
  | punctuation => "punctuation"
  | directive => "directive"
  | comment => "comment"

structure HighlightSpan where
  kind : HighlightKind
  span : Span
deriving DecidableEq, Repr

namespace Highlight

/-- The kind of a token by its class. -/
def lexicalKind (t : Token) : HighlightKind :=
  match t with
  | .comment => .comment
  | .directive => .directive
  | .int => .number
  | .str => .string
  | .ident => .identifier
  | t =>
    if t.isKeyword then .keyword else if t.isOperator then .operator else .punctuation

/-- How many segments the longest front part has that names a module or namespace. -/
def moduleSegments (modules : ModuleTable) (segments : List String) : Nat :=
  ((List.range segments.length).map (· + 1)).foldl
    (fun longest n => if modules.isNamespace (dotted (segments.take n)) then n else longest) 0

/-- The kinds of a path run in which the first `count` identifiers still to come name a module. -/
def classifyRun : Nat → List Lexeme → List HighlightSpan
  | _, [] => []
  | count, t :: rest =>
    if t.token = .ident then
      ⟨if 0 < count then .module else .identifier, t.span⟩ :: classifyRun (count - 1) rest
    else ⟨lexicalKind t.token, t.span⟩ :: classifyRun count rest

/-- The kinds of a path run. -/
def classifyPath (modules : ModuleTable) (afterUse : Bool) (run : List Lexeme) :
    List HighlightSpan :=
  let segments := Outline.segments run
  classifyRun (if afterUse then segments.length else moduleSegments modules segments) run

/-- The kinds of tokens of which the one before may be `use`. -/
def classify (modules : ModuleTable) (afterUse : Bool) (tokens : List Lexeme) :
    List HighlightSpan :=
  match tokens with
  | [] => []
  | t :: rest =>
    if t.token = .ident then
      let run := Outline.pathRun (t :: rest)
      classifyPath modules afterUse run ++
        classify modules false (rest.drop (run.length - 1))
    else ⟨lexicalKind t.token, t.span⟩ :: classify modules (t.token = .kwUse) rest
termination_by tokens.length
decreasing_by
  · simp only [List.length_drop, List.length_cons]; omega
  · simp

end Highlight

/-- The highlighted tokens of a document, in order. -/
def highlight (d : Document) : List HighlightSpan :=
  Highlight.classify d.project.modules false (lex d.text.toList).tokens

end ScriptSession
