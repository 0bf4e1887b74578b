import ScriptSession.Analysis.Workspace
import ScriptSession.Syntax.Outline
/-!
Completion. The word before the caret decides what is offered: after a dot the exports and modules
below the qualifier, else everything that a plain name can mean. Of several offers of one label the
first is kept, and offers come in the order of their labels.
-/
namespace ScriptSession

inductive CompletionKind
  | keyword | builtin | binding | module | exported
deriving DecidableEq, Repr

def CompletionKind.display : CompletionKind → String
  | keyword => "keyword"
  | builtin => "builtin"
  | binding => "binding"
  | module => "module"
  | exported => "export"

structure CompletionItem where
  label : String
  kind : CompletionKind
  detail : Option String := none
deriving DecidableEq, Repr

namespace Completion

def isWordChar (c : Char) : Bool :=
  c.isAlphanum || c = '_' || c = '.'

/-- The run of word characters that ends a text. -/
def wordBefore (cs : List Char) : List Char :=
  (cs.reverse.takeWhile isWordChar).reverse

/-- The first segments of the module names below a namespace, or of all module names, in the order
of these names. Neighbours with the same segment share it; others may repeat one, as `A` stands on
both sides of `A-b` where there are `A`, `A-b` and `A.c`. -/
def childSegments (modules : ModuleTable) (scope : Option String) : List String :=
  (modules.toList.filterMap fun m => do
    let rest ← match scope with
      | some s => Text.afterLead (s.toList ++ ['.']) m.name.toList
      | none => some m.name.toList
    return String.ofList (rest.takeWhile (· ≠ '.'))).eraseReps

/-- The exports of a module, each with its full name and type. -/
def exportItems (m : Module) : List CompletionItem :=
  m.exports.toList.map fun (name, value) =>
    ⟨name, .exported, some s!"{m.name}.{name}: {value.ty.display}"⟩

/-- What can follow a qualifier and a dot. -/
def qualifiedOffers (modules : ModuleTable) (qualifier : String) : List CompletionItem :=
  ((modules.get? qualifier).toList.flatMap exportItems) ++
    (childSegments modules (some qualifier)).map (⟨·, .module, none⟩)

/-- The names bound and the modules imported where a document is completed; a candidate adds its
own to those of the session. -/
def namesInScope (d : Document) : List String × List String :=
  let bindings := Outline.bindings d.committedText
  let imports := d.project.imports.sorted
  if d.committed then (bindings, imports)
  else (bindings ++ Outline.bindings d.text, imports ++ Outline.imports d.text)

/-- What a plain name can mean. -/
def plainOffers (d : Document) : List CompletionItem :=
  let modules := d.project.modules
  let (bindings, imports) := namesInScope d
  Token.keywords.map (⟨·, .keyword, none⟩) ++
    Builtin.names.map (⟨·, .builtin, none⟩) ++
    bindings.map (⟨·, .binding, none⟩) ++
    (childSegments modules none).map (⟨·, .module, none⟩) ++
    (imports.flatMap modules.importedBy).flatMap exportItems

/-- The offers whose label starts with `lead`, one for a label, in the order of labels. -/
def collect (lead : List Char) (offers : List CompletionItem) : List CompletionItem :=
  let fitting := offers.filter fun i => lead.isPrefixOf i.label.toList
  let byLabel := fitting.foldl (fun m i => m.insertIfNew i.label i)
    (∅ : Std.ExtTreeMap String CompletionItem)
  byLabel.toList.map (·.2)

end Completion

/-- What a document offers at a byte offset. -/
def complete (d : Document) (caret : Nat) : List CompletionItem :=
  let word := Completion.wordBefore (Text.takeBytes caret d.text.toList)
  match Text.cutLast '.' word with
  | some (qualifier, partialName) =>
    Completion.collect partialName
      (Completion.qualifiedOffers d.project.modules (String.ofList qualifier))
  | none => Completion.collect word (Completion.plainOffers d)

end ScriptSession
