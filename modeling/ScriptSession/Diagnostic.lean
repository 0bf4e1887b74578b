import ScriptSession.Position
import ScriptSession.Syntax
import ScriptSession.Value
/-!
What can be wrong with a submission before it runs: the causes, where they are found, and how they
are worded.
-/
namespace ScriptSession

/-- What the grammar asks for at a place. -/
inductive Expected
  | semicolon | bindingName | assign | expression | closing | commaOrClosing | name | nameAfterDot
deriving DecidableEq, Repr

def Expected.display : Expected → String
  | semicolon => "';'"
  | bindingName => "a binding name"
  | assign => "'='"
  | expression => "an expression"
  | closing => "')'"
  | commaOrClosing => "',' or ')'"
  | name => "a name"
  | nameAfterDot => "a name after '.'"

/-- The causes of a compile error. -/
inductive Problem
  | stray (text : String)
  | missing (expected : Expected)
  | unexpected (expected : Expected) (found : String)
  | unknownDirective (text : String)
  | intOutOfRange (digits : String)
  | unknownNamespace (name : String)
  | unaryMismatch (op : UnaryOp) (operand : Ty)
  | binaryMismatch (op : BinaryOp) (lhs rhs : Ty)
  | unknownFunction (name : String)
  | argumentCount (name : String) (takes given : Nat)
  | argumentType (name : String) (expects found : Ty)
  | emptyName
  | unknownName (name : String)
  | notAValue (name : String)
  | ambiguous (name : String) (modules : List String)
  | noMembers (name : String)
  | unknownModule (name : String)
  | noExport (owner name : String)
  | conflict (path loaded : String)
deriving DecidableEq, Repr

def Problem.message : Problem → String
  | stray text => s!"unexpected character '{text}'"
  | missing e => s!"expected {e.display}, found end of input"
  | unexpected e found => s!"expected {e.display}, found '{found}'"
  | unknownDirective text => s!"unknown directive '{text}'"
  | intOutOfRange digits => s!"integer literal '{digits}' out of range"
  | unknownNamespace name => s!"unknown module or namespace '{name}'"
  | unaryMismatch op t => s!"cannot apply '{op.symbol}' to {t.display}"
  | binaryMismatch op l r => s!"cannot apply '{op.symbol}' to {l.display} and {r.display}"
  | unknownFunction name => s!"unknown function '{name}'"
  | argumentCount name takes given => s!"'{name}' takes {takes} argument(s), {given} given"
  | argumentType name expects found => s!"'{name}' expects {expects.display}, found {found.display}"
  | emptyName => "empty name"
  | unknownName name => s!"unknown name '{name}'"
  | notAValue name => s!"'{name}' is a module, not a value"
  | ambiguous name modules =>
    let qualified := " and ".intercalate (modules.map fun m => s!"{m}.{name}")
    s!"'{name}' is ambiguous between {qualified}"
  | noMembers name => s!"'{name}' has no members"
  | unknownModule name => s!"unknown module '{name}'"
  | noExport owner name => s!"module '{owner}' has no export '{name}'"
  | conflict path loaded => s!"module '{path}' conflicts with already loaded '{loaded}'"

/-- A problem at a byte offset. -/
structure Finding where
  offset : Nat
  problem : Problem
deriving DecidableEq, Repr

/-- Findings in the order in which they were made, joined without copying. -/
inductive Findings
  | none
  | one (f : Finding)
  | both (earlier later : Findings)

namespace Findings

/-- The findings in front of later ones. -/
def toListOnto : Findings → List Finding → List Finding
  | none, later => later
  | one f, later => f :: later
  | both a b, later => a.toListOnto (b.toListOnto later)

def toList (fs : Findings) : List Finding :=
  fs.toListOnto []

def append : Findings → Findings → Findings
  | none, b => b
  | a, none => a
  | a, b => both a b

instance : Append Findings := ⟨append⟩

def ofList (fs : List Finding) : Findings :=
  fs.foldr (fun f later => one f ++ later) none

theorem toListOnto_eq (fs : Findings) (later : List Finding) :
    fs.toListOnto later = fs.toList ++ later := by
  induction fs generalizing later with
  | none => rfl
  | one f => rfl
  | both a b iha ihb =>
    rw [toListOnto, toList, toListOnto, iha, ihb, iha (b.toListOnto []), ihb []]
    simp

@[simp] theorem toList_none : none.toList = [] := rfl

@[simp] theorem toList_one (f : Finding) : (one f).toList = [f] := rfl

@[simp] theorem toList_both (a b : Findings) : (both a b).toList = a.toList ++ b.toList :=
  toListOnto_eq a b.toList

@[simp] theorem toList_append (a b : Findings) : (a ++ b).toList = a.toList ++ b.toList := by
  change (a.append b).toList = _
  fun_cases append a b <;> simp

@[simp] theorem toList_ofList (fs : List Finding) : (ofList fs).toList = fs := by
  induction fs with
  | nil => rfl
  | cons f fs ih => simpa [ofList] using ih

end Findings

/-- A problem at a place that a reader can find. -/
structure Diagnostic where
  position : Position
  problem : Problem
deriving DecidableEq, Repr

namespace Diagnostic

def message (d : Diagnostic) : String :=
  d.problem.message

def display (d : Diagnostic) : String :=
  s!"({d.position.display}): error: {d.message}"

end Diagnostic

def Finding.locate (source : List Char) (f : Finding) : Diagnostic :=
  ⟨.ofOffset source f.offset, f.problem⟩

/-- Locates findings in one text, which is walked over once. -/
def Finding.locateAll (source : List Char) (fs : List Finding) : List Diagnostic :=
  let table := Position.table source
  fs.map fun f => ⟨.ofTable table f.offset, f.problem⟩

theorem Finding.locateAll_eq (source : List Char) (fs : List Finding) :
    locateAll source fs = fs.map (locate source) := by
  simp [locateAll, locate, Position.ofTable_table]

/-- The diagnostics of a submission that did not compile. -/
structure CompileError where
  diagnostics : List Diagnostic
deriving DecidableEq, Repr

def CompileError.display (e : CompileError) : String :=
  "\n".intercalate (e.diagnostics.map Diagnostic.display)

end ScriptSession
