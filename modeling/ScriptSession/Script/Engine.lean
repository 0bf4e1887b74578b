import Std.Data.ExtTreeSet
import ScriptSession.Script.Execution
import ScriptSession.Syntax.Parser
/-!
One submission against a prior state. References are loaded, the text is read and checked, and then
it runs. An error leaves no state behind; a fault leaves the state that the completed statements
made, and the prior state is never changed.
-/
namespace ScriptSession

abbrev Names := Std.ExtTreeSet String

/-- The names of a set, in order. -/
def Names.sorted (s : Names) : List String := s.toList

def Names.extend (s : Names) (names : List String) : Names :=
  names.foldl (·.insert ·) s

/-- What a submission is given besides its text. -/
structure Options where
  /-- The module files to load, in order. -/
  references : List Path
  /-- The imports in effect before the first statement. -/
  imports : List String
  /-- What `arg` and `argc` see. -/
  args : List String

/-- The shape of the last statement of a submission. -/
structure FinalStatement where
  ty : Ty
  terminated : Bool
deriving DecidableEq, Repr

/-- An unterminated statement of a type other than `unit` has a value to show. -/
def FinalStatement.producesValue (s : FinalStatement) : Bool :=
  !s.terminated && s.ty ≠ .unit

/-- Everything that was evaluated so far. -/
structure EngineState where
  bindings : Bindings
  modules : ModuleTable
  imports : Names
  finalValue : Option Value
  finalStatement : Option FinalStatement
  fault : Option RuntimeFault
  /-- The bytes of the submission before the statement that faulted, or all of them. -/
  executedLength : Nat
  /-- The number of submissions folded into this state. -/
  generation : Nat

namespace EngineState

/-- What there was before the first submission. -/
def initial : EngineState :=
  ⟨∅, .empty, ∅, none, none, none, 0, 0⟩

/-- The value to show for the submission, if any. -/
def returnValue (s : EngineState) : Option Value :=
  if s.finalStatement.any FinalStatement.producesValue then s.finalValue else none

/-- The files of the loaded modules, in path order. -/
def referencedPaths (s : EngineState) : List Path :=
  (s.modules.toList.map Module.path).mergeSort Path.le

end EngineState

/-- Why a submission left no state. -/
inductive EngineError
  | compile (e : CompileError)
  | reference (e : ModuleError)
  | cancelled

def EngineError.message : EngineError → String
  | compile e => e.display
  | reference e => e.message
  | cancelled => "evaluation cancelled"

namespace Engine

/-- Loads references into a table; the first failure or conflict ends the submission. -/
def loadReferences (files : FileTree) : ModuleTable → List Path → Except EngineError ModuleTable
  | table, [] => .ok table
  | table, p :: rest =>
    match table.load files p with
    | .error e => .error (.reference e)
    | .ok (.conflict loaded, _) =>
      .error (.compile ⟨[⟨.first, .conflict p.text loaded.display⟩]⟩)
    | .ok (_, table') => loadReferences files table' rest

/-- The scope in which a submission starts. -/
def startScope (modules : ModuleTable) (imports : Names) (bindings : Bindings) : Scope where
  modules := modules
  imports := imports.sorted
  bindings := bindings.map fun _ v => some v.ty

/-- The bytes of a text that were executed when a run stopped. -/
def executedLength (source : List Char) (script : Script) (p : Progress) : Option Fault → Nat
  | none => Text.byteLength source
  | some _ => (script[p.completed]?.map (·.span.start)).getD (Text.byteLength source)

/-- Runs a checked script on top of `prior`. -/
def execute (source : List Char) (script : Script) (checked : Checked) (args : List String)
    (prior : EngineState) (modules : ModuleTable) (imports : Names) : EngineState × String :=
  let (p, fault) := runStmts checked.resolutions args ⟨prior.bindings, none, 0, ""⟩ script
  ({ bindings := p.bindings
     modules := modules
     imports := imports.extend checked.imports
     finalValue := if fault.isSome then none else p.last
     finalStatement := script.getLast?.bind fun s =>
       checked.finalTy.map fun ty => ⟨ty, s.terminated⟩
     fault := fault.map (Fault.locate source)
     executedLength := executedLength source script p fault
     generation := prior.generation + 1 }, p.printed)

/-- Runs a submission on top of a prior state; gives the next state and what was printed. -/
def run (files : FileTree) (text : String) (options : Options) (prior : Option EngineState)
    (cancelled : Bool) : Except EngineError (EngineState × String) := do
  if cancelled then throw .cancelled
  let prior := prior.getD .initial
  let modules ← loadReferences files prior.modules options.references
  let script ← (parse text).mapError .compile
  let imports := prior.imports.extend options.imports
  let source := text.toList
  let checked ← (check (startScope modules imports prior.bindings) script).mapError fun findings =>
    .compile ⟨Finding.locateAll source findings⟩
  return execute source script checked options.args prior modules imports

end Engine
end ScriptSession
