import ScriptSession.Resolve.Chain
import ScriptSession.Script.Engine
import ScriptSession.Syntax.Outline
/-!
One submission as a step from a link of the session's chain to the next. Directives are resolved
and blanked, imports are collected, the engine runs the rest, and what it referenced is recorded
and reconciled. Compile errors, resolution errors and cancellation leave the chain where it was; a
fault moves it on with the statements that completed.
-/
namespace ScriptSession

/-- One link of the chain. -/
structure Link where
  engine : EngineState
  /-- The references offered to the next submission. -/
  references : ArtifactSet
  imports : Names
  /-- The number of submissions folded in, faulted ones included. -/
  generation : Nat

/-- Why a submission did not succeed. -/
inductive EvalFailure
  | resolution (e : ResolutionError)
  | compile (message : String)
  | runtime (message : String)
  | busy
deriving DecidableEq

def EvalFailure.message : EvalFailure → String
  | resolution e => e.message
  | compile message => message
  | runtime message => message
  | busy => "an evaluation is already in progress"

/-- What the analysis side takes in when the chain moves on. -/
structure Commit where
  text : String
  /-- The value to show, if the last statement has one. -/
  returnValue : Option String
  artifacts : ArtifactSet
  imports : Names

inductive EvaluationResult
  | success (c : Commit)
  | error (f : EvalFailure)
  | cancelled

/-- When a submission is cancelled. -/
inductive Cancellation
  | never
  | beforeStart
  | beforeEngine
  | afterEngine
deriving DecidableEq, Repr

namespace Cancellation

/-- Whether cancellation is seen when a submission starts. -/
def atStart (c : Cancellation) : Bool :=
  c = beforeStart

/-- Whether cancellation is seen when the engine starts. -/
def atEngine (c : Cancellation) : Bool :=
  c = beforeStart || c = beforeEngine

/-- Whether cancellation is seen once the engine has returned. -/
def atEnd (c : Cancellation) : Bool :=
  c ≠ never

end Cancellation

/-- What submissions are evaluated with, apart from the chain and the service. -/
structure Evaluator where
  settings : ResolverSettings
  /-- The references before the first submission. -/
  initialReferences : ArtifactSet
  /-- The imports before the first submission. -/
  initialImports : Names

/-- A submission that is ready for the engine. -/
structure Prepared where
  text : String
  /-- The text with the lines of its directives blanked. -/
  code : String
  references : ArtifactSet
  imports : Names

namespace Evaluator

/-- The references that the next submission starts from. -/
def references (e : Evaluator) (link : Option Link) : ArtifactSet :=
  (link.map (·.references)).getD e.initialReferences

/-- The imports that the next submission starts from. -/
def imports (e : Evaluator) (link : Option Link) : Names :=
  (link.map (·.imports)).getD e.initialImports

/-- Resolves directives in order onto some references; the first failure ends it. Each finds the
files as the builds before it left them. -/
def resolveAll (host : Host) (settings : ResolverSettings) (cancelled : Bool) :
    ReferenceService → ArtifactSet → List Directive →
      Except ResolveFailure ArtifactSet × ReferenceService × FileTree
  | service, references, [] => (.ok references, service, host.files)
  | service, references, d :: rest =>
    match Resolver.resolve host settings service cancelled d with
    | (.ok artifacts, service', files) =>
      resolveAll (host.withFiles files) settings cancelled service' (references.extend artifacts)
        rest
    | (.error e, service', files) => (.error e, service', files)

/-- Everything up to the call of the engine. -/
def prepare (host : Host) (e : Evaluator) (service : ReferenceService) (link : Option Link)
    (text : String) (cancel : Cancellation) :
    Except EvaluationResult Prepared × ReferenceService × FileTree :=
  if cancel.atStart then (.error .cancelled, service, host.files)
  else
    let directives := Directive.scan text
    match resolveAll host e.settings cancel.atStart service (e.references link) directives with
    | (.error .cancelled, after) => (.error .cancelled, after)
    | (.error (.resolution err), after) => (.error (.error (.resolution err)), after)
    | (.ok references, after) =>
      let code := Directive.blank text (directives.map (·.line))
      (.ok ⟨text, code, references, (e.imports link).extend (Outline.imports code)⟩, after)

/-- The files that the engine loads: those of the artifacts that serve execution. -/
def enginePaths (references : ArtifactSet) : List Path :=
  (references.items.filter (·.role.servesExecution)).filterMap fun a => a.key.map Key.path

/-- The artifacts of the modules that a state has loaded. -/
def referenced (references : ArtifactSet) (state : EngineState) : List Artifact :=
  state.referencedPaths.map fun p =>
    (references.get? (Key.ofPath p)).getD (Artifact.ofFile p .executionOnly)

/-- What a run commits: the whole text, or after a fault the part that was executed. -/
def commitOf (p : Prepared) (state : EngineState) (artifacts : ArtifactSet) : Commit :=
  match state.fault with
  | none => ⟨p.text, state.returnValue.map Value.render, artifacts, p.imports⟩
  | some _ =>
    let executed := Text.takeBytes state.executedLength p.code.toList
    ⟨String.ofList (Text.trim executed), none, artifacts, p.imports⟩

def resultOf (state : EngineState) (commit : Commit) : EvaluationResult :=
  match state.fault with
  | none => .success commit
  | some fault => .error (.runtime fault.display)

/-- What an evaluation gives besides its result: the next link and what it commits. -/
structure Advance where
  link : Link
  commit : Commit
  printed : String

/-- Runs the engine and moves the chain on. -/
def complete (files : FileTree) (p : Prepared) (service : ReferenceService) (link : Option Link)
    (args : List String) (cancel : Cancellation) :
    EvaluationResult × Option Advance × ReferenceService :=
  let options : Options := ⟨enginePaths p.references, p.imports.sorted, args⟩
  match Engine.run files p.code options (link.map (·.engine)) cancel.atEngine with
  | .error .cancelled => (.cancelled, none, service)
  | .error e =>
    (if cancel.atEnd then .cancelled else .error (.compile e.message), none, service)
  | .ok (state, printed) =>
    let used := referenced p.references state
    let (_, service) := service.record used
    let (reconciled, service) := service.reconcile files used
    let next : Link :=
      ⟨state, p.references.extend reconciled.items, p.imports,
        (link.map (·.generation)).getD 0 + 1⟩
    let commit := commitOf p state service.analysis
    (resultOf state commit, some ⟨next, commit, printed⟩, service)

end Evaluator
end ScriptSession
