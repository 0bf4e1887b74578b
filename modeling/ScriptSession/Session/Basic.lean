import ScriptSession.Analysis.Cache
import ScriptSession.Analysis.Completion
import ScriptSession.Analysis.Highlight
import ScriptSession.Session.Config
import ScriptSession.Session.Evaluation
/-!
Sessions. A session holds the chain of submissions and the analysis document that follows it.
Evaluation is taken up by one caller at a time and is answered as busy until that one is done;
questions about a text are answered from the current document and change neither.
-/
namespace ScriptSession

structure Session where
  evaluator : Evaluator
  args : List String
  service : ReferenceService
  workspace : Workspace
  /-- The last link of the chain; there is none before the first submission. -/
  link : Option Link
  /-- Whether an evaluation is in progress. -/
  busy : Bool
  completions : Cache (List CompletionItem)
  highlights : Cache (List HighlightSpan)

/-- Why a session could not be started. -/
inductive StartupError
  | framework (e : ResolutionError)
  | reference (value : String) (e : ResolveFailure)
deriving DecidableEq, Repr

def StartupError.message : StartupError → String
  | framework e => s!"cannot start session: {e.message}"
  | reference value e => s!"cannot resolve initial reference '{value}': {e.message}"

namespace Session

/-- Resolves, records and reconciles the references of the start. -/
def startReferences (host : Host) (settings : ResolverSettings) :
    ReferenceService → ArtifactSet → List String →
      Except StartupError (ArtifactSet × ReferenceService) × FileTree
  | service, references, [] => (.ok (references, service), host.files)
  | service, references, value :: rest =>
    match Resolver.resolve host settings service false (.detached value) with
    | (.error e, _, files) => (.error (.reference value e), files)
    | (.ok resolved, service, files) =>
      let (_, service) := service.record resolved
      let (reconciled, service) := service.reconcile files resolved
      startReferences (host.withFiles files) settings service
        ((references.extend resolved).extend reconciled.items) rest

/-- A session before its first submission. -/
def fresh (files : FileTree) (config : SessionConfig) (settings : ResolverSettings)
    (references : ArtifactSet) (service : ReferenceService) : Session :=
  let imports := Names.extend ∅ config.imports
  { evaluator := ⟨settings, references, imports⟩
    args := config.args
    service
    workspace := .start files service.analysis imports
    link := none
    busy := false
    completions := .new config.cacheCapacity config.cacheTtl
    highlights := .new config.cacheCapacity config.cacheTtl }

/-- Starts a session: the framework is loaded, then the references of the configuration. Gives the
files as the builds of the references left them. -/
def start (host : Host) (config : SessionConfig) : Except StartupError Session × FileTree :=
  match ReferenceService.empty.loadFramework host.files config.framework config.searchPaths with
  | .error e => (.error (.framework e), host.files)
  | .ok (_, service) =>
    let settings : ResolverSettings := ⟨config.packageFeed, config.buildCommand, config.baseDir⟩
    match startReferences host settings service service.execution config.references with
    | (.error e, files) => (.error e, files)
    | (.ok (references, service), files) =>
      (.ok (fresh files config settings references service), files)

/-- Takes up a submission. A session that is busy refuses it; one that is not becomes busy unless
the submission already ends here. Builds of its directives may change files. -/
def begin (host : Host) (s : Session) (text : String) (cancel : Cancellation) :
    Except EvaluationResult Prepared × Session × FileTree :=
  if s.busy then (.error (.error .busy), s, host.files)
  else
    let (prepared, service, files) := s.evaluator.prepare host s.service s.link text cancel
    (prepared, { s with service, busy := prepared.isOk }, files)

/-- Ends a submission that was taken up: gives its result and what was printed. -/
def finish (files : FileTree) (s : Session) (p : Prepared) (args : List String)
    (cancel : Cancellation) : (EvaluationResult × String) × Session :=
  match Evaluator.complete files p s.service s.link args cancel with
  | (result, none, service) => ((result, ""), { s with service, busy := false })
  | (result, some a, service) =>
    let workspace := s.workspace.commit files a.commit.text a.commit.artifacts a.commit.imports
    ((result, a.printed), { s with service, workspace, link := some a.link, busy := false })

/-- Evaluates one submission; gives its result and what was printed, the session after it and the
files as its builds left them. -/
def evaluateWith (host : Host) (s : Session) (text : String) (args : List String)
    (cancel : Cancellation) : (EvaluationResult × String) × Session × FileTree :=
  match s.begin host text cancel with
  | (.error result, s', files) => ((result, ""), s', files)
  | (.ok prepared, s', files) =>
    let (outcome, s'') := s'.finish files prepared args cancel
    (outcome, s'', files)

/-- Evaluates one submission with the script arguments of the session. -/
def evaluate (host : Host) (s : Session) (text : String) (cancel : Cancellation) :
    (EvaluationResult × String) × Session × FileTree :=
  s.evaluateWith host text s.args cancel

/-- What a text offers at a byte offset, asked at a time. -/
def complete (s : Session) (text : String) (caret now : Nat) : List CompletionItem × Session :=
  let document := s.workspace.withText text
  let (items, completions) := s.completions.getOrInsert
    ⟨document.project.id, text, some caret⟩ now fun _ => ScriptSession.complete document caret
  (items, { s with completions })

/-- The highlighted tokens of a text, asked at a time. -/
def highlight (s : Session) (text : String) (now : Nat) : List HighlightSpan × Session :=
  let document := s.workspace.withText text
  let (spans, highlights) := s.highlights.getOrInsert
    ⟨document.project.id, text, none⟩ now fun _ => ScriptSession.highlight document
  (spans, { s with highlights })

/-- The references that the next submission starts from. -/
def references (s : Session) : ArtifactSet :=
  s.evaluator.references s.link

end Session
end ScriptSession
