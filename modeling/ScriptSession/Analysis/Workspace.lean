import ScriptSession.Artifact.Set
import ScriptSession.Script.Engine
/-!
The analysis side of a session. Every commit starts a new project on top of the earlier ones; a
project holds the artifacts, imports and modules of its time and only the text that it added, and
the current document holds the texts of all projects joined.
-/
namespace ScriptSession

/-- The analysis view after some number of commits. -/
structure AnalysisProject where
  id : Nat
  artifacts : ArtifactSet
  imports : Names
  /-- The modules loaded from the artifacts that serve analysis. -/
  modules : ModuleTable
  /-- The text that this project added. -/
  submission : String

namespace AnalysisProject

/-- The files of the artifacts that serve analysis. -/
def analysisPaths (artifacts : ArtifactSet) : List Path :=
  (artifacts.items.filter (·.role.servesAnalysis)).filterMap fun a => a.key.map Key.path

/-- Whether the table of a project knows every analysis file of some artifacts. -/
def knows (p : AnalysisProject) (artifacts : ArtifactSet) : Bool :=
  (analysisPaths artifacts).all p.modules.knowsPath

/-- Loads files into a table; those that are no modules or conflict are passed over. -/
def loadAll (files : FileTree) (table : ModuleTable) (paths : List Path) : ModuleTable :=
  paths.foldl (fun t p => match t.load files p with
    | .ok (_, t') => t'
    | .error _ => t) table

/-- The modules of a project on top of another: the same table where that knows every file. -/
def modulesAfter (files : FileTree) (previous : AnalysisProject) (artifacts : ArtifactSet) :
    ModuleTable :=
  if previous.knows artifacts then previous.modules
  else loadAll files previous.modules (analysisPaths artifacts)

end AnalysisProject

/-- Joins a text and a segment that follows it, on a line of its own. -/
def appendSegment (text segment : String) : String :=
  if segment = "" then text
  else if text = "" ∨ text.back? = some '\n' then text ++ segment
  else text ++ "\n" ++ segment

/-- A text as analysis sees it: in a project with the projects before it, the latest first. A
document that is not committed is a candidate that was only asked about. -/
structure Document where
  project : AnalysisProject
  earlier : List AnalysisProject
  text : String
  committed : Bool

namespace Document

/-- The projects of a document, the earliest first. -/
def chain (d : Document) : List AnalysisProject :=
  (d.project :: d.earlier).reverse

/-- The texts of all projects, joined. -/
def committedText (d : Document) : String :=
  (d.chain.map AnalysisProject.submission).foldl appendSegment ""

end Document

/-- The current document and the id of the next project. -/
structure Workspace where
  current : Document
  nextId : Nat

namespace Workspace

/-- An empty document in a project with the artifacts of the start. -/
def start (files : FileTree) (artifacts : ArtifactSet) (imports : Names) : Workspace :=
  let modules := AnalysisProject.loadAll files .empty (AnalysisProject.analysisPaths artifacts)
  ⟨⟨⟨0, artifacts, imports, modules, ""⟩, [], "", true⟩, 1⟩

/-- Adds a committed text, with the artifacts and imports of its time. -/
def commit (files : FileTree) (w : Workspace) (text : String) (artifacts : ArtifactSet)
    (imports : Names) : Workspace :=
  let previous := w.current.project
  let project : AnalysisProject :=
    ⟨w.nextId, artifacts, imports, previous.modulesAfter files artifacts, text⟩
  ⟨⟨project, previous :: w.current.earlier, appendSegment w.current.text text, true⟩, w.nextId + 1⟩

/-- A candidate text in the current project. -/
def withText (w : Workspace) (text : String) : Document :=
  { w.current with text, committed := false }

end Workspace
end ScriptSession
