import ScriptSession.FileTree
/-!
Why something that was asked for could not be turned into artifacts.
-/
namespace ScriptSession

/-- Why a build gave no artifacts. -/
inductive BuildFailure
  | projectNotFound
  | noCommand
  | cannotStart (program : String) (cause : ReadError)
  | failed (detail : String)
  | missingArtifact (path : Path)
deriving DecidableEq, Repr

def BuildFailure.message : BuildFailure → String
  | projectNotFound => "project file not found"
  | noCommand => "no build command configured"
  | cannotStart program cause => s!"cannot start '{program}': {cause.message}"
  | failed detail => detail
  | missingArtifact path => s!"build reported missing artifact '{path.text}'"

inductive ResolutionError
  | frameworkNotFound (request : String) (tried : List Path)
  | invalidFrameworkRequest (text : String)
  | packageNotFound (name : String) (version : Option String) (feed : Option Path)
  | buildFailed (project : Path) (cause : BuildFailure)
  | assemblyNotFound (value : String)
  | unreadable (path : Path) (cause : ReadError)
deriving DecidableEq, Repr

namespace ResolutionError

/-- The places that were tried, one on a line. -/
def triedText (tried : List Path) : String :=
  if tried = [] then " (no candidate directories)"
  else String.join (tried.map fun p => s!"\n  {p.text}")

def message : ResolutionError → String
  | frameworkNotFound request tried =>
    s!"could not locate shared framework '{request}'; tried:{triedText tried}"
  | invalidFrameworkRequest text =>
    s!"invalid framework request '{text}': expected `Name` or `Name/Major.Minor.Patch`"
  | packageNotFound name version feed =>
    let versionText := match version with
      | some v => s!" version {v}"
      | none => ""
    let feedText := match feed with
      | some f => s!" from feed '{f.text}'"
      | none => " (no package feed configured)"
    s!"package '{name}'{versionText} could not be resolved{feedText}"
  | buildFailed project cause => s!"build of '{project.text}' failed: {cause.message}"
  | assemblyNotFound value => s!"assembly '{value}' could not be found"
  | unreadable path cause => s!"could not read '{path.text}': {cause.message}"

end ResolutionError

/-- Why a directive gave no artifacts. -/
inductive ResolveFailure
  | resolution (e : ResolutionError)
  | cancelled
deriving DecidableEq, Repr

def ResolveFailure.message : ResolveFailure → String
  | resolution e => e.message
  | cancelled => "reference resolution cancelled"

end ScriptSession
