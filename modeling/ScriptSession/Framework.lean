import ScriptSession.Artifact.Set
import ScriptSession.ResolutionError
import ScriptSession.Version
/-!
Shared frameworks: named and versioned bundles of execution modules and of the reference modules
that stand for them in analysis. A framework is asked for by `Name` or `Name/Major.Minor.Patch`.
-/
namespace ScriptSession

structure FrameworkRequest where
  name : String
  version : Option Version
deriving DecidableEq, Repr

namespace FrameworkRequest

/-- The name of the framework that every other one builds on. -/
def baseName : String := "Kiln.Core"

def base : FrameworkRequest := ⟨baseName, none⟩

def isBase (r : FrameworkRequest) : Bool :=
  Text.sameIgnoringCase r.name baseName

/-- Whether a text can name a framework or package. -/
def isName (cs : List Char) : Bool :=
  cs ≠ [] && !cs.any Text.isBlank

def parse (text : String) : Except ResolutionError FrameworkRequest := do
  let invalid := ResolutionError.invalidFrameworkRequest text
  let (name, version) ← match Text.cutFirst '/' (Text.trim text.toList) with
    | some (name, version) =>
      match Version.parse? (String.ofList version) with
      | some v => pure (Text.trim name, some v)
      | none => throw invalid
    | none => pure (Text.trim text.toList, none)
  if isName name then return ⟨String.ofList name, version⟩ else throw invalid

def display (r : FrameworkRequest) : String :=
  match r.version with
  | some v => s!"{r.name}/{v.text}"
  | none => r.name

end FrameworkRequest

/-- Where frameworks are looked for: install roots in order, then the package cache. -/
structure SearchPaths where
  installRoots : List Path
  packageCache : Option Path

/-- One framework that was found. A framework that builds on the base has depth one. -/
structure Layer where
  name : String
  version : Version
  referenceDir : Key
  executionDir : Key
  references : ArtifactSet
  executables : ArtifactSet
  depth : Nat

def Layer.display (l : Layer) : String :=
  s!"{l.name}/{l.version.text}"

end ScriptSession
