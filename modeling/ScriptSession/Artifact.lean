import ScriptSession.Module.Identity
import ScriptSession.Path.Key
/-!
Artifacts: the module files that a session refers to. What makes two artifacts the same is the key
of their path, whatever role, identity or documentation they carry.
-/
namespace ScriptSession

/-- The side that an artifact serves. -/
inductive Role
  | executionOnly
  | analysisOnly
  | both
deriving DecidableEq, Repr

namespace Role

def servesAnalysis : Role → Bool
  | analysisOnly | both => true
  | executionOnly => false

def servesExecution : Role → Bool
  | executionOnly | both => true
  | analysisOnly => false

end Role

/-- A module file, or a module without any file where there is no key. -/
structure Artifact where
  key : Option Key
  role : Role
  documentation : Option Path := none
  identity : Option Identity := none
deriving DecidableEq, Repr

namespace Artifact

def ofFile (p : Path) (role : Role) : Artifact :=
  { key := some (Key.ofPath p), role }

/-- An artifact of a file with the identity that the file holds. -/
def read (files : FileTree) (p : Path) (role : Role) : Artifact :=
  { ofFile p role with identity := Identity.read? files p }

def display (a : Artifact) : String :=
  match a.key with
  | some k => k.display
  | none => "<anonymous>"

/-- Artifacts are the same if they have the same key; one without a key equals none. -/
def same (a b : Artifact) : Bool :=
  match a.key, b.key with
  | some k, some l => k = l
  | _, _ => false

end Artifact
end ScriptSession
