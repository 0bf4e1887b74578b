import ScriptSession.Framework.Discovery
/-!
The artifacts of a session on their two sides. Execution wants implementation modules and analysis
wants reference modules; the service holds both sets and decides, once for every path, which
analysis artifact stands for an execution artifact. Every look at the disk while it decides is
counted as a probe.
-/
namespace ScriptSession

/-- What was decided for an execution artifact: the analysis artifact that stands for it, or that
it has none. -/
inductive Reconciled
  | analysis (a : Artifact)
  | dropped
deriving DecidableEq, Repr

def Reconciled.artifact? : Reconciled → Option Artifact
  | analysis a => some a
  | dropped => none

/-- A reference module of a framework layer. -/
structure IndexedReference where
  /-- The file name in lower case. -/
  fileName : String
  artifact : Artifact
  depth : Nat
  /-- The execution directory of the layer. -/
  declaringDir : Key
deriving DecidableEq, Repr

structure ReferenceService where
  frameworks : List (List Layer)
  referenceDirs : List Key
  executionOnlyDirs : List Key
  index : List IndexedReference
  cache : List (Key × Reconciled)
  execution : ArtifactSet
  analysis : ArtifactSet
  /-- The directories that hold recorded execution artifacts, in the order they were first seen. -/
  executionDirs : List Key
  probes : Nat

namespace ReferenceService

def empty : ReferenceService :=
  ⟨[], [], [], [], [], .empty, .empty, [], 0⟩

/-- The index entries of a layer. -/
def indexOf (layer : Layer) : List IndexedReference :=
  layer.references.items.filterMap fun a =>
    (a.key.bind Key.fileName?).map fun name =>
      ⟨Text.lower name, a, layer.depth, layer.executionDir⟩

/-- Adds a layer, unless its reference directory is known. -/
def register (s : ReferenceService) (layer : Layer) : ReferenceService :=
  if layer.referenceDir ∈ s.referenceDirs then s
  else { s with
    referenceDirs := s.referenceDirs ++ [layer.referenceDir]
    executionOnlyDirs := s.executionOnlyDirs ++ [layer.executionDir]
    executionDirs := s.executionDirs ++ [layer.executionDir]
    index := s.index ++ indexOf layer
    analysis := s.analysis.extend layer.references.items
    execution := s.execution.extend layer.executables.items }

/-- Finds a framework and adds its layers. -/
def loadFramework (files : FileTree) (request : FrameworkRequest) (paths : SearchPaths)
    (s : ReferenceService) : Except ResolutionError (List Layer × ReferenceService) := do
  let layers ← Framework.discover files request paths
  let s := layers.foldl register s
  return (layers, { s with frameworks := s.frameworks ++ [layers] })

/-- How well an indexed module stands for a path: one that the path's own framework declares is
best, and of those a deeper layer. -/
def IndexedReference.rank (k : Key) (r : IndexedReference) : Nat × Nat :=
  ((k.isUnder r.declaringDir).toNat, r.depth)

/-- Of two candidates the better one, and the later where they are equal. -/
def better (k : Key) (a b : IndexedReference) : IndexedReference :=
  let (x, y) := (IndexedReference.rank k a, IndexedReference.rank k b)
  if x.1 > y.1 ∨ (x.1 = y.1 ∧ x.2 > y.2) then a else b

def best? (k : Key) : List IndexedReference → Option IndexedReference
  | [] => none
  | c :: cs => some (cs.foldl (better k) c)

/-- The indexed modules with the expected file name and the identity of an execution module. -/
def candidates (s : ReferenceService) (k : Key) (identity : Identity) : List IndexedReference :=
  match ModuleFile.referenceName? k.path with
  | some name =>
    s.index.filter fun r => r.fileName = Text.lower name ∧ r.artifact.identity = some identity
  | none => []

/-- The reference module that stands for an execution module. -/
def promotion? (s : ReferenceService) (k : Key) (identity : Option Identity) : Option Artifact :=
  identity.bind fun i => (best? k (s.candidates k i)).map (·.artifact)

/-- Decides about an artifact that has a key; gives the number of probes that this took. -/
def classify (files : FileTree) (s : ReferenceService) (k : Key) (source : Artifact) :
    Reconciled × Nat :=
  if s.referenceDirs.any k.isUnder then (.analysis source, 0)
  else
    let (identity, probes) := match source.identity with
      | some i => (some i, 0)
      | none => (Identity.read? files k.path, 1)
    match s.promotion? k identity with
    | some reference => (.analysis reference, probes)
    | none =>
      if s.executionOnlyDirs.any k.isUnder then (.dropped, probes)
      else
        let (documentation, more) := match source.documentation with
          | some d => (some d, 0)
          | none => (ModuleFile.documentation? files k.path, 1)
        (.analysis { key := some k, role := .both, documentation, identity }, probes + more)

/-- What is decided about an artifact that has a key, from the cache where it was decided. -/
def reconcileKey (files : FileTree) (s : ReferenceService) (k : Key) (source : Artifact) :
    Reconciled × ReferenceService :=
  match s.cache.lookup k with
  | some outcome => (outcome, s)
  | none =>
    let (outcome, probes) := s.classify files k source
    (outcome, { s with
      probes := s.probes + probes
      cache := s.cache ++ [(k, outcome)]
      analysis := s.analysis.extend outcome.artifact?.toList })

/-- The analysis artifact of one artifact; an artifact without a key stands for itself. -/
def reconcileOne (files : FileTree) (s : ReferenceService) (a : Artifact) :
    Option Artifact × ReferenceService :=
  match a.key with
  | none => (some a, s)
  | some k =>
    let (outcome, s') := s.reconcileKey files k a
    (outcome.artifact?, s')

/-- The analysis artifacts of some artifacts, in order. -/
def reconcile (files : FileTree) (s : ReferenceService) (artifacts : List Artifact) :
    ArtifactSet × ReferenceService :=
  artifacts.foldl (fun (result, s) a =>
    let (outcome, s') := s.reconcileOne files a
    (result.extend outcome.toList, s')) (.empty, s)

/-- Records one artifact that was executed and says whether it was new. -/
def recordOne (s : ReferenceService) (a : Artifact) : Bool × ReferenceService :=
  let dirs := match a.key.bind Key.parent? with
    | some dir => if dir ∈ s.executionDirs then s.executionDirs else s.executionDirs ++ [dir]
    | none => s.executionDirs
  let (new, execution) := s.execution.insertNew a
  (new, { s with executionDirs := dirs, execution })

/-- Records artifacts that were executed and counts those that were new. -/
def record (s : ReferenceService) (artifacts : List Artifact) : Nat × ReferenceService :=
  artifacts.foldl (fun (n, s) a =>
    let (new, s') := s.recordOne a
    (n + new.toNat, s')) (0, s)

/-- Whether a recorded artifact goes by a short name, either by identity or by file name. -/
def goesBy (stem : String) (a : Artifact) : Bool :=
  a.identity.any (Text.sameIgnoringCase ·.name stem) ||
    (a.key.bind Key.fileName?).any (Text.sameIgnoringCase · s!"{stem}.{ModuleFile.extension}")

/-- Looks for a module file of a short name in directories; gives the number of probes. -/
def searchDirs (files : FileTree) (stem : String) : List Key → Option Artifact × Nat
  | [] => (none, 0)
  | dir :: rest =>
    let candidate := dir.path / s!"{stem}.{ModuleFile.extension}"
    match Identity.read? files candidate with
    | some i => (some { Artifact.ofFile candidate .executionOnly with identity := some i }, 1)
    | none =>
      let (found, probes) := searchDirs files stem rest
      (found, probes + 1)

/-- Finds an execution module by a short name such as `CoreLib` or `CoreLib.dll`: among the
recorded artifacts, and then in the directories that hold them. -/
def findExecution (files : FileTree) (s : ReferenceService) (shortName : String) :
    Option Artifact × ReferenceService :=
  let stem := match Text.beforeTail s!".{ModuleFile.extension}".toList shortName.toList with
    | some cs => String.ofList cs
    | none => shortName
  match s.execution.items.find? (goesBy stem) with
  | some known => (some known, s)
  | none =>
    let (found, probes) := searchDirs files stem s.executionDirs
    (found, { s with probes := s.probes + probes })

end ReferenceService
end ScriptSession
