import ScriptSession.Artifact
/-!
Sets of artifacts in the order in which they were inserted. Of several artifacts with one key only
the first is kept; artifacts without a key are all kept.
-/
namespace ScriptSession

structure ArtifactSet where
  items : List Artifact
  /-- The keys of the items. -/
  keys : List Key

namespace ArtifactSet

def empty : ArtifactSet := ⟨[], []⟩

instance : Inhabited ArtifactSet := ⟨empty⟩

def contains (s : ArtifactSet) (k : Key) : Bool :=
  k ∈ s.keys

/-- Inserts an artifact and says whether it was new. -/
def insertNew (s : ArtifactSet) (a : Artifact) : Bool × ArtifactSet :=
  match a.key with
  | some k =>
    if s.contains k then (false, s) else (true, ⟨s.items ++ [a], s.keys ++ [k]⟩)
  | none => (true, { s with items := s.items ++ [a] })

/-- Inserts artifacts in order and counts those that were new. -/
def extendNew (s : ArtifactSet) (artifacts : List Artifact) : Nat × ArtifactSet :=
  artifacts.foldl (fun (n, s) a =>
    let (new, s') := s.insertNew a
    (n + new.toNat, s')) (0, s)

def insert (s : ArtifactSet) (a : Artifact) : ArtifactSet :=
  (s.insertNew a).2

def extend (s : ArtifactSet) (artifacts : List Artifact) : ArtifactSet :=
  (s.extendNew artifacts).2

def ofList (artifacts : List Artifact) : ArtifactSet :=
  empty.extend artifacts

/-- The items of `s` and then those of `t` that are new. -/
def union (s t : ArtifactSet) : ArtifactSet :=
  s.extend t.items

/-- Whether every key of `t` is a key of `s`. -/
def covers (s t : ArtifactSet) : Bool :=
  t.keys.all s.contains

def get? (s : ArtifactSet) (k : Key) : Option Artifact :=
  if s.contains k then s.items.find? (·.key = some k) else none

/-- The keys of the items, in the order of the items. -/
def paths (s : ArtifactSet) : List Key :=
  s.items.filterMap Artifact.key

def size (s : ArtifactSet) : Nat :=
  s.items.length

def isEmpty (s : ArtifactSet) : Bool :=
  s.items.isEmpty

end ArtifactSet
end ScriptSession
