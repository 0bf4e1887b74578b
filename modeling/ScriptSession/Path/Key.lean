import ScriptSession.Path
/-!
Normal forms of paths. The key of a path drops its dots and lets every step up take back the name
before it, without looking at any disk; a step up with no name before it is dropped too.
-/
namespace ScriptSession

/-- A path without dots and steps up. -/
structure Key where
  rooted : Bool
  names : List String
deriving DecidableEq, Repr

namespace Key

/-- The key of the empty path. -/
def empty : Key := ⟨false, []⟩

def step (k : Key) : Component → Key
  | .root => ⟨true, []⟩
  | .here => k
  | .up => { k with names := k.names.dropLast }
  | .name s => { k with names := k.names ++ [s] }

def ofPath (p : Path) : Key :=
  p.components.foldl step empty

def display (k : Key) : String :=
  (if k.rooted then "/" else "") ++ "/".intercalate k.names

/-- The path that a key is read through. -/
def path (k : Key) : Path := ⟨k.display⟩

def components (k : Key) : List Component :=
  (if k.rooted then [.root] else []) ++ k.names.map .name

/-- Whether a key lies at or below a directory. -/
def isUnder (k dir : Key) : Bool :=
  dir.components.isPrefixOf k.components

def parent? (k : Key) : Option Key :=
  if k.names = [] then none else some { k with names := k.names.dropLast }

def fileName? (k : Key) : Option String :=
  k.names.getLast?

end Key
end ScriptSession
