import ScriptSession.Text.Cut
/-!
Paths as they are written. A path keeps its text; what it is compared by are its components, where
repeated separators, a trailing separator and inner dots leave no trace and a leading dot does.
-/
namespace ScriptSession

/-- One step of a path. -/
inductive Component
  | root
  | here
  | up
  | name (s : String)
deriving DecidableEq, Repr

namespace Component

/-- The root comes first, then a leading dot, then a step up, then names. -/
def rank : Component → Nat
  | root => 0
  | here => 1
  | up => 2
  | name _ => 3

def label : Component → String
  | name s => s
  | _ => ""

instance : Ord Component where
  compare := compareLex (compareOn rank) (compareOn label)

end Component

/-- A path, kept as its text. -/
structure Path where
  text : String
deriving DecidableEq, Repr, Inhabited

namespace Path

/-- The components between separators, each with the index of the character after it. -/
def partMarks (pos : Nat) : List (List Char) → List (Component × Nat)
  | [] => []
  | part :: rest =>
    let stop := pos + part.length
    if part = [] ∨ part = ['.'] then partMarks (stop + 1) rest
    else if part = ['.', '.'] then (.up, stop) :: partMarks (stop + 1) rest
    else (.name (String.ofList part), stop) :: partMarks (stop + 1) rest

/-- The component that only the front of a path can show. -/
def leadMark : List Char → List (Component × Nat)
  | '/' :: _ => [(.root, 1)]
  | ['.'] => [(.here, 1)]
  | '.' :: '/' :: _ => [(.here, 1)]
  | _ => []

/-- The components of a path with the index of the character after each. -/
def marks (p : Path) : List (Component × Nat) :=
  leadMark p.text.toList ++ partMarks 0 (p.text.toList.splitOn '/')

def components (p : Path) : List Component :=
  p.marks.map (·.1)

/-- Paths are the same if their components are. -/
def same (p q : Path) : Bool :=
  p.components = q.components

/-- The order of paths, component by component. -/
def le (p q : Path) : Bool :=
  (compare p.components q.components).isLE

def isAbsolute (p : Path) : Bool :=
  p.text.toList.head? = some '/'

/-- The path `q` as seen from the directory `p`. -/
def join (p q : Path) : Path :=
  if q.isAbsolute then q
  else if p.text = "" ∨ p.text.toList.getLast? = some '/' then ⟨p.text ++ q.text⟩
  else ⟨p.text ++ "/" ++ q.text⟩

instance : HDiv Path String Path where
  hDiv p s := p.join ⟨s⟩

/-- The text up to the last component but one; the root and the empty path have no parent. -/
def parent? (p : Path) : Option Path :=
  match p.marks.reverse with
  | [] => none
  | [(.root, _)] => none
  | [_] => some ⟨""⟩
  | _ :: (_, stop) :: _ => some ⟨String.ofList (p.text.toList.take stop)⟩

/-- The last component, if it is a name. -/
def fileName? (p : Path) : Option String :=
  match p.components.getLast? with
  | some (.name s) => some s
  | _ => none

/-- A file name cut at its last dot; a dot at the front cuts nothing. -/
def splitName (name : String) : String × Option String :=
  match Text.cutLast '.' name.toList with
  | some (c :: stem, ext) => (String.ofList (c :: stem), some (String.ofList ext))
  | _ => (name, none)

def extension? (p : Path) : Option String :=
  p.fileName?.bind fun name => (splitName name).2

/-- The path with as many characters cut off its end as its extension has. -/
def cutExtension (p : Path) : Path :=
  match p.extension? with
  | some ext => ⟨String.ofList (p.text.toList.take (p.text.length - ext.length))⟩
  | none => p

/-- The path with `ext` in the place of what follows the stem of its file name. -/
def setExtension (p : Path) (ext : String) : Path :=
  match p.marks.getLast? with
  | some (.name s, stop) =>
    let kept := stop - s.length + (splitName s).1.length
    ⟨String.ofList (p.text.toList.take kept) ++ "." ++ ext⟩
  | _ => p

/-- The path with the extension of its file name replaced, or added where there is none. What the
old extension leaves may be a step up, as of `..a`, and that takes no extension. -/
def withExtension (p : Path) (ext : String) : Path :=
  p.cutExtension.setExtension ext

end Path
end ScriptSession
