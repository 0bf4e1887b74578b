import ScriptSession.Path
/-!
A tree of files as a value. Paths are followed step by step from the root or the current directory:
every step but the last has to lead through a directory that exists, so `x/../y` needs `x`.
-/
namespace ScriptSession

/-- What a place in a tree holds. -/
inductive Node
  | dir
  | file (bytes : ByteArray)

/-- Why a path could not be read, or a program at it not started. -/
inductive ReadError
  | notFound | notADirectory | isADirectory | notPermitted | notText
deriving DecidableEq, Repr

def ReadError.message : ReadError → String
  | notFound => "No such file or directory (os error 2)"
  | notADirectory => "Not a directory (os error 20)"
  | isADirectory => "Is a directory (os error 21)"
  | notPermitted => "Permission denied (os error 13)"
  | notText => "stream did not contain valid UTF-8"

/-- The names from the root down to a place. -/
abbrev Location := List String

/-- The places of a tree below its root, in the order in which directories list them, and the
current directory. -/
structure FileTree where
  cwd : Location
  entries : List (Location × Node)

namespace FileTree

def node? (t : FileTree) (loc : Location) : Option Node :=
  if loc = [] then some .dir else t.entries.lookup loc

def isDirAt (t : FileTree) (loc : Location) : Bool :=
  match t.node? loc with
  | some .dir => true
  | _ => false

/-- Follows one step of a path from a place that exists. -/
def follow (t : FileTree) (loc : Location) (part : String) : Except ReadError Location :=
  if t.isDirAt loc then
    if part = "" ∨ part = "." then .ok loc
    else if part = ".." then .ok loc.dropLast
    else if (t.node? (loc ++ [part])).isSome then .ok (loc ++ [part])
    else .error .notFound
  else .error .notADirectory

/-- The place that a path leads to. -/
def locate (t : FileTree) (p : Path) : Except ReadError Location :=
  if p.text = "" then .error .notFound
  else ((p.text.toList.splitOn '/').map String.ofList).foldlM t.follow
    (if p.isAbsolute then [] else t.cwd)

def find (t : FileTree) (p : Path) : Except ReadError Node := do
  let loc ← t.locate p
  match t.node? loc with
  | some n => return n
  | none => throw .notFound

def isFile (t : FileTree) (p : Path) : Bool :=
  match t.find p with
  | .ok (.file _) => true
  | _ => false

def isDir (t : FileTree) (p : Path) : Bool :=
  match t.find p with
  | .ok .dir => true
  | _ => false

def readBytes (t : FileTree) (p : Path) : Except ReadError ByteArray := do
  match ← t.find p with
  | .dir => throw .isADirectory
  | .file bytes => return bytes

/-- The text of a file, which has to be UTF-8. -/
def readText (t : FileTree) (p : Path) : Except ReadError String := do
  let bytes ← t.readBytes p
  match String.fromUTF8? bytes with
  | some text => return text
  | none => throw .notText

/-- The first line of a file without its line feed; what follows need not be text. -/
def readFirstLine (t : FileTree) (p : Path) : Except ReadError String := do
  let bytes ← t.readBytes p
  match String.fromUTF8? (bytes.toList.takeWhile (· ≠ 10)).toByteArray with
  | some line => return line
  | none => throw .notText

/-- The names and nodes directly inside a place, in listing order. -/
def childrenAt (t : FileTree) (loc : Location) : List (String × Node) :=
  t.entries.filterMap fun (place, n) =>
    match place.getLast? with
    | some name => if place.dropLast = loc then some (name, n) else none
    | none => none

/-- The names and nodes directly inside a directory. -/
def list (t : FileTree) (p : Path) : Except ReadError (List (String × Node)) := do
  let loc ← t.locate p
  if t.isDirAt loc then return t.childrenAt loc else throw .notADirectory

/-- The names of the directories directly inside a directory. -/
def listDirs (t : FileTree) (p : Path) : Except ReadError (List String) := do
  let children ← t.list p
  return children.filterMap fun
    | (name, .dir) => some name
    | _ => none

/-- Every text that some file of the tree holds. -/
def texts (t : FileTree) : List String :=
  t.entries.filterMap fun
    | (_, .file bytes) => String.fromUTF8? bytes
    | _ => none

/-- A text that was read is the text of some file. -/
theorem mem_texts_of_readText {t : FileTree} {p : Path} {text : String}
    (h : t.readText p = .ok text) : text ∈ t.texts := by
  simp only [readText, readBytes, find, bind, Except.bind] at h
  split at h
  next => cases h
  next bytes hb =>
    split at hb
    next => cases hb
    next node hn =>
      split at hn
      next => cases hn
      next loc _ =>
        cases hl : t.node? loc with
        | none => simp [hl, throw, throwThe, MonadExceptOf.throw] at hn
        | some n =>
          simp only [hl, pure, Except.pure, Except.ok.injEq] at hn
          subst hn
          cases n with
          | dir => simp [throw, throwThe, MonadExceptOf.throw] at hb
          | file b =>
            simp only [pure, Except.pure, Except.ok.injEq] at hb
            subst hb
            have hm : (loc, Node.file b) ∈ t.entries := by
              unfold node? at hl
              split at hl
              · cases hl
              · obtain ⟨l₁, l₂, he, -⟩ := List.lookup_eq_some_iff.1 hl
                simp [he]
            cases hu : String.fromUTF8? b with
            | none => simp [hu, throw, throwThe, MonadExceptOf.throw] at h
            | some u =>
              simp only [hu, pure, Except.pure, Except.ok.injEq] at h
              subst h
              exact List.mem_filterMap.2 ⟨_, hm, hu⟩

/-- The directories above a place and the place itself, from the top down. -/
def ancestry (loc : Location) : List Location :=
  (List.range loc.length).map fun n => loc.take (n + 1)

/-- Puts a node at a place, in the stead of what was there, with directories down to it. -/
def put (t : FileTree) (loc : Location) (n : Node) : FileTree :=
  let missing := (ancestry loc.dropLast).filter fun d => (t.node? d).isNone
  let kept := t.entries.filter fun (place, _) => place ≠ loc
  { t with entries := kept ++ missing.map (·, .dir) ++ [(loc, n)] }

/-- The place of a file that a path names for writing. The directories above have to exist, and the
path may not lead to a directory. -/
def locateNew (t : FileTree) (p : Path) : Except ReadError Location := do
  if p.text = "" then throw .notFound
  let parts := (p.text.toList.splitOn '/').map String.ofList
  let above ← parts.dropLast.foldlM t.follow (if p.isAbsolute then [] else t.cwd)
  if !t.isDirAt above then throw .notADirectory
  let name := (parts.getLast?).getD ""
  if name = "" ∨ name = "." ∨ name = ".." ∨ t.isDirAt (above ++ [name]) then throw .isADirectory
  return above ++ [name]

/-- Gives a place that holds a file new content, and adds the file if there is none. -/
def store (t : FileTree) (loc : Location) (bytes : ByteArray) : FileTree :=
  if (t.node? loc).isSome then
    { t with entries := t.entries.map fun (l, n) => (l, if l = loc then .file bytes else n) }
  else { t with entries := t.entries ++ [(loc, .file bytes)] }

/-- A tree with nothing in it but the way down to the current directory. -/
def ofCwd (cwd : Location) : FileTree :=
  ⟨cwd, (ancestry cwd).map (·, .dir)⟩

/-- The place that a path names from the current directory, whether or not it exists. -/
def placeOf (t : FileTree) (p : Path) : Location :=
  p.components.foldl (fun loc c => match c with
    | .root => []
    | .here => loc
    | .up => loc.dropLast
    | .name s => loc ++ [s]) t.cwd

/-- Makes a directory with the directories above it. -/
def makeDir (t : FileTree) (p : Path) : FileTree :=
  let missing := (ancestry (t.placeOf p)).filter fun d => (t.node? d).isNone
  { t with entries := t.entries ++ missing.map (·, .dir) }

/-- Writes a file with the directories above it. -/
def writeFile (t : FileTree) (p : Path) (bytes : ByteArray) : FileTree :=
  t.put (t.placeOf p) (.file bytes)

/-- Removes a place with everything below it. -/
def remove (t : FileTree) (p : Path) : FileTree :=
  { t with entries := t.entries.filter fun (place, _) => !(t.placeOf p).isPrefixOf place }

end FileTree
end ScriptSession
