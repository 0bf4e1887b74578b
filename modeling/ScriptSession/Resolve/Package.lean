import ScriptSession.Framework.Discovery
import ScriptSession.Text.Lines
/-!
Packages in a local feed.

    <feed>/<name in lower case>/<version>/lib/*.dll
    <feed>/<name in lower case>/<version>/package.deps     one `Name[, version]` on a line

A package is resolved with everything it depends on, depth first, and every name once. The names
that can come up are those that some file of the tree mentions, so there is an end to them.
-/
namespace ScriptSession

/-- A package name with an exact version, if one is asked for. -/
structure PackageSpec where
  name : String
  version : Option String
deriving DecidableEq, Repr

namespace PackageSpec

/-- Names that differ in letter case only mean one package. -/
def id (s : PackageSpec) : String :=
  Text.lower s.name

/-- Reads `Name` or `Name, version`. -/
def parse? (cs : List Char) : Option PackageSpec :=
  let (name, version) := match Text.cutFirst ',' cs with
    | some (name, version) => (Text.trim name, Text.trim version)
    | none => (Text.trim cs, [])
  if FrameworkRequest.isName name then
    some ⟨String.ofList name, if version = [] then none else some (String.ofList version)⟩
  else none

/-- The packages that a dependency file lists; a line that starts with `#` is a comment. -/
def parseAll (text : String) : List PackageSpec :=
  (((Text.lines text.toList).map Text.trim).filter fun line =>
    line ≠ [] && line.head? ≠ some '#').filterMap parse?

end PackageSpec

namespace Package

/-- The name of the dependency file. -/
def dependencyFile : String := "package.deps"

def notFound (feed : Option Path) (spec : PackageSpec) : ResolutionError :=
  .packageNotFound spec.name spec.version feed

/-- The version directory of a package: the one asked for, or else the latest. -/
def pickVersion (files : FileTree) (feed dir : Path) (spec : PackageSpec) :
    Except ResolutionError String :=
  match spec.version with
  | some v => if files.isDir (dir / v) then .ok v else .error (notFound feed spec)
  | none =>
    match files.listDirs dir with
    | .error _ => .error (notFound feed spec)
    | .ok names =>
      match Version.select? names none with
      | some v => .ok v.text
      | none => .error (notFound feed spec)

/-- The packages that a version directory depends on. -/
def dependencies (files : FileTree) (versionDir : Path) :
    Except ResolutionError (List PackageSpec) :=
  if files.isFile (versionDir / dependencyFile) then
    match files.readText (versionDir / dependencyFile) with
    | .ok text => .ok (PackageSpec.parseAll text)
    | .error cause => .error (.unreadable (versionDir / dependencyFile) cause)
  else .ok []

/-- The modules of a version directory. -/
def modules (files : FileTree) (versionDir : Path) : Except ResolutionError (List Artifact) :=
  let lib := versionDir / "lib"
  if files.isDir lib then (Framework.modulesIn files lib .executionOnly).map (·.items) else .ok []

/-- The ids of the packages that any file of a tree could list. -/
def mentioned (files : FileTree) : List String :=
  (files.texts.flatMap PackageSpec.parseAll).map PackageSpec.id

theorem mem_texts_of_dependencies {files : FileTree} {dir : Path} {deps : List PackageSpec}
    (h : dependencies files dir = .ok deps) {s : PackageSpec} (hs : s ∈ deps) :
    s ∈ files.texts.flatMap PackageSpec.parseAll := by
  unfold dependencies at h
  split at h
  · split at h
    next text ht =>
      cases h
      exact List.mem_flatMap.2 ⟨text, FileTree.mem_texts_of_readText ht, hs⟩
    next => cases h
  · cases h
    simp at hs

theorem mem_mentioned_of_dependencies {files : FileTree} {dir : Path} {deps : List PackageSpec}
    (h : dependencies files dir = .ok deps) {s : PackageSpec} (hs : s ∈ deps) :
    s.id ∈ mentioned files :=
  List.mem_map_of_mem (mem_texts_of_dependencies h hs)

/-- How many of some names were not seen. -/
def unseen (names seen : List String) : Nat :=
  names.countP (· ∉ seen)

theorem unseen_cons_le (names seen : List String) (name : String) :
    unseen names (name :: seen) ≤ unseen names seen :=
  List.countP_mono_left fun _ _ h => by simp_all

theorem unseen_cons_lt {names seen : List String} {name : String} (h : name ∈ names)
    (hs : name ∉ seen) : unseen names (name :: seen) < unseen names seen := by
  obtain ⟨l, r, rfl⟩ := List.append_of_mem h
  have hl := unseen_cons_le l seen name
  have hr := unseen_cons_le r seen name
  simp only [unseen] at hl hr ⊢
  simp [List.countP_append, hs] at hl hr ⊢
  omega

/-- Visits packages in order, each followed by what it depends on, and collects their modules. A
package whose id was seen is passed over. -/
def visit (files : FileTree) (feed : Path) (names : List String)
    (closed : ∀ n ∈ mentioned files, n ∈ names) (seen : List String) (found : List Artifact) :
    List { s : PackageSpec // s.id ∈ names } → Except ResolutionError (List Artifact)
  | [] => .ok found
  | ⟨spec, _⟩ :: rest =>
    if spec.id ∈ seen then visit files feed names closed seen found rest
    else
      let dir := feed / spec.id
      match pickVersion files feed dir spec with
      | .error e => .error e
      | .ok version =>
        match modules files (dir / version) with
        | .error e => .error e
        | .ok here =>
          match hd : dependencies files (dir / version) with
          | .error e => .error e
          | .ok deps =>
            let next := deps.attach.map fun ⟨d, hm⟩ =>
              ⟨d, closed _ (mem_mentioned_of_dependencies hd hm)⟩
            visit files feed names closed (spec.id :: seen) (found ++ here) (next ++ rest)
termination_by pending => (unseen names seen, pending.length)
decreasing_by
  · exact Prod.Lex.right _ (by simp)
  · exact Prod.Lex.left _ _ (unseen_cons_lt ‹_› ‹_›)

/-- The modules of a package and of everything it depends on. -/
def resolve (files : FileTree) (feed : Path) (spec : PackageSpec) :
    Except ResolutionError (List Artifact) :=
  visit files feed (spec.id :: mentioned files) (fun _ h => List.mem_cons_of_mem _ h) [] []
    [⟨spec, List.mem_cons_self⟩]

end Package
end ScriptSession
