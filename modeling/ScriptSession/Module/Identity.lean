import ScriptSession.FileTree
import ScriptSession.Text.Ascii
import ScriptSession.Text.Blank
import ScriptSession.Text.Decimal
/-!
Module identities. A module file opens with a header line such as `kmod CoreLib, Version=6.0.0.0`;
the name and version in it identify the module, whatever file it stands in.
-/
namespace ScriptSession

structure Identity where
  name : String
  version : String
deriving DecidableEq, Repr

namespace Identity

/-- The word that a header line starts with. -/
def keyword : String := "kmod"

/-- A version is a list of 32-bit numbers with dots between them. -/
def isVersion (cs : List Char) : Bool :=
  (cs.splitOn '.').all fun part => (Text.readNatural? UInt32.size part).isSome

/-- Reads an identity, with or without the keyword in front. -/
def parse? (line : List Char) : Option Identity := do
  let line := Text.trim line
  let body := match Text.afterLead keyword.toList line with
    | some rest => Text.trimStart rest
    | none => line
  let (name, rest) ← Text.cutFirst ',' body
  let name := Text.trim name
  guard (name ≠ [] ∧ ¬ name.any Text.isBlank)
  let version := Text.trim (← Text.afterLead "Version=".toList (Text.trim rest))
  guard (isVersion version)
  return ⟨String.ofList name, String.ofList version⟩

/-- Reads an identity from a line that has to start with the keyword. -/
def ofHeader? (line : List Char) : Option Identity :=
  if keyword.toList.isPrefixOf (Text.trimStart line) then parse? line else none

def display (i : Identity) : String :=
  s!"{i.name}, Version={i.version}"

/-- The line that a module file with this identity starts with. -/
def headerLine (i : Identity) : String :=
  s!"{keyword} {i.display}"

/-- The identity in the first line of a file; files without one are no modules. -/
def read? (files : FileTree) (p : Path) : Option Identity :=
  match files.readFirstLine p with
  | .ok line => ofHeader? line.toList
  | .error _ => none

end Identity

namespace ModuleFile

/-- The file extension of modules. -/
def extension : String := "dll"

/-- The extension of the documentation that stands beside a module. -/
def documentationExtension : String := "xml"

def hasExtension (p : Path) : Bool :=
  p.extension?.any (Text.sameIgnoringCase · extension)

/-- The documentation beside a module, if there is any. -/
def documentation? (files : FileTree) (p : Path) : Option Path :=
  let doc := p.withExtension documentationExtension
  if files.isFile doc then some doc else none

/-- The file name that the reference module for an execution module has: native images carry an
infix `.ni` that their reference modules do not. -/
def referenceName? (p : Path) : Option String :=
  p.fileName?.map fun name =>
    let native := s!".ni.{extension}"
    if native.toList.isSuffixOf (Text.lower name).toList then
      String.ofList (name.toList.take (name.length - native.length)) ++ "." ++ extension
    else name

end ModuleFile
end ScriptSession
