import ScriptSession.Text.Blank
import ScriptSession.Text.Cut
import ScriptSession.Text.Decimal
/-!
Versions of frameworks and packages, such as `6.0.5` or `7.0.0-preview.3`. Numbers compare as
numbers, where missing ones count as zero, and a release comes after every prerelease with the
same numbers.
-/
namespace ScriptSession

/-- A version that was read: its numbers, of which there is at least one, what follows the dash of
a prerelease, and the text. -/
structure Version where
  major : Nat
  others : List Nat
  prerelease : Option String
  text : String
deriving DecidableEq, Repr

namespace Version

/-- Reads a list of 64-bit numbers with dots between them. -/
def readNumbers? (cs : List Char) : Option (List Nat) :=
  (cs.splitOn '.').mapM (Text.readNatural? UInt64.size)

/-- Reads `Major[.Minor[.Patch...]][-suffix]`, where a dash needs a suffix. -/
def parse? (s : String) : Option Version := do
  let cs := Text.trim s.toList
  let (core, prerelease) ← match Text.cutFirst '-' cs with
    | some (core, suffix) =>
      if suffix = [] then none else some (core, some (String.ofList suffix))
    | none => some (cs, none)
  match ← readNumbers? core with
  | major :: others => return ⟨major, others, prerelease, String.ofList cs⟩
  | [] => none

def numbers (v : Version) : List Nat :=
  v.major :: v.others

def minor? (v : Version) : Option Nat :=
  v.others.head?

def isPrerelease (v : Version) : Bool :=
  v.prerelease.isSome

/-- The numbers that a request is matched by. -/
def majorMinor (v : Version) : String :=
  match v.minor? with
  | some minor => s!"{v.major}.{minor}"
  | none => s!"{v.major}"

/-- Whether a version has the major number of a request, and its minor number if it names one. -/
def satisfies (v requested : Version) : Bool :=
  v.major = requested.major &&
    match requested.minor? with
    | some minor => v.minor? = some minor
    | none => true

/-- Compares lists of numbers as if the shorter one went on with zeros. -/
def comparePadded : List Nat → List Nat → Ordering
  | [], [] => .eq
  | a :: as, [] => (compare a 0).then (comparePadded as [])
  | [], b :: bs => (compare 0 b).then (comparePadded [] bs)
  | a :: as, b :: bs => (compare a b).then (comparePadded as bs)
termination_by as bs => as.length + bs.length

/-- A release comes after a prerelease; two prereleases compare by their suffixes. -/
def comparePrerelease : Option String → Option String → Ordering
  | none, none => .eq
  | none, some _ => .gt
  | some _, none => .lt
  | some a, some b => compare a b

instance : Ord Version where
  compare v w :=
    (comparePadded v.numbers w.numbers).then
      ((comparePrerelease v.prerelease w.prerelease).then (compare v.text w.text))

/-- The later of two versions. -/
def later (v w : Version) : Version :=
  if (compare v w).isGT then v else w

/-- The latest of some versions. -/
def latest? : List Version → Option Version
  | [] => none
  | v :: vs => some (vs.foldl later v)

/-- The latest version among names that are versions and satisfy the request, if there is one. -/
def select? (candidates : List String) (requested : Option Version) : Option Version :=
  latest? ((candidates.filterMap parse?).filter fun v => requested.all v.satisfies)

end Version
end ScriptSession
