import ScriptSession.Host.Octets
/-!
Sets of characters below 256, one bit for each.
-/
namespace ScriptSession

structure CharSet where
  bits : Nat
deriving DecidableEq, Repr

namespace CharSet

def empty : CharSet := ⟨0⟩

/-- Every character below 256. -/
def full : CharSet := ⟨(1 <<< 256) - 1⟩

def contains (s : CharSet) (c : Char) : Bool :=
  s.bits.testBit c.toNat

def single (c : Char) : CharSet := ⟨1 <<< c.toNat⟩

def union (s t : CharSet) : CharSet := ⟨s.bits ||| t.bits⟩

def complement (s : CharSet) : CharSet := ⟨full.bits ^^^ s.bits⟩

def erase (s : CharSet) (c : Char) : CharSet :=
  if s.contains c then ⟨s.bits ^^^ (single c).bits⟩ else s

/-- The characters from `lo` up to `hi`. -/
def range (lo hi : Char) : CharSet :=
  ⟨(1 <<< (hi.toNat + 1)) - 1 - ((1 <<< lo.toNat) - 1)⟩

def ofRanges (ranges : List (Char × Char)) : CharSet :=
  ranges.foldl (fun s (lo, hi) => s.union (range lo hi)) empty

/-- The set together with the other cases of its letters. -/
def withBothCases (s : CharSet) : CharSet :=
  ⟨(List.range 26).foldl (fun bits k =>
    let upper := 'A'.toNat + k
    let lower := 'a'.toNat + k
    if s.bits.testBit upper || s.bits.testBit lower then
      bits ||| (1 <<< upper) ||| (1 <<< lower)
    else bits) s.bits⟩

/-- The characters that words are made of. -/
def word : CharSet :=
  ofRanges [('a', 'z'), ('A', 'Z'), ('0', '9'), ('_', '_')]

def space : CharSet :=
  ofRanges [('\t', '\r'), (' ', ' ')]

end CharSet
end ScriptSession
