/-!
Texts as programs see them: bytes. Each byte is kept as the character of the same number, so that
texts can be taken apart like any other list of characters.
-/
namespace ScriptSession

/-- A text with one character below 256 for every byte. -/
abbrev Octets := List Char

namespace Octets

def ofBytes (bytes : ByteArray) : Octets :=
  bytes.toList.map fun b => Char.ofNat b.toNat

def toBytes (cs : Octets) : ByteArray :=
  (cs.map fun c => c.toNat.toUInt8).toByteArray

def ofString (s : String) : Octets :=
  ofBytes s.toUTF8

/-- The text that the bytes spell, if they spell one. -/
def toString? (cs : Octets) : Option String :=
  String.fromUTF8? (toBytes cs)

/-- The text that the bytes spell; bytes that spell none are shown one by one. -/
def toText (cs : Octets) : String :=
  (toString? cs).getD (String.ofList cs)

def isBlank (c : Char) : Bool :=
  c = ' ' || c = '\t'

/-- Blanks, line breaks and the other characters that move the place of writing. -/
def isSpace (c : Char) : Bool :=
  c = ' ' || ('\t' ≤ c && c ≤ '\r')

def toLower (c : Char) : Char :=
  if 'A' ≤ c ∧ c ≤ 'Z' then Char.ofNat (c.toNat + 32) else c

def toUpper (c : Char) : Char :=
  if 'a' ≤ c ∧ c ≤ 'z' then Char.ofNat (c.toNat - 32) else c

/-- The characters that a class names. -/
def classRanges? (name : String) : Option (List (Char × Char)) :=
  match name with
  | "alpha" => some [('a', 'z'), ('A', 'Z')]
  | "digit" => some [('0', '9')]
  | "alnum" => some [('a', 'z'), ('A', 'Z'), ('0', '9')]
  | "upper" => some [('A', 'Z')]
  | "lower" => some [('a', 'z')]
  | "space" => some [('\t', '\r'), (' ', ' ')]
  | "blank" => some [('\t', '\t'), (' ', ' ')]
  | "punct" => some [('!', '/'), (':', '@'), ('[', '\x60'), ('\x7b', '~')]
  | "print" => some [(' ', '~')]
  | "graph" => some [('!', '~')]
  | "cntrl" => some [('\x00', '\x1f'), ('\x7f', '\x7f')]
  | "xdigit" => some [('0', '9'), ('a', 'f'), ('A', 'F')]
  | _ => none

/-- The value of a digit in a base up to sixteen. -/
def digit? (base : Nat) (c : Char) : Option Nat :=
  let n := if '0' ≤ c ∧ c ≤ '9' then c.toNat - '0'.toNat
    else if 'a' ≤ c ∧ c ≤ 'f' then c.toNat - 'a'.toNat + 10
    else if 'A' ≤ c ∧ c ≤ 'F' then c.toNat - 'A'.toNat + 10
    else 16
  if n < base then some n else none

/-- The number that at most `most` leading digits make, how many they are, and what follows. -/
def readNumber (base : Nat) : Nat → Nat → Nat → Octets → Nat × Nat × Octets
  | most + 1, value, count, c :: cs =>
    match digit? base c with
    | some d => readNumber base most (value * base + d) (count + 1) cs
    | none => (value, count, c :: cs)
  | _, value, count, cs => (value, count, cs)

/-- The text before and after the first place where `mark` stands. -/
def splitAt? (mark : Char) : Octets → Option (Octets × Octets)
  | [] => none
  | c :: cs =>
    if c = mark then some ([], cs)
    else (splitAt? mark cs).map fun (before, after) => (c :: before, after)

end Octets
end ScriptSession
