import ScriptSession.Host.Regex.CharSet
import ScriptSession.Host.Regex.Fault
/-!
Brackets: sets of characters given by members, ranges and the names of classes.
-/
namespace ScriptSession.Regex

/-- A member of a bracket. -/
inductive Member
  | char (c : Char)
  /-- A name between dots, which has to be that of a single character. -/
  | symbol (name : Octets)
  /-- A name between equals signs, which has to be that of a single character. -/
  | likeness (name : Octets)
  | className (name : Octets)

/-- Members of a bracket that belong together. -/
structure Entry where
  ranges : List (Char × Char)
  /-- Whether they are written as a class, whose letters stand for themselves in any case. -/
  isClass : Bool := false
  /-- Whether they are written as plain characters and classes. -/
  isPlain : Bool := true

/-- How long a name in a bracket may be. -/
def longestName : Nat := 32

/-- The name up to a mark that is followed by a closing bracket; it may be `most` characters long.
Something has to follow the bracket's name. -/
def named? (mark : Char) : Nat → Octets → Option (Octets × Octets)
  | 0, _ => none
  | most + 1, c :: d :: rest =>
    if c = mark ∧ d = ']' then some ([], rest)
    else (named? mark most (d :: rest)).map fun (name, rest) => (c :: name, rest)
  | _, _ => none

/-- The next member of a bracket. -/
def member (cs : Octets) : Except Fault (Member × Octets) :=
  let named (mark : Char) (make : Octets → Member) (rest : Octets) :=
    match named? mark longestName rest with
    | none => .error .openBracket
    | some (name, rest) => .ok (make name, rest)
  match cs with
  | [] => .error .openBracket
  | '[' :: ':' :: rest => named ':' .className rest
  | '[' :: '.' :: rest => named '.' .symbol rest
  | '[' :: '=' :: rest => named '=' .likeness rest
  | c :: rest => .ok (.char c, rest)

/-- A member on its own. -/
def Member.entry (ignoreCase : Bool) : Member → Except Fault Entry
  | char c => .ok ⟨[(c, c)], false, true⟩
  | symbol [c] => .ok ⟨[(c, c)], false, false⟩
  | likeness [c] => .ok ⟨[(c, c)], false, false⟩
  | symbol _ => .error .collation
  | likeness _ => .error .collation
  | className name =>
    let name := String.ofList name
    let name := if ignoreCase && (name = "upper" || name = "lower") then "alpha" else name
    match Octets.classRanges? name with
    | some ranges => .ok ⟨ranges, true, true⟩
    | none => .error .className

/-- The range between two members. -/
def Member.range (ignoreCase : Bool) (start stop : Member) : Except Fault Entry := do
  let char? : Member → Except Fault (Option (Char × Bool))
    | char c => .ok (some (c, true))
    | symbol [c] => .ok (some (c, false))
    | symbol _ => .ok none
    | _ => .error .rangeEnd
  match ← char? start, ← char? stop with
  | some (lo, plain), some (hi, alsoPlain) =>
    let folded (c : Char) : Char := if ignoreCase then Octets.toUpper c else c
    if folded hi < folded lo then throw .rangeEnd
    return ⟨[(lo, hi)], false, plain && alsoPlain⟩
  | _, _ => throw .collation

/-- A member of a bracket or a range that starts with it. A minus before the closing bracket makes
no range, and neither a class nor a likeness starts one. -/
def entryFrom (ignoreCase : Bool) (start : Member) (cs : Octets) :
    Except Fault (Entry × Octets) := do
  if start matches .className _ | .likeness _ then return (← start.entry ignoreCase, cs)
  match cs with
  | [] => throw .openBracket
  | ['-'] => throw .openBracket
  | '-' :: ']' :: _ => return (← start.entry ignoreCase, cs)
  | '-' :: rest => do
    let (stop, rest) ← member rest
    return (← start.range ignoreCase stop, rest)
  | _ => return (← start.entry ignoreCase, cs)

/-- The next entry of a bracket. Only the first may start with a closing bracket, and a minus has
to be first or last. -/
def entry (ignoreCase first : Bool) (cs : Octets) : Except Fault (Entry × Octets) := do
  match cs with
  | '-' :: rest =>
    if first || rest.head? = some ']' then entryFrom ignoreCase (.char '-') rest
    else throw .rangeEnd
  | _ =>
    let (m, rest) ← member cs
    entryFrom ignoreCase m rest

/-- Reads the entries of a bracket up to its end. `fuel` is more than the length of the text. -/
def readEntries (ignoreCase : Bool) :
    Nat → Bool → List Entry → Octets → Except Fault (List Entry × Octets)
  | 0, _, _, _ => .error .openBracket
  | fuel + 1, first, found, cs =>
    match first, cs with
    | false, ']' :: rest => .ok (found, rest)
    | _, _ => do
      let (e, rest) ← entry ignoreCase first cs
      readEntries ignoreCase fuel false (e :: found) rest

/-- What stands in a bracket. -/
structure Bracket where
  negated : Bool
  entries : List Entry
  /-- Whether it looks like the name of a class that stands in no bracket. -/
  lonelyClass : Bool

/-- Whether a text in a bracket looks like the name of a class: colons around other characters, and
no range or class among these. -/
def looksLikeClass (content : Octets) : Bool :=
  let rec plain : Octets → Bool
    | '[' :: c :: cs => c ≠ ':' && c ≠ '.' && c ≠ '=' && plain (c :: cs)
    | c :: cs => c ≠ '-' && plain cs
    | [] => true
  content.head? = some ':' && content.getLast? = some ':' && content.any (· ≠ ':') && plain content

/-- Reads a bracket after its opening. -/
def Bracket.read (ignoreCase : Bool) (cs : Octets) : Except Fault (Bracket × Octets) := do
  let (negated, content) := match cs with
    | '^' :: rest => (true, rest)
    | _ => (false, cs)
  if content.isEmpty then throw .badPattern
  let (entries, rest) ← readEntries ignoreCase (content.length + 1) true [] content
  let text := content.take (content.length - rest.length - 1)
  return ({ negated, entries, lonelyClass := looksLikeClass text }, rest)

/-- The characters of a bracket. If letter case is ignored, texts are matched in upper case. A
negated bracket leaves out line breaks where they end lines. -/
def Bracket.chars (b : Bracket) (ignoreCase multiline : Bool) : CharSet :=
  let folded (c : Char) : Char := if ignoreCase then Octets.toUpper c else c
  let positive := b.entries.foldl (fun s e =>
    let ranges := if e.isClass then e.ranges
      else e.ranges.map fun (lo, hi) => (folded lo, folded hi)
    s.union (.ofRanges ranges)) .empty
  if !b.negated then positive
  else if multiline then positive.complement.erase '\n'
  else positive.complement

/-- The characters of a bracket of which nothing but plain characters and classes is understood,
with letters in both cases if their case is ignored. -/
def Bracket.plainChars? (b : Bracket) (ignoreCase multiline : Bool) : Option CharSet :=
  if !b.entries.all (·.isPlain) then none
  else
    let positive := b.entries.foldl (fun s e =>
      let some := CharSet.ofRanges e.ranges
      s.union (if ignoreCase && !e.isClass then some.withBothCases else some)) .empty
    if !b.negated then some positive
    else if multiline then some (positive.complement.erase '\n')
    else some positive.complement

end ScriptSession.Regex
