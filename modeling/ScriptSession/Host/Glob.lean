import ScriptSession.FileTree
import ScriptSession.Host.Octets
/-!
Patterns of names: `*` stands for any text, `?` for any character and a bracket for one of its
members. A pattern is a text in which some characters are quoted and stand for themselves.
-/
namespace ScriptSession.Glob

/-- Characters with whether they are quoted. -/
abbrev Pattern := List (Char × Bool)

inductive Piece
  | one (c : Char)
  | any
  | many
  | set (negated : Bool) (ranges : List (Char × Char))
deriving DecidableEq, Repr

/-- A class between colons and before a closing bracket, and what follows it. -/
def named? (cs : Pattern) : Option (List (Char × Char) × Pattern) :=
  let name := cs.takeWhile fun (c, _) => c.isAlpha
  match cs.drop name.length with
  | (':', _) :: (']', _) :: rest =>
    (Octets.classRanges? (String.ofList (name.map (·.1)))).map (·, rest)
  | _ => none

/-- The members of a bracket up to its end; the first may be a closing bracket. Nothing if it has
no end. `fuel` is more than the length of the text. -/
def members? : Nat → Bool → List (Char × Char) → Pattern → Option (List (Char × Char) × Pattern)
  | 0, _, _, _ => none
  | _, _, _, [] => none
  | fuel + 1, first, ranges, (c, quoted) :: cs =>
    let range (lo : Char) (cs : Pattern) :=
      match cs with
      | ('-', false) :: (hi, q) :: rest =>
        if hi = ']' ∧ !q then members? fuel false ((lo, lo) :: ranges) cs
        else match hi, q, rest with
          | '\\', false, (hi, _) :: rest => members? fuel false ((lo, hi) :: ranges) rest
          | _, _, _ => members? fuel false ((lo, hi) :: ranges) rest
      | _ => members? fuel false ((lo, lo) :: ranges) cs
    if quoted then range c cs
    else if c = ']' ∧ !first then some (ranges, cs)
    else match c, cs with
      | '[', (':', false) :: rest =>
        match named? rest with
        | some (more, rest) => members? fuel false (more ++ ranges) rest
        | none => range c cs
      | '\\', (d, _) :: rest => range d rest
      | _, _ => range c cs

/-- A bracket after its opening. -/
def set? (cs : Pattern) : Option (Piece × Pattern) :=
  let (negated, members) := match cs with
    | ('!', false) :: rest => (true, rest)
    | ('^', false) :: rest => (true, rest)
    | _ => (false, cs)
  (members? (members.length + 1) true [] members).map fun (ranges, rest) =>
    (.set negated ranges, rest)

/-- The pieces of a pattern. `fuel` is at least its length. -/
def pieces : Nat → Pattern → List Piece
  | fuel + 1, (c, quoted) :: cs =>
    if quoted then .one c :: pieces fuel cs
    else match c, cs with
      | '*', _ => .many :: pieces fuel cs
      | '?', _ => .any :: pieces fuel cs
      | '[', _ =>
        match set? cs with
        | some (piece, rest) => piece :: pieces fuel rest
        | none => .one c :: pieces fuel cs
      | '\\', (d, _) :: rest => .one d :: pieces fuel rest
      | _, _ => .one c :: pieces fuel cs
  | _, _ => []

/-- Whether pieces stand for a text. -/
def fits : List Piece → List Char → Bool
  | [], cs => cs.isEmpty
  | .many :: ps, cs => (List.range (cs.length + 1)).any fun n => fits ps (cs.drop n)
  | .one c :: ps, d :: cs => c = d && fits ps cs
  | .any :: ps, _ :: cs => fits ps cs
  | .set negated ranges :: ps, d :: cs =>
    (ranges.any (fun (lo, hi) => lo ≤ d && d ≤ hi) != negated) && fits ps cs
  | _ :: _, [] => false

def compile (p : Pattern) : List Piece :=
  pieces p.length p

def isMatch (p : Pattern) (text : Octets) : Bool :=
  fits (compile p) text

/-- A text without the shortest or longest start that a pattern stands for. -/
def trimStart (longest : Bool) (p : Pattern) (text : Octets) : Octets :=
  let cuts := List.range (text.length + 1)
  match (if longest then cuts.reverse else cuts).find? fun n => isMatch p (text.take n) with
  | some n => text.drop n
  | none => text

/-- A text without the shortest or longest end that a pattern stands for. -/
def trimEnd (longest : Bool) (p : Pattern) (text : Octets) : Octets :=
  let cuts := List.range (text.length + 1)
  match (if longest then cuts else cuts.reverse).find? fun n => isMatch p (text.drop n) with
  | some n => text.take n
  | none => text

/-- Whether every character of a text stands for itself, which it then is. -/
def plain? (p : Pattern) : Option Octets :=
  (compile p).mapM fun
    | .one c => some c
    | _ => none

/-- The names in a directory that a pattern stands for. A name that starts with a dot is found only
by a pattern that does. -/
def namesIn (files : FileTree) (dir : Octets) (p : Pattern) : List Octets :=
  let dir := if dir = [] then "." else dir.toText
  let found : List String := match files.list ⟨dir⟩ with
    | .ok children => "." :: ".." :: children.map (·.1)
    | .error _ => []
  let ps := compile p
  (found.map Octets.ofString).filter fun name =>
    (name.head? ≠ some '.' || ps.head? = some (.one '.')) && fits ps name

/-- The paths below a start that the parts of a pattern stand for. -/
def pathsFrom (files : FileTree) (start : Octets) : List Pattern → List Octets
  | [] => [start]
  | p :: rest =>
    let names := match plain? p with
      | some name => [name]
      | none => namesIn files start p
    (names.map (start ++ ·)).flatMap fun path =>
      let exists? := (files.find ⟨path.toText⟩).toOption.isSome
      match rest with
      | [] => if exists? then [path] else []
      | _ :: _ => if path = [] ∨ exists? then pathsFrom files (path ++ ['/']) rest else []

def le : Octets → Octets → Bool
  | [], _ => true
  | _ :: _, [] => false
  | a :: as, b :: bs => a < b || (a = b && le as bs)

/-- The paths that a pattern stands for, in order; nothing if it has no special characters or no
path fits. -/
def paths? (files : FileTree) (p : Pattern) : Option (List Octets) :=
  if (plain? p).isSome then none
  else
    let parts := (p.map fun (c, q) => if c = '/' then (c, false) else (c, q)).splitOn ('/', false)
    match pathsFrom files [] parts with
    | [] => none
    | found => some (found.mergeSort le)

end ScriptSession.Glob
