import ScriptSession.Host.Regex.CharSet
/-!
Regular expressions as trees of steps. Repetitions are written out: what has to be there as many
times as it has to be, and what may follow as nested choices or as a star.
-/
namespace ScriptSession.Regex

/-- What has to stand on either side of a place. Where several things are asked for, all of them
have to hold. -/
structure Constraint where
  afterWord : Bool := false
  afterNoWord : Bool := false
  /-- A line starts at the place. -/
  afterBreak : Bool := false
  afterStart : Bool := false
  beforeWord : Bool := false
  beforeNoWord : Bool := false
  /-- A line ends at the place. -/
  beforeBreak : Bool := false
  beforeEnd : Bool := false
deriving DecidableEq, Repr

namespace Constraint

def isFree (c : Constraint) : Bool := c = {}

def join (c d : Constraint) : Constraint where
  afterWord := c.afterWord || d.afterWord
  afterNoWord := c.afterNoWord || d.afterNoWord
  afterBreak := c.afterBreak || d.afterBreak
  afterStart := c.afterStart || d.afterStart
  beforeWord := c.beforeWord || d.beforeWord
  beforeNoWord := c.beforeNoWord || d.beforeNoWord
  beforeBreak := c.beforeBreak || d.beforeBreak
  beforeEnd := c.beforeEnd || d.beforeEnd

def lineStart : Constraint := { afterBreak := true }
def lineEnd : Constraint := { beforeBreak := true }
def textStart : Constraint := { afterStart := true }
def textEnd : Constraint := { beforeEnd := true }
def wordStart : Constraint := { afterNoWord := true, beforeWord := true }
def wordEnd : Constraint := { afterWord := true, beforeNoWord := true }
def insideWord : Constraint := { afterWord := true, beforeWord := true }
def outsideWord : Constraint := { afterNoWord := true, beforeNoWord := true }

/-- Whether a constraint asks for words. -/
def isAboutWords (c : Constraint) : Bool :=
  c.afterWord || c.afterNoWord || c.beforeWord || c.beforeNoWord

end Constraint

inductive Step
  /-- Takes a character of a set. -/
  | one (s : CharSet)
  /-- Takes the text of a group once more. -/
  | again (group : Nat)
  | done
  | opening (group : Nat)
  /-- The end of a group, which may be one that need not be there. -/
  | closing (group : Nat) (optional : Bool)
  /-- Goes on in two ways. -/
  | fork
  | assertion (c : Constraint)
deriving DecidableEq, Repr

/-- Whether a step takes no character, whatever stands there. -/
def Step.isSilent : Step → Bool
  | opening _ => true
  | closing _ _ => true
  | fork => true
  | assertion _ => true
  | _ => false

def Step.opens (s : Step) (group : Nat) : Bool :=
  match s with
  | opening g => g = group
  | _ => false

def Step.closes (s : Step) (group : Nat) : Bool :=
  match s with
  | closing g _ => g = group
  | _ => false

inductive Tree
  | nothing
  | step (s : Step)
  | sequence (a b : Tree)
  | either (a b : Tree)
  | star (t : Tree)
  | group (number : Nat) (optional : Bool) (t : Tree)
  /-- A tree that also stands before. In it constraints are not spread. -/
  | copy (t : Tree)
deriving DecidableEq, Repr

namespace Tree

def one (s : CharSet) : Tree := step (.one s)

def assertion (c : Constraint) : Tree := step (.assertion c)

/-- The edge of a word, on either side of it. -/
def wordEdge : Tree := either (assertion .wordStart) (assertion .wordEnd)

def noWordEdge : Tree := either (assertion .insideWord) (assertion .outsideWord)

/-- Pairs neighbours. -/
def paired : List Tree → List Tree
  | a :: b :: rest => sequence a b :: paired rest
  | ts => ts

/-- Trees one after another; those with nothing in them leave no trace. The result is balanced.
`fuel` is more than the number of times that the list can be halved. -/
def join (fuel : Nat) (ts : List Tree) : Tree :=
  match fuel, ts with
  | _, [] => nothing
  | _, [t] => t
  | 0, t :: _ => t
  | fuel + 1, ts => join fuel (paired ts)

def ofList (ts : List Tree) : Tree :=
  let ts := ts.filter (· matches nothing |> not)
  join ts.length ts

/-- The tree with the mark that it need not be there, if it is a group. -/
def asOptional : Tree → Tree
  | group n _ t => group n true t
  | copy t => copy t.asOptional
  | t => t

/-- The tree without any such marks. -/
def unmarked : Tree → Tree
  | group n _ t => group n false t.unmarked
  | sequence a b => sequence a.unmarked b.unmarked
  | either a b => either a.unmarked b.unmarked
  | star t => star t.unmarked
  | copy t => t.unmarked
  | t => t

/-- The tree at least `least` times, and at most `most` times if there is a limit. Only the first of
those that need not be there is marked, and copies lose their marks. -/
def repeated (t : Tree) (least : Nat) (most : Option Nat) : Tree :=
  if t matches nothing then nothing
  else if most = some 0 then nothing
  else
    let copy := copy t.unmarked
    let needed := if least = 0 then [] else t :: List.replicate (least - 1) copy
    if most = some least then ofList needed
    else
      let marked := (if least = 0 then t else copy).asOptional
      let rest := match most with
        | none => star marked
        | some most => (List.range (most - least - 1)).foldl
            (fun inner _ => either (sequence inner copy) nothing) (either marked nothing)
      ofList (needed ++ [rest])

/-- Whether some step satisfies a condition. -/
def any (p : Step → Bool) : Tree → Bool
  | nothing => false
  | step s => p s
  | sequence a b => a.any p || b.any p
  | either a b => a.any p || b.any p
  | star t => t.any p
  | group _ _ t => t.any p
  | copy t => t.any p

/-- Joins a group with one that is all that it holds: both have the same text. Gives the names under
which the joined groups go on, in front of those given. -/
def joinGroups (names : List (Nat × Nat)) : Tree → Tree × List (Nat × Nat)
  | group n o (group m _ t) =>
    let (t, names) := joinGroups ((m, (names.lookup n).getD n) :: names) t
    (group n o t, names)
  | group n o t =>
    let (t, names) := joinGroups names t
    (group n o t, names)
  | sequence a b =>
    let (a, names) := joinGroups names a
    let (b, names) := joinGroups names b
    (sequence a b, names)
  | either a b =>
    let (a, names) := joinGroups names a
    let (b, names) := joinGroups names b
    (either a b, names)
  | star t =>
    let (t, names) := joinGroups names t
    (star t, names)
  | copy t =>
    let (t, names) := joinGroups names t
    (copy t, names)
  | step (.again n) => (step (.again ((names.lookup n).getD n)), names)
  | t => (t, names)

/-- The tree with steps for the start and the end of groups. Groups that are not kept leave only
what they hold. -/
def spelledOut (kept : Nat → Bool) : Tree → Tree
  | group n o t =>
    match t with
    | nothing => sequence (step (.opening n)) (step (.closing n o))
    | t =>
      if kept n then
        sequence (step (.opening n)) (sequence (t.spelledOut kept) (step (.closing n o)))
      else t.spelledOut kept
  | sequence a b => sequence (a.spelledOut kept) (b.spelledOut kept)
  | either a b => either (a.spelledOut kept) (b.spelledOut kept)
  | star t => star (t.spelledOut kept)
  | copy t => copy (t.spelledOut kept)
  | t => t

/-- The groups whose text is asked for again. -/
def recalled : Tree → List Nat
  | step (.again n) => [n]
  | sequence a b => a.recalled ++ b.recalled
  | either a b => a.recalled ++ b.recalled
  | star t => t.recalled
  | group _ _ t => t.recalled
  | copy t => t.recalled
  | _ => []

/-- How many steps and choices there are. -/
def size : Tree → Nat
  | nothing => 0
  | step _ => 1
  | sequence a b => a.size + b.size
  | either a b => a.size + b.size + 1
  | star t => t.size + 1
  | group _ _ t => t.size
  | copy t => t.size

end Tree
end ScriptSession.Regex
