import ScriptSession.Host.Sed.Script
/-!
Replacing the matches of a pattern in a text.
-/
namespace ScriptSession.Sed

/-- A letter in a case. -/
def inCase : LetterCase → Char → Char
  | .upper, c => Octets.toUpper c
  | .lower, c => Octets.toLower c

def cased (casing : Casing) (text : Octets) : Octets :=
  let whole := match casing.all with
    | some all => text.map (inCase all)
    | none => text
  match casing.first, whole with
  | some first, c :: cs => inCase first c :: cs
  | _, _ => whole

/-- The text that pieces make of a match. A case for a first letter that has none to work on is
left for the next piece. -/
def expand (text : Array Char) (m : Match) (pending : Option LetterCase) :
    List Segment → Octets
  | [] => []
  | s :: rest =>
    let casing := if s.casing.first.isSome then s.casing
      else { s.casing with first := pending }
    let start := cased casing s.text
    let casing := if s.text = [] then casing else { casing with first := none }
    match s.group with
    | none => start ++ expand text m none rest
    | some n =>
      match m.textOf text n with
      | [] => start ++ expand text m (if s.casing.first.isSome then casing.first else none) rest
      | found => start ++ cased casing found ++ expand text m none rest

/-- Replaces from a place on. An empty match right after a match does not count. `seen` matches came
before; `fuel` is more than the characters left. The result is gathered in pieces, newest first. -/
def replaceFrom (s : Substitution) (p : Pattern) (text folded : Array Char) :
    Nat → Nat → Option Nat → Nat → List Octets → Bool → List Octets × Bool
  | 0, start, _, _, done, replaced => ((text.extract start text.size).toList :: done, replaced)
  | fuel + 1, start, ended, seen, done, replaced =>
    let rest (start : Nat) (done : List Octets) (replaced : Bool) :=
      ((text.extract start text.size).toList :: done, replaced)
    match if start ≤ text.size then p.search? true text folded start else none with
    | none => rest start done replaced
    | some m =>
      let before := (text.extract start m.start).toList
      let step := (text.extract m.stop (m.stop + 1)).toList
      if m.start = m.stop ∧ ended = some m.start then
        if m.stop < text.size then
          replaceFrom s p text folded fuel (m.stop + 1) none seen (step :: before :: done) replaced
        else rest start done replaced
      else
        let seen := seen + 1
        let old := (text.extract m.start m.stop).toList
        let chosen := s.occurrence ≤ seen
        let new := if chosen then expand text m none s.replacement else old
        let done := new :: before :: done
        if chosen ∧ !s.everywhere then rest m.stop done true
        else if m.start = m.stop then
          if m.stop < text.size then
            replaceFrom s p text folded fuel (m.stop + 1) none seen (step :: done)
              (replaced || chosen)
          else (done, replaced || chosen)
        else
          replaceFrom s p text folded fuel m.stop (some m.stop) seen done (replaced || chosen)

/-- A text after a substitution, and whether anything was replaced. -/
def substituted (s : Substitution) (p : Pattern) (text : Octets) : Octets × Bool :=
  let text := text.toArray
  let (pieces, replaced) :=
    replaceFrom s p text (p.folded text) (text.size + 2) 0 none 0 [] false
  (pieces.reverse.flatten, replaced)

end ScriptSession.Sed
