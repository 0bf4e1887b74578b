import ScriptSession.Host.Regex.Screen
import ScriptSession.Host.Regex.Walk
/-!
Regular expressions over bytes. Of all matches that start at a place the longest is taken. A quick
look at the text comes first, and goes by a rough reading of the expression: where that finds
nothing, there is no match.
-/
namespace ScriptSession

open Regex

/-- A regular expression that can be searched for. -/
structure Pattern where
  style : Regex.Style
  /-- What ends lines. -/
  lineEnd : Char
  /-- The number of groups. -/
  groups : Nat
  /-- Groups that have the same text as another one. -/
  joined : List (Nat × Nat)
  /-- The automaton that knows where groups start and stop. -/
  grouped : Regex.Automaton
  /-- The automaton for when nobody asks for groups. -/
  plain : Regex.Automaton
  screen : Option Regex.Screen
  /-- Whether some bracket looks like the name of a class that stands in no bracket. -/
  lonelyClass : Bool

/-- A match: where it starts and stops, and where its groups do. -/
structure Match where
  start : Nat
  stop : Nat
  groups : Array Regex.Span

namespace Match

/-- The text of a group of a match; group zero is the match. A group that ends without having
started has the text from one place before the start on, where a NUL stands. -/
def textOf (m : Match) (text : Array Char) (n : Nat) : Octets :=
  if n = 0 then (text.extract m.start m.stop).toList
  else
    match m.groups[n]? with
    | some ⟨some start, some stop⟩ => (text.extract start stop).toList
    | some ⟨none, some stop⟩ => Char.ofNat 0 :: (text.extract 0 stop).toList
    | _ => []

/-- The match with the text that it is in moved by some places. -/
def shift (m : Match) (places : Nat) : Match where
  start := m.start + places
  stop := m.stop + places
  groups := m.groups.map fun s =>
    match s.start with
    | some start => ⟨some (start + places), s.stop.map (· + places)⟩
    | none => s

end Match

namespace Pattern

/-- Reads a pattern. -/
def read (style : Regex.Style) (lineEnd : Char) (cs : Octets) : Except Regex.Fault Pattern := do
  let (tree, r) ← Regex.read style cs
  let (tree, joined) := tree.joinGroups []
  let recalled := r.recalled.filter fun n => (joined.lookup n).isNone
  let recalled := (recalled ++ tree.recalled).eraseDups
  let refersBack := !r.recalled.isEmpty
  let automaton := Automaton.ofTree tree refersBack recalled
  let screen := match Regex.read { style with rough := true } cs with
    | .ok (tree, _) => some (Screen.ofTree tree)
    | .error _ => none
  let grouped := automaton true
  return {
    style, lineEnd, joined, screen, grouped
    groups := r.opened
    plain := if r.opened = 0 then grouped else automaton false
    lonelyClass := r.lonelyClass }

/-- A text as it is matched. -/
def folded (p : Pattern) (text : Array Char) : Array Char :=
  if p.style.ignoreCase then text.map Octets.toUpper else text

/-- Where the groups of a match of an attempt are; nothing if they fit no way through it. -/
def spans? (p : Pattern) (t : Attempt) (way : Attempt.Way) : Option (Array Regex.Span) :=
  (t.walk way p.groups).map fun spans =>
    p.joined.foldr (fun (n, m) spans => spans.setIfInBounds n (spans.getD m {})) spans

/-- The first match that starts at one of `count` places from `start` on. -/
def searchFrom (p : Pattern) (grouped : Bool) (a : Regex.Automaton) (text : Array Char)
    (multiline : Bool) : Nat → Nat → Regex.States → Option Match
  | 0, _, _ => none
  | count + 1, start, states =>
    if text.size < start then none
    else
      let t : Attempt := { automaton := a, text, start, multiline }
      let found := t.run states
      let m := found.matching
      let place := if found.skipping then start + found.skipped else start
      let next (_ : Unit) := searchFrom p grouped a text multiline count (place + 1) m.states
      let asked := grouped && p.groups ≠ 0
      match found.last with
      | none => next ()
      | some stop =>
        let isPruned := a.refersBack || (asked && a.forks)
        let way? := if isPruned then t.way? m (stop + 1) stop m.recalls
          else
            let node := (t.halt? stop (((m.state? stop).map (·.nodes)).getD [])).getD 0
            some { node, stop, kept := m.log.map fun s => (s.map (·.nodes)).getD [] }
        match way? with
        | none => next ()
        | some way =>
          let found : Match := { start := 0, stop := way.stop, groups := #[] }
          if asked then
            (p.spans? t way).map fun groups => { found with groups }.shift place
          else some (found.shift place)

/-- The first match from `start` on in pieces of a text that end at line ends. `fuel` is more than
the number of pieces. -/
def searchPieces (p : Pattern) (grouped : Bool) (a : Regex.Automaton) (text : Array Char) :
    Nat → Nat → Nat → Option Match
  | 0, _, _ => none
  | fuel + 1, low, start =>
    let rest := text.extract low text.size
    let high := low + (rest.findIdx? (· = p.lineEnd)).getD rest.size
    let piece := text.extract low high
    match searchFrom p grouped a piece false (piece.size + 1) (start - low) {} with
    | some m => some (m.shift low)
    | none =>
      if high = text.size then none
      else searchPieces p grouped a text fuel (high + 1) (high + 1)

/-- Whether a quick look at a text finds that it can match at all. -/
def admits (p : Pattern) (text : Array Char) : Bool :=
  p.screen.all (·.admits p.lineEnd text)

/-- The first match in a text that does not start before `start`. The text was folded. -/
def search? (p : Pattern) (grouped : Bool) (text folded : Array Char) (start : Nat) :
    Option Match :=
  if start = 0 && !p.admits text then none
  else
    let a := if grouped then p.grouped else p.plain
    if p.style.multiline && p.lineEnd ≠ '\n' then
      let low := ((folded.extract 0 start).reverse.findIdx? (· = p.lineEnd)).map (start - ·)
      searchPieces p grouped a folded (folded.size + 1) (low.getD 0) start
    else
      let count := folded.size + 1 - start
      searchFrom p grouped a folded p.style.multiline count start {}

/-- Whether a text has a match anywhere. If lines inside the text count, the quick look decides
where it understands the whole pattern. -/
def occursIn (p : Pattern) (text : Octets) : Bool :=
  let text := text.toArray
  if p.style.multiline && p.screen.any (·.exact) then p.admits text
  else (p.search? false text (p.folded text) 0).isSome

end Pattern
end ScriptSession
