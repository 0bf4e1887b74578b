import ScriptSession.Host.Regex.Sift
/-!
Walking along a match that was gone back through, to find where its groups start and stop. At a fork
the way to the lower node is taken, unless it was taken already at the same place.
-/
namespace ScriptSession.Regex

/-- Where a group starts and stops, as far as that is known. -/
structure Span where
  start : Option Nat := none
  stop : Option Nat := none
deriving DecidableEq, Repr

namespace Span

def length (s : Span) : Nat := s.stop.getD 0 - s.start.getD 0

end Span

/-- A place on a walk. -/
structure Walker where
  pos : Nat
  node : Nat
  /-- The groups. -/
  spans : Array Span
  /-- The groups as they were when the latest of them ended that is not empty. -/
  earlier : Array Span
  /-- The nodes that were gone through since the last character. -/
  passed : List Nat := []

namespace Walker

/-- Notes the start or the end of a group. An empty text of a group that need not be there does not
count if the group had a text before. -/
def note (a : Automaton) (w : Walker) : Walker :=
  match a.step w.node with
  | .opening g => { w with spans := w.spans.setIfInBounds g { start := some w.pos } }
  | .closing g optional =>
    let span := w.spans.getD g {}
    let spans := w.spans.setIfInBounds g { span with stop := some w.pos }
    if span.start.all (· < w.pos) then { w with spans, earlier := spans }
    else if optional && (w.earlier.getD g {}).start.isSome then { w with spans := w.earlier }
    else { w with spans }
  | _ => w

def isOpen (w : Walker) : Bool :=
  w.spans.any fun s => s.start.isSome && s.stop.isNone

/-- Goes on to a node after taking a text. -/
def taking (w : Walker) (length node : Nat) : Walker :=
  { w with pos := w.pos + length, node, passed := [] }

end Walker

namespace Attempt

/-- The next place of a walk, and the place to go back to if the walk fails. `trying` says that
walks can go back. -/
def walkStep (t : Attempt) (way : Way) (trying : Bool) (w : Walker) :
    Option Walker × Option Walker :=
  let a := t.automaton
  let node := a.node w.node
  let keeps (pos n : Nat) : Bool := (way.kept.getD pos []).contains n
  let passing := { w with passed := w.node :: w.passed }
  if node.step.isSilent then
    match node.edges.filter (keeps w.pos) with
    | [] => (none, none)
    | [n] => (some { passing with node := n }, none)
    | first :: second :: _ =>
      if passing.passed.contains first then (some { passing with node := second }, none)
      else
        (some { passing with node := first },
          if trying then some { passing with node := second } else none)
  else
    let take (w : Walker) (length : Nat) : Option Walker × Option Walker :=
      let w := w.taking length node.next
      if trying && !(w.pos ≤ way.stop && keeps w.pos w.node) then (none, none) else (some w, none)
    match node.step with
    | .again g =>
      let span := w.spans.getD g {}
      if trying && (span.start.isNone || span.stop.isNone || t.length < w.pos + span.length ||
          !t.same (span.start.getD 0) w.pos span.length) then (none, none)
      else if span.length ≠ 0 then take w span.length
      else
        let target := a.edge w.node
        if keeps w.pos target then (some { passing with node := target }, none) else (none, none)
    | _ => if t.accepts w.pos w.node then take w 1 else (none, none)

/-- Walks to the end of a match. `waiting` are places to go back to. -/
def walkFrom (t : Attempt) (way : Way) (trying : Bool) :
    Nat → Walker → List Walker → Option (Array Span)
  | 0, _, _ => none
  | fuel + 1, w, waiting =>
    if way.stop < w.pos then some w.spans
    else
      let w := w.note t.automaton
      let ended := w.pos = way.stop && w.node = way.node
      let looping := trying && w.passed.contains w.node
      let next (w : Walker) (waiting : List Walker) : Option (Walker × List Walker) :=
        match t.walkStep way trying w, waiting with
        | (some w, other), _ => some (w, other.toList ++ waiting)
        | (none, _), w :: waiting => some (w, waiting)
        | (none, _), [] => none
      if ended || looping then
        if trying && w.isOpen then
          match waiting with
          | [] => some w.spans
          | w :: waiting =>
            match next w waiting with
            | some (w, waiting) => walkFrom t way trying fuel w waiting
            | none => none
        else some w.spans
      else
        match next w waiting with
        | some (w, waiting) => walkFrom t way trying fuel w waiting
        | none => none

/-- Where the groups start and stop on a way, for `groups` groups. -/
def walk (t : Attempt) (way : Way) (groups : Nat) : Option (Array Span) :=
  let a := t.automaton
  let trying := a.forks && a.refersBack
  let spans := Array.replicate (groups + 1) {}
  let spans := spans.setIfInBounds 0 { start := some 0, stop := some way.stop }
  let fuel := (way.stop + 2) * (a.nodes.size + 2) * (if trying then 0x1000 else 4)
  t.walkFrom way trying fuel { pos := 0, node := a.first, spans, earlier := spans } []

end Attempt
end ScriptSession.Regex
