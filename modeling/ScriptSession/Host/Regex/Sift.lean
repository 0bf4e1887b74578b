import ScriptSession.Host.Regex.Run
/-!
Going back from the end of a match and keeping, at each place, the nodes that the end can be reached
from. References narrow this down: a way through a reference has to be one on which the group has
the text that was found for it.
-/
namespace ScriptSession.Regex

/-- What has been kept so far. -/
structure Sifted where
  kept : Array NodeSet
  /-- What is kept on ways through references. -/
  recalling : Array NodeSet
  recalls : Array Recalled

/-- What ways are to lead to: a node at a place, with the texts that references on them have. -/
structure Goal where
  node : Nat
  pos : Nat
  limits : NodeSet := []

/-- Where a place lies, as seen from the text of a group. -/
inductive Side
  | before | inside | behind
deriving DecidableEq, Repr

abbrev SiftM := StateM Sifted

namespace SiftM

/-- Which end of a text a place is at; it may be both. -/
structure Ends where
  atStart : Bool
  atStop : Bool

/-- On which side of a group a node is that stands at an end of the group's text: what comes next
without taking a character tells. `numbers` are those of the references at the place. -/
def sideFrom (a : Automaton) (ends : Ends) (group : Nat) (numbers : List Nat) :
    Nat → Nat → SiftM Side
  | 0, _ => return if ends.atStop then .behind else .inside
  | fuel + 1, source => do
    for n in a.closure source do
      match a.step n with
      | .again _ =>
        for k in numbers do
          let r := (← get).recalls[k]!
          if r.node = n && r.isEmpty && !r.unreached.contains group then
            let target := a.edge n
            if target = source then return if ends.atStart then .before else .inside
            let side ← sideFrom a ends group numbers fuel target
            if side = .before then return .before
            if side = .inside && ends.atStop then return .inside
            modify fun s => { s with
              recalls := s.recalls.modify k fun r => { r with unreached := group :: r.unreached } }
      | .opening g => if ends.atStart && g = group then return .before
      | .closing g _ => if ends.atStop && g = group then return .inside
      | _ => pure ()
    return if ends.atStop then .behind else .inside

/-- On which side of the text that a reference has found a node at a place is. -/
def side (a : Automaton) (limit node pos : Nat) : SiftM Side := do
  let recalls := (← get).recalls
  let r := recalls[limit]!
  if pos < r.start then return .before
  if r.stop < pos then return .behind
  let ends : Ends := { atStart := pos = r.start, atStop := pos = r.stop }
  if !ends.atStart && !ends.atStop then return .inside
  let group := match a.step r.node with
    | .again g => g
    | _ => 0
  sideFrom a ends group (recallNumbers recalls pos) (a.nodes.size + 1) node

/-- Whether the way between two nodes crosses the end of a text that a reference has. -/
def crosses (a : Automaton) (limits : NodeSet) (node pos source sourcePos : Nat) : SiftM Bool := do
  for limit in limits do
    let first ← side a limit node pos
    let second ← side a limit source sourcePos
    if first ≠ second then return true
  return false

end SiftM

namespace Automaton

/-- Takes away the nodes that lead to a node without taking a character, apart from those that also
lead past it. -/
def withoutOrigins (a : Automaton) (n : Nat) (nodes candidates : NodeSet) : NodeSet :=
  let origins := a.origins n
  let leadsPast (m : Nat) : Bool := m ≠ n && (a.step m).isSilent &&
    (a.node m).edges.any fun e => !origins.contains e && nodes.contains e
  let excepted := (origins.filter leadsPast).flatMap fun m =>
    NodeSet.inter candidates (a.origins m)
  nodes.filter fun m => !origins.contains m || excepted.contains m

/-- Takes away the nodes that do not belong with the end of a group, from the `k`th on. `fuel` is
more than twice the number of nodes. -/
def onlyWithClosing (a : Automaton) (closing : Nat) (candidates : NodeSet) :
    Nat → Nat → NodeSet → NodeSet
  | 0, _, nodes => nodes
  | fuel + 1, k, nodes =>
    match nodes[k]? with
    | none => nodes
    | some n =>
      if (a.origins n).contains closing || (a.closure n).contains closing then
        a.onlyWithClosing closing candidates fuel (k + 1) nodes
      else a.onlyWithClosing closing candidates fuel k (a.withoutOrigins n nodes candidates)

/-- Takes away the nodes at the start or the end of a group, from the `k`th on. -/
def withoutBorders (a : Automaton) (group : Nat) (candidates : NodeSet) :
    Nat → Nat → NodeSet → NodeSet
  | 0, _, nodes => nodes
  | fuel + 1, k, nodes =>
    match nodes[k]? with
    | none => nodes
    | some n =>
      let s := a.step n
      let nodes := if s.opens group || s.closes group then a.withoutOrigins n nodes candidates
        else nodes
      a.withoutBorders group candidates fuel (k + 1) nodes

/-- Takes away the nodes at a place that do not fit the text that a reference has. -/
def limited (a : Automaton) (pos : Nat) (candidates : NodeSet) (r : Recalled) (nodes : NodeSet) :
    NodeSet :=
  if pos ≤ r.start ∨ r.pos < pos then nodes
  else
    let group := match a.step r.node with
      | .again g => g
      | _ => 0
    let fuel := 2 * a.nodes.size + 2
    if r.stop = pos then
      let last? (p : Nat → Bool) := nodes.reverse.find? p
      let opening? := last? fun n => (a.step n).opens group
      let closing? := last? fun n => (a.step n).closes group
      let nodes := match opening? with
        | some n => a.withoutOrigins n nodes candidates
        | none => nodes
      match closing? with
      | some n => a.onlyWithClosing n candidates fuel 0 nodes
      | none => nodes
    else a.withoutBorders group candidates fuel 0 nodes

end Automaton

namespace Attempt

/-- The nodes at a place that take the character there and lead to what is kept behind it. -/
def siftedAt (t : Attempt) (m : Matching) (goal : Goal) (pos : Nat) : SiftM NodeSet := do
  let a := t.automaton
  match m.state? pos with
  | none => return []
  | some s =>
    let after := (← get).kept[pos + 1]!
    let leading := s.nodes.filter fun n =>
      t.accepts pos n && after.contains (a.node n).next
    if goal.limits.isEmpty then return leading
    leading.filterM fun n => do
      return !(← SiftM.crosses a goal.limits (a.node n).next (pos + 1) n pos)

/-- Keeps nodes at a place, with those that lead to them without taking a character, and then the
ways through references there, which `siftTo` follows back. -/
def keep (t : Attempt) (m : Matching) (siftTo : Goal → SiftM Unit) (goal : Goal) (pos : Nat)
    (nodes : NodeSet) : SiftM Unit := do
  let a := t.automaton
  match m.state? pos with
  | none => modify fun s => { s with kept := s.kept.setIfInBounds pos nodes }
  | some state =>
    let candidates := state.nodes
    let origins := NodeSet.flatten (nodes.map a.origins)
    let nodes := NodeSet.union nodes (NodeSet.inter candidates origins)
    let recalls := (← get).recalls
    let nodes := if nodes.isEmpty then nodes
      else goal.limits.foldl (fun nodes k => a.limited pos candidates recalls[k]! nodes) nodes
    modify fun s => { s with kept := s.kept.setIfInBounds pos nodes }
    if !state.refersBack then return
    let numbers := recallNumbers recalls pos
    for n in candidates do
      if !(n = goal.node ∧ pos = goal.pos) && a.step n matches .again _ then
        for k in numbers do
          let { recalls, kept, .. } ← get
          let r := recalls[k]!
          let next := pos + r.length
          let target := if r.isEmpty then a.edge n else (a.node n).next
          if r.node = n ∧ next ≤ goal.pos ∧ kept[next]!.contains target then
            if !(← SiftM.crosses a goal.limits n pos target next) then
              let here := (← get).kept[pos]!
              siftTo { node := n, pos, limits := NodeSet.insert k goal.limits }
              modify fun s => { s with
                recalling := (List.range (pos + 1)).foldl (fun all k =>
                  all.modify k (NodeSet.union · s.kept[k]!)) s.recalling
                kept := s.kept.setIfInBounds pos here }

/-- Goes back from a goal. Where nothing is kept for longer than any reference reaches, nothing is
kept before either. `fuel` bounds how many references one way goes through. -/
def siftTo (t : Attempt) (m : Matching) : Nat → Goal → SiftM Unit
  | 0, _ => return
  | fuel + 1, goal => do
    let keep := t.keep m (siftTo t m fuel) goal
    keep goal.pos [goal.node]
    let mut gaps := 0
    for pos in (List.range goal.pos).reverse do
      gaps := if (← get).kept[pos + 1]!.isEmpty then gaps + 1 else 0
      if m.longest < gaps then
        modify fun s => { s with
          kept := (List.range (pos + 1)).foldl (fun all k => all.setIfInBounds k []) s.kept }
        return
      keep pos (← t.siftedAt m goal pos)

/-- A match that was gone back through: its end, and what is kept at each place. -/
structure Way where
  node : Nat
  stop : Nat
  kept : Array NodeSet

/-- The first way to the end of a match at or before a place, for `count` places. -/
def way? (t : Attempt) (m : Matching) : Nat → Nat → Array Recalled → Option Way
  | 0, _, _ => none
  | count + 1, stop, recalls =>
    match m.state? stop with
    | none => way? t m count (stop - 1) recalls
    | some s =>
      if !s.halts then way? t m count (stop - 1) recalls
      else
        let node := (t.halt? stop s.nodes).getD 0
        let empty := Array.replicate (stop + 1) []
        let fuel := m.recalls.size + t.automaton.nodes.size + 2
        let ((), s) := siftTo t m fuel { node, pos := stop } ⟨empty, empty, recalls⟩
        let kept := s.kept.zipWith NodeSet.union s.recalling
        if kept[0]!.isEmpty then
          if t.automaton.refersBack then way? t m count (stop - 1) s.recalls else none
        else some { node, stop, kept }

end Attempt
end ScriptSession.Regex
