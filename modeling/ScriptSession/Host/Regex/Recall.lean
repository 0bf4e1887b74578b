import ScriptSession.Host.Regex.Attempt
/-!
Back references. Wherever a node refers back to a group, the texts that the group may have had are
looked for: starts and ends of the group that matching has gone through, where the end can be
reached from the start and the reference from the end. Where such a text stands once more, matching
goes on behind it.
-/
namespace ScriptSession.Regex

/-- What is at a place of a way. -/
structure Stage where
  nodes : NodeSet
  refersBack : Bool

/-- How far ways have been followed, and what they have reached at each place. -/
structure Trail where
  reached : Nat := 0
  stages : Array (Option Stage) := #[]

namespace Trail

def stage? (t : Trail) (pos : Nat) : Option Stage := (t.stages[pos]?).join

def setStage (t : Trail) (pos : Nat) (s : Option Stage) : Trail :=
  let missing := pos + 1 - t.stages.size
  { t with stages := (t.stages ++ Array.replicate missing none).setIfInBounds pos s }

end Trail

/-- A reference that has found a text of its group. -/
structure Recalled where
  node : Nat
  /-- Where the reference is. -/
  pos : Nat
  /-- Where the text starts and stops. -/
  start : Nat
  stop : Nat
  /-- Groups whose start and end are known not to come right behind an empty text. -/
  unreached : List Nat := []

namespace Recalled

def length (r : Recalled) : Nat := r.stop - r.start

def isEmpty (r : Recalled) : Bool := r.start = r.stop

end Recalled

instance : Inhabited Recalled := ⟨⟨0, 0, 0, 0, []⟩⟩

/-- An end of a group, and the ways from there. -/
structure Closed where
  node : Nat
  pos : Nat
  trail : Trail := {}

/-- A start of a group, its ends, and the ways from there. -/
structure Opened where
  node : Nat
  pos : Nat
  closed : Array Closed := #[]
  trail : Trail := {}

/-- What is known during an attempt. -/
structure Matching where
  states : States := {}
  /-- The state at each place up to the last that was reached. -/
  log : Array (Option State) := #[]
  /-- In the order of their places. -/
  recalls : Array Recalled := #[]
  /-- The length of the longest text that a reference has found. -/
  longest : Nat := 0
  opened : Array Opened := #[]

/-- How many references stand before a place, if that is between `low` and `high`. `fuel` is more
than the difference. -/
def countBefore (recalls : Array Recalled) (pos : Nat) : Nat → Nat → Nat → Nat
  | 0, low, _ => low
  | fuel + 1, low, high =>
    if high ≤ low then low
    else
      let middle := (low + high) / 2
      if recalls[middle]!.pos < pos then countBefore recalls pos fuel (middle + 1) high
      else countBefore recalls pos fuel low middle

/-- The numbers of the references from `first` on that are at a place. -/
def numbersFrom (recalls : Array Recalled) (pos : Nat) : Nat → Nat → List Nat
  | 0, _ => []
  | count + 1, first =>
    if (recalls[first]?).any (·.pos = pos) then
      first :: numbersFrom recalls pos count (first + 1)
    else []

/-- The numbers of the references at a place. -/
def recallNumbers (recalls : Array Recalled) (pos : Nat) : List Nat :=
  let size := recalls.size
  numbersFrom recalls pos size (countBefore recalls pos (size + 1) 0 size)

namespace Matching

def state? (m : Matching) (pos : Nat) : Option State := (m.log[pos]?).join

/-- The references at a place that have found a text. -/
def recallsAt (m : Matching) (pos : Nat) : List Recalled :=
  (recallNumbers m.recalls pos).map (m.recalls[·]!)

end Matching

/-- The end of a group where ways stop. -/
structure Border where
  group : Nat
  /-- Whether it is the end of the group or its start; the end is reached, the start is not. -/
  closing : Bool

def Border.isAt (b : Border) (s : Step) : Bool :=
  if b.closing then s.closes b.group else s.opens b.group

namespace Automaton

/-- Adds what a node leads to without taking a character, up to a border. `fuel` is more than the
number of nodes. -/
def reachFrom (a : Automaton) (b : Border) : Nat → Nat → NodeSet → NodeSet
  | 0, _, found => found
  | fuel + 1, n, found =>
    if found.contains n then found
    else if b.isAt (a.step n) then
      if b.closing then NodeSet.insert n found else found
    else
      let found := NodeSet.insert n found
      match (a.node n).edges with
      | [] => found
      | [edge] => a.reachFrom b fuel edge found
      | first :: second :: _ => a.reachFrom b fuel first (a.reachFrom b fuel second found)

/-- What nodes lead to without taking a character, up to a border. -/
def reach (a : Automaton) (b : Border) (nodes : NodeSet) : NodeSet :=
  nodes.foldl (fun found n =>
    if (a.closure n).any fun m => b.isAt (a.step m) then a.reachFrom b (a.nodes.size + 1) n found
    else NodeSet.union found (a.closure n)) []

/-- Goes on behind the references at a place: behind an empty text at once, else later on the trail.
`all` are the references at the place, and `fuel` is more than their number times that of nodes. -/
def passRecalled (a : Automaton) (b : Border) (pos : Nat) (all : List Recalled) :
    Nat → List Recalled → NodeSet → Trail → NodeSet × Trail
  | 0, _, nodes, trail => (nodes, trail)
  | _, [], nodes, trail => (nodes, trail)
  | fuel + 1, r :: rest, nodes, trail =>
    if !nodes.contains r.node then a.passRecalled b pos all fuel rest nodes trail
    else if r.isEmpty then
      let target := a.edge r.node
      if nodes.contains target then a.passRecalled b pos all fuel rest nodes trail
      else
        let nodes := NodeSet.union nodes (a.reach b [target])
        a.passRecalled b pos all fuel all nodes trail
    else
      let target := (a.node r.node).next
      let there := ((trail.stage? (pos + r.length)).map (·.nodes)).getD []
      let there := NodeSet.insert target there
      let trail := trail.setStage (pos + r.length) (some ⟨there, a.anyRecall there⟩)
      a.passRecalled b pos all fuel rest nodes trail

end Automaton

namespace Attempt

/-- Goes on behind the references at a place. -/
def pass (t : Attempt) (m : Matching) (b : Border) (pos : Nat) (nodes : NodeSet) (trail : Trail) :
    NodeSet × Trail :=
  let all := m.recallsAt pos
  let fuel := (all.length + 1) * (t.automaton.nodes.size + 2)
  t.automaton.passRecalled b pos all fuel all nodes trail

/-- The stage of some nodes, if there are any. -/
def stageOf (t : Attempt) (pos : Nat) (nodes : NodeSet) : Option Stage :=
  if nodes.isEmpty then none
  else some ⟨t.automaton.allowed (t.contextBefore pos) nodes, t.automaton.anyRecall nodes⟩

/-- Follows the ways on a trail for `steps` places more, or until there were only `gaps` places
without any nodes. -/
def extend (t : Attempt) (m : Matching) (b : Border) : Nat → Nat → Nat → Trail → Trail
  | 0, pos, _, trail => { trail with reached := pos }
  | steps + 1, pos, gaps, trail =>
    if m.longest < gaps then { trail with reached := pos }
    else
      let there := ((trail.stage? (pos + 1)).map (·.nodes)).getD []
      let here := ((trail.stage? pos).map (·.nodes)).getD []
      let nodes := (here.filter (t.accepts pos)).foldl
        (fun s n => NodeSet.insert (t.automaton.node n).next s) there
      let (nodes, trail) :=
        if nodes.isEmpty then (nodes, trail)
        else t.pass m b (pos + 1) (t.automaton.reach b nodes) trail
      let stage := t.stageOf (pos + 1) nodes
      extend t m b steps (pos + 1) (if stage.isNone then gaps + 1 else 0)
        (trail.setStage (pos + 1) stage)

/-- Whether a node at a place is reached from another one without crossing a border, and the trail
after looking for it. -/
def arrive (t : Attempt) (m : Matching) (b : Border) (source sourcePos target targetPos : Nat)
    (trail : Trail) : Bool × Trail :=
  let pos := if trail.reached = 0 then sourcePos else trail.reached
  let start : Option NodeSet :=
    if pos = sourcePos then some (t.automaton.reach b [source])
    else match trail.stage? pos with
      | some stage => if stage.refersBack then some stage.nodes else none
      | none => none
  let trail := match start with
    | none => trail
    | some nodes =>
      let (nodes, trail) := if nodes.isEmpty then (nodes, trail) else t.pass m b pos nodes trail
      trail.setStage pos (t.stageOf pos nodes)
  let trail := extend t m b (targetPos - pos) pos 0 trail
  (((trail.stage? targetPos).map (·.nodes.contains target)).getD false, trail)

end Attempt

/-- Work on what is known during an attempt. -/
abbrev MatchM := StateM Matching

namespace MatchM

/-- Keeps the starts of groups that are asked for again. -/
def openGroups (t : Attempt) (nodes : NodeSet) (pos : Nat) : MatchM Unit := do
  for n in nodes do
    match t.automaton.step n with
    | .opening g =>
      if t.automaton.recalled.contains g then
        modify fun m => { m with opened := m.opened.push { node := n, pos } }
    | _ => pure ()

/-- Makes the log reach up to a place. -/
def reserve (pos : Nat) : MatchM Unit :=
  modify fun m => { m with log := m.log ++ Array.replicate (pos + 1 - m.log.size) none }

/-- Adds nodes at a place. -/
def add (t : Attempt) (pos : Nat) (nodes : NodeSet) : MatchM Unit := do
  reserve pos
  modify fun m =>
    let nodes := match m.state? pos with
      | some s => NodeSet.union s.entrance nodes
      | none => nodes
    let (s, states) := m.states.find t.automaton nodes (t.contextBefore pos)
    { m with log := m.log.setIfInBounds pos (some s), states }

/-- The `last`th end of the `first`th start of a group gives its text to the reference `node` at
`pos`, if the reference is reached from there. -/
def useGroup (t : Attempt) (node pos : Nat) (group first last : Nat) : MatchM Unit := do
  let m ← get
  match m.opened[first]? with
  | none => return
  | some o =>
    match o.closed[last]? with
    | none => return
    | some c =>
      let (found, trail) := t.arrive m ⟨group, false⟩ c.node c.pos node pos c.trail
      let o := { o with closed := o.closed.setIfInBounds last { c with trail } }
      set { m with opened := m.opened.setIfInBounds first o }
      if found then
        let length := c.pos - o.pos
        modify fun m => { m with
          recalls := m.recalls.push { node, pos, start := o.pos, stop := c.pos }
          longest := max m.longest length }
        reserve (pos + length)

/-- Goes through the known ends of a start as long as the text up to them stands at the reference
too: it is the same up to `stop`, which is `copy` there. Gives nothing if that is not so for all. -/
def useKnown (t : Attempt) (node pos : Nat) (group first : Nat) :
    List (Nat × Nat) → Nat → Nat → MatchM (Option (Nat × Nat))
  | [], stop, copy => return some (stop, copy)
  | (last, lastPos) :: rest, stop, copy => do
    let length := lastPos - stop
    if t.length < copy + length ∨ !t.same copy stop length then return none
    useGroup t node pos group first last
    useKnown t node pos group first rest lastPos (copy + length)

/-- Looks for further ends of a start from `stop` on, as long as the text up to there stands at the
reference too. `count` is how many places there are up to the reference. -/
def findEnds (t : Attempt) (node pos : Nat) (group first : Nat) : Nat → Nat → Nat → MatchM Unit
  | 0, _, _ => return
  | count + 1, stop, copy => do
    let m ← get
    match m.opened[first]? with
    | none => return
    | some o =>
      if o.pos < stop ∧ (t.length ≤ copy ∨ !t.same copy (stop - 1) 1) then return
      let copy := if o.pos < stop then copy + 1 else copy
      let ending? := (m.state? stop).bind fun s =>
        s.nodes.find? fun n => (t.automaton.step n).closes group
      match ending? with
      | none => pure ()
      | some ending =>
        let (found, trail) := t.arrive m ⟨group, true⟩ o.node o.pos ending stop o.trail
        let closed := if found then o.closed.push { node := ending, pos := stop } else o.closed
        set { m with opened := m.opened.setIfInBounds first { o with trail, closed } }
        if found then useGroup t node pos group first (closed.size - 1)
      findEnds t node pos group first count (stop + 1) copy

/-- Looks for the texts of a group that stand where a node refers back to it. -/
def findTexts (t : Attempt) (node pos group : Nat) : MatchM Unit := do
  let m ← get
  if (m.recallsAt pos).any (·.node = node) then return
  for first in List.range m.opened.size do
    match (← get).opened[first]? with
    | none => pure ()
    | some o =>
      if (t.automaton.step o.node).opens group then
        let known := (List.range o.closed.size).zip (o.closed.toList.map (·.pos))
        match ← useKnown t node pos group first known o.pos pos with
        | none => pure ()
        | some (stop, copy) =>
          let stop := if known.isEmpty then stop else stop + 1
          findEnds t node pos group first (pos + 1 - stop) stop copy

/-- Goes on behind the texts that references among the nodes find. `fuel` is more than the number of
nodes. -/
def follow (t : Attempt) (pos : Nat) : Nat → NodeSet → MatchM Unit
  | 0, _ => return
  | fuel + 1, nodes => do
    for n in nodes do
      match t.automaton.step n with
      | .again group =>
        if t.allows pos n then
          let known := (← get).recalls.size
          findTexts t n pos group
          for r in (← get).recalls.toList.drop known do
            if r.node = n ∧ r.pos = pos then
              let targets := t.automaton.closure
                (if r.isEmpty then t.automaton.edge n else (t.automaton.node n).next)
              let count (m : Matching) := ((m.state? pos).map (·.nodes.length)).getD 0
              let before := count (← get)
              add t (pos + r.length) targets
              if r.isEmpty && before < count (← get) then
                openGroups t targets pos
                follow t pos fuel targets
      | _ => pure ()

/-- Puts the state that was reached at a place together with what references have led to there, and
follows the references in it. -/
def enter (t : Attempt) (pos : Nat) (reached : Option State) : MatchM (Option State) := do
  let known := (← get).state? pos
  reserve pos
  match known, reached with
  | none, _ => modify fun m => { m with log := m.log.setIfInBounds pos reached }
  | some _, some s => add t pos s.entrance
  | some _, none => add t pos []
  match (← get).state? pos with
  | none => return none
  | some s => do
    openGroups t s.nodes pos
    if s.refersBack then follow t pos (t.automaton.nodes.size + 1) s.nodes
    return (← get).state? pos

/-- The next place after `pos` that references have led to, with the state there. `count` is how
many places there are in the log after it. -/
def recover (t : Attempt) : Nat → Nat → MatchM (Option (Nat × State))
  | 0, _ => return none
  | count + 1, pos => do
    match (← get).state? (pos + 1) with
    | none => recover t count (pos + 1)
    | some _ =>
      match ← enter t (pos + 1) none with
      | some s => return some (pos + 1, s)
      | none => recover t count (pos + 1)

end MatchM
end ScriptSession.Regex
