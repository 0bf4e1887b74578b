import ScriptSession.Host.Regex.Tree
import ScriptSession.Host.Regex.NodeSet
import Std.Data.HashSet
/-!
Regular expressions as graphs. A node takes a character and leads on to the next one, or it leads on
along its edges without taking any. What comes after a constraint and before the next character has
to satisfy it too, so it is copied, and the copies carry the constraint.
-/
namespace ScriptSession.Regex

structure Node where
  step : Step
  constraint : Constraint := {}
  /-- The node that this one is a copy of. -/
  origin : Option Nat := none
  /-- Whether the expression was already copied here. -/
  isRepeated : Bool := false
  /-- Where taking a text leads. -/
  next : Nat := 0
  /-- Where the node leads without taking any text. -/
  edges : NodeSet := []

namespace Node

/-- The node of a step that leads on to `next`. -/
def ofStep (s : Step) (next : Nat) : Node :=
  match s with
  | .assertion c => { step := s, constraint := c, edges := [next] }
  | .opening _ | .closing _ _ => { step := s, edges := [next] }
  | .again _ => { step := s, next, edges := [next] }
  | .done => { step := s }
  | _ => { step := s, next }

def fork (left right : Nat) : Node :=
  { step := .fork, edges := NodeSet.insert left [right] }

def isCopy (n : Node) : Bool := n.isRepeated || n.origin.isSome

/-- The node as one of a copied expression; the borders of groups are made anew for each copy. -/
def again (n : Node) : Node :=
  match n.step with
  | .opening _ | .closing _ _ => n
  | _ => { n with isRepeated := true }

end Node

instance : Inhabited Node := ⟨{ step := .done }⟩

/-- Places the nodes of a tree that leads on to `next`, from the right to the left below `stop`;
`inCopy` says that the tree is one of a copy. Gives the first node of the tree and the lowest that
was placed. -/
def Tree.place (inCopy : Bool) : Tree → Nat → Nat → Array Node → Nat × Nat × Array Node
  | .nothing, stop, next, nodes => (next, stop, nodes)
  | .step s, stop, next, nodes =>
    (stop - 1, stop - 1, put (stop - 1) (.ofStep s next) nodes)
  | .sequence a b, stop, next, nodes =>
    let (next, stop, nodes) := b.place inCopy stop next nodes
    a.place inCopy stop next nodes
  | .either a b, stop, next, nodes =>
    let own := stop - 1
    let (right, stop, nodes) := b.place inCopy own next nodes
    let (left, stop, nodes) := a.place inCopy stop next nodes
    (own, stop, put own (.fork left right) nodes)
  | .star t, stop, next, nodes =>
    let own := stop - 1
    let (first, stop, nodes) := t.place inCopy own own nodes
    (own, stop, put own (.fork first next) nodes)
  | .group _ _ t, stop, next, nodes => t.place inCopy stop next nodes
  | .copy t, stop, next, nodes => t.place true stop next nodes
where
  put (own : Nat) (n : Node) (nodes : Array Node) : Array Node :=
    nodes.setIfInBounds own (if inCopy then n.again else n)

/-- Nodes while constraints are spread. -/
abbrev Nodes := Array Node

namespace Nodes

/-- The nodes of a tree, and which of them is the first. -/
def ofTree (t : Tree) : Nat × Nodes :=
  let size := t.size
  let (first, _, nodes) := t.place false size size (.replicate size default)
  (first, nodes)

/-- The latest copy of a node with just this constraint. -/
def copy? (nodes : Nodes) (origin : Nat) (c : Constraint) : Option Nat :=
  from? nodes.size
where
  from? : Nat → Option Nat
    | 0 => none
    | n + 1 =>
      let node := nodes[n]!
      if !node.isCopy then none
      else if node.origin = some origin ∧ node.constraint = c then some n
      else from? n

/-- Copies a node, whose constraint is kept, under a constraint. -/
def copy (nodes : Nodes) (origin : Nat) (c : Constraint) : Nat × Nodes :=
  let node := nodes[origin]!
  (nodes.size, nodes.push
    { step := node.step, constraint := c.join node.constraint, origin := some origin })

def setEdges (nodes : Nodes) (n : Nat) (edges : NodeSet) : Nodes :=
  nodes.modify n fun node => { node with edges }

def setNext (nodes : Nodes) (n next : Nat) : Nodes :=
  nodes.modify n fun node => { node with next }

/-- Copies what `node` leads to without taking a character, as what `clone` leads to. A way back to
`root`, where the constraint stands, ends there. Of the two ways of a fork the first is not
copied twice under one constraint. -/
def copyFrom (root : Nat) : Nat → Nat → Nat → Constraint → Nodes → Nodes
  | 0, _, _, _, nodes => nodes
  | fuel + 1, node, clone, c, nodes =>
    let { step, constraint, next, edges, .. } := nodes[node]!
    match step, edges with
    | .again _, _ =>
      let (target, nodes) := nodes.copy next c
      let nodes := (nodes.setNext clone next).setEdges clone [target]
      copyFrom root fuel next target c nodes
    | _, [] => nodes.setNext clone next
    | _, [edge] =>
      if node = root ∧ clone ≠ node then nodes.setEdges clone [edge]
      else
        let c := c.join constraint
        let (target, nodes) := nodes.copy edge c
        copyFrom root fuel edge target c (nodes.setEdges clone [target])
    | _, first :: second :: _ =>
      let (target, nodes) := match nodes.copy? first c with
        | some target => (target, nodes.setEdges clone [target])
        | none =>
          let (target, nodes) := nodes.copy first c
          (target, copyFrom root fuel first target c (nodes.setEdges clone [target]))
      let (other, nodes) := nodes.copy second c
      copyFrom root fuel second other c (nodes.setEdges clone (NodeSet.insert other [target]))

/-- Goes through the nodes that are waiting and those that they lead to without taking a character,
and copies what comes after each constraint. -/
def spreadFrom (size : Nat) :
    Nat → List Nat → Std.HashSet Nat → Nodes → Std.HashSet Nat × Nodes
  | 0, _, seen, nodes => (seen, nodes)
  | _, [], seen, nodes => (seen, nodes)
  | fuel + 1, n :: waiting, seen, nodes =>
    if seen.contains n then spreadFrom size fuel waiting seen nodes
    else
      let node := nodes[n]!
      let nodes := match node.edges with
        | edge :: _ =>
          if node.constraint.isFree || nodes[edge]!.isCopy then nodes
          else copyFrom n size n n node.constraint nodes
        | [] => nodes
      let edges := if node.step.isSilent then nodes[n]!.edges else []
      spreadFrom size fuel (edges ++ waiting) (seen.insert n) nodes

/-- Copies what comes after each constraint. -/
def spread (nodes : Nodes) : Nodes :=
  if nodes.all (·.constraint.isFree) then nodes
  else
    let size := 0x100 * (nodes.size + 1) * (nodes.size + 1)
    (spreadFrom size (4 * size) (List.range nodes.size) {} nodes).2

/-- The nodes that are reached from each one without taking a character, added from neighbours until
there is nothing to add. `fuel` is more than the number of nodes. -/
def close (nodes : Nodes) : Nat → List Nat → Array NodeSet → Array NodeSet
  | 0, _, closures => closures
  | fuel + 1, order, closures =>
    let (changed, closures) := order.foldl (fun (changed, closures) n =>
      let old := closures[n]!
      let new := nodes[n]!.edges.foldl (fun s m => NodeSet.union s closures[m]!) old
      if new.length = old.length then (changed, closures)
      else (true, closures.setIfInBounds n new)) (false, closures)
    if changed then close nodes fuel order.reverse closures else closures

def closures (nodes : Nodes) : Array NodeSet :=
  let silent := (List.range nodes.size).filter fun n => nodes[n]!.step.isSilent
  close nodes (nodes.size + 2) silent.reverse (.ofFn fun n : Fin nodes.size => [n.val])

/-- The nodes from which each one is reached without taking a character. -/
def sources (closures : Array NodeSet) : Array NodeSet :=
  (List.range closures.size).foldr (fun n sources =>
    closures[n]!.foldl (fun sources m => sources.modify m (n :: ·)) sources)
    (.replicate closures.size [])

end Nodes

/-- A regular expression as a graph. -/
structure Automaton where
  nodes : Nodes
  /-- What each node leads to without taking a character. -/
  closures : Array NodeSet
  /-- What leads to each node without taking a character. -/
  sources : Array NodeSet
  first : Nat
  /-- Where a match can be at its start. -/
  start : NodeSet
  /-- Whether there is a choice between ways. -/
  forks : Bool
  /-- Whether the text of a group is asked for again. -/
  refersBack : Bool
  /-- The groups whose text is asked for again. -/
  recalled : List Nat
  /-- Whether constraints ask for words. -/
  usesWords : Bool

namespace Automaton

def node (a : Automaton) (n : Nat) : Node := a.nodes[n]!

def step (a : Automaton) (n : Nat) : Step := (a.node n).step

def closure (a : Automaton) (n : Nat) : NodeSet := a.closures[n]!

/-- The nodes from which a node is reached without taking a character. -/
def origins (a : Automaton) (n : Nat) : NodeSet := a.sources[n]!

/-- Where the node of a back reference leads to if the text is empty. -/
def edge (a : Automaton) (n : Nat) : Nat := (a.node n).edges.headD 0

/-- Adds what comes after references to groups that can be empty. `skipped` nodes at the front were
looked at; `fuel` is more than the square of the number of nodes. -/
def passRecalls (a : Automaton) : Nat → Nat → NodeSet → NodeSet
  | 0, _, start => start
  | fuel + 1, skipped, start =>
    match start[skipped]? with
    | none => start
    | some n =>
      let target := a.edge n
      let isOpen := match a.step n with
        | .again g => (start.any fun m => (a.step m).closes g) && !start.contains target
        | _ => false
      if isOpen then a.passRecalls fuel 1 (NodeSet.union start (a.closure target))
      else a.passRecalls fuel (skipped + 1) start

/-- The automaton of a tree. `recalled` are the groups that its text refers back to; of the others
those that are `kept` have nodes. -/
def ofTree (t : Tree) (refersBack : Bool) (recalled : List Nat) (kept : Bool) : Automaton :=
  let t := t.spelledOut fun n => kept || recalled.contains n
  let t := match t with
    | .nothing => Tree.step .done
    | t => .sequence t (.step .done)
  let (first, nodes) := Nodes.ofTree t
  let nodes := nodes.spread
  let closures := nodes.closures
  let a : Automaton := {
    nodes, closures, first, recalled, refersBack
    sources := Nodes.sources closures
    start := closures[first]!
    forks := nodes.any (·.step = .fork)
    usesWords := nodes.any (·.constraint.isAboutWords) }
  { a with start := a.passRecalls (nodes.size * nodes.size + nodes.size + 1) 0 a.start }

end Automaton
end ScriptSession.Regex
