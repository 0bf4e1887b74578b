import ScriptSession.Host.Regex.Automaton
import Std.Data.HashMap
/-!
States of an automaton: the nodes that matching can be at. States are kept in a table, together with
where each of them leads, so that the same nodes are put together only once.
-/
namespace ScriptSession.Regex

/-- What stands on one side of a place. -/
structure Context where
  word : Bool := false
  lineBreak : Bool := false
  textStart : Bool := false
  textEnd : Bool := false
deriving DecidableEq, Hashable, Repr

/-- Whether a constraint allows what stands before its place. -/
def Constraint.allowsBefore (c : Constraint) (before : Context) : Bool :=
  (!c.afterWord || before.word) && (!c.afterNoWord || !before.word) &&
    (!c.afterBreak || before.lineBreak) && (!c.afterStart || before.textStart)

/-- Whether a constraint allows what stands after its place. -/
def Constraint.allowsAfter (c : Constraint) (after : Context) : Bool :=
  (!c.beforeWord || after.word) && (!c.beforeNoWord || !after.word) &&
    (!c.beforeBreak || after.lineBreak) && (!c.beforeEnd || after.textEnd)

/-- What a character is to a constraint. Words matter only if some constraint asks for them. -/
def Automaton.contextOf (a : Automaton) (c : Char) (breaksLine : Bool) : Context :=
  if a.usesWords && CharSet.word.contains c then { word := true }
  else { lineBreak := breaksLine && c = '\n' }

/-- Whether a node takes a character. To constraints every line break ends a line. -/
def Automaton.takes (a : Automaton) (c : Char) (n : Nat) : Bool :=
  let node := a.node n
  match node.step with
  | .one s => s.contains c && node.constraint.allowsAfter (a.contextOf c true)
  | _ => false

structure State where
  /-- Tells states apart. -/
  number : Nat
  /-- The nodes that were reached. -/
  entrance : NodeSet
  /-- Those of them whose constraints allow what stands before the place. -/
  nodes : NodeSet
  /-- Whether a match may end here. -/
  halts : Bool
  constrained : Bool
  refersBack : Bool
deriving Repr

instance : Inhabited State := ⟨⟨0, [], [], false, false, false⟩⟩

/-- Whether some of the nodes refers back to a group. -/
def Automaton.anyRecall (a : Automaton) (nodes : NodeSet) : Bool :=
  nodes.any fun n => a.step n matches .again _

/-- Those of the nodes whose constraints allow what stands before them. -/
def Automaton.allowed (a : Automaton) (before : Context) (nodes : NodeSet) : NodeSet :=
  nodes.filter fun n => (a.node n).constraint.allowsBefore before

def Automaton.stateOf (a : Automaton) (number : Nat) (entrance : NodeSet) (before : Context) :
    State where
  number
  entrance
  nodes := a.allowed before entrance
  halts := entrance.any fun n => a.step n = .done
  constrained := entrance.any fun n => !(a.node n).constraint.isFree
  refersBack := a.anyRecall entrance

/-- The states that have come up, and where they lead. -/
structure States where
  known : Std.HashMap (NodeSet × Context) State := {}
  moves : Std.HashMap Nat (Option State) := {}

namespace States

/-- The state of some nodes. -/
def find (a : Automaton) (entrance : NodeSet) (before : Context) (states : States) :
    State × States :=
  match states.known[(entrance, before)]? with
  | some s => (s, states)
  | none =>
    let s := a.stateOf states.known.size entrance before
    (s, { states with known := states.known.insert (entrance, before) s })

/-- The state of some nodes; what stands before them matters only if there are constraints. -/
def findAfter (a : Automaton) (entrance : NodeSet) (before : Context) (states : States) :
    State × States :=
  let (s, states) := states.find a entrance {}
  if s.constrained then states.find a entrance before else (s, states)

/-- The state that a character leads to, if it leads anywhere. -/
def after (a : Automaton) (s : State) (c : Char) (states : States) : Option State × States :=
  let key := s.number * 0x100 + c.toNat
  match states.moves[key]? with
  | some s => (s, states)
  | none =>
    let targets := NodeSet.flatten
      ((s.nodes.filter (a.takes c)).map fun n => a.closure (a.node n).next)
    let (found, states) :=
      if targets.isEmpty then (none, states)
      else
        let (s, states) := states.findAfter a targets (a.contextOf c true)
        (some s, states)
    (found, { states with moves := states.moves.insert key found })

end States
end ScriptSession.Regex
