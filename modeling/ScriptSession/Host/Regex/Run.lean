import ScriptSession.Host.Regex.Recall
/-!
Going through a text as far as a match can reach.
-/
namespace ScriptSession.Regex

/-- What going through a text has found. -/
structure Outcome where
  matching : Matching
  /-- Where the longest match ends. -/
  last : Option Nat := none
  /-- How many places behind the start are no better than the start itself, and whether that is
  worth knowing. -/
  skipped : Nat := 0
  skipping : Bool := true

namespace Attempt

/-- Notes where a match ends in a state. -/
def note (t : Attempt) (pos : Nat) (s : State) (o : Outcome) : Outcome :=
  if t.haltsIn pos s then { o with last := some pos, skipping := false } else o

/-- The state at the next place, or at a later one that references have led to. -/
def step (t : Attempt) (pos : Nat) (c : Char) (s : State) (m : Matching) :
    Option (Nat × State) × Matching :=
  let (next, states) := m.states.after t.automaton s c
  let m := { m with states }
  if t.automaton.refersBack then
    match MatchM.enter t (pos + 1) next m with
    | (some s, m) => (some (pos + 1, s), m)
    | (none, m) => MatchM.recover t (m.log.size - (pos + 2)) (pos + 1) m
  else (next.map (pos + 1, ·), { m with log := m.log.push next })

/-- Goes on from a state. `still` says that the state has been the same from the start on. `fuel` is
more than the number of characters left. -/
def runFrom (t : Attempt) : Nat → Nat → State → Bool → Outcome → Outcome
  | 0, _, _, _, o => o
  | fuel + 1, pos, s, still, o =>
    match t.char? pos with
    | none => o
    | some c =>
      let { matching, last, skipped, skipping } := o
      match t.step pos c s matching with
      | (none, matching) => { matching, last, skipped, skipping }
      | (some (next, found), matching) =>
        let still := still && s.number = found.number
        let skipped := if still then pos + 1 else skipped
        runFrom t fuel next found still (t.note next found { matching, last, skipped, skipping })

/-- Goes through the text. -/
def run (t : Attempt) (states : States) : Outcome :=
  let a := t.automaton
  let (s, states) := states.findAfter a a.start (t.contextBefore 0)
  let m : Matching := { states, log := #[some s] }
  let m := if a.refersBack then
      let ((), m) := MatchM.openGroups t s.nodes 0 m
      if s.refersBack then (MatchM.follow t 0 (a.nodes.size + 1) s.nodes m).2 else m
    else m
  let atStart := if t.haltsIn 0 s then some 0 else none
  t.runFrom (t.length + 1) 0 s (!a.refersBack) { matching := m, last := atStart }

end Attempt
end ScriptSession.Regex
