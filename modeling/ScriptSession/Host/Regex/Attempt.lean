import ScriptSession.Host.Regex.State
/-!
Attempts to match a text from one of its places on. Places are counted from there.
-/
namespace ScriptSession.Regex

structure Attempt where
  automaton : Automaton
  text : Array Char
  start : Nat
  /-- Whether line breaks inside the text start and end lines. -/
  multiline : Bool

namespace Attempt

def length (t : Attempt) : Nat := t.text.size - t.start

def char? (t : Attempt) (pos : Nat) : Option Char := t.text[t.start + pos]?

/-- What stands after a place. -/
def contextAfter (t : Attempt) (pos : Nat) : Context :=
  match t.char? pos with
  | none => { lineBreak := true, textEnd := true }
  | some c => t.automaton.contextOf c t.multiline

/-- What stands before a place. -/
def contextBefore (t : Attempt) (pos : Nat) : Context :=
  match t.start + pos with
  | 0 => { lineBreak := true, textStart := true }
  | before + 1 => ((t.text[before]?).map (t.automaton.contextOf · t.multiline)).getD {}

/-- Whether the constraint of a node allows what stands after a place. -/
def allows (t : Attempt) (pos : Nat) (n : Nat) : Bool :=
  (t.automaton.node n).constraint.allowsAfter (t.contextAfter pos)

/-- Whether a node takes the character at a place. -/
def accepts (t : Attempt) (pos : Nat) (n : Nat) : Bool :=
  match t.automaton.step n, t.char? pos with
  | .one s, some c => s.contains c && t.allows pos n
  | _, _ => false

/-- The node at which a match ends at a place. -/
def halt? (t : Attempt) (pos : Nat) (nodes : NodeSet) : Option Nat :=
  nodes.find? fun n => t.automaton.step n = .done && t.allows pos n

/-- Whether a match ends at a place in a state. -/
def haltsIn (t : Attempt) (pos : Nat) (s : State) : Bool :=
  s.halts && (!s.constrained || (t.halt? pos s.nodes).isSome)

/-- Whether the same text of a length stands at two places. -/
def same (t : Attempt) (first second length : Nat) : Bool :=
  (List.range length).all fun k => t.char? (first + k) = t.char? (second + k)

end Attempt
end ScriptSession.Regex
