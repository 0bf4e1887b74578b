/-!
Sets of nodes as lists in increasing order.
-/
namespace ScriptSession.Regex

abbrev NodeSet := List Nat

namespace NodeSet

def insert (n : Nat) : NodeSet → NodeSet
  | [] => [n]
  | m :: ms => if n < m then n :: m :: ms else if n = m then m :: ms else m :: insert n ms

def union : NodeSet → NodeSet → NodeSet
  | [], t => t
  | s, [] => s
  | n :: s, m :: t =>
    if n < m then n :: union s (m :: t)
    else if m < n then m :: union (n :: s) t
    else n :: union s t
termination_by s t => s.length + t.length

def inter : NodeSet → NodeSet → NodeSet
  | [], _ => []
  | _, [] => []
  | n :: s, m :: t =>
    if n < m then inter s (m :: t)
    else if m < n then inter (n :: s) t
    else n :: inter s t
termination_by s t => s.length + t.length

/-- The union of sets. -/
def flatten (sets : List NodeSet) : NodeSet :=
  sets.foldl union []

end NodeSet
end ScriptSession.Regex
