/-!
Cutting a text at a separator. A cut at the first or last occurrence of a character gives the
parts on its two sides; a cut at every occurrence gives one more part than there are separators.
-/
namespace ScriptSession.Text

/-- The parts before and after the first `sep`, if there is one. -/
def cutFirst (sep : Char) (cs : List Char) : Option (List Char × List Char) :=
  match cs.span (· ≠ sep) with
  | (_, []) => none
  | (before, _ :: after) => some (before, after)

/-- The parts before and after the last `sep`, if there is one. -/
def cutLast (sep : Char) (cs : List Char) : Option (List Char × List Char) :=
  (cutFirst sep cs.reverse).map fun (after, before) => (before.reverse, after.reverse)

/-- What follows `lead`, if the text starts with it. -/
def afterLead (lead cs : List Char) : Option (List Char) :=
  lead.isPrefixOf? cs

/-- What stands before `tail`, if the text ends with it. -/
def beforeTail (tail cs : List Char) : Option (List Char) :=
  (tail.reverse.isPrefixOf? cs.reverse).map List.reverse

/-- Joins parts with a separator between neighbours. -/
def joinWith (sep : List Char) (parts : List (List Char)) : List Char :=
  sep.intercalate parts

end ScriptSession.Text
