import ScriptSession.Text.Cut
/-!
Lines of a text. A line ends at a line feed, and one carriage return before that line feed belongs
to the ending; the part after the last line feed is a line unless it is empty.
-/
namespace ScriptSession.Text

/-- The parts between line feeds; a text without any is one part. -/
def rows (cs : List Char) : List (List Char) :=
  cs.splitOn '\n'

/-- Drops one carriage return at the end of a row that a line feed closed. -/
def closeRow (row : List Char) : List Char :=
  (beforeTail ['\r'] row).getD row

/-- The lines of a text without their endings. -/
def lines (cs : List Char) : List (List Char) :=
  (rows cs).dropLast.map closeRow ++ ((rows cs).getLast?.filter (· ≠ [])).toList

/-- Pairs every element with its index, counted from `start`. -/
def numbered {α : Type} (start : Nat) (xs : List α) : List (Nat × α) :=
  (List.range' start xs.length).zip xs

end ScriptSession.Text
