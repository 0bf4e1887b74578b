/-!
ASCII letter case. Only the letters `A` to `Z` have a lower case here; every other character,
letters beyond ASCII included, stands for itself.
-/
namespace ScriptSession.Text

/-- A text with its ASCII letters in lower case. -/
def lower (s : String) : String :=
  String.ofList (s.toList.map Char.toLower)

/-- Equality of texts up to the case of ASCII letters. -/
def sameIgnoringCase (s t : String) : Bool :=
  lower s == lower t

end ScriptSession.Text
