/-!
Decimal numerals. A numeral is a nonempty run of ASCII digits; reading one with a bound fails where
the number is too large, and an unsigned numeral may carry one leading plus sign.
-/
namespace ScriptSession.Text

/-- The number that a run of digits denotes. -/
def digitsValue (cs : List Char) : Nat :=
  cs.foldl (fun n c => 10 * n + (c.toNat - '0'.toNat)) 0

/-- Reads a nonempty run of digits. -/
def readDigits? (cs : List Char) : Option Nat :=
  if cs ≠ [] ∧ cs.all Char.isDigit then some (digitsValue cs) else none

/-- Reads an unsigned numeral below `bound`, with at most one plus sign in front. -/
def readNatural? (bound : Nat) (cs : List Char) : Option Nat :=
  let digits := match cs with
    | '+' :: rest => rest
    | _ => cs
  (readDigits? digits).filter (· < bound)

end ScriptSession.Text
