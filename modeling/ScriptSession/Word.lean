import ScriptSession.Text.Decimal
/-!
Script integers: 64-bit words with exact arithmetic. An operation gives the exact result where it
fits in a word and nothing where it does not; no operation wraps.
-/
namespace ScriptSession

abbrev Word := Int64

namespace Word

/-- The word of an integer, if it fits. -/
def ofInt? (n : Int) : Option Word :=
  if Int64.minValue.toInt ≤ n ∧ n ≤ Int64.maxValue.toInt then some (Int64.ofInt n) else none

def add? (a b : Word) : Option Word :=
  ofInt? (a.toInt + b.toInt)

def sub? (a b : Word) : Option Word :=
  ofInt? (a.toInt - b.toInt)

def mul? (a b : Word) : Option Word :=
  ofInt? (a.toInt * b.toInt)

def neg? (a : Word) : Option Word :=
  ofInt? (-a.toInt)

/-- The quotient rounded toward zero; the divisor is not zero. -/
def div? (a b : Word) : Option Word :=
  ofInt? (a.toInt.tdiv b.toInt)

/-- The remainder of the quotient rounded toward zero, where that quotient fits. -/
def rem? (a b : Word) : Option Word :=
  (div? a b).bind fun _ => ofInt? (a.toInt.tmod b.toInt)

/-- Reads a run of digits. -/
def ofDigits? (digits : String) : Option Word :=
  (Text.readDigits? digits.toList).bind fun n => ofInt? n

/-- Reads a run of digits that a minus sign stands before. -/
def ofNegatedDigits? (digits : String) : Option Word :=
  (Text.readDigits? digits.toList).bind fun n => ofInt? (-(n : Int))

/-- The decimal form, with a minus sign in front of a negative number. -/
def display (a : Word) : String :=
  match a.toInt with
  | .ofNat n => String.ofList (Nat.toDigits 10 n)
  | .negSucc n => "-" ++ String.ofList (Nat.toDigits 10 (n + 1))

end Word
end ScriptSession
