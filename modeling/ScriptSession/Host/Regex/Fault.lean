/-!
What can be wrong with a regular expression.
-/
namespace ScriptSession.Regex

inductive Fault
  | badPattern | collation | className | trailingBackslash | backReference | openBracket | openGroup
  | openInterval | intervalContent | rangeEnd | repetition | tooBig | closeGroup
deriving DecidableEq, Repr

def Fault.message : Fault → String
  | badPattern => "Invalid regular expression"
  | collation => "Invalid collation character"
  | className => "Invalid character class name"
  | trailingBackslash => "Trailing backslash"
  | backReference => "Invalid back reference"
  | openBracket => "Unmatched [, [^, [:, [., or [="
  | openGroup => "Unmatched ( or \\("
  | openInterval => "Unmatched \\\x7b"
  | intervalContent => "Invalid content of \\\x7b\\\x7d"
  | rangeEnd => "Invalid range end"
  | repetition => "Invalid preceding regular expression"
  | tooBig => "Regular expression too big"
  | closeGroup => "Unmatched ) or \\)"

end ScriptSession.Regex
