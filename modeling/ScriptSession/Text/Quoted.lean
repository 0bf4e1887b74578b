import ScriptSession.Text.Unprintable
/-!
Quoted display of a text: quotes around it, a backslash before quotes and backslashes, short
escapes for tab, carriage return, line feed and NUL, and the code point in hexadecimal for every
other character that does not print as itself.
-/
namespace ScriptSession.Text

/-- A code point in lower-case hexadecimal, without leading zeros. -/
def hexDigits (n : Nat) : List Char :=
  Nat.toDigits 16 n

/-- How one character is shown inside quotes. -/
def quoteChar (c : Char) : List Char :=
  if c = Char.ofNat 0 then ['\\', '0']
  else if c = '\t' then ['\\', 't']
  else if c = '\r' then ['\\', 'r']
  else if c = '\n' then ['\\', 'n']
  else if c = '"' ∨ c = '\\' then ['\\', c]
  else if isUnprintable c then ['\\', 'u', '\x7b'] ++ hexDigits c.toNat ++ ['\x7d']
  else [c]

/-- A text between quotes. -/
def quote (cs : List Char) : List Char :=
  '"' :: (cs.flatMap quoteChar ++ ['"'])

end ScriptSession.Text
