import ScriptSession.Host.Sed.Script
/-!
Escapes in scripts of the stream editor: characters written by a name or a number.
-/
namespace ScriptSession.Sed

/-- What an escape stands for. -/
inductive Escape
  /-- A character written by its name or its number. -/
  | named (c : Char)
  | numbered (c : Char)
  /-- The start of a control character that is missing. -/
  | unfinished
  /-- A backslash before a character without a meaning of its own. -/
  | none

/-- The character of a number in a base, if there is one, and what follows. -/
def numbered (base most : Nat) (cs rest : Octets) : Escape × Octets :=
  match Octets.readNumber base most 0 0 cs with
  | (_, 0, _) => (.none, rest)
  | (n, _, after) => (.numbered (Char.ofNat (n % 256)), after)

/-- The escape whose text after the backslash is at the front. -/
def escape : Octets → Except Complaint (Escape × Octets)
  | 'a' :: cs => .ok (.named '\x07', cs)
  | 'f' :: cs => .ok (.named '\x0c', cs)
  | 'n' :: cs => .ok (.named '\n', cs)
  | 'r' :: cs => .ok (.named '\r', cs)
  | 't' :: cs => .ok (.named '\t', cs)
  | 'v' :: cs => .ok (.named '\x0b', cs)
  | 'd' :: cs => .ok (numbered 10 3 cs ('d' :: cs))
  | 'o' :: cs => .ok (numbered 8 3 cs ('o' :: cs))
  | 'x' :: cs => .ok (numbered 16 2 cs ('x' :: cs))
  | 'c' :: '\\' :: '\\' :: cs => .ok (.numbered '\x1c', cs)
  | 'c' :: '\\' :: _ => .error .recursiveEscape
  | ['c'] => .ok (.unfinished, [])
  | 'c' :: c :: cs => .ok (.numbered (Char.ofNat ((Octets.toUpper c).toNat ^^^ 0x40)), cs)
  | cs => .ok (.none, cs)

/-- Replaces the escapes of a text, each by what `show` makes of its character; a backslash without
a meaning stays where `keep` says so. `fuel` is at least the length of the text. -/
def unescape (shown : Char → Octets) (keep : Bool) : Nat → Octets → Except Complaint Octets
  | fuel + 1, '\\' :: cs => do
    match ← escape cs with
    | (.named c, rest) => return c :: (← unescape shown keep fuel rest)
    | (.numbered c, rest) => return shown c ++ (← unescape shown keep fuel rest)
    | (.unfinished, _) => return if keep then ['\\'] else []
    | (.none, []) => return ['\\']
    | (.none, c :: rest) =>
      return (if keep then ['\\', c] else [c]) ++ (← unescape shown keep fuel rest)
  | fuel + 1, c :: cs => return c :: (← unescape shown keep fuel cs)
  | _, cs => return cs

/-- The text of a pattern without its escapes; those of the pattern itself stay. -/
def patternText (cs : Octets) : Except Complaint Octets :=
  unescape (fun c => [c]) true cs.length cs

/-- Where a text is with respect to bracket sets, and the last two characters before. -/
structure Surroundings where
  inside : Bool := false
  /-- The mark of the class that the text is in. -/
  mark : Option Char := none
  last : Option Char := none
  beforeLast : Option Char := none

/-- The surroundings behind a character. -/
def Surroundings.after (s : Surroundings) (c : Char) : Surroundings :=
  let s := match s.mark with
    | some mark =>
      if c = ']' ∧ s.last = some mark ∧ s.beforeLast ≠ some mark then { s with mark := none }
      else s
    | none =>
      if c = '[' then { s with inside := true }
      else if s.inside && (c = ':' || c = '.' || c = '=') && s.last = some '[' then
        { s with mark := some c }
      else if c = ']' then { s with inside := false }
      else s
  { s with last := some c, beforeLast := s.last }

/-- The text of a pattern without its escapes; in bracket sets a backslash stands for itself. `fuel`
is at least the length of the text. -/
def strictPatternText : Nat → Surroundings → Octets → Except Complaint Octets
  | fuel + 1, s, '\\' :: cs =>
    if s.inside then return '\\' :: (← strictPatternText fuel (s.after '\\') cs)
    else do
      let go (shown rest : Octets) : Except Complaint Octets := do
        return shown ++ (← strictPatternText fuel (shown.foldl Surroundings.after s) rest)
      match ← escape cs with
      | (.named c, rest) | (.numbered c, rest) => go [c] rest
      | (.unfinished, _) | (.none, []) => return ['\\']
      | (.none, c :: rest) => go ['\\', c] rest
  | fuel + 1, s, c :: cs => return c :: (← strictPatternText fuel (s.after c) cs)
  | _, _, cs => return cs

/-- The text of a replacement without its escapes. A character with a meaning in replacements is
kept from it if it was written as a number. -/
def replacementText (cs : Octets) : Except Complaint Octets :=
  unescape (fun c => if c = '&' ∨ c = '\\' then ['\\', c] else [c]) true cs.length cs

/-- A text to be printed, without its escapes. -/
def plainText (cs : Octets) : Except Complaint Octets :=
  unescape (fun c => [c]) false cs.length cs

end ScriptSession.Sed
