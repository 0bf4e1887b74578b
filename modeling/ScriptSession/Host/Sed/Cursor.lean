import ScriptSession.Host.Sed.Script
/-!
Taking the parts of commands from the front of a script.
-/
namespace ScriptSession.Sed

/-- Reads from the front of a text; what is left stays known when a complaint is made. -/
abbrev ReadM := ExceptT Complaint (StateM Octets)

namespace ReadM

def peek : ReadM (Option Char) :=
  return (← get).head?

def next : ReadM (Option Char) := do
  let cs ← get
  set cs.tail
  return cs.head?

def skip (p : Char → Bool) : ReadM Unit :=
  modify (·.dropWhile p)

def ofExcept {α : Type} : Except Complaint α → ReadM α
  | .ok a => return a
  | .error c => throw c

/-- A number, which is counted modulo the size of a machine word. -/
def number : ReadM Nat := do
  let cs ← get
  let digits := cs.takeWhile Char.isDigit
  set (cs.drop digits.length)
  return (digits.foldl (fun n c => n * 10 + (c.toNat - '0'.toNat)) 0) % 0x10000000000000000

/-- The end of a command: the end of the line, a semicolon, or what may follow without one. -/
def endOfCommand : ReadM Unit := do
  skip Octets.isBlank
  match ← peek with
  | none => return
  | some c =>
    if c = '\x7d' ∨ c = '#' then return
    let _ ← next
    if c = '\n' ∨ c = ';' then return
    throw .extraCharacters

/-- The rest of the line. -/
def restOfLine : ReadM Octets := do
  let cs ← get
  let line := cs.takeWhile (· ≠ '\n')
  set ((cs.drop line.length).drop 1)
  return line

def fileName : ReadM Octets := do
  skip Octets.isBlank
  let name ← restOfLine
  if name = [] then throw .missingFileName
  return name

def labelName : ReadM Octets := do
  skip Octets.isBlank
  let cs ← get
  let name := cs.takeWhile fun c => !(Octets.isSpace c || c = ';' || c = '\x7d' || c = '#')
  set (cs.drop name.length)
  return name

end ReadM

/-- Where a pattern is with respect to bracket sets. -/
inductive BracketState
  | outside
  /-- Right after the opening, or after the caret there. -/
  | opening (caret : Bool)
  | inside
  /-- Inside a class, up to this mark. -/
  | named (mark : Char)
deriving DecidableEq

/-- The state after a character. -/
def BracketState.after (previous : Option Char) (c : Char) : BracketState → BracketState
  | .outside => if c = '[' then .opening true else .outside
  | .opening caret =>
    if c = '^' ∧ caret then .opening false
    else if c = '[' then .inside
    else .inside
  | .inside =>
    if c = ']' then .outside
    else if previous = some '[' ∧ (c = ':' ∨ c = '.' ∨ c = '=') then .named c
    else .inside
  | .named mark => if c = ']' ∧ previous = some mark then .inside else .named mark

/-- Takes a part of a command up to its delimiter, which a backslash or, in a pattern, a bracket
set may keep from ending it. Nothing if the line ends before. The part is gathered in reverse. Only
a `strict` reading takes backslashes in bracket sets as they are written. -/
def delimited? (delimiter : Char) (isPattern strict : Bool) (state : BracketState)
    (taken : Octets) : Octets → Option (Octets × Octets) × Octets
  | [] => (none, [])
  | ['\\'] => if delimiter = '\\' then (some (taken.reverse, []), []) else (none, [])
  | '\\' :: c :: cs =>
    if delimiter = '\\' then (some (taken.reverse, c :: cs), c :: cs)
    else if strict ∧ isPattern ∧ state ≠ .outside then
      delimited? delimiter isPattern strict (state.after taken.head? '\\') ('\\' :: taken) (c :: cs)
    else if c = '\n' then delimited? delimiter isPattern strict state ('\n' :: taken) cs
    else if c = delimiter ∧ (if isPattern then state = .outside else c ≠ '&') then
      delimited? delimiter isPattern strict (state.after taken.head? c) (c :: taken) cs
    else if isPattern ∧ state ≠ .outside then
      if c = 'n' then delimited? delimiter isPattern strict .inside ('\n' :: taken) cs
      else
        let inner := (state.after taken.head? '\\').after (some '\\') c
        delimited? delimiter isPattern strict inner (c :: '\\' :: taken) cs
    else delimited? delimiter isPattern strict state (c :: '\\' :: taken) cs
  | c :: cs =>
    if c = '\n' then (none, c :: cs)
    else if c = delimiter ∧ (!isPattern ∨ state = .outside) then
      (some (taken.reverse, cs), cs)
    else delimited? delimiter isPattern strict (state.after taken.head? c) (c :: taken) cs

def delimited (delimiter : Char) (isPattern strict : Bool) (open? : Complaint) :
    ReadM Octets := do
  match delimited? delimiter isPattern strict .outside [] (← get) with
  | (some (part, rest), _) => set rest; return part
  | (none, rest) => set rest; throw open?

end ScriptSession.Sed
