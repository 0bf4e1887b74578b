import ScriptSession.Host.Shell.Token
/-!
Taking characters from the front of a script of the shell, with the line for complaints.
-/
namespace ScriptSession.Shell

/-- A text that a script announced and that starts on the next line. -/
structure Announced where
  number : Nat
  stop : Octets
  literal : Bool
  withoutTabs : Bool

/-- How far a script has been read. -/
structure Cursor where
  rest : Octets
  line : Nat := 1
  last : Token := .newline
  /-- Whether the last token is to be looked at again. -/
  again : Bool := false
  announced : List Announced := []
  documents : List (Nat × Word) := []

/-- What is wrong with a script, and on which line that shows. -/
structure Fault where
  line : Nat
  message : String

abbrev ReadM := ExceptT Fault (StateM Cursor)

namespace ReadM

def fail {α : Type} (message : String) : ReadM α := do
  throw ⟨(← get).line, message⟩

def peek : ReadM (Option Char) :=
  return (← get).rest.head?

def next : ReadM (Option Char) := do
  let c ← get
  match c.rest with
  | [] => return none
  | x :: rest => do
    set { c with rest, line := if x = '\n' then c.line + 1 else c.line }
    return some x

def skip : ReadM Unit := do
  let _ ← next

/-- Takes a character if it comes next. -/
def take (x : Char) : ReadM Bool := do
  if (← peek) = some x then
    skip
    return true
  return false

def takeWhile (p : Char → Bool) : ReadM Octets := do
  let cs := (← get).rest.takeWhile p
  modify fun c => { c with rest := c.rest.drop cs.length, line := c.line + cs.count '\n' }
  return cs

/-- Passes over lines that are continued here. `fuel` is more than the length of the text. -/
def joinLines : Nat → ReadM Unit
  | 0 => return
  | fuel + 1 => do
    match (← get).rest with
    | '\\' :: '\n' :: _ => do
      skip
      skip
      joinLines fuel
    | _ => return

/-- Looks at a token again. -/
def putBack : ReadM Unit :=
  modify fun c => { c with again := true }

/-- Complains about the last token. -/
def unexpected {α : Type} (wanted : Option Token) : ReadM α := do
  let name := (← get).last.name
  match wanted with
  | some t => fail s!"{name} unexpected (expecting {t.name})"
  | none => fail s!"{name} unexpected"

end ReadM

end ScriptSession.Shell
