import ScriptSession.Host.Glob
import ScriptSession.Host.Shell.Arithmetic
import ScriptSession.Host.Shell.Reader
import ScriptSession.Host.Tools
/-!
What a running script of the shell knows and changes, and the fields that words part into.
-/
namespace ScriptSession.Shell

/-- Where a stream of a script leads: to a text that is kept aside, or to a file. -/
inductive Channel
  | kept (number : Nat)
  | file (name : Octets)
  | nothing

/-- What a script can switch on. -/
structure Switches where
  stopOnFailure : Bool := false
  stopOnUnset : Bool := false
  plainNames : Bool := false
  tracing : Bool := false

structure Machine where
  name : Octets
  params : List Octets
  values : List (Octets × Octets) := []
  /-- The names of the variables that programs get to see. -/
  exported : List Octets := []
  functions : List (Octets × Command) := []
  files : FileTree
  documents : List (Nat × Word) := []
  switches : Switches := {}
  /-- Whether a failure is being asked for, and so does not end the script. -/
  tested : Bool := false
  /-- Whether the commands run apart from the script that started them. -/
  inner : Bool := false
  /-- The signal that has ended that script meanwhile. -/
  doomed : Option (Nat × String) := none
  status : Nat := 0
  /-- How many loops are going round. -/
  loops : Nat := 0
  /-- The status of the last command whose output was put into a word. -/
  outputStatus : Nat := 0
  line : Nat := 1
  /-- The line up to which the script was read. -/
  lineRead : Nat := 1
  /-- How many functions are being called. -/
  calls : Nat := 0
  /-- The command of the shell's own that is being carried out, which complaints name. -/
  command : Option String := none
  /-- The texts that are kept aside, each in pieces, newest first. -/
  kept : Array (List Octets)
  channels : List (Nat × Channel)

/-- A machine before its first command, with something to read. -/
def Machine.start (files : FileTree) (stdin : Octets) : Machine where
  name := Octets.ofString "sh"
  params := []
  files := files
  kept := #[[stdin], [], []]
  channels := [(0, .kept 0), (1, .kept 1), (2, .kept 2)]

/-- A text that was kept aside. -/
def Machine.text (m : Machine) (number : Nat) : Octets :=
  ((m.kept[number]?).getD []).reverse.flatten

/-- Why commands stop before they are done. -/
inductive Halt
  | exit (code : Nat)
  | killed (signal : Nat) (name : String)
  | leaveFunction
  | leaveLoops (count : Nat)
  | nextRound (count : Nat)

abbrev RunM := ExceptT Halt (StateM Machine)

/-- What a script sees as the number of its own process. -/
def ownPid : Octets := ['$', '$']

/-- The signals that end a process, by number and name. -/
def deadlySignals : List (Nat × String) :=
  [(1, "HUP"), (2, "INT"), (3, "QUIT"), (4, "ILL"), (5, "TRAP"), (6, "ABRT"), (7, "BUS"),
   (8, "FPE"), (9, "KILL"), (10, "USR1"), (11, "SEGV"), (12, "USR2"), (13, "PIPE"), (14, "ALRM"),
   (15, "TERM"), (16, "STKFLT"), (24, "XCPU"), (25, "XFSZ"), (26, "VTALRM"), (27, "PROF"),
   (29, "IO"), (30, "PWR"), (31, "SYS")]

/-- Signals that a process lives on after. -/
def harmlessSignals : List (Nat × String) :=
  [(0, "EXIT"), (17, "CHLD"), (18, "CONT"), (23, "URG"), (28, "WINCH")]

/-- The number of a whole text of digits. -/
def digits? (cs : Octets) : Option Nat :=
  if cs ≠ [] ∧ cs.all Char.isDigit then some (Octets.readNumber 10 cs.length 0 0 cs).1 else none

/-- The signal that a text names. -/
def signal? (cs : Octets) : Option (Nat × String) :=
  let all := deadlySignals ++ harmlessSignals
  match digits? cs with
  | some n => all.find? (·.1 = n)
  | none => all.find? (·.2.toList = cs.map Octets.toUpper)

namespace RunM

/-- Writes to a stream; says whether it is open. -/
def write (stream : Nat) (text : Octets) : RunM Bool := do
  let m ← get
  match m.channels.lookup stream with
  | some (.kept n) => do
    set { m with kept := m.kept.modify n (text :: ·) }
    return true
  | some (.file name) => do
    set { m with files := Sed.EditM.appendToFile m.files name text }
    return true
  | some .nothing => return true
  | none => return false

/-- What has not been read of a stream. -/
def unread (stream : Nat) : RunM Octets := do
  let m ← get
  match m.channels.lookup stream with
  | some (.kept n) => return m.text n
  | some (.file name) => return (Sed.contentOf m.files name).toOption.getD []
  | _ => return []

/-- Leaves a text to be read from a stream. -/
def leave (stream : Nat) (text : Octets) : RunM Unit := do
  let m ← get
  match m.channels.lookup stream with
  | some (.kept n) => set { m with kept := m.kept.modify n fun _ => [text] }
  | _ => return

/-- Keeps a new text aside. -/
def keep (text : Octets) : RunM Nat := do
  let m ← get
  set { m with kept := m.kept.push [text] }
  return m.kept.size

def complain (message : String) : RunM Unit := do
  let m ← get
  let command := (m.command.map (· ++ ": ")).getD ""
  let _ ← write 2 (m.name ++ Octets.ofString s!": {m.line}: {command}" ++
    Octets.ofString message ++ ['\n'])

/-- Complains and ends the script. -/
def fail {α : Type} (message : String) : RunM α := do
  complain message
  throw (.exit 2)

def setStatus (code : Nat) : RunM Unit :=
  modify fun m => { m with status := code }

def setVariable (name value : Octets) : RunM Unit :=
  modify fun m => { m with values := (name, value) :: m.values.filter (·.1 ≠ name) }

/-- Runs commands in which failing is no reason to stop. -/
def whileTested (body : RunM Unit) : RunM Unit := do
  let outer := (← get).tested
  modify fun m => { m with tested := true }
  body
  modify fun m => { m with tested := outer }

/-- Ends a script that is to stop on failure if the last command failed. -/
def checkStatus : RunM Unit := do
  let m ← get
  if m.switches.stopOnFailure ∧ !m.tested ∧ m.status ≠ 0 then throw (.exit m.status)

/-- Ends a script that was sent a signal by commands that ran apart from it. -/
def checkDoom : RunM Unit := do
  let m ← get
  if let some (signal, name) := m.doomed then
    if !m.inner then throw (.killed signal name)

/-- Runs commands that a signal to the script does not end. -/
def asInner {α : Type} (body : RunM α) : RunM α := do
  let outer := (← get).inner
  modify fun m => { m with inner := true }
  let a ← body
  modify fun m => { m with inner := outer }
  checkDoom
  return a

/-- Runs commands apart: what they change but files and what was written is lost. Gives how they
ended. -/
def apart (body : RunM Unit) : RunM Nat := do
  let outer ← get
  let (result, m) := body.run.run { outer with inner := true, lineRead := 1 }
  set { outer with
    files := { m.files with cwd := outer.files.cwd }, kept := m.kept, doomed := m.doomed }
  checkDoom
  match result with
  | .error (.exit code) => return code
  | _ => return m.status

/-- Runs commands with streams of their own. -/
def withChannels {α : Type} (channels : List (Nat × Channel)) (body : RunM α) : RunM α := do
  let outer ← get
  let (result, m) := body.run.run { outer with channels }
  set { m with channels := outer.channels }
  match result with
  | .ok a => return a
  | .error halt => throw halt

/-- Runs commands whose output is kept and given. -/
def capture (body : RunM Unit) : RunM Octets := do
  let n ← keep []
  let channels := (1, Channel.kept n) :: (← get).channels.filter (·.1 ≠ 1)
  withChannels channels body
  return (← get).text n

/-- The value of a parameter, if it has one. Those of all parameters stand one after another. -/
def value? (name : Octets) : RunM (Option Octets) := do
  let m ← get
  match name with
  | ['@'] => return some ([' '].intercalate m.params)
  | ['*'] => do
    let between := match m.values.lookup (Octets.ofString "IFS") with
      | some [] => []
      | some (c :: _) => [c]
      | none => [' ']
    return some (between.intercalate m.params)
  | ['#'] => return some (toString m.params.length).toList
  | ['?'] => return some (toString m.status).toList
  | ['$'] => return some ownPid
  | ['!'] => return none
  | ['-'] => do
    let letters : List (Bool × Char) :=
      [(m.switches.stopOnFailure, 'e'), (m.switches.plainNames, 'f'), (m.switches.tracing, 'x'),
       (m.switches.stopOnUnset, 'u')]
    return some (letters.filterMap fun (on, c) => if on then some c else none)
  | _ =>
    match digits? name with
    | some 0 => return some m.name
    | some n => return m.params[n - 1]?
    | none => return m.values.lookup name

/-- The characters that part fields. -/
def separators : RunM Octets := do
  return (← value? (Octets.ofString "IFS")).getD [' ', '\t', '\n']

end RunM

/-- A part of a word that was read: a character, with whether it is quoted and whether it comes
from a value that may part into fields; the end of a field; or a field that may be empty. -/
inductive Cell
  | char (c : Char) (quoted splits : Bool)
  | edge
  | field

namespace Cell

def ofText (quoted splits : Bool) (s : Octets) : List Cell :=
  s.map fun c => .char c quoted splits

/-- The characters of cells, with blanks where fields end. -/
def pattern (cells : List Cell) : Glob.Pattern :=
  cells.filterMap fun
    | .char c quoted _ => some (c, quoted)
    | .edge => some (' ', true)
    | .field => none

def text (cells : List Cell) : Octets :=
  (pattern cells).map (·.1)

/-- Parts cells into fields at separators. Blank ones count once however many there are, and go
together with one that is not blank. `open?` is the field that has begun, in reverse; `blank` says
that blanks have just ended one. -/
def fields (separators : Octets) (open? : Option Glob.Pattern) (blank : Bool) :
    List Cell → List Glob.Pattern
  | [] => open?.toList.map List.reverse
  | .edge :: rest => open?.toList.map List.reverse ++ fields separators none false rest
  | .field :: rest => fields separators (some (open?.getD [])) false rest
  | .char c quoted splits :: rest =>
    if splits && separators.contains c then
      let ended := open?.toList.map List.reverse
      if c = ' ' ∨ c = '\t' ∨ c = '\n' then
        ended ++ fields separators none (blank || open?.isSome) rest
      else if open?.isSome ∨ blank then ended ++ fields separators none false rest
      else [] :: fields separators none false rest
    else fields separators (some ((c, quoted) :: open?.getD [])) false rest

end Cell

end ScriptSession.Shell
