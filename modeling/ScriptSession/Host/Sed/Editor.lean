import ScriptSession.FileTree
import ScriptSession.Host.Sed.Script
/-!
The state of the stream editor. Lines are taken one after another, across files, into a space; what
is written goes to a stream or a file, and a line that had no end gets one only before more text.
-/
namespace ScriptSession.Sed

structure Options where
  silent : Bool := false
  extended : Bool := false
  /-- Whether only what the standard knows is understood. -/
  strict : Bool := false
  /-- Whether scripts may not run commands or use files of their own choice. -/
  enclosed : Bool := false
  /-- Whether every file has a last line and line numbers of its own. -/
  separate : Bool := false
  /-- What ends a line. -/
  lineEnd : Char := '\n'
  /-- Whether files are edited where they are, and what is added to the name of a copy. -/
  inPlace : Option Octets := none
  width : Nat := 70

/-- Where text is written. What is written to the standard output under its device name does not
share a line with what is printed. -/
inductive Sink
  | printed
  | output
  | error
  | file (name : Octets)
deriving DecidableEq

/-- What is put out when the round is over. -/
inductive Queued
  | text (text : Octets)
  | file (name : Octets)

/-- How far the range of a command has come. -/
inductive RangeState
  | waiting
  /-- The range goes on, up to a line if it ends at a line. -/
  | active (until? : Option Nat)
  | closed
deriving DecidableEq

/-- A line with whether its end was there. -/
abbrev Line := Octets × Bool

structure Editor where
  options : Options
  files : FileTree
  stdin : Octets
  /-- The names of the files that were not opened yet. -/
  waiting : List Octets
  name : Octets := ['-']
  lines : List Line := []
  number : Nat := 0
  space : Line := ([], true)
  held : Line := ([], true)
  replaced : Bool := false
  queue : List Queued := []
  ranges : List (Nat × RangeState) := []
  /-- The pattern that was used last, and whether only addresses used it. -/
  pattern : Option (Pattern × Bool) := none
  /-- What is left of the files that are read line by line. -/
  readers : List (Octets × List Line) := []
  /-- What was written, newest first. -/
  stdout : List Octets := []
  stderr : List Octets := []
  /-- What was printed into the file that is edited in place, newest first. -/
  edited : List Octets := []
  editing : Option Octets := none
  /-- Where the last line that was written had no end. -/
  unfinished : List Sink := []
  failed : Bool := false
  /-- Where the script ends, as complaints about it say before all else. -/
  scriptEnd : String

/-- Why a run stops before its input ends: with a status, or with a complaint and a status. -/
inductive Halt
  | quit (code : Nat)
  | panic (message : String) (code : Nat)

abbrev EditM := ExceptT Halt (StateM Editor)

/-- Cuts a text into lines. -/
def cutLines (lineEnd : Char) (text : Octets) : List Line :=
  let parts := text.splitOn lineEnd
  parts.dropLast.map (·, true) ++
    match parts.getLast? with
    | some (c :: cs) => [(c :: cs, false)]
    | _ => []

/-- A read error as programs word it. -/
def reason : ReadError → String
  | .isADirectory => "Is a directory"
  | .notADirectory => "Not a directory"
  | .notPermitted => "Permission denied"
  | _ => "No such file or directory"

/-- The bytes of a file for reading. -/
def contentOf (files : FileTree) (name : Octets) : Except ReadError Octets :=
  if name = Octets.ofString "/dev/null" then .ok []
  else match Octets.toString? name with
    | some text => (files.readBytes ⟨text⟩).map Octets.ofBytes
    | none => .error .notFound

namespace EditM

def sinkOf (name : Octets) : Sink :=
  if name = Octets.ofString "/dev/stdout" then .output
  else if name = Octets.ofString "/dev/stderr" then .error
  else .file name

/-- Adds to the content of a file that was opened for writing. -/
def appendToFile (files : FileTree) (name text : Octets) : FileTree :=
  match Octets.toString? name with
  | none => files
  | some path =>
    match files.locateNew ⟨path⟩, files.readBytes ⟨path⟩ with
    | .ok loc, .ok bytes => files.store loc (bytes ++ Octets.toBytes text)
    | _, _ => files

/-- Puts text out as it is. -/
def emit (sink : Sink) (text : Octets) : EditM Unit :=
  modify fun e =>
    match sink with
    | .printed =>
      if e.editing.isSome then { e with edited := text :: e.edited }
      else { e with stdout := text :: e.stdout }
    | .output => { e with stdout := text :: e.stdout }
    | .error => { e with stderr := text :: e.stderr }
    | .file name => { e with files := appendToFile e.files name text }

/-- Ends a line that had no end before more is written. -/
def finishLine (sink : Sink) : EditM Unit := do
  let e ← get
  if sink ∈ e.unfinished then
    emit sink [e.options.lineEnd]
    modify fun e => { e with unfinished := e.unfinished.filter (· ≠ sink) }

def writeText (sink : Sink) (text : Octets) : EditM Unit := do
  finishLine sink
  emit sink text

/-- Writes a line; one that had no end in the input gets none unless more follows. -/
def writeLine (sink : Sink) (line : Line) : EditM Unit := do
  finishLine sink
  emit sink line.1
  if line.2 then emit sink [(← get).options.lineEnd]
  else modify fun e => { e with unfinished := sink :: e.unfinished }

def complain (message : String) : EditM Unit :=
  emit .error (Octets.ofString s!"sed: {message}\n")

/-- The text of a file that was queued; one that cannot be read counts as empty. -/
def queuedText (name : Octets) : EditM Octets := do
  let e ← get
  if name = Octets.ofString "/dev/stdin" then
    set { e with stdin := [] }
    return e.stdin
  return (contentOf e.files name).toOption.getD []

/-- Puts out what was queued in this round. -/
def flushQueue : EditM Unit := do
  let e ← get
  set { e with queue := [] }
  for q in e.queue do
    writeText .printed (← match q with
      | .text text => pure text
      | .file name => queuedText name)

/-- Stores the file that was edited in place. -/
def closeEdited : EditM Unit := do
  let e ← get
  match e.editing, e.options.inPlace with
  | some name, some suffix => do
    let text : Octets := e.edited.reverse.flatten
    let store (files : FileTree) (name text : Octets) : FileTree :=
      match Octets.toString? name with
      | none => files
      | some path =>
        match files.locateNew ⟨path⟩ with
        | .ok loc => files.store loc (Octets.toBytes text)
        | .error _ => files
    let backup := if '*' ∈ suffix then suffix.flatMap fun c => if c = '*' then name else [c]
      else name ++ suffix
    let files := match suffix, contentOf e.files name with
      | [], _ => e.files
      | _, .ok old => store e.files backup old
      | _, .error _ => e.files
    set { e with files := store files name text, editing := none, edited := []
                 unfinished := e.unfinished.filter (· ≠ Sink.printed) }
  | _, _ => return

/-- Opens the next file. A directory counts as open but cannot be read. -/
def openNext : EditM (Option ReadError) := do
  let e ← get
  match e.waiting with
  | [] => return none
  | name :: waiting =>
    set { e with waiting, name, lines := [] }
    let start (text : Octets) (editing : Option Octets) : EditM Unit := do
      if e.options.separate then
        modify fun e => { e with number := 0, ranges := [], readers := [], held := ([], true) }
      modify fun e => { e with lines := cutLines e.options.lineEnd text, editing }
    if name = ['-'] ∧ e.options.inPlace.isNone then
      start e.stdin none
      modify fun e => { e with stdin := [] }
      return none
    match contentOf e.files name with
    | .ok text => do
      start text (if e.options.inPlace.isSome then some name else none)
      return none
    | .error .isADirectory =>
      if e.options.inPlace.isSome then
        throw (.panic s!"couldn't edit {name.toText}: not a regular file" 4)
      return some .isADirectory
    | .error cause => do
      complain s!"can't read {name.toText}: {reason cause}"
      modify fun e => { e with failed := true }
      return none

/-- Whether no line follows. Files without lines are passed over. `fuel` is more than the number
of files. -/
def atEnd : Nat → EditM Bool
  | 0 => return true
  | fuel + 1 => do
    let e ← get
    if e.lines ≠ [] then return false
    if e.options.separate ∨ e.waiting = [] then return true
    let _ ← openNext
    atEnd fuel

def isLast : EditM Bool := do
  atEnd ((← get).waiting.length + 1)

/-- Takes the next line, behind what the space holds if `more`; nothing if there is none. `fuel` is
more than the number of files. -/
def takeLine (more : Bool) : Nat → EditM Bool
  | 0 => return false
  | fuel + 1 => do
    let e ← get
    match e.lines with
    | line :: lines => do
      let space := if more then (e.space.1 ++ e.options.lineEnd :: line.1, line.2) else line
      set { e with lines, space, number := e.number + 1, replaced := false }
      return true
    | [] =>
      closeEdited
      if e.waiting = [] then return false
      match ← openNext with
      | some _ => throw (.panic s!"read error on {(← get).name.toText}: Is a directory" 4)
      | none => takeLine more fuel

def nextLine (more : Bool) : EditM Bool := do
  flushQueue
  takeLine more ((← get).waiting.length + 1)

/-- Complains about the script while it runs. -/
def refuse {α : Type} (complaint : Complaint) : EditM α := do
  throw (.panic ((← get).scriptEnd ++ complaint.message) 1)

/-- The pattern that is meant, which from now on is the last that was used. -/
def resolve (p : Option Pattern) (inAddress : Bool) : EditM Pattern := do
  let e ← get
  match p, e.pattern with
  | some p, _ => do
    set { e with pattern := some (p, inAddress) }
    return p
  | none, some (p, onlyAddresses) => do
    set { e with pattern := some (p, onlyAddresses && inAddress) }
    return p
  | none, none => refuse .noPattern

end EditM

end ScriptSession.Sed
