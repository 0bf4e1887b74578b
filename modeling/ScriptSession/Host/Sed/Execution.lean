import ScriptSession.Host.Sed.Selection
import ScriptSession.Host.Sed.Substitution
/-!
Running scripts of the stream editor. The commands of the script work on the space, and at the end
of each round it is printed unless the editor is silent.
-/
namespace ScriptSession.Sed

namespace EditM

/-- A character of a line that is shown with what would not be seen written out. -/
def visible (c : Char) : Octets :=
  match c with
  | '\\' => ['\\', '\\']
  | '\x07' => ['\\', 'a']
  | '\x08' => ['\\', 'b']
  | '\x0c' => ['\\', 'f']
  | '\n' => ['\\', 'n']
  | '\r' => ['\\', 'r']
  | '\t' => ['\\', 't']
  | '\x0b' => ['\\', 'v']
  | c =>
    if ' ' ≤ c ∧ c ≤ '~' then [c]
    else
      let n := c.toNat
      '\\' :: [n / 64, n / 8 % 8, n % 8].map fun d => Char.ofNat ('0'.toNat + d)

/-- Puts shown characters into rows that are not wider than a width; zero is no width. -/
def rows (lineEnd : Char) (width column : Nat) : List Octets → Octets
  | [] => ['$', lineEnd]
  | shown :: rest =>
    if width ≠ 0 ∧ width - 1 < column + shown.length then
      '\\' :: lineEnd :: shown ++ rows lineEnd width shown.length rest
    else shown ++ rows lineEnd width (column + shown.length) rest

/-- What becomes of a round after a command. -/
inductive Outcome
  | goOn
  /-- Commands go on at a label. -/
  | jump (label : Octets)
  /-- The block that starts here is left out. -/
  | skipBlock
  /-- The round is over. -/
  | over
  /-- The round is over and prints nothing. -/
  | deleted
  /-- The round starts again with what is left in the space. -/
  | again
deriving DecidableEq

/-- Runs a text as a command of the shell: gives what it wrote, to its output and its error stream,
and the files it left. -/
abbrev Execute := FileTree → Octets → Octets × Octets × FileTree

def setSpace (f : Octets → Octets) : EditM Unit :=
  modify fun e => { e with space := (f e.space.1, e.space.2) }

def runCommandLine (execute : Execute) (command : Octets) : EditM Octets := do
  let e ← get
  let (out, err, files) := execute e.files command
  set { e with files }
  emit .error err
  return out

def runSubstitution (execute : Execute) (s : Substitution) : EditM Outcome := do
  let unchecked := (← get).pattern.any (·.2)
  let p ← resolve s.pattern false
  if let some n := (s.replacement.filterMap Segment.group).max? then
    let isMissing := unchecked && s.pattern.isNone && p.groups < n
    if isMissing && !(← get).options.strict then refuse (.missingGroup n)
  let e ← get
  let (text, replaced) := substituted s p e.space.1
  if replaced then
    setSpace fun _ => text
    modify fun e => { e with replaced := true }
    if s.evaluated then
      let out ← runCommandLine execute text
      setSpace fun _ => if out.getLast? = some '\n' then out.dropLast else out
    if s.printing then writeLine .printed (← get).space
    match s.target with
    | some name => writeLine (sinkOf name) (← get).space
    | none => pure ()
  return .goOn

/-- Runs the action of a command that was selected. -/
def runAction (execute : Execute) (c : Command) : EditM Outcome := do
  let e ← get
  let ended (text : Octets) := if text = [] then [] else text.dropLast ++ [e.options.lineEnd]
  match c.action with
  | .openBlock => return .goOn
  | .closeBlock => return .goOn
  | .label _ => return .goOn
  | .jump condition label => do
    match condition with
    | .always => return .jump label
    | .ifReplaced =>
      set { e with replaced := false }
      return if e.replaced then .jump label else .goOn
    | .unlessReplaced =>
      set { e with replaced := false }
      return if e.replaced then .goOn else .jump label
  | .text .after text => do
    set { e with queue := e.queue ++ [Queued.text text] }
    return .goOn
  | .text .before text => do
    writeText .printed (ended text)
    return .goOn
  | .text .instead text => do
    let active := match e.ranges.lookup c.number with
      | some (.active _) => true
      | _ => false
    if !active ∨ c.negated then writeText .printed (ended text)
    return .deleted
  | .delete => return .deleted
  | .deleteFirstLine =>
    match Octets.splitAt? e.options.lineEnd e.space.1 with
    | none => return .deleted
    | some (_, rest) => do
      setSpace fun _ => rest
      return .again
  | .execute command => do
    if command = [] then
      let out ← runCommandLine execute e.space.1
      setSpace fun _ => if out.getLast? = some '\n' then out.dropLast else out
    else
      let out ← runCommandLine execute command
      writeText .printed out
    return .goOn
  | .showFileName => do
    writeText .printed (e.name ++ [e.options.lineEnd])
    return .goOn
  | .get => do
    set { e with space := e.held }
    return .goOn
  | .getMore => do
    set { e with space := (e.space.1 ++ e.options.lineEnd :: e.held.1, e.held.2) }
    return .goOn
  | .hold => do
    set { e with held := e.space }
    return .goOn
  | .holdMore => do
    set { e with held := (e.held.1 ++ e.options.lineEnd :: e.space.1, e.space.2) }
    return .goOn
  | .exchange => do
    set { e with space := e.held, held := e.space }
    return .goOn
  | .showEscaped width => do
    let width := width.getD e.options.width
    writeText .printed (rows e.options.lineEnd width 0 (e.space.1.map visible))
    return .goOn
  | .next => do
    if ← isLast then return .over
    if !e.options.silent then writeLine .printed (← get).space
    if ← nextLine false then return .goOn else return .over
  | .nextMore => do
    if ← isLast then return if e.options.strict then .deleted else .over
    if ← nextLine true then return .goOn else return .over
  | .print => do
    writeLine .printed e.space
    return .goOn
  | .printFirstLine => do
    match Octets.splitAt? e.options.lineEnd e.space.1 with
    | some (first, _) => writeLine .printed (first, true)
    | none => writeLine .printed e.space
    return .goOn
  | .quit code printing => do
    if printing then
      if !e.options.silent then writeLine .printed e.space
      flushQueue
      finishLine .printed
    throw (.quit code)
  | .readFile name => do
    set { e with queue := e.queue ++ [Queued.file name] }
    return .goOn
  | .showFile name => do
    writeText .printed (← queuedText name)
    return .goOn
  | .readLine name => do
    let lines := (e.readers.lookup name).getD <|
      match contentOf e.files name with
      | .ok text => cutLines e.options.lineEnd text
      | .error _ => []
    match lines with
    | [] => return .goOn
    | (line, closed) :: rest => do
      let text := if closed then line ++ [e.options.lineEnd] else line
      set { e with
        readers := (name, rest) :: e.readers.filter (·.1 ≠ name)
        queue := e.queue ++ [Queued.text text] }
      return .goOn
  | .substitute s => runSubstitution execute s
  | .write name => do
    writeLine (sinkOf name) e.space
    return .goOn
  | .writeFirstLine name => do
    match Octets.splitAt? e.options.lineEnd e.space.1 with
    | some (first, _) => writeLine (sinkOf name) (first, true)
    | none => writeLine (sinkOf name) e.space
    return .goOn
  | .transliterate pairs => do
    setSpace fun text => text.map fun c => (pairs.lookup c).getD c
    return .goOn
  | .clear => do
    setSpace fun _ => []
    return .goOn
  | .showNumber => do
    writeText .printed ((toString e.number).toList ++ [e.options.lineEnd])
    return .goOn

/-- The commands after the block that was opened just before. -/
def afterBlock (depth : Nat) : List Command → List Command
  | [] => []
  | c :: rest =>
    match c.action with
    | .openBlock => afterBlock (depth + 1) rest
    | .closeBlock => if depth = 0 then rest else afterBlock (depth - 1) rest
    | _ => afterBlock depth rest

/-- The commands after a label; a jump without one goes to the end. -/
def afterLabel (label : Octets) (script : List Command) : List Command :=
  if label = [] then []
  else (script.dropWhile fun c => !c.action.labels label).drop 1

/-- Runs commands up to the end of the round. `fuel` bounds their number. -/
def runCommands (execute : Execute) (script : List Command) :
    Nat → List Command → EditM Outcome
  | 0, _ => return .over
  | _, [] => return .over
  | fuel + 1, c :: rest => do
    let selected ← selects c
    if selected == c.negated then
      let rest := if c.action matches .openBlock then afterBlock 0 rest else rest
      runCommands execute script fuel rest
    else
      match ← runAction execute c with
      | .goOn => runCommands execute script fuel rest
      | .jump label => runCommands execute script fuel (afterLabel label script)
      | outcome => return outcome

/-- The most commands of a round, and the most rounds, that are run. -/
def limit : Nat := 1000000

/-- Runs rounds until there is no line left; `fresh` says that the next one takes a new line. -/
def runRounds (execute : Execute) (script : List Command) : Nat → Bool → EditM Unit
  | 0, _ => return
  | fuel + 1, fresh => do
    if !(← if fresh then nextLine false else pure true) then return
    let outcome ← runCommands execute script limit script
    if outcome = .over ∧ !(← get).options.silent then writeLine .printed (← get).space
    flushQueue
    runRounds execute script fuel (outcome ≠ .again)

/-- The file that a command writes to. -/
def target? (c : Command) : Option Octets :=
  match c.action with
  | .write name => some name
  | .writeFirstLine name => some name
  | .substitute s => s.target
  | _ => none

/-- Empties a file that will be written to. -/
def openTarget (files : FileTree) (name : Octets) : Except ReadError FileTree :=
  match sinkOf name with
  | .file _ =>
    if name = Octets.ofString "/dev/null" then .ok files
    else (files.locateNew ⟨name.toText⟩).map (files.store · .empty)
  | _ => .ok files

/-- The last label that is jumped to and is not there; the commands come newest first. -/
def missingLabel? (commands : List Command) : Option Octets :=
  commands.findSome? fun c =>
    match c.action with
    | .jump _ label =>
      if label ≠ [] ∧ !commands.any (·.action.labels label) then some label else none
    | _ => none

end EditM

/-- What an editor leaves behind. -/
structure Edited where
  status : Nat
  stdout : Octets
  stderr : Octets
  files : FileTree
  /-- What it left of its standard input. -/
  stdin : Octets

/-- Runs a script on files; `scriptEnd` is where it ends. -/
def edit (execute : EditM.Execute) (scriptEnd : String) (options : Options)
    (script : List Command) (files : FileTree) (stdin : Octets) (names : List Octets) : Edited :=
  let start : Editor := { options, files, stdin, waiting := names, scriptEnd }
  let (result, e) := (EditM.runRounds execute script EditM.limit true).run.run start
  let ((), e) := (EditM.closeEdited).run.run e |>.map (fun _ => ()) id
  let finished (status : Nat) (e : Editor) : Edited :=
    ⟨status, e.stdout.reverse.flatten, e.stderr.reverse.flatten, e.files, e.stdin⟩
  match result with
  | .ok () => finished (if e.failed then 2 else 0) e
  | .error (.quit code) => finished (if e.failed then 2 else code) e
  | .error (.panic message code) =>
    finished code { e with stderr := Octets.ofString s!"sed: {message}\n" :: e.stderr }

end ScriptSession.Sed
