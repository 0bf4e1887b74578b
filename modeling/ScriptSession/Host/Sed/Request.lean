import ScriptSession.Host.Arguments
import ScriptSession.Host.Sed.Execution
import ScriptSession.Host.Sed.Reader
/-!
What the stream editor is asked to do: its options, the parts of its script and its files.
-/
namespace ScriptSession.Sed

inductive EditFlag
  | silent | extended | strict | enclosed | separate | zero
  | expression | scriptFile | inPlace | width | version | help
  /-- Taken, but without an effect on what is written. -/
  | accepted
deriving DecidableEq

def editFlags : List (Flag EditFlag) :=
  [{ flag := .accepted, letters := ['b'], names := ["binary"] },
   { flag := .extended, letters := ['r', 'E'], names := ["regexp-extended"] },
   { flag := .accepted, names := ["debug"] },
   { flag := .inPlace, arity := .optional, letters := ['i'], names := ["in-place"] },
   { flag := .expression, arity := .required, letters := ['e'], names := ["expression"] },
   { flag := .scriptFile, arity := .required, letters := ['f'], names := ["file"] },
   { flag := .width, arity := .required, letters := ['l'], names := ["line-length"] },
   { flag := .zero, letters := ['z'], names := ["null-data", "zero-terminated"] },
   { flag := .silent, letters := ['n'], names := ["quiet", "silent"] },
   { flag := .strict, names := ["posix"] },
   { flag := .enclosed, names := ["sandbox"] },
   { flag := .separate, letters := ['s'], names := ["separate"] },
   { flag := .accepted, letters := ['u'], names := ["unbuffered"] },
   { flag := .version, names := ["version"] },
   { flag := .help, names := ["help"] },
   { flag := .accepted, names := ["follow-symlinks"] }]

/-- Where a part of a script comes from. -/
inductive Source
  | expression (number : Nat)
  | file (name : Octets)

structure Part where
  source : Source
  text : Octets

/-- How a complaint is given about a place in a part, or about nothing that has a place. -/
def Part.locate (part : Part) (looked : Option Nat) (message : String) : String :=
  match part.source with
  | .expression n => s!"-e expression #{n}, char {looked.getD 0}: {message}"
  | .file name =>
    let before := match looked with
      | some n => part.text.take n
      | none => part.text
    let line := before.count '\n' + 1
    s!"file {name.toText} line {line}: {message}"

/-- Why an editor does not start: a message and a status. -/
structure Refusal where
  message : String
  status : Nat

structure Request where
  files : FileTree
  stdin : Octets
  options : Options := {}
  draft : Draft := {}
  /-- Newest first. -/
  parts : List Part := []
  operands : List Octets := []

/-- Reads requests. What was done before a refusal stays done. -/
abbrev RequestM := ExceptT Refusal (StateM Request)

namespace RequestM

def refuse {α : Type} (message : String) (status : Nat) : RequestM α :=
  throw ⟨s!"sed: {message}\n", status⟩

def usage : String :=
  "Usage: sed [OPTION]... \x7bscript-only-if-no-other-script\x7d [input-file]...\n"

def dialect (o : Options) : Dialect where
  extended := o.extended
  lineEnd := o.lineEnd
  strict := o.strict
  enclosed := o.enclosed

/-- Reads a part of the script. The files that its commands write to are emptied at once. -/
def addPart (part : Part) : RequestM Unit := do
  let r ← get
  let (draft, complaint) := readPart (dialect r.options) r.parts.isEmpty
    { r.draft with part := r.parts.length } part.text
  set { r with draft, parts := part :: r.parts }
  let more := draft.commands.take (draft.commands.length - r.draft.commands.length)
  for name in more.reverse.filterMap EditM.target? do
    match EditM.openTarget (← get).files name with
    | .ok files => modify fun r => { r with files }
    | .error cause => refuse s!"couldn't open file {name.toText}: {reason cause}" 4
  if let some (complaint, looked) := complaint then
    if complaint.standsAlone then refuse complaint.message 4
    refuse (part.locate (some looked) complaint.message) 1

def addExpression (text : Octets) : RequestM Unit := do
  let earlier := (← get).parts.countP fun p => p.source matches .expression _
  addPart ⟨.expression (earlier + 1), text⟩

def addScriptFile (name : Octets) : RequestM Unit := do
  let r ← get
  if name = ['-'] ∨ name = Octets.ofString "/dev/stdin" then
    set { r with stdin := [] }
    addPart ⟨.file name, r.stdin⟩
  else match contentOf r.files name with
    | .ok text => addPart ⟨.file name, text⟩
    | .error .isADirectory => addPart ⟨.file name, []⟩
    | .error cause => refuse s!"couldn't open file {name.toText}: {reason cause}" 4

def setOptions (f : Options → Options) : RequestM Unit :=
  modify fun r => { r with options := f r.options }

def addArgument : Argument EditFlag → RequestM Unit
  | .operand text => modify fun r => { r with operands := r.operands ++ [text] }
  | .fault message => refuse s!"{message}\n{usage.dropEnd 1}" 1
  | .flag f value => do
    let value := value.getD []
    match f with
    | .expression => addExpression value
    | .scriptFile => addScriptFile value
    | .silent => setOptions fun o => { o with silent := true }
    | .extended => setOptions fun o => { o with extended := true }
    | .strict => setOptions fun o => { o with strict := true }
    | .enclosed => setOptions fun o => { o with enclosed := true }
    | .separate => setOptions fun o => { o with separate := true }
    | .zero => setOptions fun o => { o with lineEnd := Char.ofNat 0 }
    | .inPlace => setOptions fun o => { o with separate := true, inPlace := some value }
    | .width =>
      setOptions fun o => { o with width := (Octets.readNumber 10 value.length 0 0 value).1 }
    | .version => throw ⟨"sed (GNU sed) 4.9\n", 0⟩
    | .help => throw ⟨usage, 0⟩
    | .accepted => return

/-- What can be wrong once the whole script was read: a block without an end, or a jump to a label
that is not there. -/
def check : RequestM Unit := do
  let r ← get
  if let (n, left) :: _ := r.draft.blocks then
    if let some part := r.parts.reverse[n]? then
      let looked := match part.source with
        | .expression _ => 0
        | .file _ => part.text.length - left
      refuse (part.locate (some looked) Complaint.unmatchedOpen.message) 1
  if let some name := EditM.missingLabel? r.draft.commands then
    refuse s!"can't find label for jump to \x60{name.toText}'" 4

/-- Reads arguments. Where no option gives a script the first operand is it. -/
def readArguments (args : List Octets) : RequestM Unit := do
  for a in Argument.read editFlags none args do
    addArgument a
  let r ← get
  if r.parts.isEmpty then
    match r.operands with
    | [] => throw ⟨usage, 1⟩
    | script :: operands => do
      set { r with operands }
      addExpression script
  check
  let r ← get
  if r.options.inPlace.isSome ∧ r.operands = [] then refuse "no input files" 4

end RequestM

/-- Runs the editor with arguments. -/
def run (execute : EditM.Execute) (files : FileTree) (stdin : Octets) (args : List Octets) :
    Edited :=
  match (RequestM.readArguments args).run.run { files, stdin } with
  | (.error refusal, r) =>
    let message := Octets.ofString refusal.message
    if refusal.status = 0 then ⟨0, message, [], r.files, r.stdin⟩
    else ⟨refusal.status, [], message, r.files, r.stdin⟩
  | (.ok (), r) =>
    let options := { r.options with silent := r.options.silent || r.draft.silent }
    let names := if r.operands = [] then [['-']] else r.operands
    let scriptEnd := match r.parts with
      | part :: _ => part.locate none ""
      | [] => ""
    edit execute scriptEnd options r.draft.commands.reverse r.files r.stdin names

end ScriptSession.Sed
