import ScriptSession.Session.Basic
/-!
The command line: options, and submissions from standard input, one on a line. A line that ends in
a backslash goes on with the next one.
-/
namespace ScriptSession.CommandLine

/-- The version of the program. -/
def version : String := "0.1.0-alpha.8"

def usage : String := "Kiln - incremental evaluator

Usage: kiln [options] [-- script-args...]

Options:
  --framework <name[/version]>  Shared framework to load (default: Kiln.Core)
  --using <namespace>           Import a namespace from the start (repeatable)
  -r, --reference <reference>   Reference to resolve at startup (repeatable)
  --feed <dir>                  Local package feed for '#r \"package: ...\"'
  --root <dir>                  Additional framework install root
  -h, --help                    Print this help
  -V, --version                 Print the version

Environment:
  KILN_ROOT, KILN_PACKAGES, KILN_FEED, KILN_BUILD, RUST_LOG

Ctrl-C ends the process; pending work is not preserved.
"

/-- What is wrong with the arguments. -/
inductive UsageError
  | framework (e : ResolutionError)
  | missingValue (flag : String)
  | unknownOption (flag : String)
deriving DecidableEq, Repr

def UsageError.message : UsageError → String
  | framework e => e.message
  | missingValue flag => s!"missing value for '{flag}'"
  | unknownOption flag => s!"unknown option '{flag}'"

/-- What the arguments ask for. -/
inductive Request
  | help
  | version
  | run (config : SessionConfig)

/-- The flags that take a value. -/
inductive ValueFlag
  | framework | importing | reference | feed | root

def ValueFlag.ofName? : String → Option ValueFlag
  | "--framework" => some framework
  | "--using" => some importing
  | "--reference" => some reference
  | "-r" => some reference
  | "--feed" => some feed
  | "--root" => some root
  | _ => none

/-- Applies a flag to a configuration. -/
def ValueFlag.apply (config : SessionConfig) (value : String) :
    ValueFlag → Except UsageError SessionConfig
  | framework => (FrameworkRequest.parse value).map config.withFramework |>.mapError .framework
  | importing => .ok (config.withImport value)
  | reference => .ok (config.withReference value)
  | feed => .ok (config.withPackageFeed ⟨value⟩)
  | root => .ok (config.withInstallRoot ⟨value⟩)

/-- Reads the arguments from left to right on top of a configuration. -/
def parseArgs (config : SessionConfig) : List String → Except UsageError Request
  | [] => .ok (.run config)
  | flag :: rest =>
    if flag = "-h" ∨ flag = "--help" then .ok .help
    else if flag = "-V" ∨ flag = "--version" then .ok .version
    else if flag = "--" then .ok (.run (config.withArgs rest))
    else match ValueFlag.ofName? flag, rest with
      | none, _ => .error (.unknownOption flag)
      | some _, [] => .error (.missingValue flag)
      | some f, value :: rest => do parseArgs (← f.apply config value) rest

/-- What a run of the program leaves behind. -/
structure Transcript where
  stdout : String := ""
  stderr : String := ""
  code : Nat := 0
deriving DecidableEq, Repr

namespace Transcript

def out (t : Transcript) (text : String) : Transcript :=
  { t with stdout := t.stdout ++ text }

def err (t : Transcript) (line : String) : Transcript :=
  { t with stderr := t.stderr ++ line ++ "\n" }

def exit (t : Transcript) (code : Nat) : Transcript :=
  { t with code }

end Transcript

/-- The lines of the input up to the first that is not text, and whether there is such a line. -/
def decodeLines : List (List UInt8) → List String × Bool
  | [] => ([], false)
  | bytes :: rest =>
    match String.fromUTF8? bytes.toByteArray with
    | none => ([], true)
    | some line =>
      let (lines, broken) := decodeLines rest
      (line :: lines, broken)

/-- The rows of the input without their endings; what follows the last line feed is a row unless
it is empty. -/
def inputRows (input : ByteArray) : List (List UInt8) :=
  let rows := input.toList.splitOn 10
  let close (row : List UInt8) := if row.getLast? = some 13 then row.dropLast else row
  rows.dropLast.map close ++ (rows.getLast?.filter (· ≠ [])).toList

/-- The submissions that lines make up: lines that end in a backslash are joined to the next. A
line that is still to go on when the input ends makes up none. -/
def submissions (pending : String) : List String → List String
  | [] => []
  | line :: rest =>
    match Text.beforeTail ['\\'] line.toList with
    | some continued => submissions (pending ++ String.ofList continued ++ "\n") rest
    | none => (pending ++ line) :: submissions "" rest

def isBlankText (text : String) : Bool :=
  Text.trim text.toList = []

/-- Shows the result of a submission. -/
def report (t : Transcript) : EvaluationResult → Transcript
  | .success c =>
    match c.returnValue with
    | some value => t.out (value ++ "\n")
    | none => t
  | .error f => t.err s!"error: {f.message}"
  | .cancelled => t.err "cancelled"

/-- What a run has come to: the session, the files as builds left them and what was shown. -/
structure Progress where
  session : Session
  files : FileTree
  transcript : Transcript := {}

/-- Evaluates one submission and shows what it printed and its result. -/
def submit (tools : Tools) (p : Progress) (text : String) : Progress :=
  if isBlankText text then p
  else
    let ((result, printed), session, files) := p.session.evaluate ⟨p.files, tools⟩ text .never
    { session, files, transcript := report (p.transcript.out printed) result }

/-- Evaluates the submissions of an input; gives what was shown and the files that it left. -/
def runInput (host : Host) (s : Session) (input : ByteArray) : Transcript × FileTree :=
  let (lines, broken) := decodeLines (inputRows input)
  let p := (submissions "" lines).foldl (submit host.tools) { session := s, files := host.files }
  (if broken then (p.transcript.err s!"error: {ReadError.notText.message}").exit 1
    else p.transcript, p.files)

/-- Reads the arguments and starts a session, unless the program ends there. -/
def launch (host : Host) (config : SessionConfig) (args : List String) :
    Except Transcript Session × FileTree :=
  let t : Transcript := {}
  match parseArgs config args with
  | .error e =>
    (.error (({ t with stderr := s!"error: {e.message}\n\n{usage}" }).exit 1), host.files)
  | .ok .help => (.error { t with stderr := usage }, host.files)
  | .ok .version => (.error (t.out s!"kiln {version}\n"), host.files)
  | .ok (.run config) =>
    let (session, files) := Session.start host config
    (session.mapError fun e => (t.err s!"error: {e.message}").exit 1, files)

/-- The whole program: starts a session and evaluates the input. Gives what it wrote and the files
as its builds left them. -/
def run (host : Host) (config : SessionConfig) (args : List String) (input : ByteArray) :
    Transcript × FileTree :=
  match launch host config args with
  | (.error t, files) => (t, files)
  | (.ok s, files) => runInput (host.withFiles files) s input

end ScriptSession.CommandLine
