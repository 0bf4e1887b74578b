import ScriptSession.Host.Shell.Machine
/-!
The commands that the shell itself carries out, as far as they run no other command.
-/
namespace ScriptSession.Shell

/-- The commands that the shell itself carries out, and whether a mistake in one ends the script. -/
def builtins : List (String × Bool) :=
  [".", ":", "break", "continue", "eval", "exec", "exit", "export", "readonly", "return", "set",
    "shift", "unset"].map (·, true) ++
  ["[", "cd", "echo", "false", "kill", "read", "test", "true", "wait"].map (·, false)

def builtin? (name : Octets) : Option Bool :=
  builtins.lookup (String.ofList name)

/-- The text that arguments make: escapes are replaced, and `\c` ends it. A dash and the letter n in
front take the line end away. -/
def echoText (args : List Octets) : Octets :=
  let (args, closed) := match args with
    | ['-', 'n'] :: rest => (rest, false)
    | args => (args, true)
  let text := [' '].intercalate args
  let (text, stopped) := Tools.unescape false (text.length + 1) text
  if stopped ∨ !closed then text else text ++ ['\n']

/-- Why nothing can be started under a name that is no program's. A name with a separator is a path,
and what a tree holds may not be run; nor may the directories that the dots name. -/
def startError (files : FileTree) (program : String) : ReadError :=
  if program.toList.contains '/' then
    match files.find ⟨program⟩ with
    | .ok _ => .notPermitted
    | .error cause => cause
  else if program = "." ∨ program = ".." then .notPermitted
  else .notFound

/-- The program that a name or a path leads to, by its name. -/
def programName (name : Octets) : Octets :=
  let places := ["/bin/", "/usr/bin/"].map String.toList
  match places.find? fun p => p.isPrefixOf name with
  | some place => name.drop place.length
  | none => name

/-- How deep functions may call one another. -/
def mostCalls : Nat := 1000

/-- What the shell is started with. -/
structure Invocation where
  asText : Bool := false
  fromInput : Bool := false
  switches : Switches := {}
  operands : List Octets := []

/-- Sets a switch by its letter, if there is one. -/
def Switches.set? (s : Switches) (on : Bool) : Char → Option Switches
  | 'e' => some { s with stopOnFailure := on }
  | 'u' => some { s with stopOnUnset := on }
  | 'f' => some { s with plainNames := on }
  | 'x' => some { s with tracing := on }
  | c => if ['a', 'b', 'i', 'm', 'n', 'v', 'C', 'I', 'E', 'V'].contains c then some s else none

/-- Sets a switch by its name, if there is one. -/
def Switches.setNamed? (s : Switches) (on : Bool) (name : Octets) : Option Switches :=
  let letters : List (String × Char) := [("errexit", 'e'), ("nounset", 'u'), ("noglob", 'f'),
    ("xtrace", 'x'), ("noexec", 'n'), ("verbose", 'v'), ("noclobber", 'C'), ("allexport", 'a')]
  (letters.lookup (String.ofList name)).bind (s.set? on)

/-- Reads the arguments that the shell is started with, or says what is wrong with them. -/
def Invocation.ofArguments (i : Invocation) : List Octets → Except String Invocation
  | [] => .ok i
  | ['-', '-'] :: rest => .ok { i with operands := rest }
  | ['-'] :: rest => .ok { i with operands := rest }
  | [sign, 'o'] :: name :: rest =>
    if sign = '-' ∨ sign = '+' then
      match i.switches.setNamed? (sign = '-') name with
      | some switches => { i with switches }.ofArguments rest
      | none => .error s!"Illegal option {String.singleton sign}o {Octets.toText name}"
    else .ok { i with operands := [sign, 'o'] :: name :: rest }
  | (sign :: letters) :: rest =>
    if (sign = '-' ∨ sign = '+') ∧ letters ≠ [] then
      match letters.foldlM (fun (i : Invocation) c =>
          if c = 'c' then Except.ok { i with asText := true }
          else if c = 's' then Except.ok { i with fromInput := true }
          else match i.switches.set? (sign = '-') c with
            | some switches => Except.ok { i with switches }
            | none => Except.error s!"Illegal option {String.singleton sign}{String.singleton c}") i
        with
      | .ok i => i.ofArguments rest
      | .error message => .error message
    else .ok { i with operands := (sign :: letters) :: rest }
  | operands => .ok { i with operands }

/-- The value of a line that was read: what a backslash protects, and whether the line had an end.
`raw` takes backslashes as they are. -/
def inputLine (raw : Bool) (taken : Glob.Pattern) : Octets → Glob.Pattern × Bool × Octets
  | [] => (taken.reverse, false, [])
  | ['\\'] => ((if raw then ('\\', false) :: taken else taken).reverse, false, [])
  | '\\' :: c :: cs =>
    if raw then
      if c = '\n' then ((('\\', false) :: taken).reverse, true, cs)
      else inputLine raw ((c, false) :: ('\\', false) :: taken) cs
    else if c = '\n' then inputLine raw taken cs
    else inputLine raw ((c, true) :: taken) cs
  | c :: cs => if c = '\n' then (taken.reverse, true, cs)
    else inputLine raw ((c, false) :: taken) cs

/-- Gives the fields of a line to names; the last one gets all that is left. -/
def shareLine (separators : Octets) (line : Glob.Pattern) : List Octets → List (Octets × Octets)
  | [] => []
  | name :: names =>
    let isSeparator (p : Char × Bool) : Bool := !p.2 && separators.contains p.1
    let isBlank (p : Char × Bool) : Bool := isSeparator p && Octets.isSpace p.1
    let line := line.dropWhile isBlank
    match names with
    | [] => [(name, (line.reverse.dropWhile isBlank).reverse.map (·.1))]
    | _ :: _ =>
      let value := line.takeWhile (!isSeparator ·)
      let rest := (line.drop value.length).dropWhile isBlank
      let rest := match rest with
        | p :: rest => if isSeparator p && !isBlank p then rest else p :: rest
        | [] => []
      (name, value.map (·.1)) :: shareLine separators rest names

/-- The names and values of arguments that may be assignments. -/
def argumentAssignment (arg : Octets) : Octets × Option Octets :=
  match Octets.splitAt? '=' arg with
  | some (name, value) => (name, some value)
  | none => (arg, none)

/-- The number that an argument is, with blanks around it. -/
def argumentNumber? (arg : Octets) : Option Nat :=
  let trimmed := ((arg.dropWhile Octets.isSpace).reverse.dropWhile Octets.isSpace).reverse
  let digits := if trimmed.head? = some '+' then trimmed.tail else trimmed
  (digits? digits).filter (· < 0x80000000)

namespace RunM

/-- Runs a deadly or harmless signal. -/
def signalled (signal : Nat) (name : String) : RunM Unit := do
  if deadlySignals.any (·.1 = signal) then
    modify fun m => { m with doomed := some (signal, s!"SIG{name}") }
    checkDoom
  setStatus 0

/-- Sends a signal to the script itself; others cannot be reached. -/
def kill (args : List Octets) : RunM Unit := do
  let usage := "Usage: kill [-s sigspec | -signum | -sigspec] [pid | job]... or\n" ++
    "kill -l [exitstatus]"
  let refuse (message : String) : RunM Unit := do
    complain message
    setStatus 2
  let send (signal : Nat × String) (targets : List Octets) : RunM Unit := do
    match targets with
    | [] => refuse usage
    | target :: _ =>
      if target = ownPid then signalled signal.1 signal.2
      else if (digits? target).isSome then
        complain "No such process"
        setStatus 1
      else refuse s!"Illegal number: {Octets.toText target}"
  match args with
  | [] => refuse usage
  | ['-', '-'] :: targets => send (15, "TERM") targets
  | ['-', 's'] :: name :: targets =>
    match signal? name with
    | some signal => send signal (if targets.head? = some ['-', '-'] then targets.tail else targets)
    | none => refuse s!"invalid signal number or name: {Octets.toText name}"
  | ('-' :: name) :: targets =>
    match signal? name with
    | some signal => send signal (if targets.head? = some ['-', '-'] then targets.tail else targets)
    | none => refuse s!"Illegal option -{String.ofList (name.take 1)}"
  | targets => send (15, "TERM") targets

/-- Changes the switches or the parameters of the script. -/
def setSwitches : List Octets → RunM Unit
  | [] => setStatus 0
  | ['-', '-'] :: params => modify fun m => { m with params, status := 0 }
  | [sign, 'o'] :: name :: rest => do
    let m ← get
    match m.switches.setNamed? (sign = '-') name with
    | some switches => do
      set { m with switches, status := 0 }
      setSwitches rest
    | none => fail s!"Illegal option {String.singleton sign}o {Octets.toText name}"
  | (sign :: letters) :: rest => do
    if (sign = '-' ∨ sign = '+') ∧ letters ≠ [] then
      for c in letters do
        let m ← get
        match m.switches.set? (sign = '-') c with
        | some switches => set { m with switches, status := 0 }
        | none => fail s!"Illegal option {String.singleton sign}{String.singleton c}"
      setSwitches rest
    else modify fun m => { m with params := (sign :: letters) :: rest, status := 0 }
  | params => modify fun m => { m with params, status := 0 }

/-- Reads a line of the input into variables. -/
def readVariables (args : List Octets) : RunM Unit := do
  let raw := args.head? = some ['-', 'r']
  let names := if raw then args.tail else args
  if names = [] then
    complain "arg count"
    setStatus 2
  else
    let (line, closed, rest) := inputLine raw [] (← unread 0)
    leave 0 rest
    setStatus (if closed then 0 else 1)
    for (name, value) in shareLine (← separators) line names do
      if isName name then setVariable name value
      else
        complain s!"{name.toText}: bad variable name"
        setStatus 2
        return

/-- Opens a file to be written. -/
def openFile (append : Bool) (name : Octets) : RunM (Except String Channel) := do
  let m ← get
  let channel (stream : Nat) : Except String Channel :=
    match m.channels.lookup stream with
    | some c => .ok c
    | none => .ok .nothing
  match String.ofList name with
  | "/dev/null" => return .ok .nothing
  | "/dev/stdout" => return channel 1
  | "/dev/stderr" => return channel 2
  | _ =>
    if append ∧ (m.files.readBytes ⟨name.toText⟩).toOption.isSome then return .ok (.file name)
    match Sed.EditM.openTarget m.files name with
    | .ok files => do
      set { m with files }
      return .ok (.file name)
    | .error .isADirectory => return .error s!"cannot create {name.toText}: Is a directory"
    | .error _ => return .error s!"cannot create {name.toText}: Directory nonexistent"

/-- Opens a file to be read. -/
def openInput (name : Octets) : RunM (Except String Channel) := do
  let m ← get
  match String.ofList name with
  | "/dev/stdin" => return .ok ((m.channels.lookup 0).getD .nothing)
  | _ =>
    match Sed.contentOf m.files name with
    | .ok text => return .ok (.kept (← keep text))
    | .error .isADirectory => return .ok .nothing
    | .error _ => return .error s!"cannot open {name.toText}: No such file"

/-- Runs a program on the streams of the script. -/
def runProgram (program : Tools.Program) (args : List Octets) : RunM Unit := do
  let stdin ← unread 0
  let ran := program (← get).files stdin args
  modify fun m => { m with files := ran.files, status := ran.code }
  leave 0 ran.stdin
  for (stream, text) in ran.written do
    if text ≠ [] then
      let _ ← write (match stream with | .output => 1 | .error => 2) text

/-- Says that there is no such command. -/
def runMissing (name : Octets) : RunM Unit := do
  let shown := name.toText
  if name = [] ∨ shown = ".." then
    complain s!"{shown}: Permission denied"
    setStatus 127
  else match startError (← get).files shown with
    | .notPermitted => do
      complain s!"{shown}: Permission denied"
      setStatus 126
    | _ => do
      complain s!"{shown}: not found"
      setStatus 127

/-- The field of a line of the trace. -/
def trace (words : List Octets) : RunM Unit := do
  if (← get).switches.tracing ∧ words ≠ [] then
    let _ ← write 2 (['+', ' '] ++ [' '].intercalate words ++ ['\n'])

end RunM

end ScriptSession.Shell
