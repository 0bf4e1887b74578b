import ScriptSession.Host.Shell.Builtin
import ScriptSession.Host.Shell.Condition
/-!
Running scripts of the shell. Everything that can go on without end takes `fuel`, which bounds how
deep calls are and how often loops go round.
-/
namespace ScriptSession.Shell

namespace RunM

mutual

/-- The cells of a word. -/
def cells : Nat → Word → RunM (List Cell)
  | 0, _ => return []
  | _, [] => return []
  | fuel + 1, p :: rest => do
    let start ← match p with
      | .text s quoted =>
        pure ((if quoted then [Cell.field] else []) ++ Cell.ofText quoted false s)
      | .parameter name use quoted => parameterCells fuel name use quoted
      | .output script quoted => do
        let m ← get
        let text ← capture do
          let code ← apart (runAll fuel script)
          modify fun m => { m with outputStatus := code }
        modify fun n => { n with status := m.status }
        let text := (text.filter (·.toNat ≠ 0)).reverse.dropWhile (· = '\n') |>.reverse
        pure (marked quoted text)
      | .arithmetic expression quoted => do
        let text := Cell.text (← cells fuel expression)
        let m ← get
        let value (name : Octets) : Option Octets := m.values.lookup name
        match Arithmetic.evaluate value text with
        | .ok (n, assigned) => do
          for (name, n) in assigned do
            setVariable name (toString n).toList
          pure (marked quoted (toString n).toList)
        | .error e => fail (e.message text)
    return start ++ (← cells fuel rest)
where
  marked (quoted : Bool) (text : Octets) : List Cell :=
    (if quoted then [Cell.field] else []) ++ Cell.ofText quoted (!quoted) text

/-- The cells of a parameter and of what is made of it. -/
def parameterCells : Nat → Octets → Use → Bool → RunM (List Cell)
  | 0, _, _, _ => return []
  | fuel + 1, name, use, quoted => do
    let m ← get
    let marked (text : Octets) : List Cell :=
      (if quoted then [Cell.field] else []) ++ Cell.ofText quoted (!quoted) text
    let all : List Cell :=
      [Cell.edge].intercalate (m.params.map marked)
    let isList := name = ['@'] || (name = ['*'] && !quoted)
    let given ← value? name
    let given := if (name = ['@'] ∨ name = ['*']) ∧ m.params = [] then none else given
    let checked (s : Option Octets) : RunM Octets := do
      match s with
      | some s => return s
      | none =>
        if m.switches.stopOnUnset ∧ name ≠ ['@'] ∧ name ≠ ['*'] then
          fail s!"{name.toText}: parameter not set"
        return []
    match use with
    | .bad => fail "Bad substitution"
    | .value =>
      if isList then return all
      return marked (← checked given)
    | .length => return marked (toString (← checked given).length).toList
    | .trim atEnd longest pattern => do
      let text ← checked given
      let p := Cell.pattern (← cells fuel pattern)
      return marked (if atEnd then Glob.trimEnd longest p text else Glob.trimStart longest p text)
    | .fallback kind emptyToo word => do
      let missing := match given with
        | none => true
        | some s => emptyToo && s = []
      let value : List Cell := if isList then all else marked (given.getD [])
      let spread : RunM (List Cell) := do
        let inner ← cells fuel word
        return if quoted then Cell.field :: inner else inner.map fun
          | .char c q _ => .char c q (!q)
          | cell => cell
      match kind with
      | .default => if missing then spread else return value
      | .instead => if missing then return (if quoted then [Cell.field] else []) else spread
      | .assign =>
        if !missing then return value
        if !isName name then fail s!"{name.toText}: bad variable name"
        let text := Cell.text (← cells fuel word)
        setVariable name text
        return marked text
      | .fail =>
        if !missing then return value
        let text := Cell.text (← cells fuel word)
        let standard := if emptyToo then "parameter not set or null" else "parameter not set"
        fail s!"{name.toText}: {if word.isEmpty then standard else text.toText}"

/-- The fields of words, with names of files for patterns. -/
def fieldsOf : Nat → List Word → RunM (List Octets)
  | 0, _ => return []
  | _, [] => return []
  | fuel + 1, w :: rest => do
    let found := Cell.fields (← separators) none false (← cells fuel w)
    let m ← get
    let names := found.flatMap fun field =>
      let plain := [field.map (·.1)]
      if m.switches.plainNames then plain else (Glob.paths? m.files field).getD plain
    return names ++ (← fieldsOf fuel rest)

/-- The text of a word that does not part into fields. -/
def textOf : Nat → Word → RunM Octets
  | 0, _ => return []
  | fuel + 1, w => return Cell.text (← cells fuel w)

/-- The streams after redirections. Where one of them cannot be made, those before it are there to
complain on; but a stream that was to be copied onto is closed by then. -/
def redirected : Nat → List (Nat × Channel) → List Redirect →
    RunM (Option (List (Nat × Channel)))
  | 0, channels, _ => return some channels
  | _, channels, [] => return some channels
  | fuel + 1, channels, (stream, target) :: rest => do
    let others := channels.filter (·.1 ≠ stream)
    let lead (c : Channel) := redirected fuel ((stream, c) :: others) rest
    let refuse (channels : List (Nat × Channel)) (message : String) :
        RunM (Option (List (Nat × Channel))) := do
      withChannels channels (complain message)
      return none
    let opened (r : Except String Channel) : RunM (Option (List (Nat × Channel))) := do
      match r with
      | .ok c => lead c
      | .error message => refuse channels message
    match target with
    | .read w => do opened (← openInput (← textOf fuel w))
    | .write w => do opened (← openFile false (← textOf fuel w))
    | .append w => do opened (← openFile true (← textOf fuel w))
    | .readWrite w => do
      let name ← textOf fuel w
      match ← openFile true name with
      | .ok c => if stream = 0 then opened (← openInput name) else lead c
      | .error message => refuse channels message
    | .duplicate w => do
      let source ← textOf fuel w
      if source = ['-'] then redirected fuel others rest
      else match (digits? source).filter (· < 10) with
        | none => do
          modify fun m => { m with line := m.lineRead }
          fail "Syntax error: Bad fd number"
        | some n =>
          match channels.lookup n with
          | some c => lead c
          | none => refuse others s!"{n}: Bad file descriptor"
    | .document n => do
      let text ← textOf fuel (((← get).documents.lookup n).getD [])
      lead (.kept (← keep text))

def runAll : Nat → List Command → RunM Unit
  | 0, _ => return
  | _, [] => return
  | fuel + 1, c :: rest => do
    execute fuel c
    runAll fuel rest

/-- Runs the parts of a pipeline, each on what the one before wrote. -/
def runParts : Nat → List Command → RunM Unit
  | 0, _ => return
  | _, [] => return
  | fuel + 1, [last] => do
    setStatus (← apart (execute fuel last))
  | fuel + 1, part :: rest => do
    let text ← capture do
      let _ ← apart (execute fuel part)
    let n ← keep text
    let channels := (0, Channel.kept n) :: (← get).channels.filter (·.1 ≠ 0)
    withChannels channels (runParts fuel rest)

/-- Runs the rounds of a loop over words. -/
def runRounds : Nat → Octets → List Octets → List Command → RunM Unit
  | 0, _, _, _ => return
  | _, _, [], _ => return
  | fuel + 1, name, word :: rest, body => do
    setVariable name word
    if ← runRound fuel body then runRounds fuel name rest body

/-- Runs the body of a loop once; says whether the loop goes on. -/
def runRound : Nat → List Command → RunM Bool
  | 0, _ => return false
  | fuel + 1, body => do
    tryCatch (do
        runAll fuel body
        return true) fun
      | .leaveLoops n => do
        modify fun m => { m with status := 0 }
        if 1 < n then throw (.leaveLoops (n - 1)) else return false
      | .nextRound n => do
        modify fun m => { m with status := 0 }
        if 1 < n then throw (.nextRound (n - 1)) else return true
      | halt => throw halt

/-- Runs a loop under a condition; `code` is the status of its last round. -/
def runLoop : Nat → Bool → List Command → List Command → Nat → RunM Unit
  | 0, _, _, _, _ => return
  | fuel + 1, negated, condition, body, code => do
    let goesOn ← tryCatch (do
        whileTested (runAll fuel condition)
        return some (((← get).status = 0) != negated)) fun
      | .leaveLoops n => do
        if 1 < n then throw (.leaveLoops (n - 1)) else return none
      | .nextRound n => do
        if 1 < n then throw (.nextRound (n - 1)) else return none
      | halt => throw halt
    match goesOn with
    | none => setStatus 0
    | some false => setStatus code
    | some true =>
      if ← runRound fuel body then runLoop fuel negated condition body (← get).status
      else setStatus 0

/-- Runs the first branch whose condition holds. -/
def runBranches : Nat → List (List Command × List Command) → List Command → RunM Unit
  | 0, _, _ => return
  | fuel + 1, [], otherwise => do
    if otherwise.isEmpty then setStatus 0
    runAll fuel otherwise
  | fuel + 1, (condition, body) :: rest, otherwise => do
    whileTested (runAll fuel condition)
    if (← get).status = 0 then runAll fuel body else runBranches fuel rest otherwise

/-- Runs the first case that has a fitting pattern. -/
def runCases : Nat → Octets → List (List Word × List Command) → RunM Unit
  | 0, _, _ => return
  | _, _, [] => setStatus 0
  | fuel + 1, text, (patterns, body) :: rest => do
    if ← fitsAny fuel text patterns then
      if body.isEmpty then setStatus 0
      runAll fuel body
    else runCases fuel text rest

def fitsAny : Nat → Octets → List Word → RunM Bool
  | 0, _, _ => return false
  | _, _, [] => return false
  | fuel + 1, text, w :: rest => do
    if Glob.isMatch (Cell.pattern (← cells fuel w)) text then return true
    fitsAny fuel text rest

/-- Runs a command. -/
def execute : Nat → Command → RunM Unit
  | 0, _ => return
  | fuel + 1, c => do
    match c with
    | .simple line assignments words redirects => do
      modify fun m => { m with line }
      runSimple fuel assignments words redirects
      checkStatus
    | .pipeline parts => do
      asInner (runParts fuel parts)
      checkStatus
    | .negation c => do
      whileTested (execute fuel c)
      modify fun m => { m with status := if m.status = 0 then 1 else 0 }
    | .both first second => do
      whileTested (execute fuel first)
      if (← get).status = 0 then execute fuel second
    | .either first second => do
      whileTested (execute fuel first)
      if (← get).status ≠ 0 then execute fuel second
    | .background c => do
      let channels := (0, Channel.nothing) :: (← get).channels.filter (·.1 ≠ 0)
      let _ ← withChannels channels (apart (execute fuel c))
      setStatus 0
    | .subshell body => do
      setStatus (← apart (runAll fuel body))
      checkStatus
    | .group body => runAll fuel body
    | .conditional branches otherwise => runBranches fuel branches otherwise
    | .loop negated condition body => do
      inLoop (runLoop fuel negated condition body 0)
    | .forEach line name words body => do
      modify fun m => { m with line }
      let values ← match words with
        | some words => fieldsOf fuel words
        | none => pure (← get).params
      if values = [] then setStatus 0
      inLoop (runRounds fuel name values body)
    | .choice line word cases => do
      modify fun m => { m with line }
      let text ← textOf fuel word
      runCases fuel text cases
    | .function name body =>
      modify fun m =>
        { m with functions := (name, body) :: m.functions.filter (·.1 ≠ name), status := 0 }
    | .redirected line c redirects => do
      modify fun m => { m with line }
      match ← redirected fuel (← get).channels redirects with
      | some channels => withChannels channels (execute fuel c)
      | none => setStatus 2
where
  inLoop (body : RunM Unit) : RunM Unit := do
    modify fun m => { m with loops := m.loops + 1 }
    body
    modify fun m => { m with loops := m.loops - 1 }

/-- Runs a simple command: words come first, then streams, then assignments. -/
def runSimple : Nat → List (Octets × Word) → List Word → List Redirect → RunM Unit
  | 0, _, _, _ => return
  | fuel + 1, assignments, words, redirects => do
    modify fun m => { m with outputStatus := 0 }
    let args ← fieldsOf fuel words
    let outer := (← get).channels
    let special := match args with
      | name :: _ => builtin? name = some true
      | [] => false
    match ← redirected fuel outer redirects with
    | none => do
      if special then throw (.exit 2)
      setStatus 2
    | some channels => do
      let values := (← get).values
      let assigned ← assign fuel assignments
      trace ((assigned.map fun (name, value) => name ++ '=' :: value) ++ args)
      match args with
      | [] => modify fun m => { m with status := m.outputStatus }
      | name :: rest => do
        if name = Octets.ofString "exec" ∧ rest = [] then
          modify fun m => { m with channels, status := 0 }
        else withChannels channels (runCommand fuel name rest (assigned.map (·.1)))
        if !special then modify fun m => { m with values := restored values assigned m }
where
  /-- The variables after a command that had assignments of its own. -/
  restored (before : List (Octets × Octets)) (assigned : List (Octets × Octets)) (m : Machine) :
      List (Octets × Octets) :=
    if assigned = [] then m.values
    else
      let names := assigned.map (·.1)
      before.filter (names.contains ·.1) ++ m.values.filter (!names.contains ·.1)

/-- Makes assignments one after another and gives them. -/
def assign : Nat → List (Octets × Word) → RunM (List (Octets × Octets))
  | 0, _ => return []
  | _, [] => return []
  | fuel + 1, (name, w) :: rest => do
    let value ← textOf fuel w
    setVariable name value
    return (name, value) :: (← assign fuel rest)

/-- Runs a command by its name: one that the shell carries out, a function or a program. `own` are
the names of the variables that were set for it alone. -/
def runCommand : Nat → Octets → List Octets → List Octets → RunM Unit
  | 0, _, _, _ => return
  | fuel + 1, name, args, own => do
    let m ← get
    match (if builtin? name = some true then none else m.functions.lookup name) with
    | some body => do
      if mostCalls < m.calls + 1 then
        fail s!"Maximum function recursion depth ({mostCalls}) reached"
      set { m with params := args, loops := 0, calls := m.calls + 1 }
      let restore : RunM Unit :=
        modify fun n => { n with params := m.params, loops := m.loops, calls := m.calls }
      tryCatch (execute fuel body) fun
        | .leaveFunction => return
        | halt => throw halt
      restore
    | none =>
      if (builtin? name).isSome then
        modify fun m => { m with command := some (String.ofList name) }
        tryCatch (runBuiltin fuel (String.ofList name) args) fun halt => do
          modify fun n => { n with command := m.command }
          throw halt
        modify fun n => { n with command := m.command }
      else if programName name = Octets.ofString "sh" then do
        let nested : RunM Nat := do
          let visible := m.exported ++ own
          modify fun m => { m with
            values := m.values.filter (visible.contains ·.1)
            exported := visible, functions := [], switches := {}, tested := false, status := 0
            command := none, inner := false, doomed := none }
          runShell fuel args
          return (← get).status
        let outer ← get
        let (result, inner) := (ExceptT.run nested).run outer
        set { outer with files := { inner.files with cwd := outer.files.cwd }, kept := inner.kept }
        match result with
        | .ok code => setStatus code
        | .error (.exit code) => setStatus code
        | .error (.killed signal name) => do
          let texts : List (Nat × String) := [(9, "Killed"), (15, "Terminated"), (6, "Aborted"),
            (1, "Hangup"), (3, "Quit"), (11, "Segmentation fault")]
          if let some text := texts.lookup signal then
            let _ ← write 2 (Octets.ofString (text ++ "\n"))
          let _ := name
          setStatus (128 + signal)
        | .error _ => setStatus inner.status
      else
        let shell : Sed.EditM.Execute := fun files text =>
          let (_, m) := (ExceptT.run (runText fuel text 1)).run (Machine.start files [])
          (m.text 1, m.text 2, m.files)
        match Tools.program? shell (programName name) with
        | some program => runProgram program args
        | none => runMissing name

/-- Runs a command that the shell itself carries out. -/
def runBuiltin : Nat → String → List Octets → RunM Unit
  | 0, _, _ => return
  | fuel + 1, name, args => do
    match name with
    | "echo" => do
      let text := echoText args
      if (← write 1 text) || text = [] then setStatus 0
      else
        complain "echo: I/O error"
        setStatus 1
    | "exit" => do
      let code ← codeOf args
      throw (.exit (code % 256))
    | "return" => do
      let code ← codeOf args
      setStatus (code % 256)
      throw .leaveFunction
    | "break" => do
      let n := min (← levels args) (← get).loops
      if n ≠ 0 then throw (.leaveLoops n)
      setStatus 0
    | "continue" => do
      let n := min (← levels args) (← get).loops
      if n ≠ 0 then throw (.nextRound n)
      setStatus 0
    | "kill" => kill args
    | "set" => setSwitches args
    | "shift" => do
      let m ← get
      let n ← match args with
        | [] => pure 1
        | arg :: _ => numberOf arg
      if m.params.length < n then fail "can't shift that many"
      set { m with params := m.params.drop n, status := 0 }
    | "unset" => do
      for arg in args do
        if !isName arg ∧ arg ≠ ['-', 'f'] ∧ arg ≠ ['-', 'v'] then
          fail s!"{arg.toText}: bad variable name"
      modify fun m => { m with
        values := m.values.filter (!args.contains ·.1)
        functions := if args.head? = some ['-', 'f'] then m.functions.filter (!args.contains ·.1)
          else m.functions
        status := 0 }
    | "export" => declare args
    | "readonly" => declare args
    | "eval" => do
      setStatus 0
      runText fuel ([' '].intercalate args) 1
    | "." =>
      match args with
      | [] => setStatus 0
      | file :: _ =>
        match Sed.contentOf (← get).files file with
        | .ok text => do
          if !file.contains '/' then fail s!"{file.toText}: not found"
          setStatus 0
          runText fuel text 1
        | .error _ =>
          if file.contains '/' then fail s!"cannot open {file.toText}: No such file"
          else fail s!"{file.toText}: not found"
    | "exec" =>
      match args with
      | [] => setStatus 0
      | program :: rest => do
        runCommand fuel program rest []
        throw (.exit (← get).status)
    | "read" => readVariables args
    | "cd" => do
      let m ← get
      let dir := args.headD []
      match m.files.locate ⟨dir.toText⟩ with
      | .ok loc =>
        if m.files.isDirAt loc then
          set { m with files := { m.files with cwd := loc }, status := 0 }
        else
          complain s!"can't cd to {dir.toText}"
          setStatus 2
      | .error _ => do
        complain s!"can't cd to {dir.toText}"
        setStatus 2
    | "test" => ask args
    | "[" =>
      if args.getLast? = some [']'] then ask args.dropLast
      else
        complain "missing ]"
        setStatus 2
    | "false" => setStatus 1
    | "wait" =>
      match args with
      | [] => setStatus 0
      | arg :: _ =>
        if (argumentNumber? arg).isSome then setStatus 127
        else
          complain s!"Illegal number: {arg.toText}"
          setStatus 2
    | _ => setStatus 0
where
  numberOf (arg : Octets) : RunM Nat := do
    match argumentNumber? arg with
    | some n => return n
    | none => fail s!"Illegal number: {arg.toText}"
  codeOf (args : List Octets) : RunM Nat := do
    match args with
    | [] => return (← get).status
    | arg :: _ => numberOf arg
  /-- How many loops are meant. -/
  levels (args : List Octets) : RunM Nat := do
    match args with
    | [] => return 1
    | arg :: _ => do
      let n ← numberOf arg
      if n = 0 then fail s!"Illegal number: {arg.toText}"
      return n
  declare (args : List Octets) : RunM Unit := do
    for arg in args do
      let (name, value) := argumentAssignment arg
      if !isName name then fail s!"{name.toText}: bad variable name"
      if let some value := value then setVariable name value
      modify fun m => { m with exported := name :: m.exported }
    setStatus 0
  ask (args : List Octets) : RunM Unit := do
    match Condition.holds (← get).files args with
    | .ok value => setStatus (if value then 0 else 1)
    | .error message => do
      complain message
      setStatus 2

/-- Runs the text of a script from a line on. -/
def runText : Nat → Octets → Nat → RunM Unit
  | 0, _, _ => return
  | fuel + 1, text, line => runLines fuel { rest := text, line }

/-- Runs what is left of a script, line by line. -/
def runLines : Nat → Cursor → RunM Unit
  | 0, _ => return
  | fuel + 1, cursor => do
    let (result, cursor) := readLine cursor
    match result with
    | .error fault => do
      modify fun m => { m with line := fault.line }
      fail s!"Syntax error: {fault.message}"
    | .ok none => return
    | .ok (some commands) => do
      modify fun m => { m with
        documents := cursor.documents ++ m.documents, lineRead := cursor.line }
      runAll fuel commands
      runLines fuel cursor

/-- Starts the shell with arguments. -/
def runShell : Nat → List Octets → RunM Unit
  | 0, _ => return
  | fuel + 1, args => do
    modify fun m => { m with name := Octets.ofString "sh", params := [], line := 0 }
    match Invocation.ofArguments {} args with
    | .error message => fail message
    | .ok i => do
      modify fun m => { m with switches := i.switches, line := 1 }
      match i.asText, i.fromInput, i.operands with
      | true, _, [] => do
        modify fun m => { m with line := 0 }
        fail "-c requires an argument"
      | true, _, text :: operands => do
        modify fun m => { m with name := operands.headD m.name, params := operands.drop 1 }
        runText fuel text 1
      | false, false, file :: params =>
        match Sed.contentOf (← get).files file with
        | .ok text => do
          modify fun m => { m with name := file, params }
          runText fuel text 1
        | .error .isADirectory => return
        | .error _ => do
          modify fun m => { m with line := 0 }
          fail s!"cannot open {file.toText}: No such file"
      | false, _, params => do
        let text ← unread 0
        leave 0 []
        modify fun m => { m with params }
        runText fuel text 1

end

end RunM

end ScriptSession.Shell
