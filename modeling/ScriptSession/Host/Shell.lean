import ScriptSession.Host.Shell.Execution
/-!
The shell as a program, and the programs that can be started.
-/
namespace ScriptSession.Shell

/-- How deep calls of a script may be, and how often its loops may go round. -/
def depth : Nat := 100000

/-- Runs the shell with arguments. -/
def run (files : FileTree) (args : List Octets) : Finished :=
  let (result, m) := (ExceptT.run (RunM.runShell depth args)).run (Machine.start files [])
  let status : ExitStatus := match result with
    | .error (.exit code) => .code code
    | .error (.killed signal name) => .signal signal name
    | _ => .code m.status
  ⟨status, Octets.toBytes (m.text 1), Octets.toBytes (m.text 2), { m.files with cwd := files.cwd }⟩

/-- Runs a text as a script of its own. -/
def runCommandLine : Sed.EditM.Execute := fun files text =>
  let (_, m) := (ExceptT.run (RunM.runText depth text 1)).run (Machine.start files [])
  (m.text 1, m.text 2, { m.files with cwd := files.cwd })

/-- The programs that can be started: the simple ones, and the shell. -/
def tools : Tools := fun files program args =>
  let name := programName (Octets.ofString program)
  let args := args.map Octets.ofString
  if name = Octets.ofString "sh" then .ok (run files args)
  else match Tools.program? runCommandLine name with
    | some simple => .ok (simple files [] args).finished
    | none => .error (startError files program)

end ScriptSession.Shell
