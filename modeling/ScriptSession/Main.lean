import ScriptSession.CommandLine
import ScriptSession.Host.Shell
/-!
The program itself. It takes the environment, the arguments and the files below the directories
that it is told of, evaluates what it reads and writes what that leaves.
-/
namespace ScriptSession.Main

/-- What is on disk at a place and below it; what cannot be read is left out. -/
partial def placesBelow (place : String) (loc : Location) : IO (List (Location × Node)) := do
  try
    let path := (← IO.currentDir) / place
    if ← path.isDir then
      let mut found := [(loc, Node.dir)]
      for entry in ← path.readDir do
        found := found ++ (← placesBelow s!"{place}/{entry.fileName}" (loc ++ [entry.fileName]))
      return found
    else return [(loc, .file (← IO.FS.readBinFile path))]
  catch _ => return []

/-- The files below some directories, as seen from the current one. A directory inside one that
was taken before adds nothing. -/
def filesBelow (cwd : Path) (dirs : List Path) : IO FileTree := do
  let mut files := FileTree.ofCwd ((FileTree.ofCwd []).placeOf cwd)
  let mut taken : List Location := []
  for dir in dirs do
    let loc := files.placeOf dir
    unless taken.any (·.isPrefixOf loc) do
      taken := loc :: taken
      let above := (FileTree.ancestry loc.dropLast).map (·, Node.dir)
      let below ← placesBelow dir.text loc
      let more := (above ++ below).filter fun (l, _) => (files.node? l).isNone
      files := { files with entries := files.entries ++ more }
  return files

/-- The directories that a configuration names. -/
def directories (config : SessionConfig) : List Path :=
  config.baseDir :: (config.searchPaths.installRoots ++ config.searchPaths.packageCache.toList ++
    config.packageFeed.toList)

/-- The configuration that the environment gives. -/
def environment : IO SessionConfig := do
  let names := ["KILN_ROOT", "KILN_PACKAGES", "KILN_FEED", "KILN_BUILD"]
  let found ← names.filterMapM fun name => do
    return (← IO.getEnv name).map (name, ·)
  let home := (← IO.getEnv "HOME").filter (· ≠ "")
  return .ofEnvironment (found.lookup ·) (home.map Path.mk) ⟨(← IO.currentDir).toString⟩

/-- The directories that the arguments add to a configuration. -/
def directoriesAfter (config : SessionConfig) (args : List String) : List Path :=
  match CommandLine.parseArgs config args with
  | .ok (.run config) => directories config
  | _ => []

/-- Writes the files that differ from those that were there before. -/
def writeChanges (before after : FileTree) : IO Unit := do
  for (loc, node) in after.entries do
    match node, before.node? loc with
    | .file new, some (.file old) =>
      unless new == old do IO.FS.writeBinFile (pathOf loc) new
    | .file new, none => IO.FS.writeBinFile (pathOf loc) new
    | _, _ => pure ()
where
  /-- The path of a place from the root. -/
  pathOf (loc : Location) : String := "/" ++ "/".intercalate loc

end ScriptSession.Main

open ScriptSession in
def main (args : List String) : IO UInt32 := do
  let config ← Main.environment
  let files ← Main.filesBelow config.baseDir (Main.directoriesAfter config args)
  let host : Host := ⟨files, Shell.tools⟩
  let (transcript, left) ← match CommandLine.launch host config args with
    | (.error t, left) => pure (t, left)
    | (.ok session, left) =>
      let input ← (← IO.getStdin).readBinToEnd
      pure (CommandLine.runInput (host.withFiles left) session input)
  Main.writeChanges files left
  (← IO.getStdout).putStr transcript.stdout
  (← IO.getStderr).putStr transcript.stderr
  return transcript.code.toUInt32
