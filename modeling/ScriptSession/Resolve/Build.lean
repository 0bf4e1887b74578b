import ScriptSession.Artifact
import ScriptSession.Directive
import ScriptSession.Host
import ScriptSession.ResolutionError
/-!
Projects, resolved by a build. The build command runs with the project's path as its last argument;
every line that it prints and that is not blank names an artifact, as seen from the directory of
the project.
-/
namespace ScriptSession.Build

/-- The extensions of project and solution files. -/
def extensions : List String := ["kproj", "ksln"]

/-- The project that a directive names, by a scheme or by its extension. -/
def named? (d : Directive) : Option String :=
  match d.afterScheme? "project" with
  | some p => some p
  | none =>
    let value := String.ofList (Text.trim d.value.toList)
    (Path.extension? ⟨value⟩).bind fun ext =>
      if extensions.any (Text.sameIgnoringCase · ext) then some value else none

/-- What a failed build says: what it wrote to its error stream, or else how it ended. -/
def failureDetail (done : Finished) : String :=
  let detail := Text.trim (Finished.text done.stderr).toList
  if detail = [] then done.status.display else String.ofList detail

/-- A build of `project` that failed. -/
def failed (project : Path) (cause : BuildFailure) : ResolveFailure :=
  .resolution (.buildFailed project cause)

/-- Runs the build of a project and gives what it printed, and the files as it left them.
Cancellation stops a build as soon as it was started, before it has written anything. -/
def build (host : Host) (command : List String) (cancelled : Bool) (project : Path) :
    Except ResolveFailure String × FileTree :=
  match command with
  | [] => (.error (failed project .noCommand), host.files)
  | program :: leading =>
    match host.tools host.files program (leading ++ [project.text]) with
    | .error cause => (.error (failed project (.cannotStart program cause)), host.files)
    | .ok done =>
      if cancelled then (.error .cancelled, host.files)
      else if done.status.isSuccess then (.ok (Finished.text done.stdout), done.files)
      else (.error (failed project (.failed (failureDetail done))), done.files)

/-- The artifacts that the lines of a build name, as seen from a directory. -/
def artifacts (files : FileTree) (dir : Path) :
    List (List Char) → Except BuildFailure (List Artifact)
  | [] => .ok []
  | line :: rest =>
    let path := dir / String.ofList line
    if files.isFile path then
      (artifacts files dir rest).map (Artifact.read files path .executionOnly :: ·)
    else .error (.missingArtifact path)

/-- The artifacts that the output of a build names. -/
def reported (files : FileTree) (project : Path) (output : String) :
    Except ResolveFailure (List Artifact) :=
  let lines := ((Text.lines output.toList).map Text.trim).filter (· ≠ [])
  (artifacts files (project.parent?.getD ⟨"."⟩) lines).mapError (failed project)

/-- Builds a project and collects the artifacts it names, among the files as the build left them. -/
def resolve (host : Host) (command : List String) (cancelled : Bool) (project : Path) :
    Except ResolveFailure (List Artifact) × FileTree :=
  if host.files.isFile project then
    match build host command cancelled project with
    | (.error e, files) => (.error e, files)
    | (.ok output, files) => (reported files project output, files)
  else (.error (failed project .projectNotFound), host.files)

end ScriptSession.Build
