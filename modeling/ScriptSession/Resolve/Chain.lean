import ScriptSession.References.Service
import ScriptSession.Resolve.Package
import ScriptSession.Resolve.Build
/-!
Who resolves a directive. A value with the scheme `package` belongs to the feed, one with the
scheme `project` or the extension of a project to the build, and any other names a module file or
is the short name of a module.
-/
namespace ScriptSession

inductive Resolver
  | package | project | assembly
deriving DecidableEq, Repr

def Resolver.name : Resolver → String
  | package => "package"
  | project => "project"
  | assembly => "assembly"

/-- What resolvers are configured with. -/
structure ResolverSettings where
  feed : Option Path
  buildCommand : List String
  baseDir : Path

namespace Resolver

/-- The resolver that a directive belongs to. -/
def owner (d : Directive) : Resolver :=
  if (d.afterScheme? "package").isSome then package
  else if (Build.named? d).isSome then project
  else assembly

/-- Resolves a package directive. -/
def resolvePackage (files : FileTree) (settings : ResolverSettings) (d : Directive)
    (cancelled : Bool) : Except ResolveFailure (List Artifact) :=
  let text := (d.afterScheme? "package").getD ""
  match PackageSpec.parse? text.toList, settings.feed with
  | none, feed => .error (.resolution (.packageNotFound text none feed))
  | some spec, none => .error (.resolution (Package.notFound none spec))
  | some spec, some feed =>
    if cancelled then .error .cancelled
    else (Package.resolve files feed spec).mapError .resolution

/-- Resolves a project directive; its build may change files. -/
def resolveProject (host : Host) (settings : ResolverSettings) (d : Directive) (cancelled : Bool) :
    Except ResolveFailure (List Artifact) × FileTree :=
  Build.resolve host settings.buildCommand cancelled
    (settings.baseDir / (Build.named? d).getD "")

/-- Whether a value is meant as a path rather than a short name. -/
def looksLikePath (value : String) : Bool :=
  value.toList.any (fun c => c = '/' || c = '\\') || ModuleFile.hasExtension ⟨value⟩

/-- Resolves the path or short name of a module. -/
def resolveAssembly (files : FileTree) (settings : ResolverSettings) (service : ReferenceService)
    (d : Directive) : Except ResolutionError (List Artifact) × ReferenceService :=
  let value := String.ofList (Text.trim d.value.toList)
  let file (p : Path) : Except ResolutionError (List Artifact) :=
    if files.isFile p then .ok [Artifact.read files p .executionOnly]
    else .error (.assemblyNotFound value)
  if value = "" then (.error (.assemblyNotFound value), service)
  else if looksLikePath value then (file (settings.baseDir / value), service)
  else match service.findExecution files value with
    | (some known, service) => (.ok [known], service)
    | (none, service) => (file (settings.baseDir / s!"{value}.{ModuleFile.extension}"), service)

/-- Resolves a directive; looking for a short name may count probes, and a build may change
files. -/
def resolve (host : Host) (settings : ResolverSettings) (service : ReferenceService)
    (cancelled : Bool) (d : Directive) :
    Except ResolveFailure (List Artifact) × ReferenceService × FileTree :=
  match owner d with
  | package => (resolvePackage host.files settings d cancelled, service, host.files)
  | project =>
    let (result, files) := resolveProject host settings d cancelled
    (result, service, files)
  | assembly =>
    let (result, service) := resolveAssembly host.files settings service d
    (result.mapError .resolution, service, host.files)

end Resolver
end ScriptSession
