import ScriptSession.Framework
/-!
What a session is started with: defaults, then environment variables, then what the caller sets.
-/
namespace ScriptSession

structure SessionConfig where
  framework : FrameworkRequest := .base
  /-- The imports in effect from the first submission on. -/
  imports : List String := []
  /-- The references that are resolved at the start. -/
  references : List String := []
  /-- The script arguments. -/
  args : List String := []
  searchPaths : SearchPaths := ⟨[], none⟩
  packageFeed : Option Path := none
  /-- A program and its first arguments; the project's path follows them. -/
  buildCommand : List String := ["kiln-build"]
  /-- The directory that relative references are seen from. -/
  baseDir : Path := ⟨"."⟩
  cacheCapacity : Nat := 256
  /-- The time to live of query results, in nanoseconds. -/
  cacheTtl : Nat := 2000000000

namespace SessionConfig

/-- The configuration that environment variables give. Without them frameworks are looked for in
the home directory. -/
def ofEnvironment (var : String → Option String) (home : Option Path) (cwd : Path) :
    SessionConfig :=
  let own := home.map (· / ".kiln")
  let defaults : SessionConfig := {}
  let command := (var "KILN_BUILD").map fun s => (Text.words s.toList).map String.ofList
  { searchPaths :=
      { installRoots := (((var "KILN_ROOT").map Path.mk).or own).toList
        packageCache := ((var "KILN_PACKAGES").map Path.mk).or (own.map (· / "packages")) }
    packageFeed := (var "KILN_FEED").map Path.mk
    baseDir := cwd
    buildCommand := (command.filter (· ≠ [])).getD defaults.buildCommand }

def withFramework (c : SessionConfig) (request : FrameworkRequest) : SessionConfig :=
  { c with framework := request }

def withImport (c : SessionConfig) (name : String) : SessionConfig :=
  { c with imports := c.imports ++ [name] }

def withReference (c : SessionConfig) (value : String) : SessionConfig :=
  { c with references := c.references ++ [value] }

def withArgs (c : SessionConfig) (args : List String) : SessionConfig :=
  { c with args }

def withInstallRoot (c : SessionConfig) (root : Path) : SessionConfig :=
  { c with searchPaths :=
    { c.searchPaths with installRoots := c.searchPaths.installRoots ++ [root] } }

def withPackageCache (c : SessionConfig) (cache : Path) : SessionConfig :=
  { c with searchPaths := { c.searchPaths with packageCache := some cache } }

def withPackageFeed (c : SessionConfig) (feed : Path) : SessionConfig :=
  { c with packageFeed := some feed }

def withBuildCommand (c : SessionConfig) (command : List String) : SessionConfig :=
  { c with buildCommand := command }

def withBaseDir (c : SessionConfig) (dir : Path) : SessionConfig :=
  { c with baseDir := dir }

def withCache (c : SessionConfig) (capacity ttl : Nat) : SessionConfig :=
  { c with cacheCapacity := capacity, cacheTtl := ttl }

end SessionConfig
end ScriptSession
