import ScriptSession.Framework
/-!
Finding frameworks on disk. Two layouts are known:

    <install-root>/shared/<Name>/<version>/            execution modules
    <install-root>/packs/<Name>.Ref/<version>/ref/     reference modules

    <package-cache>/<name>.runtime/<version>/lib/      execution modules
    <package-cache>/<name>.ref/<version>/ref/          reference modules

Of the versions that satisfy a request the latest is taken, and with it the latest reference
version of the same major and minor numbers. Every framework but the base is found together with a
base of its major and minor numbers.
-/
namespace ScriptSession.Framework

/-- A pair of directories that holds a framework. -/
structure Site where
  executionDir : Path
  referenceDir : Path
  version : Version

/-- The names of the directories inside a directory; one that cannot be read has none. -/
def versionNames (files : FileTree) (dir : Path) : List String :=
  match files.listDirs dir with
  | .ok names => names
  | .error _ => []

/-- Looks for a framework below a pair of directories; gives the places tried on the way. -/
def locatePair (files : FileTree) (request : FrameworkRequest)
    (executionParent referenceParent : Path) : List Path × Option Site :=
  match Version.select? (versionNames files executionParent) request.version with
  | none => ([executionParent], none)
  | some version =>
    let tried := [executionParent, referenceParent]
    let reference? := (Version.parse? version.majorMinor).bind fun wanted =>
      Version.select? (versionNames files referenceParent) (some wanted)
    match reference? with
    | none => (tried, none)
    | some reference =>
      let referenceDir := referenceParent / reference.text / "ref"
      if files.isDir referenceDir then
        (tried, some ⟨executionParent / version.text, referenceDir, version⟩)
      else (tried ++ [referenceDir], none)

/-- Looks below an install root. -/
def locateInRoot (files : FileTree) (request : FrameworkRequest) (root : Path) :
    List Path × Option Site :=
  locatePair files request (root / "shared" / request.name)
    (root / "packs" / s!"{request.name}.Ref")

/-- Looks in a package cache, where the execution modules need a directory of their own. -/
def locateInCache (files : FileTree) (request : FrameworkRequest) (cache : Path) :
    List Path × Option Site :=
  let lower := Text.lower request.name
  match locatePair files request (cache / s!"{lower}.runtime") (cache / s!"{lower}.ref") with
  | (tried, some site) =>
    let lib := site.executionDir / "lib"
    if files.isDir lib then (tried, some { site with executionDir := lib })
    else (tried ++ [lib], none)
  | (tried, none) => (tried, none)

/-- The first of some searches that finds a site, or all the places that they tried. -/
def firstSite (tried : List Path) : List (List Path × Option Site) → Except (List Path) Site
  | [] => .error tried
  | (_, some site) :: _ => .ok site
  | (more, none) :: rest => firstSite (tried ++ more) rest

/-- Looks below every install root and then in the package cache. -/
def locate (files : FileTree) (request : FrameworkRequest) (paths : SearchPaths) :
    Except ResolutionError Site :=
  (firstSite [] (paths.installRoots.map (locateInRoot files request) ++
    paths.packageCache.toList.map (locateInCache files request))).mapError
      (.frameworkNotFound request.display ·)

/-- The modules directly inside a directory, in path order; files without a header are left out.
Documentation is looked up for artifacts that serve analysis. -/
def modulesIn (files : FileTree) (dir : Path) (role : Role) :
    Except ResolutionError ArtifactSet := do
  let children ← (files.list dir).mapError (.unreadable dir ·)
  let candidates := ((children.map fun (name, _) => dir / name).filter fun p =>
    files.isFile p && ModuleFile.hasExtension p).mergeSort Path.le
  return .ofList <| candidates.filterMap fun p =>
    (Identity.read? files p).map fun identity =>
      { Artifact.ofFile p role with
        identity := some identity
        documentation := if role.servesAnalysis then ModuleFile.documentation? files p else none }

/-- Reads the modules of a site. -/
def readLayer (files : FileTree) (name : String) (depth : Nat) (site : Site) :
    Except ResolutionError Layer := do
  let references ← modulesIn files site.referenceDir .analysisOnly
  let executables ← modulesIn files site.executionDir .executionOnly
  return {
    name, version := site.version
    referenceDir := .ofPath site.referenceDir
    executionDir := .ofPath site.executionDir
    references, executables, depth }

/-- Finds the base framework at a version. -/
def discoverBase (files : FileTree) (version : Option Version) (paths : SearchPaths) :
    Except ResolutionError Layer := do
  let request : FrameworkRequest := ⟨FrameworkRequest.baseName, version⟩
  readLayer files request.name 0 (← locate files request paths)

/-- Finds a framework with the base that it builds on; the most specific layer comes first. -/
def discover (files : FileTree) (request : FrameworkRequest) (paths : SearchPaths) :
    Except ResolutionError (List Layer) := do
  let site ← locate files request paths
  if request.isBase then return [← readLayer files request.name 0 site]
  else
    let base ← discoverBase files (Version.parse? site.version.majorMinor) paths
    return [← readLayer files request.name 1 site, base]

end ScriptSession.Framework
