import ScriptSession.Module.File
/-!
Tables of loaded modules. A table holds one module for a name and remembers every path it was
offered with success; a path that it knows is never read again.
-/
namespace ScriptSession

structure ModuleTable where
  modules : Std.ExtTreeMap String Module
  /-- The name that each known path was loaded for. -/
  origins : List (List Component × String)

/-- What became of a path offered to a table. -/
inductive Admission
  | added
  | alreadyLoaded
  | conflict (loaded : Identity)
deriving DecidableEq, Repr

namespace ModuleTable

def empty : ModuleTable := ⟨∅, []⟩

instance : Inhabited ModuleTable := ⟨empty⟩

def get? (t : ModuleTable) (name : String) : Option Module :=
  t.modules[name]?

/-- The name that a path was loaded for. -/
def originOf? (t : ModuleTable) (p : Path) : Option String :=
  t.origins.lookup p.components

def knowsPath (t : ModuleTable) (p : Path) : Bool :=
  (t.originOf? p).isSome

def size (t : ModuleTable) : Nat :=
  t.modules.size

/-- The modules in the order of their names. -/
def toList (t : ModuleTable) : List Module :=
  t.modules.toList.map (·.2)

/-- Records the path of a module under its name. -/
def index (t : ModuleTable) (m : Module) : ModuleTable :=
  { t with origins := (m.path.components, m.name) :: t.origins }

/-- Offers a module: the first one of a name is added, one with the same identity only adds its
path, and any other is refused. -/
def accept (t : ModuleTable) (m : Module) : Admission × ModuleTable :=
  match t.get? m.name with
  | some held =>
    if held.identity = m.identity then (.alreadyLoaded, t.index m)
    else (.conflict held.identity, t)
  | none => (.added, { t.index m with modules := t.modules.insert m.name m })

/-- Loads a path unless it is known. -/
def load (files : FileTree) (t : ModuleTable) (p : Path) :
    Except ModuleError (Admission × ModuleTable) :=
  if t.knowsPath p then .ok (.alreadyLoaded, t)
  else (ModuleFile.load files p).map t.accept

/-- Whether a module name is `scope` or lies below it. -/
def isWithin (scope name : String) : Bool :=
  match Text.afterLead scope.toList name.toList with
  | some [] => true
  | some (c :: _) => c = '.'
  | none => false

/-- The modules that an import brings into scope: the module itself and those below it. -/
def importedBy (t : ModuleTable) (scope : String) : List Module :=
  t.toList.filter fun m => isWithin scope m.name

/-- Whether a name is a module or a namespace above one. -/
def isNamespace (t : ModuleTable) (name : String) : Bool :=
  t.toList.any fun m => isWithin name m.name

end ModuleTable
end ScriptSession
