import ScriptSession.Diagnostic
import ScriptSession.Module.Table
import ScriptSession.Script.Builtin
/-!
Checking a script before it runs. Every name is resolved and every expression gets a type; what is
wrong is collected, not thrown, and a name whose initializer has no type is bound as unknown, so
that its uses are not reported again.
-/
namespace ScriptSession

/-- What a path expression refers to. -/
inductive Resolution
  | binding (name : String)
  | exported (owner : Module) (name : String)

/-- The resolution of each path expression, by the offset where it starts. -/
abbrev Resolutions := Std.ExtTreeMap Nat Resolution

/-- What names mean at a statement; a binding without a type is known to be wrong. -/
structure Scope where
  modules : ModuleTable
  imports : List String
  bindings : Std.ExtTreeMap String (Option Ty)

namespace Scope

/-- A module by its full name, or else by its name below an import. -/
def findModule? (s : Scope) (name : String) : Option Module :=
  (s.modules.get? name).or
    (s.imports.findSome? fun i => s.modules.get? s!"{i}.{name}")

/-- The imported modules that export a name, in the order of their names. -/
def exportersOf (s : Scope) (name : String) : List Module :=
  s.modules.toList.filter fun m =>
    m.exports.contains name && s.imports.any (ModuleTable.isWithin · m.name)

/-- The resolution of an export with its type. -/
def exported? (m : Module) (name : String) : Option (Resolution × Ty) :=
  m.exports[name]?.map fun v => (.exported m name, v.ty)

/-- What a plain name that is not bound refers to. -/
def resolveImported (s : Scope) (name : String) : Except Problem (Resolution × Ty) :=
  match s.exportersOf name with
  | [m] => .ok ((exported? m name).getD (.exported m name, .unit))
  | [] => .error (if s.modules.isNamespace name then .notAValue name else .unknownName name)
  | many => .error (.ambiguous name (many.map Module.name))

/-- What a name below a qualifier refers to. -/
def resolveQualified (s : Scope) (qualifier : List String) (name : String) :
    Except Problem (Resolution × Ty) :=
  match s.findModule? (dotted qualifier) with
  | some m =>
    match exported? m name with
    | some r => .ok r
    | none => .error (.noExport m.name name)
  | none =>
    match qualifier with
    | [q] => .error (if s.bindings.contains q then .noMembers q else .unknownModule q)
    | _ => .error (.unknownModule (dotted qualifier))

/-- What a path refers to; nothing for a name that is bound without a type. -/
def resolve (s : Scope) (segments : List String) : Except Problem (Option (Resolution × Ty)) :=
  match segments with
  | [] => .error .emptyName
  | [name] =>
    match s.bindings[name]? with
    | some (some t) => .ok (some (.binding name, t))
    | some none => .ok none
    | none => (s.resolveImported name).map some
  | first :: rest =>
    (s.resolveQualified (first :: rest).dropLast ((first :: rest).getLast (by simp))).map some

end Scope

/-- The type that an operator takes and gives. -/
def UnaryOp.operandTy : UnaryOp → Ty
  | neg => .int
  | not => .bool

/-- The type of an operation, if the operator takes operands of these types. -/
def BinaryOp.resultTy? : BinaryOp → Ty → Ty → Option Ty
  | add, .int, .int | sub, .int, .int | mul, .int, .int | div, .int, .int | rem, .int, .int =>
    some .int
  | add, .str, .str => some .str
  | eq, l, r | notEq, l, r => if l = r then some .bool else none
  | lt, .int, .int | ltEq, .int, .int | gt, .int, .int | gtEq, .int, .int => some .bool
  | lt, .str, .str | ltEq, .str, .str | gt, .str, .str | gtEq, .str, .str => some .bool
  | and, .bool, .bool | or, .bool, .bool => some .bool
  | _, _, _ => none

def Literal.ty : Literal → Ty
  | int _ => .int
  | str _ => .str
  | bool _ => .bool

/-- The type of an expression, if it has one, and what is wrong with it. -/
structure Inference where
  ty : Option Ty
  findings : Findings

namespace Inference

/-- The type of an operation on an operand that was inferred. -/
def unary (offset : Nat) (op : UnaryOp) (operand : Inference) : Inference :=
  match operand.ty with
  | none => ⟨none, operand.findings⟩
  | some t =>
    if t = op.operandTy then ⟨some t, operand.findings⟩
    else ⟨none, operand.findings ++ .one ⟨offset, .unaryMismatch op t⟩⟩

def binary (offset : Nat) (op : BinaryOp) (lhs rhs : Inference) : Inference :=
  let findings := lhs.findings ++ rhs.findings
  match lhs.ty, rhs.ty with
  | some l, some r =>
    match op.resultTy? l r with
    | some t => ⟨some t, findings⟩
    | none => ⟨none, findings ++ .one ⟨offset, .binaryMismatch op l r⟩⟩
  | _, _ => ⟨none, findings⟩

/-- What is wrong with one argument for a parameter. -/
def argument (name : String) (param : Option Ty) (offset : Nat) (arg : Inference) : List Finding :=
  match param, arg.ty with
  | some expects, some found =>
    if expects = found then [] else [⟨offset, .argumentType name expects found⟩]
  | _, _ => []

/-- The type of a call, given the arguments with the offsets where they start. -/
def call (offset : Nat) (name : String) (args : List (Nat × Inference)) : Inference :=
  let findings := args.foldl (fun fs arg => fs ++ arg.2.findings) .none
  match Builtin.ofName? name with
  | none => ⟨none, findings ++ .one ⟨offset, .unknownFunction name⟩⟩
  | some f =>
    if f.params.length ≠ args.length then
      ⟨none, findings ++ .one ⟨offset, .argumentCount name f.params.length args.length⟩⟩
    else
      let wrong := (f.params.zip args).flatMap fun (param, start, arg) =>
        argument name param start arg
      let known := args.all (·.2.ty.isSome)
      ⟨if known ∧ wrong = [] then some f.result else none, findings ++ .ofList wrong⟩

end Inference

namespace Scope

mutual

/-- Infers the type of an expression. -/
def infer (s : Scope) : Expr → Inference
  | .literal _ l => ⟨some l.ty, .none⟩
  | .path span segments =>
    match s.resolve segments with
    | .ok (some (_, t)) => ⟨some t, .none⟩
    | .ok none => ⟨none, .none⟩
    | .error p => ⟨none, .one ⟨span.start, p⟩⟩
  | .unary span op e => .unary span.start op (s.infer e)
  | .binary span op l r => .binary span.start op (s.infer l) (s.infer r)
  | .call span name args => .call span.start name (s.inferAll args)

/-- Infers the types of arguments, each with the offset where it starts. -/
def inferAll (s : Scope) : List Expr → List (Nat × Inference)
  | [] => []
  | e :: es => (e.span.start, s.infer e) :: s.inferAll es

end

mutual

/-- Adds the resolutions of the paths in an expression. -/
def bindPaths (s : Scope) : Expr → Resolutions → Resolutions
  | .literal _ _, found => found
  | .path span segments, found =>
    match s.resolve segments with
    | .ok (some (r, _)) => found.insert span.start r
    | _ => found
  | .unary _ _ e, found => s.bindPaths e found
  | .binary _ _ l r, found => s.bindPaths r (s.bindPaths l found)
  | .call _ _ args, found => s.bindAllPaths args found

def bindAllPaths (s : Scope) : List Expr → Resolutions → Resolutions
  | [], found => found
  | e :: es, found => s.bindAllPaths es (s.bindPaths e found)

end

end Scope

/-- How far a script has been checked. -/
structure Checking where
  scope : Scope
  /-- The type of the last statement; statements other than expressions have type `unit`. -/
  finalTy : Option Ty
  resolutions : Resolutions
  findings : Findings

namespace Checking

/-- Checks the next statement. -/
def step (c : Checking) (s : Stmt) : Checking :=
  match s.kind with
  | .bind name value =>
    let i := c.scope.infer value
    { scope := { c.scope with bindings := c.scope.bindings.insert name i.ty }
      finalTy := some .unit
      resolutions := c.scope.bindPaths value c.resolutions
      findings := c.findings ++ i.findings }
  | .use path =>
    let name := dotted path
    if c.scope.modules.isNamespace name then
      { c with
        finalTy := some .unit
        scope := { c.scope with
          imports := if name ∈ c.scope.imports then c.scope.imports
            else c.scope.imports ++ [name] } }
    else
      { c with
        finalTy := some .unit
        findings := c.findings ++ .one ⟨s.span.start, .unknownNamespace name⟩ }
  | .expr value =>
    let i := c.scope.infer value
    { c with
      finalTy := some (i.ty.getD .unit)
      resolutions := c.scope.bindPaths value c.resolutions
      findings := c.findings ++ i.findings }

def start (scope : Scope) : Checking := ⟨scope, none, ∅, .none⟩

end Checking

/-- A script in which nothing is wrong. -/
structure Checked where
  finalTy : Option Ty
  resolutions : Resolutions
  imports : List String

/-- Checks the statements of a script in order. -/
def check (scope : Scope) (script : Script) : Except (List Finding) Checked :=
  let c := script.foldl Checking.step (.start scope)
  match c.findings.toList with
  | [] => .ok ⟨c.finalTy, c.resolutions, c.scope.imports⟩
  | findings => .error findings

end ScriptSession
