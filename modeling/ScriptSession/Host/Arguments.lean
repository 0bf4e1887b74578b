import ScriptSession.Host.Octets
/-!
Arguments of programs: options of one letter, which may stand together behind one dash, options
with long names, which may be cut short, and operands, which may stand anywhere between them.
-/
namespace ScriptSession

/-- Whether an option takes a value. -/
inductive Arity
  | none | required | optional
deriving DecidableEq

/-- An option that programs know under a letter and under long names. -/
structure Flag (α : Type) where
  flag : α
  arity : Arity := .none
  letters : List Char := []
  names : List String := []

/-- One argument, as a program meets it. -/
inductive Argument (α : Type)
  | flag (flag : α) (value : Option Octets)
  | operand (text : Octets)
  /-- An argument that is at fault, and what is wrong with it. -/
  | fault (message : String)

namespace Argument

variable {α : Type}

/-- A long option, under its full name, with the value that was given behind an equals sign. -/
def long (flags : List (Flag α)) (text : Octets) :
    Except String (Flag α × String × Option Octets) :=
  let (name, value) := match Octets.splitAt? '=' text with
    | some (name, value) => (name, some value)
    | none => (text, none)
  let named : List (String × Nat) :=
    flags.zipIdx.flatMap fun (f, i) => f.names.map (·, i)
  let exact := named.filter fun (n, _) => n.toList = name
  let possible := if exact = [] then named.filter fun (n, _) => name.isPrefixOf n.toList else exact
  match possible with
  | [] => .error s!"unrecognized option '--{text.toText}'"
  | (n, i) :: rest =>
    if rest.any (·.2 ≠ i) then
      let names := possible.map fun (n, _) => " '--" ++ n ++ "'"
      .error s!"option '--{text.toText}' is ambiguous; possibilities:{String.join names}"
    else match flags[i]? with
      | none => .error s!"unrecognized option '--{text.toText}'"
      | some f =>
        if f.arity = .none ∧ value.isSome then
          .error s!"option '--{n}' doesn't allow an argument"
        else .ok (f, n, value)

/-- The options of one argument after its dash. The last one may still need the next argument as
its value. -/
def cluster (flags : List (Flag α)) : Octets → List (Argument α) × Option (α × String)
  | [] => ([], none)
  | c :: cs =>
    match flags.find? fun f => c ∈ f.letters with
    | none => ([fault s!"invalid option -- '{c}'"], none)
    | some f =>
      match f.arity with
      | .none =>
        let (rest, pending) := cluster flags cs
        (flag f.flag none :: rest, pending)
      | .optional => ([flag f.flag (if cs = [] then none else some cs)], none)
      | .required =>
        if cs = [] then ([], some (f.flag, s!"option requires an argument -- '{c}'"))
        else ([flag f.flag (some cs)], none)

/-- Reads arguments in order. `pending` is an option that takes the next one as its value, with the
fault if there is none. After two dashes all are operands. -/
def read (flags : List (Flag α)) (pending : Option (α × String)) :
    List Octets → List (Argument α)
  | [] =>
    match pending with
    | some (_, message) => [fault message]
    | none => []
  | text :: rest =>
    match pending, text with
    | some (f, _), _ => flag f (some text) :: read flags none rest
    | none, ['-', '-'] => rest.map operand
    | none, '-' :: '-' :: name =>
      match long flags name with
      | .error message => fault message :: read flags none rest
      | .ok (f, name, value) =>
        if f.arity = .required ∧ value.isNone then
          read flags (some (f.flag, s!"option '--{name}' requires an argument")) rest
        else flag f.flag value :: read flags none rest
    | none, '-' :: c :: cs =>
      let (options, pending) := cluster flags (c :: cs)
      options ++ read flags pending rest
    | none, _ => operand text :: read flags none rest

end Argument
end ScriptSession
