import ScriptSession.Value
/-!
The functions that every script can call, with what they take and give.
-/
namespace ScriptSession

inductive Builtin
  | print | panic | len | str | arg | argc
deriving DecidableEq, Repr

namespace Builtin

def ofName? : String → Option Builtin
  | "print" => some print
  | "panic" => some panic
  | "len" => some len
  | "str" => some str
  | "arg" => some arg
  | "argc" => some argc
  | _ => none

/-- The types of the parameters, where `none` takes a value of any type. -/
def params : Builtin → List (Option Ty)
  | print => [none]
  | panic => [some .str]
  | len => [some .str]
  | str => [none]
  | arg => [some .int]
  | argc => []

def result : Builtin → Ty
  | print => .unit
  | panic => .unit
  | len => .int
  | str => .str
  | arg => .str
  | argc => .int

/-- The names of the functions, in alphabetical order. -/
def names : List String := ["arg", "argc", "len", "panic", "print", "str"]

end Builtin
end ScriptSession
