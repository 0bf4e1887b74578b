import ScriptSession.Text.Quoted
import ScriptSession.Word
/-!
The values of the script language and their static types.
-/
namespace ScriptSession

/-- The static type of an expression. -/
inductive Ty
  | int | str | bool | unit
deriving DecidableEq, Repr

def Ty.display : Ty → String
  | int => "int"
  | str => "str"
  | bool => "bool"
  | unit => "unit"

inductive Value
  | int (n : Word)
  | str (s : String)
  | bool (b : Bool)
  | unit
deriving DecidableEq

namespace Value

def ty : Value → Ty
  | int _ => .int
  | str _ => .str
  | bool _ => .bool
  | unit => .unit

/-- How `print` and `str` show a value: strings appear verbatim. -/
def display : Value → String
  | int n => n.display
  | str s => s
  | bool true => "true"
  | bool false => "false"
  | unit => "()"

/-- How an interactive reader is shown a value: strings are quoted. -/
def render : Value → String
  | str s => String.ofList (Text.quote s.toList)
  | v => v.display

end Value
end ScriptSession
