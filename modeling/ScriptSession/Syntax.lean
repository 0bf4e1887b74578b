import ScriptSession.Token
import ScriptSession.Word
/-!
Syntax trees of the script language. Every node carries the span of the text it was read from; a
pair of parentheses leaves no node and widens the span of the expression inside.
-/
namespace ScriptSession

inductive Literal
  | int (n : Word)
  | str (s : String)
  | bool (b : Bool)
deriving DecidableEq

inductive UnaryOp
  | neg | not
deriving DecidableEq, Repr

def UnaryOp.symbol : UnaryOp → String
  | neg => "-"
  | not => "!"

inductive BinaryOp
  | add | sub | mul | div | rem
  | eq | notEq | lt | ltEq | gt | gtEq
  | and | or
deriving DecidableEq, Repr

namespace BinaryOp

def symbol : BinaryOp → String
  | add => "+"
  | sub => "-"
  | mul => "*"
  | div => "/"
  | rem => "%"
  | eq => "=="
  | notEq => "!="
  | lt => "<"
  | ltEq => "<="
  | gt => ">"
  | gtEq => ">="
  | and => "&&"
  | or => "||"

/-- Binding power; the operator with the higher one binds tighter. -/
def power : BinaryOp → Nat
  | or => 1
  | and => 2
  | eq | notEq => 3
  | lt | ltEq | gt | gtEq => 4
  | add | sub => 5
  | mul | div | rem => 6

/-- The operator that a token stands for between two operands. -/
def ofToken? : Token → Option BinaryOp
  | .orOr => some or
  | .andAnd => some and
  | .eqEq => some eq
  | .notEq => some notEq
  | .lt => some lt
  | .ltEq => some ltEq
  | .gt => some gt
  | .gtEq => some gtEq
  | .plus => some add
  | .minus => some sub
  | .star => some mul
  | .slash => some div
  | .percent => some rem
  | _ => none

end BinaryOp

/-- Expressions. A path is `x` or `Module.Path.name`; only plain names are called. -/
inductive Expr
  | literal (span : Span) (value : Literal)
  | path (span : Span) (segments : List String)
  | unary (span : Span) (op : UnaryOp) (operand : Expr)
  | binary (span : Span) (op : BinaryOp) (lhs rhs : Expr)
  | call (span : Span) (name : String) (args : List Expr)

namespace Expr

def span : Expr → Span
  | literal s _ | path s _ | unary s _ _ | binary s _ _ _ | call s _ _ => s

def withSpan (s : Span) : Expr → Expr
  | literal _ v => literal s v
  | path _ p => path s p
  | unary _ op e => unary s op e
  | binary _ op l r => binary s op l r
  | call _ f args => call s f args

mutual

def decEq : (a b : Expr) → Decidable (a = b)
  | literal s v, literal s' v' =>
    decidable_of_iff (s = s' ∧ v = v') (by rw [literal.injEq])
  | path s p, path s' p' =>
    decidable_of_iff (s = s' ∧ p = p') (by rw [path.injEq])
  | unary s op e, unary s' op' e' =>
    have := e.decEq e'
    decidable_of_iff (s = s' ∧ op = op' ∧ e = e') (by rw [unary.injEq])
  | binary s op l r, binary s' op' l' r' =>
    have := l.decEq l'
    have := r.decEq r'
    decidable_of_iff (s = s' ∧ op = op' ∧ l = l' ∧ r = r') (by rw [binary.injEq])
  | call s f es, call s' f' es' =>
    have := decEqs es es'
    decidable_of_iff (s = s' ∧ f = f' ∧ es = es') (by rw [call.injEq])
  | literal .., path .. | literal .., unary .. | literal .., binary .. | literal .., call ..
  | path .., literal .. | path .., unary .. | path .., binary .. | path .., call ..
  | unary .., literal .. | unary .., path .. | unary .., binary .. | unary .., call ..
  | binary .., literal .. | binary .., path .. | binary .., unary .. | binary .., call ..
  | call .., literal .. | call .., path .. | call .., unary .. | call .., binary .. =>
    isFalse nofun

def decEqs : (es es' : List Expr) → Decidable (es = es')
  | [], [] => isTrue rfl
  | [], _ :: _ | _ :: _, [] => isFalse nofun
  | e :: es, e' :: es' =>
    have := e.decEq e'
    have := decEqs es es'
    decidable_of_iff (e = e' ∧ es = es') (by rw [List.cons.injEq])

end

instance : DecidableEq Expr := decEq

end Expr

inductive StmtKind
  | bind (name : String) (value : Expr)
  | use (path : List String)
  | expr (value : Expr)
deriving DecidableEq

/-- A statement; `terminated` says that a semicolon follows it. -/
structure Stmt where
  kind : StmtKind
  span : Span
  terminated : Bool
deriving DecidableEq

abbrev Script := List Stmt

/-- A dotted path as one name. -/
def dotted (segments : List String) : String :=
  ".".intercalate segments

end ScriptSession
