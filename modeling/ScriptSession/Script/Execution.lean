import ScriptSession.Script.Typing
/-!
Running a checked script. Evaluation goes from left to right, prints as it goes and stops at the
first fault; what was printed before a fault stays printed.
-/
namespace ScriptSession

/-- Why a running script stopped. -/
inductive FaultKind
  | divisionByZero
  | overflow (symbol : String)
  | panic (message : String)
  | argOutOfRange (index : Word) (count : Nat)
deriving DecidableEq

def FaultKind.message : FaultKind → String
  | divisionByZero => "division by zero"
  | overflow symbol => s!"integer overflow in '{symbol}'"
  | panic message => s!"panic: {message}"
  | argOutOfRange index count =>
    s!"argument index {index.display} out of range ({count} arguments)"

/-- A fault at a byte offset. -/
structure Fault where
  offset : Nat
  kind : FaultKind
deriving DecidableEq

/-- A fault at a place that a reader can find. -/
structure RuntimeFault where
  position : Position
  kind : FaultKind
deriving DecidableEq

def RuntimeFault.display (f : RuntimeFault) : String :=
  s!"({f.position.display}): runtime fault: {f.kind.message}"

def Fault.locate (source : List Char) (f : Fault) : RuntimeFault :=
  ⟨.ofOffset source f.offset, f.kind⟩

/-- A computation that prints and then gives a value or a fault. -/
structure Effect (α : Type) where
  printed : String
  result : Except Fault α

namespace Effect

def pure {α : Type} (a : α) : Effect α := ⟨"", .ok a⟩

def bind {α β : Type} (x : Effect α) (f : α → Effect β) : Effect β :=
  match x.result with
  | .ok a =>
    let y := f a
    ⟨x.printed ++ y.printed, y.result⟩
  | .error e => ⟨x.printed, .error e⟩

instance : Monad Effect where
  pure := pure
  bind := bind

def fault {α : Type} (offset : Nat) (kind : FaultKind) : Effect α := ⟨"", .error ⟨offset, kind⟩⟩

def printLine (line : String) : Effect Unit := ⟨line ++ "\n", .ok ()⟩

/-- The value of an operation on words, or a fault where the result is no word. -/
def word (offset : Nat) (symbol : String) : Option Word → Effect Value
  | some n => pure (.int n)
  | none => fault offset (.overflow symbol)

end Effect

abbrev Bindings := Std.ExtTreeMap String Value

/-- What a script can look up while it runs. -/
structure Frame where
  resolutions : Resolutions
  args : List String
  bindings : Bindings

namespace Frame

/-- The value of a path expression that starts at an offset. -/
def lookup (f : Frame) (offset : Nat) : Value :=
  let value := match f.resolutions[offset]? with
    | some (.binding name) => f.bindings[name]?
    | some (.exported m name) => m.exports[name]?
    | none => none
  value.getD .unit

end Frame

def evalUnary (offset : Nat) : UnaryOp → Value → Effect Value
  | .neg, .int n => .word offset "-" (Word.neg? n)
  | .not, .bool b => .pure (.bool !b)
  | _, v => .pure v

/-- Whether two numbers or two texts in a given order satisfy a comparison. -/
def BinaryOp.holds (op : BinaryOp) (o : Ordering) : Bool :=
  match op with
  | lt => o.isLT
  | ltEq => o.isLE
  | gt => o.isGT
  | _ => o.isGE

def compareValues? : Value → Value → Option Ordering
  | .int a, .int b => some (compare a.toInt b.toInt)
  | .str a, .str b => some (compare a b)
  | _, _ => none

/-- The value of an operation on two values. -/
def evalBinary (offset : Nat) (op : BinaryOp) (left right : Value) : Effect Value :=
  match op, left, right with
  | .add, .int a, .int b => .word offset op.symbol (Word.add? a b)
  | .sub, .int a, .int b => .word offset op.symbol (Word.sub? a b)
  | .mul, .int a, .int b => .word offset op.symbol (Word.mul? a b)
  | .div, .int a, .int b =>
    if b = 0 then .fault offset .divisionByZero else .word offset op.symbol (Word.div? a b)
  | .rem, .int a, .int b =>
    if b = 0 then .fault offset .divisionByZero else .word offset op.symbol (Word.rem? a b)
  | .add, .str a, .str b => .pure (.str (a ++ b))
  | .eq, a, b => .pure (.bool (a = b))
  | .notEq, a, b => .pure (.bool (a ≠ b))
  | .lt, a, b | .ltEq, a, b | .gt, a, b | .gtEq, a, b =>
    .pure (.bool ((compareValues? a b).any op.holds))
  | .and, _, b | .or, _, b => .pure b
  | _, a, _ => .pure a

/-- The value that the left operand alone decides, if it does. -/
def shortCircuit? : BinaryOp → Value → Option Value
  | .and, .bool false => some (.bool false)
  | .or, .bool true => some (.bool true)
  | _, _ => none

/-- The script argument at an index. -/
def argument? (args : List String) (index : Word) : Option String :=
  if 0 ≤ index.toInt then args[index.toInt.toNat]? else none

/-- Calls a function on values. -/
def evalCall (args : List String) (offset : Nat) (name : String) (values : List Value) :
    Effect Value :=
  match Builtin.ofName? name, values with
  | some .print, [v] => do
    Effect.printLine v.display
    return .unit
  | some .panic, [v] => .fault offset (.panic v.display)
  | some .len, [.str s] => .pure (.int (.ofNat s.length))
  | some .str, [v] => .pure (.str v.display)
  | some .argc, [] => .pure (.int (.ofNat args.length))
  | some .arg, [.int index] =>
    match argument? args index with
    | some a => .pure (.str a)
    | none => .fault offset (.argOutOfRange index args.length)
  | _, _ => .pure .unit

def Literal.value : Literal → Value
  | int n => .int n
  | str s => .str s
  | bool b => .bool b

mutual

/-- Evaluates an expression. -/
def eval (f : Frame) : Expr → Effect Value
  | .literal _ l => .pure l.value
  | .path span _ => .pure (f.lookup span.start)
  | .unary span op e => do evalUnary span.start op (← eval f e)
  | .binary span op l r => do
    let left ← eval f l
    match shortCircuit? op left with
    | some v => return v
    | none => evalBinary span.start op left (← eval f r)
  | .call span name args => do evalCall f.args span.start name (← evalAll f args)

/-- Evaluates arguments from left to right. -/
def evalAll (f : Frame) : List Expr → Effect (List Value)
  | [] => .pure []
  | e :: es => do
    let v ← eval f e
    let vs ← evalAll f es
    return v :: vs

end

/-- How far a script has run. -/
structure Progress where
  bindings : Bindings
  /-- The value of the last statement that completed. -/
  last : Option Value
  /-- How many statements completed. -/
  completed : Nat
  printed : String

/-- The value of a statement and the bindings after it. -/
def runStmt (resolutions : Resolutions) (args : List String) (bindings : Bindings) (s : Stmt) :
    Effect (Value × Bindings) :=
  let frame : Frame := ⟨resolutions, args, bindings⟩
  match s.kind with
  | .bind name value => do return (.unit, bindings.insert name (← eval frame value))
  | .use _ => .pure (.unit, bindings)
  | .expr value => do return (← eval frame value, bindings)

/-- Runs statements in order until one faults. -/
def runStmts (resolutions : Resolutions) (args : List String) :
    Progress → Script → Progress × Option Fault
  | p, [] => (p, none)
  | p, s :: rest =>
    let step := runStmt resolutions args p.bindings s
    let printed := p.printed ++ step.printed
    match step.result with
    | .ok (value, bindings) =>
      runStmts resolutions args ⟨bindings, some value, p.completed + 1, printed⟩ rest
    | .error fault => ({ p with printed }, some fault)

end ScriptSession
