import ScriptSession.Host.Shell.Script
/-!
Arithmetic of the shell, on whole numbers of sixty-four bits.
-/
namespace ScriptSession.Shell.Arithmetic

/-- How many numbers sixty-four bits can tell apart. -/
def modulus : Nat := 0x10000000000000000

/-- The largest number. -/
def largest : Nat := 0x7fffffffffffffff

/-- The number of sixty-four bits with a sign that a number wraps to. -/
def wrap (n : Int) : Int :=
  Int.bmod n modulus

inductive Token
  | number (n : Int)
  | name (s : Octets)
  | sign (s : String)
  | stop
deriving DecidableEq

def signs : List String :=
  ["<<=", ">>=", "<<", ">>", "<=", ">=", "==", "!=", "&&", "||", "+=", "-=", "*=", "/=", "%=", "&=",
   "^=", "|=", "+", "-", "*", "/", "%", "<", ">", "=", "!", "~", "&", "^", "|", "?", ":", "(", ")"]

/-- The number at the front of a text: hexadecimal after `0x`, octal after `0`. Numbers that are too
large are cut. -/
def number (cs : Octets) : Int × Octets :=
  let (n, rest) : Nat × Octets := match cs with
    | '0' :: x :: d :: rest =>
      if (x = 'x' ∨ x = 'X') ∧ (Octets.digit? 16 d).isSome then
        let (n, _, rest) := Octets.readNumber 16 (rest.length + 1) 0 0 (d :: rest)
        (n, rest)
      else
        let (n, _, rest) := Octets.readNumber 8 cs.length 0 0 cs
        (n, rest)
    | '0' :: _ =>
      let (n, _, rest) := Octets.readNumber 8 cs.length 0 0 cs
      (n, rest)
    | _ =>
      let (n, _, rest) := Octets.readNumber 10 cs.length 0 0 cs
      (n, rest)
  (min n largest, rest)

/-- The token at the front of a text, which may be one that has no meaning. -/
def token (cs : Octets) : Token × Octets :=
  match cs.dropWhile Octets.isSpace with
  | [] => (.stop, [])
  | c :: rest =>
    if c.isDigit then
      let (n, after) := number (c :: rest)
      (.number n, after)
    else if isNameStart c then
      let name := (c :: rest).takeWhile isNameChar
      (.name name, (c :: rest).drop name.length)
    else match signs.find? fun s => s.toList.isPrefixOf (c :: rest) with
      | some s => (.sign s, (c :: rest).drop s.length)
      | none => (.sign "", rest)

/-- Why an expression has no value. -/
inductive Fault
  | expected (what : String)
  | zeroDivision
  | badNumber (text : Octets)

/-- The token that is looked at, what follows it, and the values of names. -/
structure Reading where
  current : Token
  rest : Octets
  value : Octets → Option Octets
  assigned : List (Octets × Int) := []

abbrev ArithM := ExceptT Fault (StateM Reading)

def advance : ArithM Unit :=
  modify fun r =>
    let (current, rest) := token r.rest
    { r with current, rest }

/-- The value of a name, which is zero where it has none. -/
def valueOf (name : Octets) : ArithM Int := do
  let r ← get
  match r.assigned.lookup name, r.value name with
  | some n, _ => return n
  | none, none => return 0
  | none, some text =>
    let trimmed := text.dropWhile Octets.isSpace
    let (negative, digits) := match trimmed with
      | '-' :: cs => (true, cs)
      | '+' :: cs => (false, cs)
      | cs => (false, cs)
    if text = [] then return 0
    let (n, rest) := number digits
    if !digits.head?.any Char.isDigit ∨ rest.any (!Octets.isSpace ·) then throw (.badNumber text)
    return if negative then -n else n

/-- Signs of two operands with how tightly they hold. -/
def binding? : String → Option Nat
  | "*" | "/" | "%" => some 10
  | "+" | "-" => some 9
  | "<<" | ">>" => some 8
  | "<" | "<=" | ">" | ">=" => some 7
  | "==" | "!=" => some 6
  | "&" => some 5
  | "^" => some 4
  | "|" => some 3
  | _ => none

def ofBool (b : Bool) : Int :=
  if b then 1 else 0

/-- Works bit by bit on the two's complement. -/
def bitwise (f : Nat → Nat → Nat) (a b : Int) : Int :=
  wrap (f (a % modulus).toNat (b % modulus).toNat)

/-- The value of an operation. What is not `evaluated` does not fail. -/
def apply (evaluated : Bool) (op : String) (a b : Int) : Except Fault Int :=
  let places := (b % 64).toNat
  match op with
  | "*" => .ok (wrap (a * b))
  | "/" => if b = 0 then (if evaluated then .error .zeroDivision else .ok 0)
    else .ok (if b = -1 ∧ a = -largest - 1 then largest else a.tdiv b)
  | "%" => if b = 0 then (if evaluated then .error .zeroDivision else .ok 0) else .ok (a.tmod b)
  | "+" => .ok (wrap (a + b))
  | "-" => .ok (wrap (a - b))
  | "<<" => .ok (wrap (a * (1 <<< places : Nat)))
  | ">>" => .ok (a >>> places)
  | "<" => .ok (ofBool (a < b))
  | "<=" => .ok (ofBool (a ≤ b))
  | ">" => .ok (ofBool (b < a))
  | ">=" => .ok (ofBool (b ≤ a))
  | "==" => .ok (ofBool (a = b))
  | "!=" => .ok (ofBool (a ≠ b))
  | "&" => .ok (bitwise (· &&& ·) a b)
  | "^" => .ok (bitwise (· ^^^ ·) a b)
  | _ => .ok (bitwise (· ||| ·) a b)

mutual

/-- Reads an assignment or a choice. What is not `evaluated` changes nothing. -/
def assignment : Nat → Bool → ArithM Int
  | 0, _ => throw (.expected "primary")
  | fuel + 1, evaluated => do
    let r ← get
    match r.current, token r.rest with
    | .name name, (.sign op, _) => do
      let base := if op = "=" then some "" else
        (["*=", "/=", "%=", "+=", "-=", "<<=", ">>=", "&=", "^=", "|="].find? (· = op)).map
          fun s => (s.dropEnd 1).toString
      match base with
      | none => choice fuel evaluated
      | some base => do
        advance
        advance
        let b ← assignment fuel evaluated
        let n ← if base = "" then pure b else do
          let a ← valueOf name
          match apply evaluated base a b with
          | .ok n => pure n
          | .error e => throw e
        if evaluated then
          modify fun r => { r with assigned := (name, n) :: r.assigned }
        return n
    | _, _ => choice fuel evaluated

def choice : Nat → Bool → ArithM Int
  | 0, _ => throw (.expected "primary")
  | fuel + 1, evaluated => do
    let a ← disjunction fuel evaluated
    if (← get).current ≠ .sign "?" then return a
    advance
    let b ← assignment fuel (evaluated && a ≠ 0)
    if (← get).current ≠ .sign ":" then throw (.expected "':'")
    advance
    let c ← choice fuel (evaluated && a = 0)
    return if a ≠ 0 then b else c

def disjunction : Nat → Bool → ArithM Int
  | 0, _ => throw (.expected "primary")
  | fuel + 1, evaluated => do
    let a ← conjunction fuel evaluated
    if (← get).current ≠ .sign "||" then return a
    advance
    let b ← disjunction fuel (evaluated && a = 0)
    return ofBool (a ≠ 0 || b ≠ 0)

def conjunction : Nat → Bool → ArithM Int
  | 0, _ => throw (.expected "primary")
  | fuel + 1, evaluated => do
    let first ← primary fuel evaluated
    let a ← operations fuel evaluated 0 first
    if (← get).current ≠ .sign "&&" then return a
    advance
    let b ← conjunction fuel (evaluated && a ≠ 0)
    return ofBool (a ≠ 0 && b ≠ 0)

/-- Reads the operations that hold more tightly than `least`, on a first operand. -/
def operations : Nat → Bool → Nat → Int → ArithM Int
  | 0, _, _, _ => throw (.expected "primary")
  | fuel + 1, evaluated, least, a => do
    match (← get).current with
    | .sign op =>
      match binding? op with
      | none => return a
      | some level =>
        if level ≤ least then return a
        advance
        let operand ← primary fuel evaluated
        let b ← operations fuel evaluated level operand
        match apply evaluated op a b with
        | .ok n => operations fuel evaluated least n
        | .error e => throw e
    | _ => return a

def primary : Nat → Bool → ArithM Int
  | 0, _ => throw (.expected "primary")
  | fuel + 1, evaluated => do
    match (← get).current with
    | .number n => do
      advance
      return n
    | .name name => do
      advance
      if evaluated then valueOf name else return 0
    | .sign "(" => do
      advance
      let n ← assignment fuel evaluated
      if (← get).current ≠ .sign ")" then throw (.expected "')'")
      advance
      return n
    | .sign "-" => do
      advance
      return wrap (-(← primary fuel evaluated))
    | .sign "+" => do
      advance
      primary fuel evaluated
    | .sign "!" => do
      advance
      return ofBool ((← primary fuel evaluated) = 0)
    | .sign "~" => do
      advance
      return -(← primary fuel evaluated) - 1
    | _ => throw (.expected "primary")

end

def Fault.message (expression : Octets) : Fault → String
  | expected what => s!"arithmetic expression: expecting {what}: \"{expression.toText}\""
  | zeroDivision => s!"arithmetic expression: division by zero: \"{expression.toText}\""
  | badNumber text => s!"Illegal number: {text.toText}"

/-- The value of an expression, with what it assigned, oldest first. -/
def evaluate (value : Octets → Option Octets) (expression : Octets) :
    Except Fault (Int × List (Octets × Int)) :=
  let (current, rest) := token expression
  let reading : ArithM Int := do
    let n ← assignment (16 * expression.length + 64) true
    if (← get).current ≠ .stop then throw (.expected "EOF")
    return n
  match reading.run.run { current, rest, value } with
  | (.ok n, r) => .ok (n, r.assigned.reverse)
  | (.error e, _) => .error e

end ScriptSession.Shell.Arithmetic
