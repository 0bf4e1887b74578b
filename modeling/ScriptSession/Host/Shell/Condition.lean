import ScriptSession.FileTree
import ScriptSession.Host.Shell.Machine
/-!
Conditions on texts, numbers and files that scripts ask for in square brackets.
-/
namespace ScriptSession.Shell.Condition

/-- Conditions with one operand. -/
def unary? (files : FileTree) (op : String) : Option (Octets → Bool) :=
  let found (name : Octets) : Option Node := (files.find ⟨name.toText⟩).toOption
  match op with
  | "-n" => some (· ≠ [])
  | "-z" => some (· = [])
  | "-e" => some fun name => (found name).isSome
  | "-f" => some fun name => (found name).any fun | .file _ => true | .dir => false
  | "-d" => some fun name => (found name).any fun | .file _ => false | .dir => true
  | "-r" => some fun name => (found name).isSome
  | "-w" => some fun name => (found name).isSome
  | "-x" => some fun name => (found name).any fun | .file _ => false | .dir => true
  | "-s" => some fun name => (found name).any fun | .file bytes => bytes.size ≠ 0 | .dir => true
  | "-b" | "-c" | "-g" | "-h" | "-k" | "-L" | "-p" | "-S" | "-t" | "-u" => some fun _ => false
  | "-G" | "-O" => some fun name => (found name).isSome
  | _ => none

/-- The whole number that a text is. -/
def number (cs : Octets) : Except String Int :=
  let trimmed := (cs.dropWhile Octets.isSpace).reverse.dropWhile Octets.isSpace |>.reverse
  let (negative, digits) := match trimmed with
    | '-' :: ds => (true, ds)
    | '+' :: ds => (false, ds)
    | ds => (false, ds)
  match digits? digits with
  | some n => .ok (if negative then -n else n)
  | none => .error s!"Illegal number: {cs.toText}"

/-- Conditions with two operands. -/
def binary? (op : String) : Option (Octets → Octets → Except String Bool) :=
  let compare (f : Int → Int → Bool) : Option (Octets → Octets → Except String Bool) :=
    some fun a b => do return f (← number a) (← number b)
  match op with
  | "=" | "==" => some fun a b => .ok (a = b)
  | "!=" => some fun a b => .ok (a ≠ b)
  | "<" => some fun a b => .ok (a ≠ b && Glob.le a b)
  | ">" => some fun a b => .ok (a ≠ b && Glob.le b a)
  | "-eq" => compare (· = ·)
  | "-ne" => compare (· ≠ ·)
  | "-gt" => compare (· > ·)
  | "-ge" => compare (· ≥ ·)
  | "-lt" => compare (· < ·)
  | "-le" => compare (· ≤ ·)
  | "-nt" | "-ot" | "-ef" => some fun _ _ => .ok false
  | _ => none

def isBinary (word : Octets) : Bool :=
  (binary? (String.ofList word)).isSome

mutual

/-- The value of conditions joined by or, and what follows them. -/
def disjunction (files : FileTree) : Nat → List Octets → Except String (Bool × List Octets)
  | 0, words => .ok (false, words)
  | fuel + 1, words => do
    let (a, rest) ← conjunction files fuel words
    match rest with
    | ['-', 'o'] :: rest => do
      let (b, rest) ← disjunction files fuel rest
      return (a || b, rest)
    | _ => return (a, rest)

def conjunction (files : FileTree) : Nat → List Octets → Except String (Bool × List Octets)
  | 0, words => .ok (false, words)
  | fuel + 1, words => do
    let (a, rest) ← negation files fuel words
    match rest with
    | ['-', 'a'] :: rest => do
      let (b, rest) ← conjunction files fuel rest
      return (a && b, rest)
    | _ => return (a, rest)

def negation (files : FileTree) : Nat → List Octets → Except String (Bool × List Octets)
  | 0, words => .ok (false, words)
  | fuel + 1, words =>
    match words with
    | ['!'] :: next :: rest =>
      if isBinary next ∧ rest ≠ [] then primary files fuel words
      else do
        let (a, rest) ← negation files fuel (next :: rest)
        return (!a, rest)
    | _ => primary files fuel words

def primary (files : FileTree) : Nat → List Octets → Except String (Bool × List Octets)
  | 0, words => .ok (false, words)
  | fuel + 1, words =>
    match words with
    | [] => .ok (false, [])
    | first :: rest =>
      let plain : Except String (Bool × List Octets) :=
        match rest with
        | op :: b :: rest =>
          match binary? (String.ofList op) with
          | some f => do return (← f first b, rest)
          | none => .ok (first ≠ [], op :: b :: rest)
        | _ => .ok (first ≠ [], rest)
      let startsBinary := match rest with
        | op :: _ :: _ => isBinary op
        | _ => false
      if startsBinary then plain
      else if first = ['('] ∧ rest ≠ [] then do
        let (a, rest) ← disjunction files fuel rest
        match rest with
        | [')'] :: rest => return (a, rest)
        | _ => .error "closing paren expected"
      else match unary? files (String.ofList first), rest with
        | some f, operand :: rest => .ok (f operand, rest)
        | some _, [] => .ok (true, [])
        | none, _ => plain

end

/-- The value of a condition. -/
def holds (files : FileTree) (words : List Octets) : Except String Bool := do
  let (value, rest) ← disjunction files (4 * words.length + 8) words
  match rest with
  | [] => return value
  | _ =>
    let last := (words.drop (words.length - rest.length - 1)).headD []
    .error (if last = [] then "unexpected operator"
      else s!"{Octets.toText last}: unexpected operator")

end ScriptSession.Shell.Condition
