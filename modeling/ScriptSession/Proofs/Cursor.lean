import ScriptSession.Syntax.Parser
import ScriptSession.Text.Cut
/-!
Reading a script by moving a position over its tokens. Every step that could go wrong is checked:
a position beyond the tokens, a look in front of the first token, a cut inside of a character and a
round of a loop that takes no token each stop the reading. So does a call where too many others are
open already; how many may be is the fuel of a reading, and rounds of loops count as calls.
-/
namespace ScriptSession

namespace Text

/-- The parts of a text on the two sides of an offset, unless it is inside of a character or beyond
the end. -/
def cutAt? : Nat → List Char → Option (List Char × List Char)
  | 0, cs => some ([], cs)
  | _ + 1, [] => none
  | offset + 1, c :: cs =>
    if c.utf8Size ≤ offset + 1 then
      (cutAt? (offset + 1 - c.utf8Size) cs).map fun (front, back) => (c :: front, back)
    else none

/-- The part of a text in a span, both ends of which have to be places to cut at. -/
def slice? (cs : List Char) (span : Span) : Option (List Char) := do
  let (front, _) ← cutAt? span.stop cs
  let (_, word) ← cutAt? span.start front
  return word

end Text

/-- The place of a byte offset, found by cutting the text there and after the last line feed
before it; offsets past the end mean the end. -/
def Position.cut? (cs : List Char) (offset : Nat) : Option Position := do
  let (before, _) ← Text.cutAt? (min offset (Text.byteLength cs)) cs
  match Text.cutLast '\n' before with
  | none => return ⟨before.count '\n' + 1, before.length + 1⟩
  | some (above, _) =>
    let (_, row) ← Text.cutAt? (Text.byteLength above + 1) before
    return ⟨before.count '\n' + 1, row.length + 1⟩

namespace Cursor

/-- A text with its tokens, which are given by their classes and places. -/
structure Tape where
  source : List Char
  tokens : List (Token × Span)

/-- What no reading may do. -/
inductive Slip
  /-- The position is beyond the number of tokens. -/
  | pastEnd
  /-- The token in front of the first one is asked for. -/
  | nothingBefore
  /-- The text is cut inside of a character or outside of it. -/
  | offBoundary
  /-- A round of a loop takes no token. -/
  | idle
deriving DecidableEq, Repr

/-- Why a reading stops before the end of the tokens. -/
inductive Stop
  | rejected (e : CompileError)
  | slipped (s : Slip)
  | starved
deriving DecidableEq, Repr

/-- A step of a reading, which moves a position over a tape. -/
abbrev Step := ReaderT Tape (StateT Nat (Except Stop))

/-- What a step does where it is taken: it gives a value and the new position, or it stops. -/
def Step.at {α : Type} (m : Step α) (tape : Tape) (pos : Nat) : Except Stop (α × Nat) :=
  m tape pos

section Moves

variable {α : Type}

def slip (s : Slip) : Step α :=
  throw (.slipped s)

def starve : Step α :=
  throw .starved

def here? : Step (Option (Token × Span)) := do
  let pos ← get
  return (← read).tokens[pos]?

def peek : Step (Option Token) := do
  return (← here?).map (·.1)

def span : Step Span := do
  match ← here? with
  | some (_, span) => return span
  | none =>
    let eof := Text.byteLength (← read).source
    return ⟨eof, eof⟩

def text (span : Span) : Step String := do
  match Text.slice? (← read).source span with
  | some word => return String.ofList word
  | none => slip .offBoundary

def advance : Step Unit := do
  let pos ← get
  if pos < (← read).tokens.length then set (pos + 1) else slip .pastEnd

def bump : Step Span := do
  let s ← span
  advance
  return s

def eat (token : Token) : Step Bool := do
  if (← peek) = some token then
    advance
    return true
  else return false

/-- Where the token in front of the position stops. -/
def stopBefore : Step Nat := do
  match ← get with
  | 0 => slip .nothingBefore
  | pos + 1 =>
    match (← read).tokens[pos]? with
    | some (_, span) => return span.stop
    | none => slip .pastEnd

/-- Where the last of the tokens in front of the position stops, or `start` where there are none. -/
def lastStop (start : Nat) : Step Nat := do
  let pos ← get
  let tokens := (← read).tokens
  if pos ≤ tokens.length then
    return ((tokens.take pos).getLast?.map (·.2.stop)).getD start
  else slip .pastEnd

/-- Checks that a round of a loop that began at `start` has taken a token. -/
def progress (start : Nat) : Step Unit := do
  if start < (← get) then return () else slip .idle

def place (offset : Nat) : Step Position := do
  match Position.cut? (← read).source offset with
  | some p => return p
  | none => slip .offBoundary

def fail (problem : Problem) : Step α := do
  let s ← span
  let p ← place s.start
  throw (.rejected ⟨[⟨p, problem⟩]⟩)

def unexpected (expected : Expected) : Step α := do
  match ← peek with
  | none => fail (.missing expected)
  | some .directive =>
    let s ← span
    fail (.unknownDirective (← text s))
  | some _ =>
    let s ← span
    fail (.unexpected expected (← text s))

def expect (token : Token) (expected : Expected) : Step Span := do
  if (← peek) = some token then bump else unexpected expected

end Moves

def names : Nat → Nat → Step (List String × Nat)
  | 0, _ => starve
  | fuel + 1, stop => do
    let start ← get
    if ← eat .dot then
      let next ← expect .ident .nameAfterDot
      let name ← text next
      progress start
      let (segments, stop) ← names fuel next.stop
      return (name :: segments, stop)
    else return ([], stop)

def path (fuel : Nat) : Step (List String × Span) := do
  let first ← expect .ident .name
  let name ← text first
  let (segments, stop) ← names fuel first.stop
  return (name :: segments, ⟨first.start, stop⟩)

def negatedInt? (start : Nat) : Step (Option Expr) := do
  if (← peek) = some .int then
    let s ← span
    let digits ← text s
    match Word.ofNegatedDigits? digits with
    | some n =>
      advance
      return some (.literal ⟨start, s.stop⟩ (.int n))
    | none => return none
  else return none

mutual

def expr : Nat → Nat → Step Expr
  | 0, _ => starve
  | fuel + 1, floor => do
    let lhs ← unary fuel
    operators fuel floor lhs

def operators : Nat → Nat → Expr → Step Expr
  | 0, _, _ => starve
  | fuel + 1, floor, lhs => do
    let start ← get
    match (← peek).bind BinaryOp.ofToken? with
    | none => return lhs
    | some op =>
      if op.power ≤ floor then return lhs
      else do
        advance
        let rhs ← expr fuel op.power
        progress start
        operators fuel floor (.binary ⟨lhs.span.start, rhs.span.stop⟩ op lhs rhs)

def unary : Nat → Step Expr
  | 0 => starve
  | fuel + 1 => do
    match ← peek with
    | some .minus =>
      let sign ← bump
      match ← negatedInt? sign.start with
      | some e => return e
      | none =>
        let operand ← unary fuel
        return .unary ⟨sign.start, operand.span.stop⟩ .neg operand
    | some .bang =>
      let sign ← bump
      let operand ← unary fuel
      return .unary ⟨sign.start, operand.span.stop⟩ .not operand
    | _ => atom fuel

def atom : Nat → Step Expr
  | 0 => starve
  | fuel + 1 => do
    let s ← span
    match ← peek with
    | some .int =>
      let digits ← text s
      match Word.ofDigits? digits with
      | some n =>
        advance
        return .literal s (.int n)
      | none => fail (.intOutOfRange digits)
    | some .str =>
      advance
      let quoted ← text s
      return .literal s (.str (String.ofList (Token.unescape quoted.toList)))
    | some .kwTrue =>
      advance
      return .literal s (.bool true)
    | some .kwFalse =>
      advance
      return .literal s (.bool false)
    | some .lparen =>
      advance
      let inner ← expr fuel 0
      let close ← expect .rparen .closing
      return inner.withSpan ⟨s.start, close.stop⟩
    | some .ident =>
      let (segments, span) ← path fuel
      match segments with
      | [name] =>
        if ← eat .lparen then
          let values ← args fuel
          let stop ← stopBefore
          return .call ⟨s.start, stop⟩ name values
        else return .path span segments
      | _ => return .path span segments
    | _ => unexpected .expression

def args : Nat → Step (List Expr)
  | 0 => starve
  | fuel + 1 => do
    if ← eat .rparen then return [] else argsFrom fuel

def argsFrom : Nat → Step (List Expr)
  | 0 => starve
  | fuel + 1 => do
    let start ← get
    let e ← expr fuel 0
    if ← eat .comma then
      progress start
      let more ← argsFrom fuel
      return e :: more
    else
      let _ ← expect .rparen .commaOrClosing
      progress start
      return [e]

end

def stmtKind (fuel : Nat) : Step StmtKind := do
  match ← peek with
  | some .kwLet =>
    advance
    let binding ← expect .ident .bindingName
    let name ← text binding
    let _ ← expect .assign .assign
    let value ← expr fuel 0
    return .bind name value
  | some .kwUse =>
    advance
    let (segments, _) ← path fuel
    return .use segments
  | _ =>
    let value ← expr fuel 0
    return .expr value

def stmt (fuel : Nat) : Step Stmt := do
  let s ← span
  let kind ← stmtKind fuel
  let stop ← lastStop s.start
  return ⟨kind, ⟨s.start, stop⟩, false⟩

def stmts : Nat → Step Script
  | 0 => starve
  | fuel + 1 => do
    let start ← get
    match ← peek with
    | none => return []
    | some _ =>
      if ← eat .semi then
        progress start
        stmts fuel
      else
        let s ← stmt fuel
        let terminated ← eat .semi
        if !terminated && (← peek).isSome then unexpected .semicolon
        else
          progress start
          let more ← stmts fuel
          return { s with terminated } :: more

/-- A script, unless there are stray pieces, the first of which is reported. -/
def script (fuel : Nat) (strays : List Span) : Step Script :=
  match strays with
  | s :: _ => do
    let word ← text s
    let p ← place s.start
    throw (.rejected ⟨[⟨p, .stray word⟩]⟩)
  | [] => stmts fuel

end Cursor

def Cursor.parse (fuel : Nat) (source : List Char) : Except Stop Script :=
  let lexing := lex source
  let tokens := (significant lexing.tokens).map fun t => (t.token, t.span)
  ((script fuel (lexing.strays.map (·.span))).at ⟨source, tokens⟩ 0).map (·.1)

/-- How many calls are open at most while a text is read. -/
def Cursor.depth (source : List Char) : Nat :=
  5 * (significant (lex source).tokens).length + 5

end ScriptSession
