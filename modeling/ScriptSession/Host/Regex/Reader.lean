import ScriptSession.Host.Regex.Tree
import ScriptSession.Host.Regex.Bracket
/-!
Reading regular expressions. In the basic form groups, intervals, alternatives and the repetitions
`+` and `?` are written with a backslash, in the extended form without one. A repetition that
stands where nothing can be repeated is a plain character in the basic form and a fault in the
extended one.

A rough reading knows lines only: the start and the end of the text are those of a line, and what
it does not understand may stand for any text. It also differs in what it takes for an anchor or a
repetition.
-/
namespace ScriptSession.Regex

/-- How a regular expression is read. -/
structure Style where
  extended : Bool
  ignoreCase : Bool
  /-- Whether line breaks inside the text start and end lines. -/
  multiline : Bool
  /-- Whether only the operators of the standard are known. A closing parenthesis that closes
  nothing then is a plain character. -/
  strict : Bool := false
  rough : Bool := false
deriving DecidableEq, Repr

inductive Token
  | char (c : Char)
  | any
  | bracket
  | star
  | plus
  | optional
  | openGroup
  | closeGroup
  | alternative
  | openInterval
  | closeInterval
  | assertion (t : Tree)
  | again (number : Nat)
  | set (s : CharSet)
  | trailingBackslash
  | done
deriving DecidableEq, Repr

/-- A special character: plain in the extended form, after a backslash in the basic form. -/
def operator? (style : Style) : Char → Option Token
  | '(' => some .openGroup
  | ')' => some .closeGroup
  | '\x7b' => some .openInterval
  | '\x7d' => some .closeInterval
  | c =>
    if style.strict && !style.extended then none
    else match c with
      | '|' => some .alternative
      | '+' => some .plus
      | '?' => some .optional
      | _ => none

/-- What a backslash with a character stands for in both forms, the numbers of groups apart. -/
def extension? (rough : Bool) : Char → Option Token
  | 'w' => some (.set .word)
  | 'W' => some (.set CharSet.word.complement)
  | 's' => some (.set .space)
  | 'S' => some (.set CharSet.space.complement)
  | 'b' => some (.assertion .wordEdge)
  | 'B' => some (.assertion .noWordEdge)
  | '<' => some (.assertion (.assertion .wordStart))
  | '>' => some (.assertion (.assertion .wordEnd))
  | '\x60' => some (.assertion (.assertion (if rough then .lineStart else .textStart)))
  | '\'' => some (.assertion (.assertion (if rough then .lineEnd else .textEnd)))
  | _ => none

/-- What a backslash with a character stands for in both forms. -/
def escape? (style : Style) (c : Char) : Option Token :=
  if '1' ≤ c ∧ c ≤ '9' then some (.again (c.toNat - '0'.toNat))
  else if style.strict then none
  else extension? style.rough c

/-- The token at the front, apart from the anchors, and what follows it. If letter case is ignored,
texts are matched in upper case, and characters without a backslash stand for it. -/
def plainToken (style : Style) : Octets → Token × Octets
  | [] => (.done, [])
  | ['\\'] => (.trailingBackslash, [])
  | '\\' :: c :: rest =>
    match escape? style c, operator? style c with
    | some t, _ => (t, rest)
    | none, some t => (if style.extended then .char c else t, rest)
    | none, none => (.char c, rest)
  | '.' :: rest => (.any, rest)
  | '[' :: rest => (.bracket, rest)
  | '*' :: rest => (.star, rest)
  | c :: rest =>
    match operator? style c with
    | some t => (if style.extended then t else .char c, rest)
    | none => (.char (if style.ignoreCase && !style.rough then Octets.toUpper c else c), rest)

/-- Whether `$` before a text is an anchor in the basic form: before the end of the expression, of a
group or of an alternative. A rough reading does not ask for the backslash there, unless nothing
but the character follows. -/
def endsLine (style : Style) (rest : Octets) : Bool :=
  if style.rough then
    match rest with
    | [] => true
    | '\\' :: c :: _ => c = ')' || c = '|'
    | c :: _ :: _ => c = ')' || c = '|'
    | [_] => false
  else
    let next := (plainToken style rest).1
    next = .done || next = .alternative || next = .closeGroup

/-- The token at the front. In the basic form `^` is an anchor at the front of the expression, of a
group or of an alternative (`caret`). -/
def token (style : Style) (caret : Bool) : Octets → Token × Octets
  | '^' :: rest =>
    (if style.extended || caret then .assertion (.assertion .lineStart) else .char '^', rest)
  | '$' :: rest =>
    (if style.extended || endsLine style rest then .assertion (.assertion .lineEnd) else .char '$',
      rest)
  | cs => plainToken style cs

/-- How far an expression has been read: the token that is looked at and what follows it, how many
groups were opened, which of them were closed and which are referred to. -/
structure Reading where
  style : Style
  current : Token
  rest : Octets
  opened : Nat := 0
  closed : List Nat := []
  recalled : List Nat := []
  /-- Whether some bracket looks like the name of a class that stands in no bracket. -/
  lonelyClass : Bool := false

def Reading.advance (r : Reading) (caret : Bool := false) : Reading :=
  let (current, rest) := token r.style caret r.rest
  { r with current, rest }

/-- The largest number of repetitions that can be asked for. -/
def mostRepetitions : Nat := 32767

/-- A bound of an interval. -/
inductive Bound
  | missing
  | bad
  | number (n : Nat)
deriving DecidableEq, Repr

/-- Reads a bound up to a comma or the end of the interval, which is then looked at. `fuel` is more
than the length of the text. -/
def readBound : Nat → Bound → Reading → Bound × Reading
  | 0, _, r => (.bad, r)
  | fuel + 1, bound, r =>
    let r := r.advance
    match r.current, bound with
    | .done, _ => (.bad, r)
    | .closeInterval, _ => (bound, r)
    | .char ',', _ => (bound, r)
    | .char c, .missing =>
      readBound fuel (((Octets.digit? 10 c).map Bound.number).getD .bad) r
    | .char c, .number n =>
      readBound fuel (((Octets.digit? 10 c).map fun d =>
        Bound.number (min (mostRepetitions + 1) (n * 10 + d))).getD .bad) r
    | _, _ => readBound fuel .bad r

/-- Reads an interval after its opening; what closes it is looked at. -/
def interval (r : Reading) : Except Fault (Nat × Option Nat × Reading) := do
  let fuel := r.rest.length + 1
  let (least, r) := readBound fuel .missing r
  let least := if least = .missing ∧ r.current = .char ',' then .number 0 else least
  if least = .missing then throw .intervalContent
  let (most, r) :=
    if least = .bad ∨ r.current = .closeInterval then (least, r)
    else if r.current = .char ',' then readBound fuel .missing r
    else (.bad, r)
  match least, most with
  | .number least, .number most =>
    if most < least ∨ r.current ≠ .closeInterval then throw .intervalContent
    if mostRepetitions < most then throw .tooBig
    return (least, some most, r)
  | .number least, .missing =>
    if r.current ≠ .closeInterval then throw .intervalContent
    if mostRepetitions < least then throw .tooBig
    return (least, none, r)
  | _, _ => throw (if r.current = .done then .openInterval else .intervalContent)

/-- A repetition at the token that is looked at: its bounds, and what follows it. -/
def repetition? (r : Reading) : Option (Except Fault (Nat × Option Nat × Reading)) :=
  match r.current with
  | .star => some (.ok (0, none, r))
  | .plus => some (.ok (1, none, r))
  | .optional => some (.ok (0, some 1, r))
  | .openInterval => some (interval r)
  | _ => none

/-- Puts the repetitions that follow around an expression. In the basic form a repetition may not
be repeated by a star or an interval. `fuel` is more than the length of the text. -/
def repetitions : Nat → Tree → Reading → Except Fault (Tree × Reading)
  | 0, t, r => .ok (t, r)
  | fuel + 1, t, r =>
    match repetition? r with
    | none => .ok (t, r)
    | some bounds => do
      let (least, most, r) ← bounds
      let r := r.advance
      let isRepeated := r.current = .star || r.current = .openInterval
      if !r.style.extended && isRepeated then throw .repetition
      repetitions fuel (t.repeated least most) r

/-- The plain character that a token is where it has no meaning of its own. -/
def Token.literal? : Token → Option Char
  | .char c => some c
  | .star => some '*'
  | .plus => some '+'
  | .optional => some '?'
  | .closeInterval => some '\x7d'
  | _ => none

/-- The tree of a character. A rough reading takes letters in both cases if case is ignored. -/
def charTree (style : Style) (c : Char) : Tree :=
  let s := CharSet.single c
  .one (if style.rough && style.ignoreCase then s.withBothCases else s)

/-- The tree of the character that a dot stands for. -/
def anyTree (style : Style) : Tree :=
  .one (if style.multiline then CharSet.full.erase '\n' else .full)

/-- The tree of a bracket. A rough reading may not understand it, and takes it for any text. -/
def Bracket.tree (b : Bracket) (style : Style) : Tree :=
  if style.rough then
    match b.plainChars? style.ignoreCase style.multiline with
    | some s => .one s
    | none => .step (.again 0)
  else .one (b.chars style.ignoreCase style.multiline)

mutual

/-- Reads alternatives; `inner` says that they are those of a group. An alternative can refer back
to what was closed before all of them and in itself. -/
def alternatives : Nat → Bool → Reading → Except Fault (Tree × Reading)
  | 0, _, r => .ok (.nothing, r)
  | fuel + 1, inner, r => do
    let (t, after) ← branch fuel inner false [] r
    moreAlternatives fuel inner r.closed t after

/-- Reads the alternatives that follow one. -/
def moreAlternatives : Nat → Bool → List Nat → Tree → Reading → Except Fault (Tree × Reading)
  | 0, _, _, t, r => .ok (t, r)
  | fuel + 1, inner, closed, t, r => do
    if r.current ≠ .alternative then return (t, r)
    let r := r.advance true
    let isEmpty := r.current = .alternative || r.current = .done ||
      (inner && r.current = .closeGroup)
    if isEmpty then moreAlternatives fuel inner closed (.either t .nothing) r
    else
      let (u, after) ← branch fuel inner false [] { r with closed }
      let after := { after with closed := after.closed ++ r.closed }
      moreAlternatives fuel inner closed (.either t u) after

/-- Reads expressions one after another onto those before, which are in reverse order. `begun` says
that some of these are more than assertions. -/
def branch : Nat → Bool → Bool → List Tree → Reading → Except Fault (Tree × Reading)
  | 0, _, _, before, r => .ok (.ofList before.reverse, r)
  | fuel + 1, inner, begun, before, r =>
    if r.current = .alternative ∨ r.current = .done ∨ (inner ∧ r.current = .closeGroup) then
      .ok (.ofList before.reverse, r)
    else do
      let (t, after) ← expression fuel begun r
      branch fuel inner (begun || !r.current matches .assertion _) (t :: before) after

/-- Reads one expression with its repetitions. -/
def expression : Nat → Bool → Reading → Except Fault (Tree × Reading)
  | 0, _, r => .ok (.nothing, r)
  | fuel + 1, begun, r =>
    let style := r.style
    let repeatable (t : Tree) (r : Reading) := repetitions (r.rest.length + 1) t r.advance
    match r.current with
    | .any => repeatable (anyTree style) r
    | .set s => repeatable (.one s) r
    | .bracket => do
      let (b, rest) ← Bracket.read style.ignoreCase r.rest
      repeatable (b.tree style) { r with rest, lonelyClass := r.lonelyClass || b.lonelyClass }
    | .openGroup => do
      let number := r.opened + 1
      let first := { r with opened := number }.advance true
      let (t, after) ←
        if first.current = .closeGroup then pure (.nothing, first)
        else alternatives fuel true first
      if after.current ≠ .closeGroup then throw .openGroup
      repeatable (.group number false t) { after with closed := number :: after.closed }
    | .again n =>
      if n ∈ r.closed then
        repeatable (.step (.again n)) { r with recalled := n :: r.recalled }
      else .error .backReference
    | .assertion t =>
      if style.rough && begun then repeatable t r else .ok (t, r.advance)
    | .trailingBackslash => .error .trailingBackslash
    | .closeGroup =>
      if style.strict then repeatable (charTree style ')') r
      else .error .closeGroup
    | .openInterval => .error .repetition
    | t =>
      match t.literal? with
      | some c =>
        if style.extended ∧ (t = .star ∨ t = .plus ∨ t = .optional) then .error .repetition
        else repeatable (charTree style c) r
      | none => .ok (.nothing, r)

end

/-- Reads an expression. -/
def read (style : Style) (cs : Octets) : Except Fault (Tree × Reading) :=
  let start : Reading := { style, current := .done, rest := cs }
  alternatives (4 * cs.length + 8) false (start.advance true)

end ScriptSession.Regex
