import ScriptSession.Text.Offset
import ScriptSession.Token
/-!
Cutting a text into fragments. Every fragment is a run of blanks, a token or a stray piece, and
the fragments of a text put together give the text back. At each place the longest token is taken;
where none matches, a stray piece is one character, or an opening quote with as much of a string
body as follows it.
-/
namespace ScriptSession

/-- What a fragment of a text is. -/
inductive Piece
  | blank
  | token (t : Token)
  | stray
deriving DecidableEq, Repr

/-- A piece of a text with the characters it covers and the byte offset where it starts. -/
structure Fragment where
  piece : Piece
  chars : List Char
  start : Nat
deriving DecidableEq, Repr

namespace Lexer

/-- The blanks between tokens. -/
def isGap (c : Char) : Bool :=
  c = ' ' || c = '\t' || c = '\r' || c = '\n'

def isWordStart (c : Char) : Bool :=
  c.isAlpha || c = '_'

def isWordPart (c : Char) : Bool :=
  c.isAlphanum || c = '_'

/-- The longest run of string body units at the front of a text, with what follows it. A unit is
a backslash with any character but a line feed, or a character that is no quote, backslash, line
feed or carriage return. -/
def quotedRun (taken : List Char) : List Char → List Char × List Char
  | '\\' :: c :: cs =>
    if c = '\n' then (taken.reverse, '\\' :: c :: cs) else quotedRun (c :: '\\' :: taken) cs
  | c :: cs =>
    if c = '"' ∨ c = '\\' ∨ c = '\n' ∨ c = '\r' then (taken.reverse, c :: cs)
    else quotedRun (c :: taken) cs
  | [] => (taken.reverse, [])

theorem quotedRun_append (taken cs : List Char) :
    (quotedRun taken cs).1 ++ (quotedRun taken cs).2 = taken.reverse ++ cs := by
  fun_induction quotedRun taken cs <;> simp_all

/-- A piece that takes every following character of a class. -/
def spanning (piece : Piece) (p : Char → Bool) (cs : List Char) : Piece × List Char × List Char :=
  (piece, cs.takeWhile p, cs.dropWhile p)

/-- A piece of two characters where `next` follows, else a piece of one. -/
def follow (next : Char) (long short : Piece) : List Char → Piece × List Char × List Char
  | [] => (short, [], [])
  | d :: cs => if d = next then (long, [d], cs) else (short, [], d :: cs)

/-- The piece that starts with `c`, the characters after `c` that belong to it, and the rest. -/
def munch (c : Char) (cs : List Char) : Piece × List Char × List Char :=
  if isGap c then spanning .blank isGap cs
  else if c.isDigit then spanning (.token .int) Char.isDigit cs
  else if isWordStart c then
    (.token (.ofWord (c :: cs.takeWhile isWordPart)), cs.takeWhile isWordPart,
      cs.dropWhile isWordPart)
  else match c with
    | '/' =>
      if cs.head? = some '/' then spanning (.token .comment) (· ≠ '\n') cs
      else (.token .slash, [], cs)
    | '#' =>
      if cs.takeWhile Char.isAlpha = [] then (.stray, [], cs)
      else spanning (.token .directive) Char.isAlpha cs
    | '"' =>
      match quotedRun [] cs with
      | (body, '"' :: rest) => (.token .str, body ++ ['"'], rest)
      | (body, rest) => (.stray, body, rest)
    | '(' => (.token .lparen, [], cs)
    | ')' => (.token .rparen, [], cs)
    | ',' => (.token .comma, [], cs)
    | '.' => (.token .dot, [], cs)
    | ';' => (.token .semi, [], cs)
    | '+' => (.token .plus, [], cs)
    | '-' => (.token .minus, [], cs)
    | '*' => (.token .star, [], cs)
    | '%' => (.token .percent, [], cs)
    | '=' => follow '=' (.token .eqEq) (.token .assign) cs
    | '!' => follow '=' (.token .notEq) (.token .bang) cs
    | '<' => follow '=' (.token .ltEq) (.token .lt) cs
    | '>' => follow '=' (.token .gtEq) (.token .gt) cs
    | '&' => follow '&' (.token .andAnd) .stray cs
    | '|' => follow '|' (.token .orOr) .stray cs
    | _ => (.stray, [], cs)

theorem follow_append (next : Char) (long short : Piece) (cs : List Char) :
    (follow next long short cs).2.1 ++ (follow next long short cs).2.2 = cs := by
  cases cs with
  | nil => rfl
  | cons d cs => simp only [follow]; split <;> rfl

theorem spanning_append (piece : Piece) (p : Char → Bool) (cs : List Char) :
    (spanning piece p cs).2.1 ++ (spanning piece p cs).2.2 = cs := by
  simp [spanning, List.takeWhile_append_dropWhile]

/-- A piece and the rest put together are the input. -/
theorem munch_append (c : Char) (cs : List Char) :
    (munch c cs).2.1 ++ (munch c cs).2.2 = cs := by
  unfold munch
  split
  · exact spanning_append ..
  split
  · exact spanning_append ..
  split
  · simp [List.takeWhile_append_dropWhile]
  split
  all_goals try rfl
  all_goals try exact follow_append ..
  · split
    · exact spanning_append ..
    · rfl
  · split
    · rfl
    · exact spanning_append ..
  · have h := quotedRun_append [] cs
    split <;> rename_i e <;> simp_all

theorem length_munch_rest_le (c : Char) (cs : List Char) :
    (munch c cs).2.2.length ≤ cs.length := by
  have h := congrArg List.length (munch_append c cs)
  simp only [List.length_append] at h
  omega

/-- Cuts a text that starts at `offset` into fragments, put in reverse onto `done`. -/
def fragmentsOnto (done : List Fragment) (offset : Nat) : List Char → List Fragment
  | [] => done
  | c :: cs =>
    let m := munch c cs
    let taken := c :: m.2.1
    fragmentsOnto (⟨m.1, taken, offset⟩ :: done) (offset + Text.byteLength taken) m.2.2
termination_by cs => cs.length
decreasing_by
  have := length_munch_rest_le c cs
  simp only [List.length_cons]
  omega

/-- The fragments of a text, in order. -/
def fragments (cs : List Char) : List Fragment :=
  (fragmentsOnto [] 0 cs).reverse

end Lexer

namespace Fragment

def span (f : Fragment) : Span :=
  ⟨f.start, f.start + Text.byteLength f.chars⟩

def lexeme? (f : Fragment) : Option Lexeme :=
  match f.piece with
  | .token t => some ⟨t, String.ofList f.chars, f.span⟩
  | _ => none

def stray? (f : Fragment) : Option Stray :=
  match f.piece with
  | .stray => some ⟨String.ofList f.chars, f.span⟩
  | _ => none

end Fragment

/-- The tokens and the stray pieces of a text, each in order. -/
structure Lexing where
  tokens : List Lexeme
  strays : List Stray
deriving DecidableEq, Repr

/-- Reads the tokens of a text and keeps the pieces that are none. -/
def lex (source : List Char) : Lexing :=
  let fragments := Lexer.fragments source
  ⟨fragments.filterMap Fragment.lexeme?, fragments.filterMap Fragment.stray?⟩

end ScriptSession
