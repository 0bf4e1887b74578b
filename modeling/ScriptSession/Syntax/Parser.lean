import ScriptSession.Diagnostic
import ScriptSession.Token.Escape
import ScriptSession.Token.Lexer
/-!
Reading a script.

    script := (stmt? ';')* stmt?
    stmt   := 'let' IDENT '=' expr | 'use' path | expr
    expr   := unary (BINOP unary)*
    unary  := ('-' | '!') unary | atom
    atom   := INT | STR | 'true' | 'false' | '(' expr ')' | IDENT '(' args ')' | path
    path   := IDENT ('.' IDENT)*
    args   := (expr (',' expr)*)?

Operators group by binding power, and those of one power group to the left. The first problem ends
the reading. Every reader returns what it did not consume together with a proof that this is
shorter than what it was given, so reading ends on every input.
-/
namespace ScriptSession.Parser

/-- A value read from the front of `ts` with the tokens left, of which there are fewer. -/
abbrev Read (α : Type) (ts : List Lexeme) :=
  Except Finding (α × { rest : List Lexeme // rest.length < ts.length })

/-- A value that may have been read without consuming a token. -/
abbrev ReadMore (α : Type) (ts : List Lexeme) :=
  Except Finding (α × { rest : List Lexeme // rest.length ≤ ts.length })

/-- The complaint that something else stands where `expected` should; `eof` is the offset of the
end of the text. -/
def complaint (eof : Nat) (expected : Expected) : List Lexeme → Finding
  | [] => ⟨eof, .missing expected⟩
  | t :: _ =>
    if t.token = .directive then ⟨t.span.start, .unknownDirective t.text⟩
    else ⟨t.span.start, .unexpected expected t.text⟩

/-- Reads one token of a given class. -/
def expect (eof : Nat) (token : Token) (expected : Expected) (ts : List Lexeme) :
    Read Lexeme ts :=
  match ts with
  | t :: rest =>
    if t.token = token then .ok (t, ⟨rest, by simp⟩)
    else .error (complaint eof expected (t :: rest))
  | [] => .error (complaint eof expected [])

/-- The segments after the first one of a path, and where the last of them ends. -/
def pathTail (eof stop : Nat) (ts : List Lexeme) : ReadMore (List String × Nat) ts :=
  match ts with
  | [] => .ok (([], stop), ⟨[], by simp⟩)
  | d :: rest =>
    if d.token = .dot then
      match rest with
      | n :: rest' =>
        if n.token = .ident then do
          let ((segments, stop'), r) ← pathTail eof n.span.stop rest'
          return ((n.text :: segments, stop'), ⟨r.1, by have := r.2; simp; omega⟩)
        else .error (complaint eof .nameAfterDot (n :: rest'))
      | [] => .error (complaint eof .nameAfterDot [])
    else .ok (([], stop), ⟨d :: rest, by simp⟩)

/-- A dotted path with its span. -/
def path (eof : Nat) (ts : List Lexeme) : Read (List String × Span) ts := do
  let (first, r) ← expect eof .ident .name ts
  let ((segments, stop), r') ← pathTail eof first.span.stop r.1
  return ((first.text :: segments, ⟨first.span.start, stop⟩),
    ⟨r'.1, by have := r.2; have := r'.2; omega⟩)

/-- The integer literal directly after a minus sign, where the negated number is a word. -/
def negatedInt? (start : Nat) (ts : List Lexeme) :
    Option (Expr × { rest : List Lexeme // rest.length < ts.length }) :=
  match ts with
  | t :: rest =>
    if t.token = .int then
      (Word.ofNegatedDigits? t.text).map fun n =>
        (.literal ⟨start, t.span.stop⟩ (.int n), ⟨rest, by simp⟩)
    else none
  | [] => none

mutual

/-- An expression whose operators all bind tighter than `floor`. -/
def expr (eof floor : Nat) (ts : List Lexeme) : Read Expr ts := do
  let (lhs, r) ← unary eof ts
  let (e, r') ← operators eof floor lhs r.1
  return (e, ⟨r'.1, by have := r.2; have := r'.2; omega⟩)
termination_by 5 * ts.length + 3
decreasing_by
  · omega
  · have := r.2; omega

/-- Extends `lhs` by the operators that bind tighter than `floor` and their right operands. -/
def operators (eof floor : Nat) (lhs : Expr) (ts : List Lexeme) : ReadMore Expr ts :=
  match ts with
  | [] => .ok (lhs, ⟨[], by simp⟩)
  | t :: rest =>
    match BinaryOp.ofToken? t.token with
    | none => .ok (lhs, ⟨t :: rest, by simp⟩)
    | some op =>
      if op.power ≤ floor then .ok (lhs, ⟨t :: rest, by simp⟩)
      else do
        let (rhs, r) ← expr eof op.power rest
        let whole := Expr.binary ⟨lhs.span.start, rhs.span.stop⟩ op lhs rhs
        let (e, r') ← operators eof floor whole r.1
        return (e, ⟨r'.1, by have := r.2; have := r'.2; simp; omega⟩)
termination_by 5 * ts.length
decreasing_by
  · simp; omega
  · have := r.2; simp; omega

/-- An operand with the signs in front of it. -/
def unary (eof : Nat) (ts : List Lexeme) : Read Expr ts :=
  match ts with
  | [] => .error (complaint eof .expression [])
  | t :: rest =>
    if t.token = .minus then
      match negatedInt? t.span.start rest with
      | some (e, r) => .ok (e, ⟨r.1, by have := r.2; simp; omega⟩)
      | none => do
        let (e, r) ← unary eof rest
        return (.unary ⟨t.span.start, e.span.stop⟩ .neg e, ⟨r.1, by have := r.2; simp; omega⟩)
    else if t.token = .bang then do
      let (e, r) ← unary eof rest
      return (.unary ⟨t.span.start, e.span.stop⟩ .not e, ⟨r.1, by have := r.2; simp; omega⟩)
    else atom eof (t :: rest)
termination_by 5 * ts.length + 2
decreasing_by all_goals simp; try omega

/-- A literal, an expression in parentheses, a call or a path. -/
def atom (eof : Nat) (ts : List Lexeme) : Read Expr ts :=
  match ts with
  | [] => .error (complaint eof .expression [])
  | t :: rest =>
    match t.token with
    | .int =>
      match Word.ofDigits? t.text with
      | some n => .ok (.literal t.span (.int n), ⟨rest, by simp⟩)
      | none => .error ⟨t.span.start, .intOutOfRange t.text⟩
    | .str =>
      .ok (.literal t.span (.str (String.ofList (Token.unescape t.text.toList))), ⟨rest, by simp⟩)
    | .kwTrue => .ok (.literal t.span (.bool true), ⟨rest, by simp⟩)
    | .kwFalse => .ok (.literal t.span (.bool false), ⟨rest, by simp⟩)
    | .lparen => do
      let (e, r) ← expr eof 0 rest
      let (close, r') ← expect eof .rparen .closing r.1
      return (e.withSpan ⟨t.span.start, close.span.stop⟩,
        ⟨r'.1, by have := r.2; have := r'.2; simp; omega⟩)
    | .ident => do
      let ((segments, span), r) ← path eof (t :: rest)
      match segments, r with
      | [name], ⟨u :: rest', h⟩ =>
        if u.token = .lparen then do
          let ((values, stop), r') ← args eof rest'
          return (.call ⟨span.start, stop⟩ name values, ⟨r'.1, by have := r'.2; simp at h ⊢; omega⟩)
        else return (.path span segments, r)
      | _, _ => return (.path span segments, r)
    | _ => .error (complaint eof .expression (t :: rest))
termination_by 5 * ts.length + 1
decreasing_by
  · simp; omega
  · simp at h ⊢; omega

/-- The arguments of a call after its opening parenthesis, and where the closing one ends. -/
def args (eof : Nat) (ts : List Lexeme) : Read (List Expr × Nat) ts :=
  match ts with
  | [] => .error (complaint eof .expression [])
  | t :: rest =>
    if t.token = .rparen then .ok (([], t.span.stop), ⟨rest, by simp⟩)
    else argsFrom eof (t :: rest)
termination_by 5 * ts.length + 5
decreasing_by omega

/-- A nonempty list of arguments, through the closing parenthesis. -/
def argsFrom (eof : Nat) (ts : List Lexeme) : Read (List Expr × Nat) ts := do
  let (e, r) ← expr eof 0 ts
  match r with
  | ⟨t :: rest, h⟩ =>
    if t.token = .comma then do
      let ((more, stop), r') ← argsFrom eof rest
      return ((e :: more, stop), ⟨r'.1, by have := r'.2; simp at h; omega⟩)
    else if t.token = .rparen then return (([e], t.span.stop), ⟨rest, by simp at h; omega⟩)
    else .error (complaint eof .commaOrClosing (t :: rest))
  | ⟨[], _⟩ => .error (complaint eof .commaOrClosing [])
termination_by 5 * ts.length + 4
decreasing_by
  · omega
  · simp at h; omega

end

/-- One statement, not yet marked as terminated. -/
def stmt (eof : Nat) (ts : List Lexeme) : Read Stmt ts :=
  match ts with
  | [] => .error (complaint eof .expression [])
  | t :: rest =>
    match t.token with
    | .kwLet => do
      let (name, r) ← expect eof .ident .bindingName rest
      let (_, r') ← expect eof .assign .assign r.1
      let (value, r'') ← expr eof 0 r'.1
      return (⟨.bind name.text value, ⟨t.span.start, value.span.stop⟩, false⟩,
        ⟨r''.1, by have := r.2; have := r'.2; have := r''.2; simp; omega⟩)
    | .kwUse => do
      let ((segments, span), r) ← path eof rest
      return (⟨.use segments, ⟨t.span.start, span.stop⟩, false⟩,
        ⟨r.1, by have := r.2; simp; omega⟩)
    | _ => do
      let (value, r) ← expr eof 0 (t :: rest)
      return (⟨.expr value, ⟨t.span.start, value.span.stop⟩, false⟩, r)

/-- The statements of a script; semicolons stand between them and may be repeated. -/
def stmts (eof : Nat) (ts : List Lexeme) : Except Finding Script :=
  match ts with
  | [] => .ok []
  | t :: rest =>
    if t.token = .semi then stmts eof rest
    else do
      let (s, r) ← stmt eof (t :: rest)
      match r with
      | ⟨[], _⟩ => return [s]
      | ⟨u :: rest', _⟩ =>
        if u.token = .semi then do
          let more ← stmts eof rest'
          return { s with terminated := true } :: more
        else .error (complaint eof .semicolon (u :: rest'))
termination_by ts.length
decreasing_by
  · simp
  · rename_i h _; simp at h ⊢; omega

end Parser

/-- The tokens that reading looks at: all but comments. -/
def significant (tokens : List Lexeme) : List Lexeme :=
  tokens.filter (·.token ≠ .comment)

/-- Reads a script; a stray piece anywhere in the text is reported before anything else. -/
def parseChars (source : List Char) : Except Finding Script :=
  let lexing := lex source
  match lexing.strays with
  | s :: _ => .error ⟨s.span.start, .stray s.text⟩
  | [] => Parser.stmts (Text.byteLength source) (significant lexing.tokens)

/-- Reads a script and locates the problem that stopped it. -/
def parse (source : String) : Except CompileError Script :=
  (parseChars source.toList).mapError fun f => ⟨[f.locate source.toList]⟩

end ScriptSession
