import ScriptSession.Syntax

namespace ScriptSession

def Span.shift (n : Nat) (s : Span) : Span :=
  ⟨s.start + n, s.stop + n⟩

theorem Span.shift_mk (n start stop : Nat) : shift n ⟨start, stop⟩ = ⟨start + n, stop + n⟩ := rfl

@[simp] theorem Span.shift_start (n : Nat) (s : Span) : (s.shift n).start = s.start + n := rfl

@[simp] theorem Span.shift_stop (n : Nat) (s : Span) : (s.shift n).stop = s.stop + n := rfl

@[simp] theorem Span.shift_zero (s : Span) : s.shift 0 = s := rfl

def Lexeme.shift (n : Nat) (t : Lexeme) : Lexeme :=
  { t with span := t.span.shift n }

@[simp] theorem Lexeme.shift_token (n : Nat) (t : Lexeme) : (t.shift n).token = t.token := rfl

@[simp] theorem Lexeme.shift_text (n : Nat) (t : Lexeme) : (t.shift n).text = t.text := rfl

@[simp] theorem Lexeme.shift_span (n : Nat) (t : Lexeme) : (t.shift n).span = t.span.shift n := rfl

/-- The same token with its offsets taken elsewhere. -/
def Lexeme.move (g : Nat → Nat) (t : Lexeme) : Lexeme :=
  { t with span := ⟨g t.span.start, g t.span.stop⟩ }

namespace Expr

/-- Induction over expressions, where a call has the hypothesis for each of its arguments. -/
@[induction_eliminator]
theorem induction {motive : Expr → Prop}
    (literal : ∀ span value, motive (.literal span value))
    (path : ∀ span segments, motive (.path span segments))
    (unary : ∀ span op e, motive e → motive (.unary span op e))
    (binary : ∀ span op l r, motive l → motive r → motive (.binary span op l r))
    (call : ∀ span name args, (∀ a ∈ args, motive a) → motive (.call span name args)) (e : Expr) :
    motive e :=
  @Expr.rec motive (fun es => ∀ a ∈ es, motive a) literal path unary binary call
    (fun _ ha => absurd ha List.not_mem_nil) (fun _ _ he hes => List.forall_mem_cons.2 ⟨he, hes⟩) e

/-- The operands or arguments of an expression, from left to right. -/
def operands : Expr → List Expr
  | literal _ _ | path _ _ => []
  | unary _ _ e => [e]
  | binary _ _ l r => [l, r]
  | call _ _ args => args

theorem operands_withSpan (span : Span) (e : Expr) : (e.withSpan span).operands = e.operands := by
  cases e <;> rfl

/-- `Part a e`: the expression `a` stands somewhere in `e`, or is `e` itself. -/
inductive Part : Expr → Expr → Prop
  | self (e : Expr) : Part e e
  | operand {a e : Expr} {span : Span} {op : UnaryOp} : Part a e → Part a (.unary span op e)
  | left {a l r : Expr} {span : Span} {op : BinaryOp} : Part a l → Part a (.binary span op l r)
  | right {a l r : Expr} {span : Span} {op : BinaryOp} : Part a r → Part a (.binary span op l r)
  | argument {a e : Expr} {span : Span} {name : String} {args : List Expr} :
      e ∈ args → Part a e → Part a (.call span name args)

/-- The offsets where the paths of an expression start, from left to right. -/
def pathStarts : Expr → List Nat
  | literal _ _ => []
  | path span _ => [span.start]
  | unary _ _ e => e.pathStarts
  | binary _ _ l r => l.pathStarts ++ r.pathStarts
  | call _ _ args => args.flatMap pathStarts

def shift (n : Nat) : Expr → Expr
  | literal span v => literal (span.shift n) v
  | path span p => path (span.shift n) p
  | unary span op e => unary (span.shift n) op (e.shift n)
  | binary span op l r => binary (span.shift n) op (l.shift n) (r.shift n)
  | call span name args => call (span.shift n) name (args.map (shift n))

@[simp] theorem span_shift (n : Nat) (e : Expr) : (e.shift n).span = e.span.shift n := by
  cases e <;> simp only [shift, span]

@[simp] theorem span_withSpan (s : Span) (e : Expr) : (e.withSpan s).span = s := by
  cases e <;> rfl

@[simp] theorem shift_zero (e : Expr) : e.shift 0 = e := by
  induction e with
  | literal | path => simp only [shift, Span.shift_zero]
  | unary span op e ih => simp only [shift, Span.shift_zero, ih]
  | binary span op l r ihl ihr => simp only [shift, Span.shift_zero, ihl, ihr]
  | call span name args ih =>
    simp only [shift, Span.shift_zero, call.injEq, true_and]
    exact (List.map_congr_left ih).trans (List.map_id _)

/-- The same expression with its offsets taken elsewhere. -/
def move (g : Nat → Nat) : Expr → Expr
  | literal span v => literal ⟨g span.start, g span.stop⟩ v
  | path span p => path ⟨g span.start, g span.stop⟩ p
  | unary span op e => unary ⟨g span.start, g span.stop⟩ op (e.move g)
  | binary span op l r => binary ⟨g span.start, g span.stop⟩ op (l.move g) (r.move g)
  | call span name args => call ⟨g span.start, g span.stop⟩ name (args.map (move g))

@[simp] theorem span_move (g : Nat → Nat) (e : Expr) :
    (e.move g).span = ⟨g e.span.start, g e.span.stop⟩ := by
  cases e <;> simp only [move, span]

theorem withSpan_move (g : Nat → Nat) (s : Span) (e : Expr) :
    (e.withSpan s).move g = (e.move g).withSpan ⟨g s.start, g s.stop⟩ := by
  cases e <;> simp only [move, withSpan]

theorem shift_eq_move (n : Nat) (e : Expr) : e.shift n = e.move (· + n) := by
  induction e with
  | literal | path => simp only [shift, move, Span.shift]
  | unary span op e ih => simp only [shift, move, Span.shift, ih]
  | binary span op l r ihl ihr => simp only [shift, move, Span.shift, ihl, ihr]
  | call span name args ih =>
    simp only [shift, move, Span.shift, call.injEq, true_and]
    exact List.map_congr_left ih

theorem pathStarts_withSpan (s : Span) (e : Expr) :
    (e.withSpan s).pathStarts = e.pathStarts ∨ (e.withSpan s).pathStarts = [s.start] := by
  cases e with
  | path => exact .inr (by simp only [withSpan, pathStarts])
  | _ => exact .inl (by simp only [withSpan, pathStarts])

end Expr

namespace StmtKind

def value? : StmtKind → Option Expr
  | bind _ value => some value
  | use _ => none
  | expr value => some value

def bound? : StmtKind → Option String
  | bind name _ => some name
  | _ => none

def shift (n : Nat) : StmtKind → StmtKind
  | bind name value => bind name (value.shift n)
  | use path => use path
  | expr value => expr (value.shift n)

end StmtKind

namespace Stmt

def pathStarts (s : Stmt) : List Nat :=
  (s.kind.value?.map Expr.pathStarts).getD []

def shift (n : Nat) (s : Stmt) : Stmt :=
  ⟨s.kind.shift n, s.span.shift n, s.terminated⟩

@[simp] theorem shift_zero (s : Stmt) : s.shift 0 = s := by
  obtain ⟨kind, span, terminated⟩ := s
  cases kind <;> simp only [shift, StmtKind.shift, Span.shift_zero, Expr.shift_zero]

@[simp] theorem shift_kind (n : Nat) (s : Stmt) : (s.shift n).kind = s.kind.shift n := rfl

@[simp] theorem shift_span (n : Nat) (s : Stmt) : (s.shift n).span = s.span.shift n := rfl

@[simp] theorem shift_terminated (n : Nat) (s : Stmt) :
    (s.shift n).terminated = s.terminated := rfl

end Stmt

namespace Script

/-- The offsets where the paths of a script start, from left to right. -/
def pathStarts (script : Script) : List Nat :=
  script.flatMap Stmt.pathStarts

/-- The names that a script binds, in the order of its statements. -/
def boundNames (script : Script) : List String :=
  script.filterMap (·.kind.bound?)

theorem boundNames_cons (s : Stmt) (rest : Script) :
    boundNames (s :: rest) = s.kind.bound?.toList ++ boundNames rest := by
  rw [boundNames, List.filterMap_cons, boundNames]
  cases s.kind.bound? <;> rfl

end Script
end ScriptSession
