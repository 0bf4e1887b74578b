import ScriptSession.Proofs.Outcome
import ScriptSession.Proofs.Syntax
import ScriptSession.Syntax.Parser

namespace ScriptSession

def ahead? (ts : List Lexeme) : Option Token :=
  ts.head?.map (·.token)

/-- What is read from tokens: a part of the grammar together with what it stands for. -/
inductive Phrase
  /-- The rest of a path whose names so far end at `stop`. -/
  | names (stop : Nat) (segments : List String) (stop' : Nat)
  | path (segments : List String) (span : Span)
  | expr (floor : Nat) (e : Expr)
  /-- The operators after `lhs`. -/
  | operators (floor : Nat) (lhs e : Expr)
  | unary (e : Expr)
  | atom (e : Expr)
  | args (es : List Expr) (stop : Nat)
  | argsFrom (es : List Expr) (stop : Nat)

/-- Whether an operator that binds tighter than `floor` stands at the front. -/
def Extends (floor : Nat) (ts : List Lexeme) : Prop :=
  ∃ token op, ahead? ts = some token ∧ BinaryOp.ofToken? token = some op ∧ floor < op.power

/-- Whether an integer literal whose negation is a word stands at the front. -/
def NegatesWord (ts : List Lexeme) : Prop :=
  ∃ t rest n, ts = t :: rest ∧ t.token = .int ∧ Word.ofNegatedDigits? t.text = some n

/-- `Reads phrase ts rest`: the phrase stands at the front of `ts`, and `rest` is what follows. -/
inductive Reads : Phrase → List Lexeme → List Lexeme → Prop
  | nameEnd {stop : Nat} {ts : List Lexeme} :
      ahead? ts ≠ some .dot → Reads (.names stop [] stop) ts ts
  | nameMore {stop stop' : Nat} {d n : Lexeme} {segments : List String} {ts rest : List Lexeme} :
      d.token = .dot → n.token = .ident → Reads (.names n.span.stop segments stop') ts rest →
      Reads (.names stop (n.text :: segments) stop') (d :: n :: ts) rest
  | path {n : Lexeme} {segments : List String} {stop : Nat} {ts rest : List Lexeme} :
      n.token = .ident → Reads (.names n.span.stop segments stop) ts rest →
      Reads (.path (n.text :: segments) ⟨n.span.start, stop⟩) (n :: ts) rest
  | expr {floor : Nat} {lhs e : Expr} {ts mid rest : List Lexeme} :
      Reads (.unary lhs) ts mid → Reads (.operators floor lhs e) mid rest →
      Reads (.expr floor e) ts rest
  | operatorEnd {floor : Nat} {lhs : Expr} {ts : List Lexeme} :
      ¬ Extends floor ts → Reads (.operators floor lhs lhs) ts ts
  | operatorMore {floor : Nat} {t : Lexeme} {op : BinaryOp} {lhs rhs e : Expr}
      {ts mid rest : List Lexeme} :
      BinaryOp.ofToken? t.token = some op → floor < op.power → Reads (.expr op.power rhs) ts mid →
      Reads (.operators floor (.binary ⟨lhs.span.start, rhs.span.stop⟩ op lhs rhs) e) mid rest →
      Reads (.operators floor lhs e) (t :: ts) rest
  | negated {t u : Lexeme} {n : Word} {rest : List Lexeme} :
      t.token = .minus → u.token = .int → Word.ofNegatedDigits? u.text = some n →
      Reads (.unary (.literal ⟨t.span.start, u.span.stop⟩ (.int n))) (t :: u :: rest) rest
  | neg {t : Lexeme} {e : Expr} {ts rest : List Lexeme} :
      t.token = .minus → ¬ NegatesWord ts → Reads (.unary e) ts rest →
      Reads (.unary (.unary ⟨t.span.start, e.span.stop⟩ .neg e)) (t :: ts) rest
  | not {t : Lexeme} {e : Expr} {ts rest : List Lexeme} :
      t.token = .bang → Reads (.unary e) ts rest →
      Reads (.unary (.unary ⟨t.span.start, e.span.stop⟩ .not e)) (t :: ts) rest
  | unsigned {t : Lexeme} {e : Expr} {ts rest : List Lexeme} :
      t.token ≠ .minus → t.token ≠ .bang → Reads (.atom e) (t :: ts) rest →
      Reads (.unary e) (t :: ts) rest
  | int {t : Lexeme} {n : Word} {rest : List Lexeme} :
      t.token = .int → Word.ofDigits? t.text = some n →
      Reads (.atom (.literal t.span (.int n))) (t :: rest) rest
  | str {t : Lexeme} {rest : List Lexeme} :
      t.token = .str →
      Reads (.atom (.literal t.span (.str (String.ofList (Token.unescape t.text.toList)))))
        (t :: rest) rest
  | bool {t : Lexeme} {b : Bool} {rest : List Lexeme} :
      t.token = (if b then .kwTrue else .kwFalse) →
      Reads (.atom (.literal t.span (.bool b))) (t :: rest) rest
  | paren {t u : Lexeme} {e : Expr} {ts rest : List Lexeme} :
      t.token = .lparen → Reads (.expr 0 e) ts (u :: rest) → u.token = .rparen →
      Reads (.atom (e.withSpan ⟨t.span.start, u.span.stop⟩)) (t :: ts) rest
  | call {t : Lexeme} {name : String} {span : Span} {es : List Expr} {stop : Nat}
      {ts mid rest : List Lexeme} :
      Reads (.path [name] span) ts (t :: mid) → t.token = .lparen →
      Reads (.args es stop) mid rest → Reads (.atom (.call ⟨span.start, stop⟩ name es)) ts rest
  | name {segments : List String} {span : Span} {ts rest : List Lexeme} :
      Reads (.path segments span) ts rest → (segments.length = 1 → ahead? rest ≠ some .lparen) →
      Reads (.atom (.path span segments)) ts rest
  | argsNone {t : Lexeme} {rest : List Lexeme} :
      t.token = .rparen → Reads (.args [] t.span.stop) (t :: rest) rest
  | argsSome {t : Lexeme} {es : List Expr} {stop : Nat} {ts rest : List Lexeme} :
      t.token ≠ .rparen → Reads (.argsFrom es stop) (t :: ts) rest →
      Reads (.args es stop) (t :: ts) rest
  | argLast {t : Lexeme} {e : Expr} {ts rest : List Lexeme} :
      Reads (.expr 0 e) ts (t :: rest) → t.token = .rparen →
      Reads (.argsFrom [e] t.span.stop) ts rest
  | argMore {t : Lexeme} {e : Expr} {es : List Expr} {stop : Nat} {ts mid rest : List Lexeme} :
      Reads (.expr 0 e) ts (t :: mid) → t.token = .comma → Reads (.argsFrom es stop) mid rest →
      Reads (.argsFrom (e :: es) stop) ts rest

inductive ReadsStmt : Stmt → List Lexeme → List Lexeme → Prop
  | bind {t n a : Lexeme} {e : Expr} {ts rest : List Lexeme} :
      t.token = .kwLet → n.token = .ident → a.token = .assign → Reads (.expr 0 e) ts rest →
      ReadsStmt ⟨.bind n.text e, ⟨t.span.start, e.span.stop⟩, false⟩ (t :: n :: a :: ts) rest
  | use {t : Lexeme} {segments : List String} {span : Span} {ts rest : List Lexeme} :
      t.token = .kwUse → Reads (.path segments span) ts rest →
      ReadsStmt ⟨.use segments, ⟨t.span.start, span.stop⟩, false⟩ (t :: ts) rest
  | expr {t : Lexeme} {e : Expr} {ts rest : List Lexeme} :
      t.token ≠ .kwLet → t.token ≠ .kwUse → Reads (.expr 0 e) (t :: ts) rest →
      ReadsStmt ⟨.expr e, ⟨t.span.start, e.span.stop⟩, false⟩ (t :: ts) rest

inductive ReadsScript : Script → List Lexeme → Prop
  | nil : ReadsScript [] []
  | semi {t : Lexeme} {script : Script} {ts : List Lexeme} :
      t.token = .semi → ReadsScript script ts → ReadsScript script (t :: ts)
  | last {t : Lexeme} {s : Stmt} {ts : List Lexeme} :
      t.token ≠ .semi → ReadsStmt s (t :: ts) [] → ReadsScript [s] (t :: ts)
  | more {t u : Lexeme} {s : Stmt} {script : Script} {ts rest : List Lexeme} :
      t.token ≠ .semi → ReadsStmt s (t :: ts) (u :: rest) → u.token = .semi →
      ReadsScript script rest → ReadsScript ({ s with terminated := true } :: script) (t :: ts)

namespace Parser

/-- Whether a reader gives `a` and leaves `rest`. -/
def Gives {α : Type} {p : List Lexeme → Prop} (r : Except Finding (α × { rest // p rest })) (a : α)
    (rest : List Lexeme) : Prop :=
  ∃ h, r = .ok (a, ⟨rest, h⟩)

theorem gives_bind {α β : Type} {p q : List Lexeme → Prop}
    {x : Except Finding (α × { rest // p rest })}
    {f : α × { rest // p rest } → Except Finding (β × { rest // q rest })} {b : β}
    {rest : List Lexeme} :
    Gives (x >>= f) b rest ↔ ∃ a mid h, x = .ok (a, ⟨mid, h⟩) ∧ Gives (f (a, ⟨mid, h⟩)) b rest := by
  constructor
  · rintro ⟨h, he⟩
    obtain ⟨⟨a, mid, hm⟩, ha, hf⟩ := Except.bind_eq_ok_iff.1 he
    exact ⟨a, mid, hm, ha, h, hf⟩
  · rintro ⟨a, mid, hm, ha, h, hf⟩
    exact ⟨h, Except.bind_eq_ok_iff.2 ⟨_, ha, hf⟩⟩

theorem gives_ok {α : Type} {p : List Lexeme → Prop} {a b : α} {r : { rest // p rest }}
    {rest : List Lexeme} : Gives (.ok (a, r)) b rest ↔ a = b ∧ r.1 = rest := by
  obtain ⟨mid, hm⟩ := r
  constructor
  · rintro ⟨h, he⟩
    cases he
    exact ⟨rfl, rfl⟩
  · rintro ⟨rfl, rfl⟩
    exact ⟨hm, rfl⟩

theorem not_gives_error {α : Type} {p : List Lexeme → Prop} {f : Finding} {a : α}
    {rest : List Lexeme} : ¬ Gives (p := p) (.error f) a rest :=
  nofun

theorem gives_pure {α : Type} {p : List Lexeme → Prop} {a b : α} {r : { rest // p rest }}
    {rest : List Lexeme} : Gives (pure (a, r)) b rest ↔ a = b ∧ r.1 = rest :=
  gives_ok

theorem gives_ok_bind {α β : Type} {p q : List Lexeme → Prop} {c : α × { rest // p rest }}
    {f : α × { rest // p rest } → Except Finding (β × { rest // q rest })} {b : β}
    {rest : List Lexeme} : Gives (.ok c >>= f) b rest ↔ Gives (f c) b rest :=
  Iff.rfl

/-- What a reader gives is put up in another way, with no more tokens taken. -/
theorem gives_map {α β : Type} {p q : List Lexeme → Prop}
    {x : Except Finding (α × { rest // p rest })} (g : α → β)
    {k : ∀ c : α × { rest // p rest }, q c.2.1} {b : β} {rest : List Lexeme} :
    Gives (x >>= fun c => pure (g c.1, (⟨c.2.1, k c⟩ : { rest // q rest }))) b rest ↔
      ∃ a, Gives x a rest ∧ g a = b := by
  rw [gives_bind]
  constructor
  · rintro ⟨a, mid, hm, ha, h⟩
    obtain ⟨rfl, rfl⟩ := gives_pure.1 h
    exact ⟨a, ⟨hm, ha⟩, rfl⟩
  · rintro ⟨a, ⟨hm, ha⟩, rfl⟩
    exact ⟨a, rest, hm, ha, gives_pure.2 ⟨rfl, rfl⟩⟩

theorem Gives.left {α : Type} {p : List Lexeme → Prop} {r : Except Finding (α × { rest // p rest })}
    {a : α} {rest : List Lexeme} (h : Gives r a rest) : p rest := by
  obtain ⟨hp, -⟩ := h
  exact hp

/-- What the readers make of tokens. -/
def ReadsAs (eof : Nat) : Phrase → List Lexeme → List Lexeme → Prop
  | .names stop segments stop', ts, rest => Gives (pathTail eof stop ts) (segments, stop') rest
  | .path segments span, ts, rest => Gives (path eof ts) (segments, span) rest
  | .expr floor e, ts, rest => Gives (expr eof floor ts) e rest
  | .operators floor lhs e, ts, rest => Gives (operators eof floor lhs ts) e rest
  | .unary e, ts, rest => Gives (unary eof ts) e rest
  | .atom e, ts, rest => Gives (atom eof ts) e rest
  | .args es stop, ts, rest => Gives (args eof ts) (es, stop) rest
  | .argsFrom es stop, ts, rest => Gives (argsFrom eof ts) (es, stop) rest

section Readers

variable {eof stop stop' floor : Nat} {segments : List String} {span : Span} {lhs e : Expr}
  {es : List Expr} {t : Lexeme} {ts rest : List Lexeme}

theorem gives_expect {token : Token} {expected : Expected} :
    Gives (expect eof token expected ts) t rest ↔ ts = t :: rest ∧ t.token = token := by
  unfold expect
  split
  next u us =>
    split
    next hu =>
      rw [gives_ok, List.cons.injEq]
      exact ⟨fun ⟨he, hr⟩ => ⟨⟨he, hr⟩, he ▸ hu⟩, fun ⟨h, _⟩ => h⟩
    next hu =>
      refine ⟨fun h => (not_gives_error h).elim, fun ⟨he, ht⟩ => ?_⟩
      cases he
      exact absurd ht hu
  · exact ⟨fun h => (not_gives_error h).elim, fun h => nomatch h.1⟩

theorem gives_pathTail_end (h : ahead? ts ≠ some .dot) :
    Gives (pathTail eof stop ts) (segments, stop') rest ↔
      ([], stop) = (segments, stop') ∧ ts = rest := by
  cases ts with
  | nil => rw [pathTail, gives_ok]
  | cons t ts =>
    unfold pathTail
    rw [if_neg fun ht => h (congrArg some ht), gives_ok]

theorem gives_pathTail_dot (ht : t.token = .dot) :
    Gives (pathTail eof stop (t :: ts)) (segments, stop') rest ↔
      ∃ n us more, ts = n :: us ∧ n.token = .ident ∧
        Gives (pathTail eof n.span.stop us) (more, stop') rest ∧ n.text :: more = segments := by
  cases ts with
  | nil =>
    rw [pathTail, if_pos ht]
    exact ⟨fun h => (not_gives_error h).elim, fun ⟨_, _, _, h, _⟩ => nomatch h⟩
  | cons n us =>
    rw [pathTail, if_pos ht]
    dsimp only
    split
    next hn =>
      constructor
      · intro h
        obtain ⟨⟨more, _⟩, hmore, he⟩ :=
          (gives_map fun c : List String × Nat => (n.text :: c.1, c.2)).1 h
        cases he
        exact ⟨n, us, more, rfl, hn, hmore, rfl⟩
      · rintro ⟨_, _, more, ⟨⟩, -, hmore, rfl⟩
        exact (gives_map fun c : List String × Nat => (n.text :: c.1, c.2)).2
          ⟨(more, stop'), hmore, rfl⟩
    next hn =>
      refine ⟨fun h => (not_gives_error h).elim, ?_⟩
      rintro ⟨_, _, _, ⟨⟩, hn', -⟩
      exact absurd hn' hn

theorem gives_path_iff :
    Gives (path eof ts) (segments, span) rest ↔
      ∃ n us more stop, ts = n :: us ∧ n.token = .ident ∧
        Gives (pathTail eof n.span.stop us) (more, stop) rest ∧
        (n.text :: more, ⟨n.span.start, stop⟩) = (segments, span) := by
  rw [path, gives_bind]
  constructor
  · rintro ⟨n, us, hlt, hx, h⟩
    obtain ⟨rfl, hn⟩ := gives_expect.1 ⟨hlt, hx⟩
    obtain ⟨⟨more, stop⟩, hmore, he⟩ := (gives_map fun c : List String × Nat =>
      (n.text :: c.1, (⟨n.span.start, c.2⟩ : Span))).1 h
    exact ⟨n, us, more, stop, rfl, hn, hmore, he⟩
  · rintro ⟨n, us, more, stop, rfl, hn, hmore, he⟩
    obtain ⟨hlt, hx⟩ : Gives (expect eof .ident .name (n :: us)) n us := gives_expect.2 ⟨rfl, hn⟩
    exact ⟨n, us, hlt, hx, (gives_map fun c : List String × Nat =>
      (n.text :: c.1, (⟨n.span.start, c.2⟩ : Span))).2 ⟨(more, stop), hmore, he⟩⟩

theorem gives_expr_iff :
    Gives (expr eof floor ts) e rest ↔
      ∃ lhs mid, Gives (unary eof ts) lhs mid ∧ Gives (operators eof floor lhs mid) e rest := by
  rw [expr, gives_bind]
  constructor
  · rintro ⟨lhs, mid, hm, hu, h⟩
    obtain ⟨_, ho, rfl⟩ := (gives_map id).1 h
    exact ⟨lhs, mid, ⟨hm, hu⟩, ho⟩
  · rintro ⟨lhs, mid, ⟨hm, hu⟩, ho⟩
    exact ⟨lhs, mid, hm, hu, (gives_map id).2 ⟨e, ho, rfl⟩⟩

theorem gives_operators_end (h : ¬ Extends floor ts) :
    Gives (operators eof floor lhs ts) e rest ↔ lhs = e ∧ ts = rest := by
  cases ts with
  | nil => rw [operators, gives_ok]
  | cons t ts =>
    rw [operators]
    split
    · exact gives_ok
    next op hop =>
      rw [if_pos (Nat.not_lt.1 fun hlt => h ⟨_, op, rfl, hop, hlt⟩)]
      exact gives_ok

theorem gives_operators_more {op : BinaryOp} (hop : BinaryOp.ofToken? t.token = some op)
    (hlt : floor < op.power) :
    Gives (operators eof floor lhs (t :: ts)) e rest ↔
      ∃ rhs mid, Gives (expr eof op.power ts) rhs mid ∧
        Gives (operators eof floor (.binary ⟨lhs.span.start, rhs.span.stop⟩ op lhs rhs) mid)
          e rest := by
  rw [operators, hop]
  dsimp only
  rw [if_neg (Nat.not_le.2 hlt), gives_bind]
  constructor
  · rintro ⟨rhs, mid, hm, hr, h⟩
    obtain ⟨_, ho, rfl⟩ := (gives_map id).1 h
    exact ⟨rhs, mid, ⟨hm, hr⟩, ho⟩
  · rintro ⟨rhs, mid, ⟨hm, hr⟩, ho⟩
    exact ⟨rhs, mid, hm, hr, (gives_map id).2 ⟨e, ho, rfl⟩⟩

theorem not_gives_unary_nil : ¬ Gives (unary eof []) e rest := by
  rw [unary]
  exact not_gives_error

theorem gives_unary_negated {u : Lexeme} {n : Word} (ht : t.token = .minus) (hu : u.token = .int)
    (hn : Word.ofNegatedDigits? u.text = some n) :
    Gives (unary eof (t :: u :: ts)) e rest ↔
      .literal ⟨t.span.start, u.span.stop⟩ (.int n) = e ∧ ts = rest := by
  rw [unary, if_pos ht]
  simp only [negatedInt?, hu, if_true, hn, Option.map_some]
  exact gives_ok

theorem negatedInt?_eq_none {start : Nat} (h : ¬ NegatesWord ts) :
    negatedInt? start ts = none := by
  unfold negatedInt?
  split
  next t rest =>
    split
    next ht =>
      refine Option.map_eq_none_iff.2 (Option.eq_none_iff_forall_ne_some.2 fun n hn => ?_)
      exact h ⟨t, rest, n, rfl, ht, hn⟩
    · rfl
  · rfl

theorem gives_unary_neg (ht : t.token = .minus) (hn : ¬ NegatesWord ts) :
    Gives (unary eof (t :: ts)) e rest ↔
      ∃ operand, Gives (unary eof ts) operand rest ∧
        .unary ⟨t.span.start, operand.span.stop⟩ .neg operand = e := by
  rw [unary, if_pos ht, negatedInt?_eq_none hn]
  exact gives_map fun operand => Expr.unary ⟨t.span.start, operand.span.stop⟩ .neg operand

theorem gives_unary_not (ht : t.token = .bang) :
    Gives (unary eof (t :: ts)) e rest ↔
      ∃ operand, Gives (unary eof ts) operand rest ∧
        .unary ⟨t.span.start, operand.span.stop⟩ .not operand = e := by
  rw [unary, if_neg (by rw [ht]; decide), if_pos ht]
  exact gives_map fun operand => Expr.unary ⟨t.span.start, operand.span.stop⟩ .not operand

theorem gives_unary_unsigned (hm : t.token ≠ .minus) (hb : t.token ≠ .bang) :
    Gives (unary eof (t :: ts)) e rest ↔ Gives (atom eof (t :: ts)) e rest := by
  rw [unary, if_neg hm, if_neg hb]

theorem not_gives_atom_nil : ¬ Gives (atom eof []) e rest := by
  rw [atom]
  exact not_gives_error

theorem gives_atom_int (ht : t.token = .int) :
    Gives (atom eof (t :: ts)) e rest ↔
      (∃ n, Word.ofDigits? t.text = some n ∧ .literal t.span (.int n) = e) ∧ ts = rest := by
  simp only [atom, ht]
  cases hn : Word.ofDigits? t.text with
  | none =>
    refine ⟨fun h => (not_gives_error h).elim, ?_⟩
    rintro ⟨⟨_, hsome, -⟩, -⟩
    cases hsome
  | some n => simp only [gives_ok, Option.some.injEq, exists_eq_left']

theorem gives_atom_str (ht : t.token = .str) :
    Gives (atom eof (t :: ts)) e rest ↔
      .literal t.span (.str (String.ofList (Token.unescape t.text.toList))) = e ∧ ts = rest := by
  simp only [atom, ht, gives_ok]

theorem gives_atom_bool {b : Bool} (ht : t.token = if b then .kwTrue else .kwFalse) :
    Gives (atom eof (t :: ts)) e rest ↔ .literal t.span (.bool b) = e ∧ ts = rest := by
  cases b with
  | true =>
    rw [if_pos rfl] at ht
    simp only [atom, ht, gives_ok]
  | false =>
    rw [if_neg Bool.false_ne_true] at ht
    simp only [atom, ht, gives_ok]

theorem gives_atom_paren (ht : t.token = .lparen) :
    Gives (atom eof (t :: ts)) e rest ↔
      ∃ inner u, Gives (expr eof 0 ts) inner (u :: rest) ∧ u.token = .rparen ∧
        inner.withSpan ⟨t.span.start, u.span.stop⟩ = e := by
  simp only [atom, ht]
  rw [gives_bind]
  constructor
  · rintro ⟨inner, mid, hm, he, h⟩
    obtain ⟨u, hx, he'⟩ := (gives_map fun u : Lexeme =>
      inner.withSpan ⟨t.span.start, u.span.stop⟩).1 h
    obtain ⟨rfl, hu⟩ := gives_expect.1 hx
    exact ⟨inner, u, ⟨hm, he⟩, hu, he'⟩
  · rintro ⟨inner, u, ⟨hm, he⟩, hu, he'⟩
    exact ⟨inner, u :: rest, hm, he, (gives_map fun u : Lexeme =>
      inner.withSpan ⟨t.span.start, u.span.stop⟩).2 ⟨u, gives_expect.2 ⟨rfl, hu⟩, he'⟩⟩

theorem exists_gives_path (ht : t.token = .ident) (h : Gives (atom eof (t :: ts)) e rest) :
    ∃ segments span mid, Gives (path eof (t :: ts)) (segments, span) mid := by
  simp only [atom, ht] at h
  obtain ⟨⟨segments, span⟩, mid, hm, hp, -⟩ := gives_bind.1 h
  exact ⟨segments, span, mid, hm, hp⟩

theorem gives_atom_call {name : String} {u : Lexeme} {us : List Lexeme} (ht : t.token = .ident)
    (hp : Gives (path eof (t :: ts)) ([name], span) (u :: us)) (hu : u.token = .lparen) :
    Gives (atom eof (t :: ts)) e rest ↔
      ∃ es stop, Gives (args eof us) (es, stop) rest ∧ .call ⟨span.start, stop⟩ name es = e := by
  obtain ⟨hm, hp⟩ := hp
  simp only [atom, ht, hp]
  rw [gives_ok_bind]
  dsimp only
  rw [if_pos hu]
  constructor
  · intro h
    obtain ⟨⟨es, stop⟩, hargs, he⟩ := (gives_map fun c : List Expr × Nat =>
      Expr.call ⟨span.start, c.2⟩ name c.1).1 h
    exact ⟨es, stop, hargs, he⟩
  · rintro ⟨es, stop, hargs, he⟩
    exact (gives_map fun c : List Expr × Nat => Expr.call ⟨span.start, c.2⟩ name c.1).2
      ⟨(es, stop), hargs, he⟩

theorem gives_atom_name {mid : List Lexeme} (ht : t.token = .ident)
    (hp : Gives (path eof (t :: ts)) (segments, span) mid)
    (hne : segments.length = 1 → ahead? mid ≠ some .lparen) :
    Gives (atom eof (t :: ts)) e rest ↔ .path span segments = e ∧ mid = rest := by
  obtain ⟨hm, hp⟩ := hp
  simp only [atom, ht, hp]
  rw [gives_ok_bind]
  dsimp only
  split
  next name u us _ heq =>
    cases heq
    rw [if_neg fun hu => hne rfl (congrArg some hu), gives_pure]
  · exact gives_pure

theorem atom_other (hi : t.token ≠ .int) (hs : t.token ≠ .str) (ht : t.token ≠ .kwTrue)
    (hf : t.token ≠ .kwFalse) (hp : t.token ≠ .lparen) (hn : t.token ≠ .ident) :
    atom eof (t :: ts) = .error (complaint eof .expression (t :: ts)) := by
  unfold atom
  dsimp only
  split <;> first | contradiction | rfl

theorem not_gives_args_nil {c : List Expr × Nat} : ¬ Gives (args eof []) c rest := by
  rw [args]
  exact not_gives_error

theorem gives_args_none (ht : t.token = .rparen) :
    Gives (args eof (t :: ts)) (es, stop) rest ↔ ([], t.span.stop) = (es, stop) ∧ ts = rest := by
  rw [args, if_pos ht, gives_ok]

theorem gives_args_some (ht : t.token ≠ .rparen) :
    Gives (args eof (t :: ts)) (es, stop) rest ↔
      Gives (argsFrom eof (t :: ts)) (es, stop) rest := by
  rw [args, if_neg ht]

theorem gives_argsFrom_iff :
    Gives (argsFrom eof ts) (es, stop) rest ↔
      ∃ a t mid, Gives (expr eof 0 ts) a (t :: mid) ∧
        ((t.token = .comma ∧ ∃ more, Gives (argsFrom eof mid) (more, stop) rest ∧
            a :: more = es) ∨
          t.token = .rparen ∧ ([a], t.span.stop) = (es, stop) ∧ mid = rest) := by
  rw [argsFrom, gives_bind]
  constructor
  · rintro ⟨a, mid, hm, ha, h⟩
    dsimp only at h
    split at h
    next t mid hm heq =>
      cases heq
      refine ⟨a, t, mid, ⟨hm, ha⟩, ?_⟩
      split at h
      next ht =>
        obtain ⟨⟨more, _⟩, hmore, he⟩ :=
          (gives_map fun c : List Expr × Nat => (a :: c.1, c.2)).1 h
        cases he
        exact .inl ⟨ht, more, hmore, rfl⟩
      · split at h
        next ht => exact .inr ⟨ht, gives_pure.1 h⟩
        · exact (not_gives_error h).elim
    · exact (not_gives_error h).elim
  · rintro ⟨a, t, mid, ⟨hm, ha⟩, ⟨ht, more, hmore, rfl⟩ | ⟨ht, he⟩⟩
    · refine ⟨a, t :: mid, hm, ha, ?_⟩
      dsimp only
      rw [if_pos ht]
      exact (gives_map fun c : List Expr × Nat => (a :: c.1, c.2)).2 ⟨(more, stop), hmore, rfl⟩
    · refine ⟨a, t :: mid, hm, ha, ?_⟩
      dsimp only
      rw [if_neg (by rw [ht]; decide), if_pos ht]
      exact gives_pure.2 he

end Readers

theorem reads_names {eof stop stop' : Nat} {segments : List String} {ts rest : List Lexeme}
    (h : Gives (pathTail eof stop ts) (segments, stop') rest) :
    Reads (.names stop segments stop') ts rest := by
  induction hn : ts.length using Nat.strongRecOn generalizing stop segments ts with
  | ind n ih =>
    by_cases hdot : ahead? ts = some .dot
    · obtain ⟨t, hhead, ht⟩ := Option.map_eq_some_iff.1 hdot
      obtain ⟨us, rfl⟩ := List.head?_eq_some_iff.1 hhead
      obtain ⟨n, us, more, rfl, hident, hmore, rfl⟩ := (gives_pathTail_dot ht).1 h
      rw [List.length_cons, List.length_cons] at hn
      exact .nameMore ht hident (ih us.length (by omega) hmore rfl)
    · obtain ⟨he, rfl⟩ := (gives_pathTail_end hdot).1 h
      cases he
      exact .nameEnd hdot

theorem reads_path {eof : Nat} {segments : List String} {span : Span} {ts rest : List Lexeme}
    (h : Gives (path eof ts) (segments, span) rest) : Reads (.path segments span) ts rest := by
  obtain ⟨n, us, more, stop, rfl, hn, hmore, he⟩ := gives_path_iff.1 h
  cases he
  exact .path hn (reads_names hmore)

/-- Whether what the readers of expressions accept is in the grammar where they are given enough of
some fuel: five for each token left, and one for each reader that may be called before the next
token is taken. -/
structure SoundWith (eof fuel : Nat) : Prop where
  expr {floor : Nat} {e : Expr} {ts rest : List Lexeme} : 5 * ts.length + 3 ≤ fuel →
    Gives (expr eof floor ts) e rest → Reads (.expr floor e) ts rest
  operators {floor : Nat} {lhs e : Expr} {ts rest : List Lexeme} : 5 * ts.length + 1 ≤ fuel →
    Gives (operators eof floor lhs ts) e rest → Reads (.operators floor lhs e) ts rest
  unary {e : Expr} {ts rest : List Lexeme} : 5 * ts.length + 2 ≤ fuel →
    Gives (unary eof ts) e rest → Reads (.unary e) ts rest
  atom {e : Expr} {ts rest : List Lexeme} : 5 * ts.length + 1 ≤ fuel →
    Gives (atom eof ts) e rest → Reads (.atom e) ts rest
  args {es : List Expr} {stop : Nat} {ts rest : List Lexeme} : 5 * ts.length + 5 ≤ fuel →
    Gives (args eof ts) (es, stop) rest → Reads (.args es stop) ts rest
  argsFrom {es : List Expr} {stop : Nat} {ts rest : List Lexeme} : 5 * ts.length + 4 ≤ fuel →
    Gives (argsFrom eof ts) (es, stop) rest → Reads (.argsFrom es stop) ts rest

namespace SoundWith

variable {eof fuel floor stop : Nat} {lhs e : Expr} {es : List Expr} {ts rest : List Lexeme}
  (hwith : SoundWith eof fuel)

include hwith

theorem succ_expr (hfuel : 5 * ts.length + 3 ≤ fuel + 1)
    (h : Gives (Parser.expr eof floor ts) e rest) : Reads (.expr floor e) ts rest := by
  obtain ⟨lhs, mid, hu, ho⟩ := gives_expr_iff.1 h
  have hmid : mid.length < ts.length := hu.left
  exact .expr (hwith.unary (by omega) hu) (hwith.operators (by omega) ho)

theorem succ_operators (hfuel : 5 * ts.length + 1 ≤ fuel + 1)
    (h : Gives (Parser.operators eof floor lhs ts) e rest) :
    Reads (.operators floor lhs e) ts rest := by
  by_cases hext : Extends floor ts
  · obtain ⟨token, op, hahead, hop, hlt⟩ := hext
    obtain ⟨t, hhead, rfl⟩ := Option.map_eq_some_iff.1 hahead
    obtain ⟨ts, rfl⟩ := List.head?_eq_some_iff.1 hhead
    obtain ⟨rhs, mid, hr, ho⟩ := (gives_operators_more hop hlt).1 h
    have hmid : mid.length < ts.length := hr.left
    rw [List.length_cons] at hfuel
    exact .operatorMore hop hlt (hwith.expr (by omega) hr) (hwith.operators (by omega) ho)
  · obtain ⟨rfl, rfl⟩ := (gives_operators_end hext).1 h
    exact .operatorEnd hext

theorem succ_unary (hfuel : 5 * ts.length + 2 ≤ fuel + 1)
    (h : Gives (Parser.unary eof ts) e rest) : Reads (.unary e) ts rest := by
  cases ts with
  | nil => exact (not_gives_unary_nil h).elim
  | cons t ts =>
    rw [List.length_cons] at hfuel
    by_cases hm : t.token = .minus
    · by_cases hn : NegatesWord ts
      · obtain ⟨u, us, n, rfl, hu, hn⟩ := hn
        obtain ⟨rfl, rfl⟩ := (gives_unary_negated hm hu hn).1 h
        exact .negated hm hu hn
      · obtain ⟨operand, hoperand, rfl⟩ := (gives_unary_neg hm hn).1 h
        exact .neg hm hn (hwith.unary (by omega) hoperand)
    · by_cases hb : t.token = .bang
      · obtain ⟨operand, hoperand, rfl⟩ := (gives_unary_not hb).1 h
        exact .not hb (hwith.unary (by omega) hoperand)
      · have hatom := (gives_unary_unsigned hm hb).1 h
        exact .unsigned hm hb (hwith.atom (by rw [List.length_cons]; omega) hatom)

/-- A name is read, or a call where a parenthesis comes after a name alone. -/
theorem succ_atom_ident {t : Lexeme} (ht : t.token = .ident)
    (hfuel : 5 * (t :: ts).length + 1 ≤ fuel + 1)
    (h : Gives (Parser.atom eof (t :: ts)) e rest) : Reads (.atom e) (t :: ts) rest := by
  obtain ⟨segments, span, mid, hp⟩ := exists_gives_path ht h
  by_cases hcall : segments.length = 1 ∧ ahead? mid = some .lparen
  · obtain ⟨hone, hahead⟩ := hcall
    obtain ⟨name, rfl⟩ := List.length_eq_one_iff.1 hone
    obtain ⟨u, hhead, hu⟩ := Option.map_eq_some_iff.1 hahead
    obtain ⟨us, rfl⟩ := List.head?_eq_some_iff.1 hhead
    obtain ⟨es, stop, hargs, rfl⟩ := (gives_atom_call ht hp hu).1 h
    have hmid : (u :: us).length < (t :: ts).length := hp.left
    rw [List.length_cons] at hmid
    exact .call (reads_path hp) hu (hwith.args (by omega) hargs)
  · have hne : segments.length = 1 → ahead? mid ≠ some .lparen := not_and.1 hcall
    obtain ⟨rfl, rfl⟩ := (gives_atom_name ht hp hne).1 h
    exact .name (reads_path hp) hne

theorem succ_atom (hfuel : 5 * ts.length + 1 ≤ fuel + 1)
    (h : Gives (Parser.atom eof ts) e rest) : Reads (.atom e) ts rest := by
  cases ts with
  | nil => exact (not_gives_atom_nil h).elim
  | cons t ts =>
    cases ht : t.token with
    | int =>
      obtain ⟨⟨n, hn, rfl⟩, rfl⟩ := (gives_atom_int ht).1 h
      exact .int ht hn
    | str =>
      obtain ⟨rfl, rfl⟩ := (gives_atom_str ht).1 h
      exact .str ht
    | kwTrue =>
      obtain ⟨rfl, rfl⟩ := (gives_atom_bool (b := true) ht).1 h
      exact .bool (b := true) ht
    | kwFalse =>
      obtain ⟨rfl, rfl⟩ := (gives_atom_bool (b := false) ht).1 h
      exact .bool (b := false) ht
    | lparen =>
      obtain ⟨inner, u, hinner, hu, rfl⟩ := (gives_atom_paren ht).1 h
      rw [List.length_cons] at hfuel
      exact .paren ht (hwith.expr (by omega) hinner) hu
    | ident => exact hwith.succ_atom_ident ht hfuel h
    | _ =>
      rw [atom_other (by simp [ht]) (by simp [ht]) (by simp [ht]) (by simp [ht]) (by simp [ht])
        (by simp [ht])] at h
      exact (not_gives_error h).elim

theorem succ_args (hfuel : 5 * ts.length + 5 ≤ fuel + 1)
    (h : Gives (Parser.args eof ts) (es, stop) rest) : Reads (.args es stop) ts rest := by
  cases ts with
  | nil => exact (not_gives_args_nil h).elim
  | cons t ts =>
    by_cases ht : t.token = .rparen
    · obtain ⟨he, rfl⟩ := (gives_args_none ht).1 h
      cases he
      exact .argsNone ht
    · exact .argsSome ht (hwith.argsFrom (by omega) ((gives_args_some ht).1 h))

theorem succ_argsFrom (hfuel : 5 * ts.length + 4 ≤ fuel + 1)
    (h : Gives (Parser.argsFrom eof ts) (es, stop) rest) : Reads (.argsFrom es stop) ts rest := by
  obtain ⟨a, t, mid, ha, hmore⟩ := gives_argsFrom_iff.1 h
  have hmid : (t :: mid).length < ts.length := ha.left
  have hexpr := hwith.expr (by omega) ha
  rw [List.length_cons] at hmid
  obtain ⟨ht, more, hmore, rfl⟩ | ⟨ht, he, rfl⟩ := hmore
  · exact .argMore hexpr ht (hwith.argsFrom (by omega) hmore)
  · cases he
    exact .argLast hexpr ht

end SoundWith

theorem soundWith (eof fuel : Nat) : SoundWith eof fuel := by
  induction fuel with
  | zero => constructor <;> intros <;> contradiction
  | succ fuel ih =>
    exact ⟨ih.succ_expr, ih.succ_operators, ih.succ_unary, ih.succ_atom, ih.succ_args,
      ih.succ_argsFrom⟩

theorem reads_of_readsAs {eof : Nat} {phrase : Phrase} {ts rest : List Lexeme}
    (h : ReadsAs eof phrase ts rest) : Reads phrase ts rest := by
  have hwith := soundWith eof (5 * ts.length + 5)
  cases phrase with
  | names => exact reads_names h
  | path => exact reads_path h
  | expr => exact hwith.expr (by omega) h
  | operators => exact hwith.operators (by omega) h
  | unary => exact hwith.unary (by omega) h
  | atom => exact hwith.atom (by omega) h
  | args => exact hwith.args (by omega) h
  | argsFrom => exact hwith.argsFrom (by omega) h

theorem ahead_of_reads_path {segments : List String} {span : Span} {ts rest : List Lexeme}
    (h : Reads (.path segments span) ts rest) : ∃ t us, ts = t :: us ∧ t.token = .ident := by
  cases h with
  | path ht _ => exact ⟨_, _, rfl, ht⟩

theorem readsAs_of_reads {phrase : Phrase} {ts rest : List Lexeme} (h : Reads phrase ts rest)
    (eof : Nat) : ReadsAs eof phrase ts rest := by
  induction h with
  | nameEnd h => exact (gives_pathTail_end h).2 ⟨rfl, rfl⟩
  | nameMore hd hn _ ih => exact (gives_pathTail_dot hd).2 ⟨_, _, _, rfl, hn, ih, rfl⟩
  | path hn _ ih => exact gives_path_iff.2 ⟨_, _, _, _, rfl, hn, ih, rfl⟩
  | expr _ _ ihu iho => exact gives_expr_iff.2 ⟨_, _, ihu, iho⟩
  | operatorEnd h => exact (gives_operators_end h).2 ⟨rfl, rfl⟩
  | operatorMore hop hlt _ _ ihe iho => exact (gives_operators_more hop hlt).2 ⟨_, _, ihe, iho⟩
  | negated ht hu hn => exact (gives_unary_negated ht hu hn).2 ⟨rfl, rfl⟩
  | neg ht hn _ ih => exact (gives_unary_neg ht hn).2 ⟨_, ih, rfl⟩
  | not ht _ ih => exact (gives_unary_not ht).2 ⟨_, ih, rfl⟩
  | unsigned hm hb _ ih => exact (gives_unary_unsigned hm hb).2 ih
  | int ht hn => exact (gives_atom_int ht).2 ⟨⟨_, hn, rfl⟩, rfl⟩
  | str ht => exact (gives_atom_str ht).2 ⟨rfl, rfl⟩
  | bool ht => exact (gives_atom_bool ht).2 ⟨rfl, rfl⟩
  | paren ht _ hu ih => exact (gives_atom_paren ht).2 ⟨_, _, ih, hu, rfl⟩
  | call hp hu _ ihp iha =>
    obtain ⟨t, ts, rfl, ht⟩ := ahead_of_reads_path hp
    exact (gives_atom_call ht ihp hu).2 ⟨_, _, iha, rfl⟩
  | name hp hne ihp =>
    obtain ⟨t, ts, rfl, ht⟩ := ahead_of_reads_path hp
    exact (gives_atom_name ht ihp hne).2 ⟨rfl, rfl⟩
  | argsNone ht => exact (gives_args_none ht).2 ⟨rfl, rfl⟩
  | argsSome ht _ ih => exact (gives_args_some ht).2 ih
  | argLast _ ht ih => exact gives_argsFrom_iff.2 ⟨_, _, _, ih, .inr ⟨ht, rfl, rfl⟩⟩
  | argMore _ ht _ ihe iha => exact gives_argsFrom_iff.2 ⟨_, _, _, ihe, .inl ⟨ht, _, iha, rfl⟩⟩

/-- The grammar says exactly what the readers accept. -/
theorem reads_iff {phrase : Phrase} {ts rest : List Lexeme} (eof : Nat) :
    Reads phrase ts rest ↔ ReadsAs eof phrase ts rest :=
  ⟨fun h => readsAs_of_reads h eof, reads_of_readsAs⟩

theorem readsStmt_iff {s : Stmt} {ts rest : List Lexeme} (eof : Nat) :
    ReadsStmt s ts rest ↔ Gives (stmt eof ts) s rest := by
  constructor
  · intro h
    cases h with
    | bind ht hn ha he =>
      obtain ⟨hr, he⟩ := readsAs_of_reads he eof
      obtain ⟨hr₁, hn⟩ : Gives (expect eof .ident .bindingName _) _ _ := gives_expect.2 ⟨rfl, hn⟩
      obtain ⟨hr₂, ha⟩ : Gives (expect eof .assign .assign _) _ _ := gives_expect.2 ⟨rfl, ha⟩
      simp only [stmt, ht]
      exact gives_bind.2 ⟨_, _, hr₁, hn, gives_bind.2 ⟨_, _, hr₂, ha,
        gives_bind.2 ⟨_, _, hr, he, gives_pure.2 ⟨rfl, rfl⟩⟩⟩⟩
    | use ht hp =>
      obtain ⟨hr, hp⟩ := readsAs_of_reads hp eof
      simp only [stmt, ht]
      exact gives_bind.2 ⟨_, _, hr, hp, gives_pure.2 ⟨rfl, rfl⟩⟩
    | expr hl hu he =>
      obtain ⟨hr, he⟩ := readsAs_of_reads he eof
      unfold stmt
      dsimp only
      split
      · contradiction
      · contradiction
      · exact gives_bind.2 ⟨_, _, hr, he, gives_pure.2 ⟨rfl, rfl⟩⟩
  · intro h
    unfold stmt at h
    split at h
    · exact (not_gives_error h).elim
    next t ts =>
      split at h
      next ht =>
        obtain ⟨n, _, hr₁, hx, h⟩ := gives_bind.1 h
        obtain ⟨a, _, hr₂, hy, h⟩ := gives_bind.1 h
        obtain ⟨e, _, hr₃, he, h⟩ := gives_bind.1 h
        obtain ⟨rfl, rfl⟩ := gives_pure.1 h
        obtain ⟨rfl, hn⟩ := gives_expect.1 ⟨hr₁, hx⟩
        obtain ⟨rfl, ha⟩ := gives_expect.1 ⟨hr₂, hy⟩
        have he : ReadsAs eof (.expr 0 e) _ _ := ⟨hr₃, he⟩
        exact .bind ht hn ha (reads_of_readsAs he)
      next ht =>
        obtain ⟨⟨segments, span⟩, _, hr, hp, h⟩ := gives_bind.1 h
        obtain ⟨rfl, rfl⟩ := gives_pure.1 h
        exact .use ht (reads_path ⟨hr, hp⟩)
      next hl hu =>
        obtain ⟨e, _, hr, he, h⟩ := gives_bind.1 h
        obtain ⟨rfl, rfl⟩ := gives_pure.1 h
        have he : ReadsAs eof (.expr 0 e) _ _ := ⟨hr, he⟩
        exact .expr hl hu (reads_of_readsAs he)

theorem readsScript_iff {script : Script} {ts : List Lexeme} (eof : Nat) :
    ReadsScript script ts ↔ stmts eof ts = .ok script := by
  constructor
  · intro h
    induction h with
    | nil => rw [stmts]
    | semi ht _ ih => rw [stmts, if_pos ht, ih]
    | last ht hs =>
      obtain ⟨hr, hs⟩ := (readsStmt_iff eof).1 hs
      rw [stmts, if_neg ht, hs]
      rfl
    | more ht hs hu _ ih =>
      obtain ⟨hr, hs⟩ := (readsStmt_iff eof).1 hs
      rw [stmts, if_neg ht, hs, Except.bind_eq_ok_iff]
      refine ⟨_, rfl, ?_⟩
      dsimp only
      rw [if_pos hu, ih]
      rfl
  · intro h
    induction ts using stmts.induct generalizing script with
    | case1 =>
      rw [stmts] at h
      cases h
      exact .nil
    | case2 t ts ht ih =>
      rw [stmts, if_pos ht] at h
      exact .semi ht (ih h)
    | case3 t ts ht ih =>
      rw [stmts, if_neg ht] at h
      obtain ⟨⟨s, mid, hm⟩, hs, h⟩ := Except.bind_eq_ok_iff.1 h
      have hstmt := (readsStmt_iff eof).2 ⟨hm, hs⟩
      dsimp only at h
      split at h
      next heq =>
        cases heq
        cases h
        exact .last ht hstmt
      next u rest' hu' heq =>
        cases heq
        split at h
        next hu =>
          obtain ⟨more, hmore, h⟩ := Except.bind_eq_ok_iff.1 h
          cases h
          exact .more ht hstmt hu (ih u rest' hm hmore)
        · cases h

end Parser

/-- A text parses as a script if it has no stray pieces and its tokens read as the script. -/
theorem parse_eq_ok_iff {text : String} {script : Script} :
    parse text = .ok script ↔
      (lex text.toList).strays = [] ∧
        ReadsScript script (significant (lex text.toList).tokens) := by
  rw [parse, Except.mapError_eq_ok_iff, parseChars]
  split
  next s _ hs =>
    rw [hs]
    exact ⟨nofun, fun h => nomatch h.1⟩
  next hs =>
    rw [hs, Parser.readsScript_iff]
    exact ⟨fun h => ⟨rfl, h⟩, And.right⟩

end ScriptSession
