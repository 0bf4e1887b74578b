import ScriptSession.Proofs.Blame
import ScriptSession.Proofs.Moves

namespace ScriptSession

theorem Reads.last_args {es : List Expr} {stop : Nat} {ts rest : List Lexeme}
    (h : Reads (.args es stop) ts rest) :
    ∃ inner close, ts = inner ++ close :: rest ∧ close.span.stop = stop := by
  obtain ⟨_, rfl, inner, close, rfl, -, hstop, -⟩ := h.spelled
  exact ⟨inner, close, by rw [List.append_assoc, List.singleton_append], hstop⟩

theorem Reads.start_path {segments : List String} {span : Span} {t : Lexeme} {ts rest : List Lexeme}
    (h : Reads (.path segments span) (t :: ts) rest) : span.start = t.span.start := by
  cases h with
  | path => rfl

theorem SpellsStmt.stops {kind : StmtKind} {span : Span} {ts : List Lexeme}
    (h : SpellsStmt kind span ts) (start : Nat) : stopOf start ts = span.stop := by
  cases h with
  | @bind t n a _ _ _ _ _ he => exact he.stopsIn a.span.stop
  | @use t _ _ _ _ hp => exact hp.stopsIn t.span.stop
  | expr he => exact he.stopsIn start

theorem Parser.expr_nil (eof floor : Nat) :
    expr eof floor [] = .error (complaint eof .expression []) := by
  rw [expr, unary]
  rfl

namespace Cursor

namespace Input

variable {α β γ δ : Type} {pos pos' : Nat} {i : Input} {t : Lexeme} {ts : List Lexeme}

/-- What a reader gives, without the proof that it took something. -/
def plain {p : List Lexeme → Prop} (x : α × { rest // p rest }) : α × List Lexeme :=
  (x.1, x.2.1)

/-- Whether a step does at a position what a reader does that is given the tokens from there on: it
gives what `view` shows of the value and takes the same tokens, or it rejects the text for what the
reader complains about. -/
def Agrees (i : Input) (view : γ → α × List Lexeme) (m : Step α) (pos : Nat)
    (x : Except Finding γ) : Prop :=
  match x with
  | .ok c => ∃ pos', i.Left pos' (view c).2 ∧ m.at i.tape pos = .ok ((view c).1, pos')
  | .error f => m.at i.tape pos = .error (i.rejection f)

section Rules

variable {m : Step α} {k : α → Step β} {view : γ → α × List Lexeme} {view' : δ → β × List Lexeme}

theorem agrees_step {a : α} {x : Except Finding δ} (h : m.at i.tape pos = .ok (a, pos'))
    (hk : i.Agrees view' (k a) pos' x) : i.Agrees view' (m >>= k) pos x := by
  unfold Agrees at *
  rwa [at_bind h]

theorem agrees_error {f : Finding} (h : m.at i.tape pos = .error (i.rejection f)) :
    i.Agrees view' (m >>= k) pos (.error f) :=
  at_bind_error h

/-- Agreement of a step and a reader, and of what follows both where the reader gives something. -/
theorem agrees_bind {x : Except Finding γ} {f : γ → Except Finding δ}
    (hx : i.Agrees view m pos x)
    (hf : ∀ c, x = .ok c → ∀ pos', i.Left pos' (view c).2 →
      i.Agrees view' (k (view c).1) pos' (f c)) :
    i.Agrees view' (m >>= k) pos (x >>= f) := by
  cases x with
  | error e => exact at_bind_error hx
  | ok c =>
    obtain ⟨pos', hleft, hm⟩ := hx
    exact agrees_step hm (hf c rfl pos' hleft)

theorem agrees_repack {x : Except Finding γ} {f : γ → Except Finding δ}
    {view'' : δ → α × List Lexeme} (hx : i.Agrees view m pos x)
    (hf : ∀ c, ∃ d, f c = .ok d ∧ view'' d = view c) :
    i.Agrees view'' m pos (x >>= f) := by
  cases x with
  | error e => exact hx
  | ok c =>
    obtain ⟨pos', hleft, hm⟩ := hx
    obtain ⟨d, hd, hview⟩ := hf c
    change i.Agrees view'' m pos (f c)
    rw [hd]
    exact ⟨pos', hview ▸ hleft, hview ▸ hm⟩

end Rules

theorem at_expect (h : i.Left pos (t :: ts)) {token : Token} (ht : t.token = token)
    (expected : Expected) :
    (expect token expected).at i.tape pos = .ok (t.span, pos + 1) := by
  have hahead : ahead? (t :: ts) = some token := congrArg some ht
  rw [expect, at_bind (at_peek h), if_pos hahead, at_bump h]

theorem at_expect_of_ne (h : i.Left pos ts) {token : Token} (hne : ahead? ts ≠ some token)
    (expected : Expected) : (expect token expected).at i.tape pos =
      .error (i.rejection (Parser.complaint i.eof expected ts)) := by
  rw [expect, at_bind (at_peek h), if_neg hne, at_unexpected h]

theorem agrees_expect (h : i.Left pos ts) (token : Token) (expected : Expected) :
    i.Agrees (fun x => (x.1.span, x.2.1)) (expect token expected) pos
      (Parser.expect i.eof token expected ts) := by
  unfold Parser.expect
  split
  next t ts =>
    split
    next ht => exact ⟨pos + 1, h.tail, at_expect h ht expected⟩
    next ht => exact at_expect_of_ne h (mt token_of_ahead ht) expected
  next => exact at_expect_of_ne h (ahead_nil_ne token) expected

theorem agrees_names {fuel : Nat} (h : i.Left pos ts) (hfuel : ts.length < fuel) (stop : Nat) :
    i.Agrees plain (names fuel stop) pos (Parser.pathTail i.eof stop ts) := by
  induction fuel generalizing ts pos stop with
  | zero => cases hfuel
  | succ fuel ih =>
    rw [names]
    cases ts with
    | nil =>
      rw [Parser.pathTail]
      refine agrees_step at_get (agrees_step (at_eat_of_ne h (ahead_nil_ne _)) ?_)
      exact ⟨pos, h, rfl⟩
    | cons d ts =>
      refine agrees_step at_get ?_
      unfold Parser.pathTail
      by_cases hd : d.token = .dot
      · rw [if_pos hd]
        refine agrees_step (at_eat h hd) ?_
        rw [if_pos rfl]
        cases ts with
        | nil => exact agrees_error (at_expect_of_ne h.tail (ahead_nil_ne _) _)
        | cons n ts =>
          dsimp only
          by_cases hn : n.token = .ident
          · have hshort : ts.length < fuel := by
              rw [List.length_cons, List.length_cons] at hfuel
              omega
            have hmore := ih h.tail.tail hshort n.span.stop
            rw [if_pos hn]
            refine agrees_step (at_expect h.tail hn _) (agrees_step (at_text h.tail.mem) ?_)
            refine agrees_step (at_progress (by omega)) (agrees_bind hmore ?_)
            exact fun c _ last hlast => ⟨last, hlast, rfl⟩
          · rw [if_neg hn]
            exact agrees_error (at_expect_of_ne h.tail (mt token_of_ahead hn) _)
      · rw [if_neg hd]
        refine agrees_step (at_eat_of_ne h (mt token_of_ahead hd)) ?_
        exact ⟨pos, h, rfl⟩

theorem agrees_path {fuel : Nat} (h : i.Left pos ts) (hfuel : ts.length < fuel) :
    i.Agrees plain (path fuel) pos (Parser.path i.eof ts) := by
  rw [path, Parser.path]
  refine agrees_bind (agrees_expect h .ident .name) ?_
  rintro ⟨n, rest, hlt⟩ hn pos' hleft
  obtain ⟨rfl, -⟩ := Parser.gives_expect.1 ⟨hlt, hn⟩
  refine agrees_step (at_text h.mem) (agrees_bind (agrees_names hleft (hlt.trans hfuel) _) ?_)
  exact fun c _ last hlast => ⟨last, hlast, rfl⟩

theorem at_negatedInt (h : i.Left pos ts) (start : Nat) :
    match Parser.negatedInt? start ts with
    | some (e, rest) => ∃ pos', i.Left pos' rest.1 ∧
        (negatedInt? start).at i.tape pos = .ok (some e, pos')
    | none => (negatedInt? start).at i.tape pos = .ok (none, pos) := by
  unfold Parser.negatedInt?
  rw [negatedInt?, at_bind (at_peek h)]
  cases ts with
  | nil => rfl
  | cons t ts =>
    dsimp only
    by_cases ht : t.token = .int
    · have hahead : ahead? (t :: ts) = some .int := congrArg some ht
      rw [if_pos hahead, if_pos ht, at_bind (at_span h), spanOf, at_bind (at_text h.mem)]
      cases Word.ofNegatedDigits? t.text with
      | none => exact at_pure _
      | some n =>
        refine ⟨pos + 1, h.tail, ?_⟩
        dsimp only
        rw [at_bind (at_advance h), at_pure]
    · have hahead : ahead? (t :: ts) ≠ some .int := mt token_of_ahead ht
      rw [if_neg hahead, if_neg ht, at_pure]

def values {p : List Lexeme → Prop} (x : (List Expr × Nat) × { rest // p rest }) :
    List Expr × List Lexeme :=
  (x.1.1, x.2.1)

/-- Agreement of the readers of expressions where they are given enough of some fuel: five for each
token left, and one for each reader that may be called before the next token is taken. -/
structure AgreesWith (i : Input) (fuel : Nat) : Prop where
  expr (floor : Nat) {ts : List Lexeme} {pos : Nat} : i.Left pos ts → 5 * ts.length + 3 ≤ fuel →
    i.Agrees plain (Cursor.expr fuel floor) pos (Parser.expr i.eof floor ts)
  operators (floor : Nat) (lhs : Expr) {ts : List Lexeme} {pos : Nat} : i.Left pos ts →
    5 * ts.length + 1 ≤ fuel →
    i.Agrees plain (Cursor.operators fuel floor lhs) pos (Parser.operators i.eof floor lhs ts)
  unary {ts : List Lexeme} {pos : Nat} : i.Left pos ts → 5 * ts.length + 2 ≤ fuel →
    i.Agrees plain (Cursor.unary fuel) pos (Parser.unary i.eof ts)
  atom {ts : List Lexeme} {pos : Nat} : i.Left pos ts → 5 * ts.length + 1 ≤ fuel →
    i.Agrees plain (Cursor.atom fuel) pos (Parser.atom i.eof ts)
  args {ts : List Lexeme} {pos : Nat} : i.Left pos ts → 5 * ts.length + 5 ≤ fuel →
    i.Agrees values (Cursor.args fuel) pos (Parser.args i.eof ts)
  argsFrom {ts : List Lexeme} {pos : Nat} : i.Left pos ts → 5 * ts.length + 4 ≤ fuel →
    i.Agrees values (Cursor.argsFrom fuel) pos (Parser.argsFrom i.eof ts)

namespace AgreesWith

variable {fuel : Nat} (hwith : i.AgreesWith fuel) (h : i.Left pos ts)

include hwith h

theorem succ_expr (hfuel : 5 * ts.length + 3 ≤ fuel + 1) (floor : Nat) :
    i.Agrees plain (Cursor.expr (fuel + 1) floor) pos (Parser.expr i.eof floor ts) := by
  rw [Parser.expr, Cursor.expr]
  refine agrees_bind (hwith.unary h (by omega)) ?_
  rintro ⟨lhs, mid, hm⟩ - pos' hleft
  have hmid : 5 * mid.length + 1 ≤ fuel := by omega
  exact agrees_repack (hwith.operators floor lhs hleft hmid) fun _ => ⟨_, rfl, rfl⟩

theorem succ_operators (hfuel : 5 * ts.length + 1 ≤ fuel + 1) (floor : Nat) (lhs : Expr) :
    i.Agrees plain (Cursor.operators (fuel + 1) floor lhs) pos
      (Parser.operators i.eof floor lhs ts) := by
  rw [Cursor.operators]
  refine agrees_step at_get (agrees_step (at_peek h) ?_)
  cases ts with
  | nil =>
    rw [Parser.operators]
    exact ⟨pos, h, rfl⟩
  | cons t ts =>
    have hahead : (ahead? (t :: ts)).bind BinaryOp.ofToken? = BinaryOp.ofToken? t.token := rfl
    rw [List.length_cons] at hfuel
    rw [Parser.operators, hahead]
    cases BinaryOp.ofToken? t.token with
    | none => exact ⟨pos, h, rfl⟩
    | some op =>
      dsimp only
      by_cases hp : op.power ≤ floor
      · rw [if_pos hp, if_pos hp]
        exact ⟨pos, h, rfl⟩
      · rw [if_neg hp, if_neg hp]
        have hrhs := hwith.expr op.power h.tail (by omega)
        refine agrees_step (at_advance h) (agrees_bind hrhs ?_)
        rintro ⟨rhs, mid, hm⟩ - pos' hleft
        have hmoved := h.tail.lt_of_shorter hleft hm
        have hmid : 5 * mid.length + 1 ≤ fuel := by omega
        refine agrees_step (at_progress (by omega)) ?_
        exact agrees_repack (hwith.operators floor _ hleft hmid) fun _ => ⟨_, rfl, rfl⟩

theorem succ_unary (hfuel : 5 * ts.length + 2 ≤ fuel + 1) :
    i.Agrees plain (Cursor.unary (fuel + 1)) pos (Parser.unary i.eof ts) := by
  rw [Cursor.unary]
  refine agrees_step (at_peek h) ?_
  cases ts with
  | nil =>
    have hatom := hwith.atom h (by omega)
    rw [Parser.atom] at hatom
    rw [Parser.unary]
    exact hatom
  | cons t ts =>
    rw [List.length_cons] at hfuel
    have hoperand := hwith.unary h.tail (by omega)
    split
    next heq =>
      have hnegated := at_negatedInt h.tail t.span.start
      rw [Parser.unary, if_pos (token_of_ahead heq)]
      refine agrees_step (at_bump h) ?_
      cases hn : Parser.negatedInt? t.span.start ts with
      | some c =>
        rw [hn] at hnegated
        obtain ⟨pos', hleft, hnegated⟩ := hnegated
        exact agrees_step hnegated ⟨pos', hleft, rfl⟩
      | none =>
        rw [hn] at hnegated
        refine agrees_step hnegated (agrees_bind hoperand ?_)
        exact fun e _ pos' hleft => ⟨pos', hleft, rfl⟩
    next heq =>
      have ht : t.token = .bang := token_of_ahead heq
      rw [Parser.unary, if_neg (by rw [ht]; decide), if_pos ht]
      refine agrees_step (at_bump h) (agrees_bind hoperand ?_)
      exact fun e _ pos' hleft => ⟨pos', hleft, rfl⟩
    next hminus hbang =>
      rw [Parser.unary, if_neg fun ht => hminus (congrArg some ht),
        if_neg fun ht => hbang (congrArg some ht)]
      exact hwith.atom h (by rw [List.length_cons]; omega)

theorem succ_atom (hfuel : 5 * ts.length + 1 ≤ fuel + 1) :
    i.Agrees plain (Cursor.atom (fuel + 1)) pos (Parser.atom i.eof ts) := by
  rw [Cursor.atom]
  refine agrees_step (at_span h) (agrees_step (at_peek h) ?_)
  cases ts with
  | nil =>
    rw [Parser.atom]
    exact at_unexpected h _
  | cons t ts =>
    rw [List.length_cons] at hfuel
    split
    next heq =>
      have ht : t.token = .int := token_of_ahead heq
      simp only [Parser.atom, ht]
      refine agrees_step (at_text h.mem) ?_
      cases Word.ofDigits? t.text with
      | none => exact at_fail h _
      | some n => exact agrees_step (at_advance h) ⟨pos + 1, h.tail, rfl⟩
    next heq =>
      have ht : t.token = .str := token_of_ahead heq
      simp only [Parser.atom, ht]
      refine agrees_step (at_advance h) (agrees_step (at_text h.mem) ?_)
      exact ⟨pos + 1, h.tail, rfl⟩
    next heq =>
      have ht : t.token = .kwTrue := token_of_ahead heq
      simp only [Parser.atom, ht]
      exact agrees_step (at_advance h) ⟨pos + 1, h.tail, rfl⟩
    next heq =>
      have ht : t.token = .kwFalse := token_of_ahead heq
      simp only [Parser.atom, ht]
      exact agrees_step (at_advance h) ⟨pos + 1, h.tail, rfl⟩
    next heq =>
      have ht : t.token = .lparen := token_of_ahead heq
      have hinner := hwith.expr 0 h.tail (by omega)
      simp only [Parser.atom, ht]
      refine agrees_step (at_advance h) (agrees_bind hinner fun e _ pos' hleft => ?_)
      refine agrees_bind (agrees_expect hleft .rparen .closing) ?_
      exact fun close _ last hlast => ⟨last, hlast, rfl⟩
    next heq =>
      have ht : t.token = .ident := token_of_ahead heq
      simp only [Parser.atom, ht]
      refine agrees_bind (agrees_path h (by rw [List.length_cons]; omega)) ?_
      rintro ⟨⟨segments, span⟩, mid, hm⟩ hpath pos' hleft
      have hstart := (Parser.reads_path ⟨hm, hpath⟩).start_path
      dsimp only [plain]
      -- a call is a single name with a parenthesis behind it
      by_cases hone : ∃ name, segments = [name]
      · obtain ⟨name, rfl⟩ := hone
        cases mid with
        | nil => exact agrees_step (at_eat_of_ne hleft (ahead_nil_ne _)) ⟨pos', hleft, rfl⟩
        | cons u rest =>
          rw [List.length_cons, List.length_cons] at hm
          dsimp only
          by_cases hu : u.token = .lparen
          · have hargs := hwith.args hleft.tail (by omega)
            rw [if_pos hu]
            refine agrees_step (at_eat hleft hu) (agrees_bind hargs ?_)
            rintro ⟨⟨es, stop⟩, rest', hm'⟩ hargs last hlast
            obtain ⟨inner, close, rfl, rfl⟩ :=
              Reads.last_args (Parser.reads_of_readsAs ⟨hm', hargs⟩)
            refine agrees_step (at_stopBefore hleft.tail hlast) ⟨last, hlast, ?_⟩
            rw [at_pure, hstart, spanOf]
            rfl
          · rw [if_neg hu]
            refine agrees_step (at_eat_of_ne hleft (mt token_of_ahead hu)) ?_
            exact ⟨pos', hleft, rfl⟩
      · split
        next => exact absurd ⟨_, rfl⟩ hone
        next =>
          split
          next => exact absurd ⟨_, rfl⟩ hone
          next => exact ⟨pos', hleft, rfl⟩
    next hint hstr htrue hfalse hparen hident =>
      rw [Parser.atom_other (mt (congrArg some) hint) (mt (congrArg some) hstr)
        (mt (congrArg some) htrue) (mt (congrArg some) hfalse) (mt (congrArg some) hparen)
        (mt (congrArg some) hident)]
      exact at_unexpected h _

theorem succ_args (hfuel : 5 * ts.length + 5 ≤ fuel + 1) :
    i.Agrees values (Cursor.args (fuel + 1)) pos (Parser.args i.eof ts) := by
  have hsome := hwith.argsFrom h (by omega)
  rw [Cursor.args]
  cases ts with
  | nil =>
    rw [Parser.argsFrom, Parser.expr_nil] at hsome
    rw [Parser.args]
    exact agrees_step (at_eat_of_ne h (ahead_nil_ne _)) hsome
  | cons t ts =>
    by_cases ht : t.token = .rparen
    · rw [Parser.args, if_pos ht]
      exact agrees_step (at_eat h ht) ⟨pos + 1, h.tail, rfl⟩
    · rw [Parser.args, if_neg ht]
      exact agrees_step (at_eat_of_ne h (mt token_of_ahead ht)) hsome

theorem succ_argsFrom (hfuel : 5 * ts.length + 4 ≤ fuel + 1) :
    i.Agrees values (Cursor.argsFrom (fuel + 1)) pos (Parser.argsFrom i.eof ts) := by
  rw [Parser.argsFrom, Cursor.argsFrom]
  refine agrees_step at_get (agrees_bind (hwith.expr 0 h (by omega)) ?_)
  rintro ⟨e, mid, hm⟩ - pos' hleft
  have hmoved := h.lt_of_shorter hleft hm
  cases mid with
  | nil =>
    refine agrees_step (at_eat_of_ne hleft (ahead_nil_ne _)) ?_
    exact agrees_error (at_expect_of_ne hleft (ahead_nil_ne _) _)
  | cons t rest =>
    rw [List.length_cons] at hm
    dsimp only [plain]
    by_cases hcomma : t.token = .comma
    · have hmore := hwith.argsFrom hleft.tail (by omega)
      rw [if_pos hcomma]
      refine agrees_step (at_eat hleft hcomma) (agrees_step (at_progress (by omega)) ?_)
      refine agrees_bind hmore ?_
      exact fun c _ last hlast => ⟨last, hlast, rfl⟩
    · rw [if_neg hcomma]
      refine agrees_step (at_eat_of_ne hleft (mt token_of_ahead hcomma)) ?_
      by_cases hclose : t.token = .rparen
      · rw [if_pos hclose]
        refine agrees_step (at_expect hleft hclose _) (agrees_step (at_progress (by omega)) ?_)
        exact ⟨_, hleft.tail, rfl⟩
      · rw [if_neg hclose]
        exact agrees_error (at_expect_of_ne hleft (mt token_of_ahead hclose) _)

end AgreesWith

theorem agreesWith (i : Input) (fuel : Nat) : i.AgreesWith fuel := by
  induction fuel with
  | zero =>
    constructor <;> intros <;> contradiction
  | succ fuel ih =>
    constructor
    case expr => exact fun floor _ _ h hfuel => ih.succ_expr h hfuel floor
    case operators => exact fun floor lhs _ _ h hfuel => ih.succ_operators h hfuel floor lhs
    case unary => exact fun h hfuel => ih.succ_unary h hfuel
    case atom => exact fun h hfuel => ih.succ_atom h hfuel
    case args => exact fun h hfuel => ih.succ_args h hfuel
    case argsFrom => exact fun h hfuel => ih.succ_argsFrom h hfuel

variable {fuel : Nat}

theorem agrees_stmtKind (h : i.Left pos ts) (hfuel : 5 * ts.length + 3 ≤ fuel) :
    i.Agrees (fun x => (x.1.kind, x.2.1)) (stmtKind fuel) pos (Parser.stmt i.eof ts) := by
  have hexpr := (i.agreesWith fuel).expr 0 h hfuel
  unfold Parser.stmt
  rw [stmtKind]
  refine agrees_step (at_peek h) ?_
  cases ts with
  | nil =>
    rw [Parser.expr_nil] at hexpr
    exact agrees_error hexpr
  | cons t ts =>
    rw [List.length_cons] at hfuel
    dsimp only
    split
    next heq =>
      have ht : t.token = .kwLet := token_of_ahead heq
      simp only [ht]
      refine agrees_step (at_advance h) (agrees_bind (agrees_expect h.tail .ident .bindingName) ?_)
      rintro ⟨n, _, hm⟩ hn pos' hleft
      obtain ⟨rfl, -⟩ := Parser.gives_expect.1 ⟨hm, hn⟩
      refine agrees_step (at_text h.tail.mem) (agrees_bind (agrees_expect hleft .assign .assign) ?_)
      rintro ⟨a, mid, hm'⟩ - pos'' hleft'
      have hmid : 5 * mid.length + 3 ≤ fuel := by
        dsimp only at hm'
        rw [List.length_cons] at hfuel
        omega
      refine agrees_bind ((i.agreesWith fuel).expr 0 hleft' hmid) ?_
      exact fun e _ last hlast => ⟨last, hlast, rfl⟩
    next heq =>
      have ht : t.token = .kwUse := token_of_ahead heq
      simp only [ht]
      refine agrees_step (at_advance h) (agrees_bind (agrees_path h.tail (by omega)) ?_)
      exact fun p _ pos' hleft => ⟨pos', hleft, rfl⟩
    next hlet huse =>
      split
      next ht => exact absurd (congrArg some ht) hlet
      next ht => exact absurd (congrArg some ht) huse
      next =>
        refine agrees_bind hexpr ?_
        exact fun e _ pos' hleft => ⟨pos', hleft, rfl⟩

theorem agrees_stmt (h : i.Left pos ts) (hfuel : 5 * ts.length + 3 ≤ fuel) :
    i.Agrees plain (stmt fuel) pos (Parser.stmt i.eof ts) := by
  have hkind := agrees_stmtKind h hfuel
  rw [stmt]
  refine agrees_step (at_span h) ?_
  cases hs : Parser.stmt i.eof ts with
  | error e =>
    rw [hs] at hkind
    exact agrees_error hkind
  | ok c =>
    obtain ⟨s, rest, hm⟩ := c
    rw [hs] at hkind
    obtain ⟨pos', hleft, hkind⟩ := hkind
    have hread := (Parser.readsStmt_iff i.eof).2 ⟨hm, hs⟩
    have hstart : (i.spanOf ts).start = s.span.start := by cases hread <;> rfl
    rw [hstart]
    obtain ⟨taken, rfl, hspells, hopen⟩ := hread.spelled
    refine agrees_step hkind (agrees_step (at_lastStop h hleft hspells.stops _) ?_)
    refine ⟨pos', hleft, ?_⟩
    rw [at_pure, ← hopen]
    rfl

theorem agrees_stmts (h : i.Left pos ts) (hfuel : 5 * ts.length + 4 ≤ fuel) :
    i.Agrees (fun script => (script, [])) (stmts fuel) pos (Parser.stmts i.eof ts) := by
  induction fuel generalizing ts pos with
  | zero => cases hfuel
  | succ fuel ih =>
    rw [stmts]
    refine agrees_step at_get (agrees_step (at_peek h) ?_)
    cases ts with
    | nil =>
      rw [Parser.stmts]
      exact ⟨pos, h, rfl⟩
    | cons t ts =>
      have hstmt := agrees_stmt h (Nat.le_of_succ_le_succ hfuel)
      rw [List.length_cons] at hfuel
      rw [Parser.stmts]
      by_cases ht : t.token = .semi
      · have hmore := ih h.tail (by omega)
        rw [if_pos ht]
        exact agrees_step (at_eat h ht) (agrees_step (at_progress (by omega)) hmore)
      · rw [if_neg ht]
        refine agrees_step (at_eat_of_ne h (mt token_of_ahead ht)) (agrees_bind hstmt ?_)
        rintro ⟨s, mid, hm⟩ hs pos' hleft
        have hmoved := h.lt_of_shorter hleft hm
        obtain ⟨-, -, -, hopen⟩ := ((Parser.readsStmt_iff i.eof).2 ⟨hm, hs⟩).spelled
        rw [List.length_cons] at hm
        cases mid with
        | nil =>
          have hleft : i.Left pos' [] := hleft
          have hend := ih hleft (by rw [List.length_nil]; omega)
          rw [Parser.stmts] at hend
          obtain ⟨last, hlast, hend⟩ := hend
          refine agrees_step (at_eat_of_ne hleft (ahead_nil_ne _)) (agrees_step (at_peek hleft) ?_)
          refine agrees_step (at_progress hmoved) (agrees_step hend ⟨last, hlast, ?_⟩)
          rw [at_pure, ← hopen]
          rfl
        | cons u rest =>
          rw [List.length_cons] at hm
          dsimp only [plain]
          by_cases hu : u.token = .semi
          · have hmore := ih hleft.tail (by omega)
            rw [if_pos hu]
            refine agrees_step (at_eat hleft hu) (agrees_step (at_peek hleft.tail) ?_)
            refine agrees_step (at_progress (by omega)) (agrees_bind hmore ?_)
            exact fun more _ last hlast => ⟨last, hlast, rfl⟩
          · have hne : ahead? (u :: rest) ≠ some .semi := mt token_of_ahead hu
            rw [if_neg hu]
            refine agrees_step (at_eat_of_ne hleft hne) (agrees_step (at_peek hleft) ?_)
            exact at_unexpected hleft _

def ofText (source : List Char) : Input where
  source := source
  tokens := significant (lex source).tokens
  sliced t ht := by
    obtain ⟨rest, hslice, -⟩ := longest_of_mem_tokens (List.mem_of_mem_filter ht)
    exact ⟨rest, hslice⟩

end Input

/-- With enough fuel the reading that checks its moves gives what reading the text does. -/
theorem parse_eq (source : List Char) (spare : Nat) : parse (depth source + spare) source =
    (parseChars source).mapError fun f => .rejected ⟨[f.locate source]⟩ := by
  have hparse : parse (depth source + spare) source =
      ((script (depth source + spare) ((lex source).strays.map (·.span))).at
        (Input.ofText source).tape 0).map (·.1) := rfl
  rw [hparse, parseChars]
  split
  next s strays hs =>
    have hmem : s ∈ (lex source).strays := hs ▸ List.mem_cons_self
    obtain ⟨rest, hslice, -⟩ := longest_of_mem_strays hmem
    rw [hs, List.map_cons, script, at_bind (Input.at_slice hslice),
      at_bind (Input.at_place hslice.isBoundary)]
    rfl
  next hs =>
    have hagrees : (Input.ofText source).Agrees (fun script => (script, []))
        (stmts (depth source + spare)) 0
        (Parser.stmts (Text.byteLength source) (significant (lex source).tokens)) :=
      Input.agrees_stmts ⟨[], rfl, rfl⟩ (by rw [depth]; omega)
    rw [hs, List.map_nil, script]
    cases hr : Parser.stmts (Text.byteLength source) (significant (lex source).tokens) with
    | error f =>
      rw [hr] at hagrees
      have hat : (stmts (depth source + spare)).at (Input.ofText source).tape 0 =
          .error ((Input.ofText source).rejection f) := hagrees
      rw [hat]
      rfl
    | ok script =>
      rw [hr] at hagrees
      obtain ⟨pos, -, hat⟩ := hagrees
      rw [hat]
      rfl

example : Cursor.parse (Cursor.depth "f(1".toList) "f(1".toList =
    .error (.rejected ⟨[⟨⟨1, 4⟩, .missing .commaOrClosing⟩]⟩) := by decide +kernel

end Cursor

/-- Reading a text with every move checked ends, however much fuel it has beyond five for each token
and five more, and no check fails: the position stays within the tokens and is behind the first of
them where the last one taken is looked at, the text is cut at characters only, and each round of a
loop takes a token. What comes of it is the script that is read, or an error with one diagnostic,
which is at a place of the text. -/
theorem parsing_keeps_bounds (source : String) (spare : Nat) :
    (∃ script, parse source = .ok script ∧
      Cursor.parse (Cursor.depth source.toList + spare) source.toList = .ok script) ∨
    ∃ d offset, parse source = .error ⟨[d]⟩ ∧
      Cursor.parse (Cursor.depth source.toList + spare) source.toList =
        .error (.rejected ⟨[d]⟩) ∧
      Text.IsBoundary source.toList offset ∧
      d.position = .ofOffset source.toList offset ∧ d.position.LiesIn source.toList := by
  rw [Cursor.parse_eq, parse]
  cases hp : parseChars source.toList with
  | ok script => exact .inl ⟨script, rfl, rfl⟩
  | error f =>
    have hoffset : Text.IsBoundary source.toList f.offset := by
      obtain hend | ⟨before, c, after, hsplit, -, hat⟩ := standsAt_of_parseChars hp
      · exact ⟨source.toList, [], (List.append_nil _).symm, hend.symm⟩
      · exact ⟨before, c :: after, hsplit, hat.symm⟩
    exact .inr ⟨f.locate source.toList, f.offset, rfl, rfl, hoffset, rfl,
      Position.liesIn_ofOffset hoffset⟩

end ScriptSession
