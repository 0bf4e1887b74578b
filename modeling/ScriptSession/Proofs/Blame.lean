import ScriptSession.Proofs.Lexing
import ScriptSession.Proofs.Reading
import ScriptSession.Proofs.Submission
import ScriptSession.Proofs.Typing

namespace ScriptSession

variable {p : Nat → Prop}

namespace Expr

/-- Whether an expression and all its parts start at offsets with a property. -/
def StartsAt (p : Nat → Prop) (e : Expr) : Prop :=
  ∀ a, Part a e → p a.span.start

theorem StartsAt.self {e : Expr} (h : e.StartsAt p) : p e.span.start :=
  h e (.self e)

theorem startsAt_literal {span : Span} (hs : p span.start) (v : Literal) :
    (literal span v).StartsAt p := by
  intro a ha
  cases ha
  exact hs

theorem startsAt_path {span : Span} (hs : p span.start) (segments : List String) :
    (path span segments).StartsAt p := by
  intro a ha
  cases ha
  exact hs

theorem startsAt_unary_iff {span : Span} {op : UnaryOp} {e : Expr} :
    (unary span op e).StartsAt p ↔ p span.start ∧ e.StartsAt p := by
  constructor
  · exact fun h => ⟨h.self, fun a ha => h a (.operand ha)⟩
  · rintro ⟨hs, he⟩ a ha
    cases ha with
    | self => exact hs
    | operand ha => exact he a ha

theorem startsAt_binary_iff {span : Span} {op : BinaryOp} {l r : Expr} :
    (binary span op l r).StartsAt p ↔ p span.start ∧ l.StartsAt p ∧ r.StartsAt p := by
  constructor
  · exact fun h => ⟨h.self, fun a ha => h a (.left ha), fun a ha => h a (.right ha)⟩
  · rintro ⟨hs, hl, hr⟩ a ha
    cases ha with
    | self => exact hs
    | left ha => exact hl a ha
    | right ha => exact hr a ha

theorem startsAt_call_iff {span : Span} {name : String} {args : List Expr} :
    (call span name args).StartsAt p ↔ p span.start ∧ ∀ e ∈ args, e.StartsAt p := by
  constructor
  · exact fun h => ⟨h.self, fun e he a ha => h a (.argument he ha)⟩
  · rintro ⟨hs, hargs⟩ a ha
    cases ha with
    | self => exact hs
    | argument he ha => exact hargs _ he a ha

/-- Only an expression itself starts elsewhere where its span is widened. -/
theorem StartsAt.withSpan {e : Expr} (h : e.StartsAt p) {span : Span} (hs : p span.start) :
    (e.withSpan span).StartsAt p := by
  cases e with
  | literal => exact startsAt_literal hs _
  | path => exact startsAt_path hs _
  | unary => exact startsAt_unary_iff.2 ⟨hs, (startsAt_unary_iff.1 h).2⟩
  | binary => exact startsAt_binary_iff.2 ⟨hs, (startsAt_binary_iff.1 h).2⟩
  | call => exact startsAt_call_iff.2 ⟨hs, (startsAt_call_iff.1 h).2⟩

end Expr

/-- Whether what a statement evaluates, and the statement itself, start at such offsets. -/
def Stmt.StartsAt (p : Nat → Prop) (s : Stmt) : Prop :=
  p s.span.start ∧ ∀ e ∈ s.kind.value?, e.StartsAt p

/-- Whether a phrase and its parts start at offsets with a property; what is read after an operand
is so only if the operand is. -/
def Phrase.StartsAt (p : Nat → Prop) : Phrase → Prop
  | names .. => True
  | path _ span => p span.start
  | expr _ e | unary e | atom e => e.StartsAt p
  | operators _ lhs e => lhs.StartsAt p → e.StartsAt p
  | args es _ | argsFrom es _ => ∀ e ∈ es, e.StartsAt p

theorem Reads.subset {phrase : Phrase} {ts rest : List Lexeme} (h : Reads phrase ts rest) :
    rest ⊆ ts := by
  obtain ⟨taken, rfl, -⟩ := h.startsIn
  exact List.subset_append_right taken rest

theorem Reads.startsAt {phrase : Phrase} {ts rest : List Lexeme} (h : Reads phrase ts rest) :
    (∀ t ∈ ts, p t.span.start) → phrase.StartsAt p := by
  induction h with
  | nameEnd | nameMore => exact fun _ => trivial
  | path => exact fun hts => hts _ List.mem_cons_self
  | expr hu _ ihu iho => exact fun hts => iho (fun t ht => hts t (hu.subset ht)) (ihu hts)
  | operatorEnd => exact fun _ => id
  | operatorMore _ _ he _ ihe iho =>
    intro hts hlhs
    have hrest := (List.forall_mem_cons.1 hts).2
    exact iho (fun t ht => hrest t (he.subset ht))
      (Expr.startsAt_binary_iff.2 ⟨hlhs.self, hlhs, ihe hrest⟩)
  | negated =>
    intro hts
    apply Expr.startsAt_literal
    exact hts _ List.mem_cons_self
  | neg _ _ _ ih | not _ _ ih =>
    intro hts
    obtain ⟨ht, hrest⟩ := List.forall_mem_cons.1 hts
    exact Expr.startsAt_unary_iff.2 ⟨ht, ih hrest⟩
  | unsigned _ _ _ ih | argsSome _ _ ih => exact ih
  | int | str | bool => exact fun hts => Expr.startsAt_literal (hts _ List.mem_cons_self) _
  | paren _ _ _ ih =>
    intro hts
    obtain ⟨ht, hrest⟩ := List.forall_mem_cons.1 hts
    exact Expr.StartsAt.withSpan (ih hrest) ht
  | call hp _ _ ihp iha =>
    intro hts
    refine Expr.startsAt_call_iff.2 ⟨ihp hts, iha fun t ht => hts t (hp.subset ?_)⟩
    exact List.mem_cons_of_mem _ ht
  | name _ _ ih => exact fun hts => Expr.startsAt_path (ih hts) _
  | argsNone => exact fun _ => List.forall_mem_nil _
  | argLast _ _ ih => exact fun hts => List.forall_mem_singleton.2 (ih hts)
  | argMore he _ _ ihe iha =>
    intro hts
    refine List.forall_mem_cons.2 ⟨ihe hts, iha fun t ht => hts t (he.subset ?_)⟩
    exact List.mem_cons_of_mem _ ht

theorem ReadsStmt.startsAt {s : Stmt} {ts rest : List Lexeme} (h : ReadsStmt s ts rest)
    (hts : ∀ t ∈ ts, p t.span.start) : s.StartsAt p ∧ rest ⊆ ts := by
  cases h with
  | bind _ _ _ he =>
    obtain ⟨ht, hrest⟩ := List.forall_mem_cons.1 hts
    have hrest := (List.forall_mem_cons.1 (List.forall_mem_cons.1 hrest).2).2
    refine ⟨⟨ht, ?_⟩, fun t ht => ?_⟩
    · rintro e ⟨⟩
      exact he.startsAt hrest
    · exact List.mem_cons_of_mem _ (List.mem_cons_of_mem _ (List.mem_cons_of_mem _ (he.subset ht)))
  | use _ hp =>
    refine ⟨⟨hts _ List.mem_cons_self, nofun⟩, fun t ht => ?_⟩
    exact List.mem_cons_of_mem _ (hp.subset ht)
  | expr _ _ he =>
    refine ⟨⟨hts _ List.mem_cons_self, ?_⟩, he.subset⟩
    rintro e ⟨⟩
    exact he.startsAt hts

theorem ReadsScript.startsAt {script : Script} {ts : List Lexeme} (h : ReadsScript script ts) :
    (∀ t ∈ ts, p t.span.start) → ∀ s ∈ script, s.StartsAt p := by
  induction h with
  | nil => exact fun _ => List.forall_mem_nil _
  | semi _ _ ih => exact fun hts => ih (List.forall_mem_cons.1 hts).2
  | last _ hs => exact fun hts => List.forall_mem_singleton.2 (hs.startsAt hts).1
  | more _ hs _ _ ih =>
    intro hts
    obtain ⟨hstmt, hrest⟩ := hs.startsAt hts
    refine List.forall_mem_cons.2 ⟨hstmt, ih fun t ht => hts t (hrest ?_)⟩
    exact List.mem_cons_of_mem _ ht

/-- Whether the end of a text and the tokens still to be read stand at offsets with a property. -/
structure Covers (p : Nat → Prop) (eof : Nat) (ts : List Lexeme) : Prop where
  eof : p eof
  starts : ∀ t ∈ ts, p t.span.start

theorem Covers.tail {eof : Nat} {t : Lexeme} {ts : List Lexeme} (h : Covers p eof (t :: ts)) :
    Covers p eof ts :=
  ⟨h.eof, (List.forall_mem_cons.1 h.starts).2⟩

theorem Covers.rest {eof : Nat} {phrase : Phrase} {ts rest : List Lexeme} (h : Covers p eof ts)
    (hread : Reads phrase ts rest) : Covers p eof rest :=
  ⟨h.eof, fun t ht => h.starts t (hread.subset ht)⟩

namespace Parser

variable {α β : Type} {eof : Nat} {ts : List Lexeme}

/-- Whether what a reader complains about stands at an offset with a property. -/
def Blames (p : Nat → Prop) (r : Except Finding α) : Prop :=
  ∀ f, r = .error f → p f.offset

theorem blames_ok (a : α) : Blames p (.ok a : Except Finding α) :=
  nofun

theorem blames_bind {x : Except Finding α} {f : α → Except Finding β} (hx : Blames p x)
    (hf : ∀ a, x = .ok a → Blames p (f a)) : Blames p (x >>= f) := by
  intro e he
  obtain he | ⟨a, ha, he⟩ := Except.bind_eq_error_iff.1 he
  · exact hx e he
  · exact hf a ha e he

theorem blames_complaint (h : Covers p eof ts) (expected : Expected) :
    Blames p (.error (complaint eof expected ts) : Except Finding α) := by
  rintro f ⟨⟩
  cases ts with
  | nil => exact h.eof
  | cons t ts =>
    unfold complaint
    dsimp only
    split <;> exact h.starts t List.mem_cons_self

theorem blames_expect (h : Covers p eof ts) (token : Token) (expected : Expected) :
    Blames p (expect eof token expected ts) := by
  unfold expect
  split
  · split
    · exact blames_ok _
    · exact blames_complaint h expected
  · exact blames_complaint h expected

theorem blames_pathTail (h : Covers p eof ts) (stop : Nat) :
    Blames p (pathTail eof stop ts) := by
  induction stop, ts using Parser.pathTail.induct with
  | case1 stop => exact blames_ok _
  | case2 stop d hd n ts hn ih =>
    rw [pathTail, if_pos hd, if_pos hn]
    exact blames_bind (ih h.tail.tail) fun _ _ => blames_ok _
  | case3 stop d hd n ts hn =>
    rw [pathTail, if_pos hd, if_neg hn]
    exact blames_complaint h.tail _
  | case4 stop d hd =>
    rw [pathTail, if_pos hd]
    exact blames_complaint h.tail _
  | case5 stop d ts hd =>
    unfold pathTail
    rw [if_neg hd]
    exact blames_ok _

theorem blames_path (h : Covers p eof ts) : Blames p (path eof ts) := by
  unfold path
  refine blames_bind (blames_expect h _ _) ?_
  rintro ⟨n, mid, hm⟩ hn
  obtain ⟨rfl, -⟩ := gives_expect.1 ⟨hm, hn⟩
  exact blames_bind (blames_pathTail h.tail _) fun _ _ => blames_ok _

/-- Whether the readers of expressions complain about a token or the end of the text where they are
given enough of some fuel, as in `SoundWith`. -/
structure BlamesWith (p : Nat → Prop) (eof fuel : Nat) : Prop where
  expr (floor : Nat) {ts : List Lexeme} : Covers p eof ts → 5 * ts.length + 3 ≤ fuel →
    Blames p (expr eof floor ts)
  operators (floor : Nat) (lhs : Expr) {ts : List Lexeme} : Covers p eof ts →
    5 * ts.length + 1 ≤ fuel → Blames p (operators eof floor lhs ts)
  unary {ts : List Lexeme} : Covers p eof ts → 5 * ts.length + 2 ≤ fuel → Blames p (unary eof ts)
  atom {ts : List Lexeme} : Covers p eof ts → 5 * ts.length + 1 ≤ fuel → Blames p (atom eof ts)
  args {ts : List Lexeme} : Covers p eof ts → 5 * ts.length + 5 ≤ fuel → Blames p (args eof ts)
  argsFrom {ts : List Lexeme} : Covers p eof ts → 5 * ts.length + 4 ≤ fuel →
    Blames p (argsFrom eof ts)

theorem covers_of_expr {floor : Nat} {e : Expr} {rest : List Lexeme}
    {hr : rest.length < ts.length} (h : Covers p eof ts)
    (he : expr eof floor ts = .ok (e, ⟨rest, hr⟩)) : Covers p eof rest := by
  have hread : ReadsAs eof (.expr floor e) ts rest := ⟨hr, he⟩
  exact h.rest (reads_of_readsAs hread)

namespace BlamesWith

variable {fuel : Nat} (hwith : BlamesWith p eof fuel) (h : Covers p eof ts)

include hwith h

theorem succ_expr (hfuel : 5 * ts.length + 3 ≤ fuel + 1) (floor : Nat) :
    Blames p (Parser.expr eof floor ts) := by
  rw [Parser.expr]
  refine blames_bind (hwith.unary h (by omega)) ?_
  rintro ⟨lhs, mid, hm⟩ hlhs
  have hread : ReadsAs eof (.unary lhs) ts mid := ⟨hm, hlhs⟩
  have hrest := h.rest (reads_of_readsAs hread)
  have hmid : 5 * mid.length + 1 ≤ fuel := by omega
  exact blames_bind (hwith.operators floor lhs hrest hmid) fun _ _ => blames_ok _

theorem succ_operators (hfuel : 5 * ts.length + 1 ≤ fuel + 1) (floor : Nat) (lhs : Expr) :
    Blames p (Parser.operators eof floor lhs ts) := by
  cases ts with
  | nil =>
    rw [Parser.operators]
    exact blames_ok _
  | cons t ts =>
    rw [List.length_cons] at hfuel
    rw [Parser.operators]
    split
    · exact blames_ok _
    next op hop =>
      split
      · exact blames_ok _
      · refine blames_bind (hwith.expr op.power h.tail (by omega)) ?_
        rintro ⟨rhs, mid, hm⟩ hrhs
        have hrest := covers_of_expr h.tail hrhs
        have hmid : 5 * mid.length + 1 ≤ fuel := by omega
        exact blames_bind (hwith.operators floor _ hrest hmid) fun _ _ => blames_ok _

theorem succ_unary (hfuel : 5 * ts.length + 2 ≤ fuel + 1) : Blames p (Parser.unary eof ts) := by
  cases ts with
  | nil =>
    rw [Parser.unary]
    exact blames_complaint h _
  | cons t ts =>
    rw [List.length_cons] at hfuel
    have hoperand := hwith.unary h.tail (by omega)
    rw [Parser.unary]
    split
    · split
      · exact blames_ok _
      · exact blames_bind hoperand fun _ _ => blames_ok _
    · split
      · exact blames_bind hoperand fun _ _ => blames_ok _
      · exact hwith.atom h (by rw [List.length_cons]; omega)

theorem succ_atom (hfuel : 5 * ts.length + 1 ≤ fuel + 1) : Blames p (Parser.atom eof ts) := by
  cases ts with
  | nil =>
    rw [Parser.atom]
    exact blames_complaint h _
  | cons t ts =>
    rw [List.length_cons] at hfuel
    unfold Parser.atom
    dsimp only
    split
    -- an integer
    · split
      · exact blames_ok _
      · rintro f ⟨⟩
        exact h.starts t List.mem_cons_self
    · exact blames_ok _
    · exact blames_ok _
    · exact blames_ok _
    -- an expression in parentheses
    · refine blames_bind (hwith.expr 0 h.tail (by omega)) ?_
      rintro ⟨e, mid, hm⟩ he
      have hrest := covers_of_expr h.tail he
      exact blames_bind (blames_expect hrest _ _) fun _ _ => blames_ok _
    -- a name, and the arguments where a parenthesis comes after it
    · refine blames_bind (blames_path h) ?_
      rintro ⟨⟨segments, span⟩, mid, hm⟩ hpath
      have hrest := h.rest (reads_path ⟨hm, hpath⟩)
      rw [List.length_cons] at hm
      dsimp only
      split
      next name u us _ heq =>
        cases heq
        rw [List.length_cons] at hm
        split
        · exact blames_bind (hwith.args hrest.tail (by omega)) fun _ _ => blames_ok _
        · exact blames_ok _
      · exact blames_ok _
    · exact blames_complaint h _

theorem succ_args (hfuel : 5 * ts.length + 5 ≤ fuel + 1) : Blames p (Parser.args eof ts) := by
  cases ts with
  | nil =>
    rw [Parser.args]
    exact blames_complaint h _
  | cons t ts =>
    rw [Parser.args]
    split
    · exact blames_ok _
    · exact hwith.argsFrom h (by omega)

theorem succ_argsFrom (hfuel : 5 * ts.length + 4 ≤ fuel + 1) :
    Blames p (Parser.argsFrom eof ts) := by
  rw [Parser.argsFrom]
  refine blames_bind (hwith.expr 0 h (by omega)) ?_
  rintro ⟨e, mid, hm⟩ he
  have hrest := covers_of_expr h he
  dsimp only
  split
  next t mid hm heq =>
    cases heq
    rw [List.length_cons] at hm
    split
    · exact blames_bind (hwith.argsFrom hrest.tail (by omega)) fun _ _ => blames_ok _
    · split
      · exact blames_ok _
      · exact blames_complaint hrest _
  next heq =>
    cases heq
    exact blames_complaint hrest _

end BlamesWith

theorem blamesWith (p : Nat → Prop) (eof fuel : Nat) : BlamesWith p eof fuel := by
  induction fuel with
  | zero => constructor <;> intros <;> contradiction
  | succ fuel ih =>
    constructor
    case expr => exact fun floor _ h hfuel => ih.succ_expr h hfuel floor
    case operators => exact fun floor lhs _ h hfuel => ih.succ_operators h hfuel floor lhs
    case unary => exact fun h hfuel => ih.succ_unary h hfuel
    case atom => exact fun h hfuel => ih.succ_atom h hfuel
    case args => exact fun h hfuel => ih.succ_args h hfuel
    case argsFrom => exact fun h hfuel => ih.succ_argsFrom h hfuel

theorem blames_expr (h : Covers p eof ts) (floor : Nat) : Blames p (expr eof floor ts) :=
  (blamesWith p eof _).expr floor h (Nat.le_refl _)

theorem blames_stmt (h : Covers p eof ts) : Blames p (stmt eof ts) := by
  unfold stmt
  split
  · exact blames_complaint h _
  next t ts =>
    split
    · refine blames_bind (blames_expect h.tail _ _) ?_
      rintro ⟨n, _, hm⟩ hn
      obtain ⟨rfl, -⟩ := gives_expect.1 ⟨hm, hn⟩
      refine blames_bind (blames_expect h.tail.tail _ _) ?_
      rintro ⟨a, _, hm⟩ ha
      obtain ⟨rfl, -⟩ := gives_expect.1 ⟨hm, ha⟩
      exact blames_bind (blames_expr h.tail.tail.tail 0) fun _ _ => blames_ok _
    · exact blames_bind (blames_path h.tail) fun _ _ => blames_ok _
    · exact blames_bind (blames_expr h 0) fun _ _ => blames_ok _

theorem blames_stmts (h : Covers p eof ts) : Blames p (stmts eof ts) := by
  induction ts using stmts.induct with
  | case1 =>
    rw [stmts]
    exact blames_ok _
  | case2 t ts ht ih =>
    rw [stmts, if_pos ht]
    exact ih h.tail
  | case3 t ts ht ih =>
    rw [stmts, if_neg ht]
    refine blames_bind (blames_stmt h) ?_
    rintro ⟨s, mid, hm⟩ hs
    have hrest : Covers p eof mid :=
      ⟨h.eof, fun u hu => h.starts u ((((readsStmt_iff eof).2 ⟨hm, hs⟩).startsAt h.starts).2 hu)⟩
    dsimp only
    split
    · exact blames_ok _
    next u rest' hu' heq =>
      cases heq
      split
      · exact blames_bind (ih u rest' hm hrest.tail) fun _ _ => blames_ok _
      · exact blames_complaint hrest _

end Parser

def Findings.StandAt (p : Nat → Prop) (fs : Findings) : Prop :=
  ∀ f ∈ fs.toList, p f.offset

namespace Findings

theorem standAt_none : none.StandAt p := List.forall_mem_nil _

theorem standAt_one {offset : Nat} (h : p offset) (problem : Problem) :
    (one ⟨offset, problem⟩).StandAt p := List.forall_mem_singleton.2 h

theorem StandAt.append {a b : Findings} (ha : a.StandAt p) (hb : b.StandAt p) :
    (a ++ b).StandAt p := by
  unfold StandAt
  rw [toList_append]
  exact List.forall_mem_append.2 ⟨ha, hb⟩

end Findings

namespace Inference

variable {offset : Nat} {i j : Inference}

theorem standAt_unary (h : p offset) (op : UnaryOp) (hi : i.findings.StandAt p) :
    (unary offset op i).findings.StandAt p := by
  unfold unary
  split
  · exact hi
  · split
    · exact hi
    · exact hi.append (Findings.standAt_one h _)

theorem standAt_binary (h : p offset) (op : BinaryOp) (hi : i.findings.StandAt p)
    (hj : j.findings.StandAt p) : (binary offset op i j).findings.StandAt p := by
  unfold binary
  split
  · split
    · exact hi.append hj
    · exact (hi.append hj).append (Findings.standAt_one h _)
  · exact hi.append hj

theorem standAt_call (h : p offset) (name : String) {args : List (Nat × Inference)}
    (hargs : ∀ arg ∈ args, p arg.1 ∧ arg.2.findings.StandAt p) :
    (call offset name args).findings.StandAt p := by
  have hall : (args.foldl (fun (fs : Findings) arg => fs ++ arg.2.findings) .none).StandAt p := by
    unfold Findings.StandAt
    rw [toList_foldl_findings, Findings.toList_none, List.nil_append]
    intro f hf
    obtain ⟨arg, harg, hf⟩ := List.mem_flatMap.1 hf
    exact (hargs arg harg).2 f hf
  unfold call
  split
  · exact hall.append (Findings.standAt_one h _)
  · split
    · exact hall.append (Findings.standAt_one h _)
    · refine hall.append ?_
      unfold Findings.StandAt
      rw [Findings.toList_ofList]
      intro f hf
      obtain ⟨⟨param, start, arg⟩, harg, hf⟩ := List.mem_flatMap.1 hf
      have hstart := (hargs _ (List.of_mem_zip harg).2).1
      dsimp only [argument] at hf
      split at hf
      · split at hf
        · exact absurd hf List.not_mem_nil
        · rw [List.mem_singleton.1 hf]
          exact hstart
      · exact absurd hf List.not_mem_nil

end Inference

theorem Scope.standAt_infer (s : Scope) {e : Expr} (h : e.StartsAt p) :
    (s.infer e).findings.StandAt p := by
  induction e with
  | literal => exact Findings.standAt_none
  | path span segments =>
    rw [infer]
    split
    · exact Findings.standAt_none
    · exact Findings.standAt_none
    · exact Findings.standAt_one h.self _
  | unary span op e ih =>
    rw [infer]
    exact Inference.standAt_unary h.self op (ih (Expr.startsAt_unary_iff.1 h).2)
  | binary span op l r ihl ihr =>
    obtain ⟨hs, hl, hr⟩ := Expr.startsAt_binary_iff.1 h
    rw [infer]
    exact Inference.standAt_binary hs op (ihl hl) (ihr hr)
  | call span name args ih =>
    obtain ⟨hs, hargs⟩ := Expr.startsAt_call_iff.1 h
    rw [infer, inferAll_eq]
    refine Inference.standAt_call hs name (List.forall_mem_map.2 fun e he => ?_)
    exact ⟨(hargs e he).self, ih e he (hargs e he)⟩

theorem Checking.standAt_step {c : Checking} (hc : c.findings.StandAt p) {s : Stmt}
    (h : s.StartsAt p) : (c.step s).findings.StandAt p := by
  obtain ⟨hs, hvalue⟩ := h
  unfold step
  split
  next name value hk =>
    rw [hk] at hvalue
    exact hc.append (c.scope.standAt_infer (hvalue value rfl))
  next =>
    dsimp only
    split
    · exact hc
    · exact hc.append (Findings.standAt_one hs _)
  next value hk =>
    rw [hk] at hvalue
    exact hc.append (c.scope.standAt_infer (hvalue value rfl))

theorem Checking.standAt_foldl {c : Checking} (hc : c.findings.StandAt p) {script : Script}
    (h : ∀ s ∈ script, s.StartsAt p) : (script.foldl step c).findings.StandAt p := by
  induction script generalizing c with
  | nil => exact hc
  | cons s rest ih =>
    obtain ⟨hs, hrest⟩ := List.forall_mem_cons.1 h
    exact ih (standAt_step hc hs) hrest

theorem standAt_check {scope : Scope} {script : Script} (h : ∀ s ∈ script, s.StartsAt p)
    {findings : List Finding} (hcheck : check scope script = .error findings) :
    ∀ f ∈ findings, p f.offset := by
  have hall : (script.foldl Checking.step (.start scope)).findings.StandAt p :=
    Checking.standAt_foldl Findings.standAt_none h
  unfold check at hcheck
  dsimp only at hcheck
  split at hcheck
  · cases hcheck
  · cases hcheck
    exact hall

namespace Effect

variable {α β : Type}

def FaultsAt (p : Nat → Prop) (x : Effect α) : Prop :=
  ∀ fault, x.result = .error fault → p fault.offset

theorem faultsAt_pure (a : α) : (pure a).FaultsAt p := nofun

theorem faultsAt_fault {offset : Nat} (h : p offset) (kind : FaultKind) :
    (fault offset kind : Effect α).FaultsAt p := by
  rintro f ⟨⟩
  exact h

theorem FaultsAt.bind {x : Effect α} {f : α → Effect β} (hx : x.FaultsAt p)
    (hf : ∀ a, (f a).FaultsAt p) : (x >>= f).FaultsAt p := by
  intro fault h
  change (Effect.bind x f).result = _ at h
  unfold Effect.bind at h
  split at h
  next a ha => exact hf a fault h
  next e he =>
    cases h
    exact hx _ he

theorem faultsAt_word {offset : Nat} (h : p offset) (symbol : String) (n : Option Word) :
    (word offset symbol n).FaultsAt p := by
  cases n with
  | none => exact faultsAt_fault h _
  | some n => exact faultsAt_pure _

end Effect

theorem faultsAt_evalUnary {offset : Nat} (h : p offset) (op : UnaryOp) (v : Value) :
    (evalUnary offset op v).FaultsAt p := by
  unfold evalUnary
  split
  · exact Effect.faultsAt_word h _ _
  · exact Effect.faultsAt_pure _
  · exact Effect.faultsAt_pure _

theorem faultsAt_evalBinary {offset : Nat} (h : p offset) (op : BinaryOp) (l r : Value) :
    (evalBinary offset op l r).FaultsAt p := by
  unfold evalBinary
  split
  all_goals try exact Effect.faultsAt_word h _ _
  all_goals try exact Effect.faultsAt_pure _
  all_goals
    split
    · exact Effect.faultsAt_fault h _
    · exact Effect.faultsAt_word h _ _

theorem faultsAt_evalCall {offset : Nat} (h : p offset) (args : List String) (name : String)
    (values : List Value) : (evalCall args offset name values).FaultsAt p := by
  unfold evalCall
  split
  · exact nofun
  · exact Effect.faultsAt_fault h _
  · exact Effect.faultsAt_pure _
  · exact Effect.faultsAt_pure _
  · exact Effect.faultsAt_pure _
  · split
    · exact Effect.faultsAt_pure _
    · exact Effect.faultsAt_fault h _
  · exact Effect.faultsAt_pure _

theorem faultsAt_eval (f : Frame) {e : Expr} (h : e.StartsAt p) : (eval f e).FaultsAt p := by
  induction e with
  | literal => rw [eval]; exact Effect.faultsAt_pure _
  | path => rw [eval]; exact Effect.faultsAt_pure _
  | unary span op e ih =>
    rw [eval]
    exact (ih (Expr.startsAt_unary_iff.1 h).2).bind fun v => faultsAt_evalUnary h.self op v
  | binary span op l r ihl ihr =>
    obtain ⟨hs, hl, hr⟩ := Expr.startsAt_binary_iff.1 h
    rw [eval]
    refine (ihl hl).bind fun left => ?_
    split
    · exact Effect.faultsAt_pure _
    · exact (ihr hr).bind fun right => faultsAt_evalBinary hs op left right
  | call span name args ih =>
    obtain ⟨hs, hargs⟩ := Expr.startsAt_call_iff.1 h
    have hall : (evalAll f args).FaultsAt p := by
      induction args with
      | nil => rw [evalAll]; exact Effect.faultsAt_pure _
      | cons e es ihes =>
        obtain ⟨he, hes⟩ := List.forall_mem_cons.1 hargs
        obtain ⟨ihe, ihrest⟩ := List.forall_mem_cons.1 ih
        rw [evalAll]
        have hrest := ihes ihrest (Expr.startsAt_call_iff.2 ⟨hs, hes⟩) hes
        exact (ihe he).bind fun v => hrest.bind fun vs => Effect.faultsAt_pure _
    rw [eval]
    exact hall.bind fun values => faultsAt_evalCall hs f.args name values

theorem faultsAt_runStmt (resolutions : Resolutions) (args : List String) (bindings : Bindings)
    {s : Stmt} (h : s.StartsAt p) : (runStmt resolutions args bindings s).FaultsAt p := by
  unfold runStmt
  dsimp only
  split
  next name value hk =>
    have hvalue := h.2 value (by rw [hk]; rfl)
    exact (faultsAt_eval _ hvalue).bind fun v => Effect.faultsAt_pure _
  next => exact Effect.faultsAt_pure _
  next value hk =>
    have hvalue := h.2 value (by rw [hk]; rfl)
    exact (faultsAt_eval _ hvalue).bind fun v => Effect.faultsAt_pure _

theorem faultsAt_runStmts (resolutions : Resolutions) (args : List String) {script : Script}
    (h : ∀ s ∈ script, s.StartsAt p) (progress : Progress) :
    ∀ fault ∈ (runStmts resolutions args progress script).2, p fault.offset := by
  induction script generalizing progress with
  | nil => exact nofun
  | cons s rest ih =>
    obtain ⟨hs, hrest⟩ := List.forall_mem_cons.1 h
    unfold runStmts
    dsimp only
    split
    next => exact ih hrest _
    next fault hfault =>
      rintro f ⟨⟩
      exact faultsAt_runStmt resolutions args progress.bindings hs fault hfault

/-- Whether a character other than a line feed stands at an offset. -/
def Text.StandsAt (cs : List Char) (offset : Nat) : Prop :=
  ∃ before c after, cs = before ++ c :: after ∧ c ≠ '\n' ∧ offset = byteLength before

theorem Lexer.standsAt_of_mem_pieces {offset : Nat} {cs : List Char} {f : Fragment}
    (h : f ∈ pieces offset cs) : ∃ start, Text.StandsAt cs start ∧ f.start = offset + start := by
  induction offset, cs using pieces_induction with
  | nil offset =>
    rw [pieces_nil] at h
    cases h
  | gap offset c cs hc ih =>
    rw [pieces_gap hc] at h
    obtain ⟨_, ⟨before, d, after, rfl, hd, rfl⟩, hstart⟩ := ih h
    refine ⟨_, ⟨c :: before, d, after, rfl, hd, rfl⟩, ?_⟩
    rw [hstart, Text.byteLength_cons, Nat.add_assoc]
  | piece offset c cs hc ih =>
    rw [pieces_cons hc] at h
    obtain rfl | h := List.mem_cons.1 h
    · have hne : c ≠ '\n' := by
        rintro rfl
        cases hc
      exact ⟨0, ⟨[], c, cs, rfl, hne, rfl⟩, rfl⟩
    · obtain ⟨_, ⟨before, d, after, hrest, hd, rfl⟩, hstart⟩ := ih h
      refine ⟨_, ⟨c :: ((munch c cs).2.1 ++ before), d, after, ?_, hd, rfl⟩, ?_⟩
      · rw [List.cons_append, List.append_assoc, ← hrest, munch_append]
      · rw [hstart, Text.byteLength_cons, Text.byteLength_cons, Text.byteLength_append]
        omega

theorem standsAt_of_mem_tokens {cs : List Char} {t : Lexeme} (h : t ∈ (lex cs).tokens) :
    Text.StandsAt cs t.span.start := by
  rw [tokens_lex] at h
  obtain ⟨f, hf, ht⟩ := List.mem_filterMap.1 h
  obtain ⟨start, hstart, heq⟩ := Lexer.standsAt_of_mem_pieces hf
  rwa [Fragment.start_lexeme? ht, heq, Nat.zero_add]

theorem standsAt_of_mem_strays {cs : List Char} {s : Stray} (h : s ∈ (lex cs).strays) :
    Text.StandsAt cs s.span.start := by
  rw [strays_lex] at h
  obtain ⟨f, hf, hs⟩ := List.mem_filterMap.1 h
  obtain ⟨start, hstart, heq⟩ := Lexer.standsAt_of_mem_pieces hf
  rw [Nat.zero_add] at heq
  rw [← heq] at hstart
  unfold Fragment.stray? at hs
  split at hs
  · cases hs
    exact hstart
  · cases hs

theorem standsAt_of_parseChars {source : List Char} {f : Finding}
    (h : parseChars source = .error f) :
    f.offset = Text.byteLength source ∨ Text.StandsAt source f.offset := by
  unfold parseChars at h
  dsimp only at h
  split at h
  next s _ hs =>
    cases h
    exact .inr (standsAt_of_mem_strays (hs ▸ List.mem_cons_self))
  next =>
    let q (n : Nat) : Prop := n = Text.byteLength source ∨ Text.StandsAt source n
    have hcovers : Covers q (Text.byteLength source) (significant (lex source).tokens) :=
      ⟨.inl rfl, fun t ht => .inr (standsAt_of_mem_tokens (List.mem_of_mem_filter ht))⟩
    exact Parser.blames_stmts hcovers f h

theorem startsAt_of_parse {text : String} {script : Script} (h : parse text = .ok script) :
    ∀ s ∈ script, s.StartsAt (Text.StandsAt text.toList) :=
  (parse_eq_ok_iff.1 h).2.startsAt fun _ ht => standsAt_of_mem_tokens (List.mem_of_mem_filter ht)

namespace Engine

variable {files : FileTree} {text : String} {options : Options} {prior : Option EngineState}
  {cancelled : Bool}

theorem conflict_of_loadReferences {paths : List Path} {table : ModuleTable} {e : CompileError}
    (h : loadReferences files table paths = .error (.compile e)) :
    ∃ path loaded, e.diagnostics = [⟨.first, .conflict path loaded⟩] := by
  induction paths generalizing table with
  | nil => cases h
  | cons path paths ih =>
    unfold loadReferences at h
    split at h
    · cases h
    · cases h
      exact ⟨_, _, rfl⟩
    · exact ih h

/-- A diagnostic of a submission is located at a character of its text or at its end, unless it says
that modules conflict. -/
theorem located_of_run {e : CompileError}
    (h : run files text options prior cancelled = .error (.compile e)) {d : Diagnostic}
    (hd : d ∈ e.diagnostics) :
    (∃ path loaded, d = ⟨.first, .conflict path loaded⟩) ∨
      ∃ offset, d.position = .ofOffset text.toList offset ∧
        (offset = Text.byteLength text.toList ∨ Text.StandsAt text.toList offset) := by
  cases cancelled with
  | true => cases h
  | false =>
    obtain h | ⟨modules, -, h⟩ := Except.bind_eq_error_iff.1 h
    · obtain ⟨path, loaded, hconflict⟩ := conflict_of_loadReferences h
      rw [hconflict] at hd
      exact .inl ⟨path, loaded, List.mem_singleton.1 hd⟩
    refine .inr ?_
    obtain h | ⟨script, hparse, h⟩ := Except.bind_eq_error_iff.1 h
    · obtain ⟨_, hparse, he⟩ := Except.mapError_eq_error_iff.1 h
      cases he
      obtain ⟨f, hf, rfl⟩ := Except.mapError_eq_error_iff.1 hparse
      obtain rfl := List.mem_singleton.1 hd
      exact ⟨f.offset, rfl, standsAt_of_parseChars hf⟩
    · obtain h | ⟨_, -, h⟩ := Except.bind_eq_error_iff.1 h
      · obtain ⟨findings, hcheck, he⟩ := Except.mapError_eq_error_iff.1 h
        cases he
        rw [Finding.locateAll_eq] at hd
        obtain ⟨f, hf, rfl⟩ := List.mem_map.1 hd
        have hscript := startsAt_of_parse (Except.mapError_eq_ok_iff.1 hparse)
        exact ⟨f.offset, rfl, .inr (standAt_check hscript hcheck f hf)⟩
      · cases h

theorem located_of_fault {state : EngineState} {printed : String}
    (h : run files text options prior cancelled = .ok (state, printed)) {fault : RuntimeFault}
    (hfault : state.fault = some fault) :
    ∃ offset, fault.position = .ofOffset text.toList offset ∧ Text.StandsAt text.toList offset := by
  obtain ⟨-, modules, script, checked, -, hparse, -, he⟩ := run_eq_ok_iff.1 h
  cases he
  obtain ⟨f, hf, rfl⟩ := Option.map_eq_some_iff.1 hfault
  have hscript := startsAt_of_parse hparse
  exact ⟨f.offset, rfl, faultsAt_runStmts checked.resolutions options.args hscript _ f hf⟩

end Engine
end ScriptSession
