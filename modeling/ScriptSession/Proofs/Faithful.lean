import ScriptSession.Proofs.Precedence
import ScriptSession.Proofs.Slicing
import ScriptSession.Proofs.Tiling

namespace ScriptSession

/-- `Laid es ts`: each of the expressions is spelled by a part of the tokens, one after another. -/
inductive Laid : List Expr → List Lexeme → Prop
  | nil (ts : List Lexeme) : Laid [] ts
  | cons {gap us ts : List Lexeme} {e : Expr} {es : List Expr} :
      Spells (.expr e) us → Laid es ts → Laid (e :: es) (gap ++ (us ++ ts))

namespace Laid

variable {e : Expr} {es : List Expr} {ts : List Lexeme}

theorem first {us : List Lexeme} (h : Spells (.expr e) us) (hs : Laid es ts) :
    Laid (e :: es) (us ++ ts) :=
  @cons [] us ts e es h hs

theorem single (h : Spells (.expr e) ts) : Laid [e] ts := by
  have hlaid := first h (nil [])
  rwa [List.append_nil] at hlaid

theorem after (h : Laid es ts) (front : List Lexeme) : Laid es (front ++ ts) := by
  cases h with
  | nil => exact nil _
  | cons he hes =>
    rw [← List.append_assoc]
    exact cons he hes

theorem before (h : Laid es ts) (back : List Lexeme) : Laid es (ts ++ back) := by
  induction h with
  | nil => exact nil _
  | cons he _ ih =>
    rw [List.append_assoc, List.append_assoc]
    exact cons he ih

theorem exists_spells (h : Laid es ts) (he : e ∈ es) :
    ∃ front us back, ts = front ++ (us ++ back) ∧ Spells (.expr e) us := by
  induction h with
  | nil => cases he
  | @cons gap us ts _ _ hd _ ih =>
    obtain rfl | he := List.mem_cons.1 he
    · exact ⟨gap, us, ts, rfl, hd⟩
    · obtain ⟨front, vs, back, rfl, hv⟩ := ih he
      refine ⟨gap ++ (us ++ front), vs, back, ?_, hv⟩
      simp only [List.append_assoc]

end Laid

theorem Spells.expr_of_unary {e : Expr} {ts : List Lexeme} (h : Spells (.unary e) ts) :
    Spells (.expr e) ts := by
  have hexpr := Spells.expr h .done (.operand e)
  rwa [List.append_nil] at hexpr

theorem Spells.operations_split {left right : List (BinaryOp × Expr)} {op : BinaryOp}
    {operand : Expr} {ts : List Lexeme}
    (h : Spells (.operations (left ++ (op, operand) :: right)) ts) :
    ∃ us t vs ws, ts = us ++ t :: (vs ++ ws) ∧ Spells (.operations left) us ∧
      Spells (.unary operand) vs ∧ Spells (.operations right) ws := by
  induction left generalizing ts with
  | nil =>
    cases h with
    | operation _ hv hw => exact ⟨[], _, _, _, rfl, .done, hv, hw⟩
  | cons p left ih =>
    cases h with
    | @operation t _ _ _ xs _ ht hx hrest =>
      obtain ⟨us, u, vs, ws, rfl, hu, hv, hw⟩ := ih hrest
      refine ⟨t :: (xs ++ us), u, vs, ws, ?_, .operation ht hx hu, hv, hw⟩
      rw [List.cons_append, List.append_assoc]

/-- Where the operands of a clause are spelled. -/
def Clause.Lays (ts : List Lexeme) : Clause → Prop
  | path _ _ | operations _ => True
  | atom e | unary e | expr e => Laid e.operands ts
  | args es | exprs es => Laid es ts

theorem Spells.lays {clause : Clause} {ts : List Lexeme} (h : Spells clause ts) :
    clause.Lays ts := by
  induction h with
  | segment | dotted | done | operation => trivial
  | int | str | bool | name | negated => exact .nil _
  | @paren t u e ts _ _ _ ih =>
    rw [Clause.Lays, Expr.operands_withSpan]
    exact (ih.before [u]).after [t]
  | @call n t u es ts _ _ _ _ ih => exact (ih.before [u]).after [n, t]
  | @neg t u e ts _ _ h _ => exact (Laid.single h.expr_of_unary).after [t]
  | @not t e ts _ h _ => exact (Laid.single h.expr_of_unary).after [t]
  | unsigned _ ih | someArgs _ ih => exact ih
  | expr hf hi hg ihf =>
    cases hg with
    | operand =>
      cases hi
      rwa [List.append_nil]
    | split hl hr =>
      obtain ⟨us, t, vs, ws, rfl, hu, hv, hw⟩ := hi.operations_split
      have hlaid := (Laid.single (.expr hv hw hr)).after [t]
      rw [← List.append_assoc]
      exact .first (.expr hf hu hl) hlaid
  | noArgs => exact .nil _
  | lastArg h _ => exact .single h
  | @moreArgs t e es ts us h _ _ _ ih => exact .first h (ih.after [t])

/-- What stands in an expression is spelled by a part of its tokens. -/
theorem Spells.of_part {a e : Expr} (ha : Expr.Part a e) {ts : List Lexeme}
    (h : Spells (.expr e) ts) :
    ∃ front us back, ts = front ++ (us ++ back) ∧ Spells (.expr a) us := by
  have hstep {e e' : Expr} {ts : List Lexeme} (h : Spells (.expr e') ts) (he : e ∈ e'.operands)
      (ih : ∀ {ts : List Lexeme}, Spells (.expr e) ts →
        ∃ front us back, ts = front ++ (us ++ back) ∧ Spells (.expr a) us) :
      ∃ front us back, ts = front ++ (us ++ back) ∧ Spells (.expr a) us := by
    have hlaid : Laid e'.operands ts := h.lays
    obtain ⟨front, us, back, rfl, he⟩ := hlaid.exists_spells he
    obtain ⟨front', vs, back', rfl, hv⟩ := ih he
    refine ⟨front ++ front', vs, back' ++ back, ?_, hv⟩
    simp only [List.append_assoc]
  induction ha generalizing ts with
  | self => exact ⟨[], ts, [], (List.append_nil ts).symm, h⟩
  | operand _ ih => exact hstep h List.mem_cons_self ih
  | left _ ih => exact hstep h List.mem_cons_self ih
  | right _ ih => exact hstep h (List.mem_cons_of_mem _ List.mem_cons_self) ih
  | argument he _ ih => exact hstep h he ih

theorem SpellsScript.of_mem {script : Script} {ts : List Lexeme} (h : SpellsScript script ts)
    {s : Stmt} (hs : s ∈ script) {value : Expr} (hv : s.kind.value? = some value) :
    ∃ front us back, ts = front ++ (us ++ back) ∧ Spells (.expr value) us := by
  have hstmt {kind : StmtKind} {span : Span} {ts : List Lexeme} (h : SpellsStmt kind span ts)
      (hv : kind.value? = some value) :
      ∃ front us, ts = front ++ us ∧ Spells (.expr value) us := by
    cases h with
    | @bind t n a _ ts _ _ _ he =>
      cases hv
      exact ⟨[t, n, a], ts, rfl, he⟩
    | use => cases hv
    | expr he =>
      cases hv
      exact ⟨[], _, rfl, he⟩
  induction h with
  | nil => cases hs
  | @semi t _ _ _ _ ih =>
    obtain ⟨front, us, back, rfl, hu⟩ := ih hs
    exact ⟨t :: front, us, back, rfl, hu⟩
  | last h =>
    cases List.mem_singleton.1 hs
    obtain ⟨front, us, rfl, hu⟩ := hstmt h hv
    exact ⟨front, us, [], by rw [List.append_nil], hu⟩
  | @more t kind span script ts rest h _ _ ih =>
    obtain rfl | hs := List.mem_cons.1 hs
    · obtain ⟨front, us, rfl, hu⟩ := hstmt h hv
      exact ⟨front, us, t :: rest, by rw [List.append_assoc], hu⟩
    · obtain ⟨front, us, back, rfl, hu⟩ := ih hs
      refine ⟨ts ++ t :: front, us, back, ?_, hu⟩
      rw [List.append_assoc, List.cons_append]

/-- Where the last of some tokens stops, or `stop` where there are none. -/
def stopOf (stop : Nat) (ts : List Lexeme) : Nat :=
  ts.foldl (fun _ t => t.span.stop) stop

theorem stopOf_append (stop : Nat) (ts us : List Lexeme) :
    stopOf stop (ts ++ us) = stopOf (stopOf stop ts) us :=
  List.foldl_append

theorem Groups.stop {first e : Expr} {items : List (BinaryOp × Expr)} (h : Groups first items e) :
    items.foldl (fun _ p => p.2.span.stop) first.span.stop = e.span.stop := by
  induction h with
  | operand => rfl
  | split _ _ _ _ _ ihr => rwa [List.foldl_append, List.foldl_cons]

def Clause.StopsIn (ts : List Lexeme) : Clause → Prop
  | path _ span => ∀ stop, stopOf stop ts = span.stop
  | atom e | unary e | expr e => ∀ stop, stopOf stop ts = e.span.stop
  | operations items =>
    ∀ stop, stopOf stop ts = items.foldl (fun _ p => p.2.span.stop) stop
  | args _ | exprs _ => True

theorem Spells.stopsIn {clause : Clause} {ts : List Lexeme} (h : Spells clause ts) :
    clause.StopsIn ts := by
  induction h with
  | segment | int | str | bool | negated | done => exact fun _ => rfl
  | @dotted _ t _ _ _ _ _ _ ih | @neg t _ _ _ _ _ _ ih | @not t _ _ _ _ ih =>
    exact fun _ => ih t.span.stop
  | paren =>
    intro stop
    rw [Expr.span_withSpan, ← List.cons_append, stopOf_append]
    rfl
  | call =>
    intro stop
    rw [← List.cons_append, ← List.cons_append, stopOf_append]
    rfl
  | name _ ih | unsigned _ ih => exact ih
  | @operation t op e items ts us _ _ _ ihe ihi =>
    intro stop
    have he : stopOf stop (t :: ts) = e.span.stop := ihe t.span.stop
    rw [← List.cons_append, stopOf_append, ihi, he]
    rfl
  | expr _ _ hg ihf ihi =>
    intro stop
    rw [stopOf_append, ihf, ihi, hg.stop]
  | noArgs | someArgs | lastArg | moreArgs => trivial

theorem Spells.ends {e : Expr} {ts : List Lexeme} (h : Spells (.expr e) ts) :
    (∃ t rest, ts = t :: rest ∧ t.span.start = e.span.start) ∧
      ∃ init l, ts = init ++ [l] ∧ l.span.stop = e.span.stop := by
  obtain ⟨t, rest, rfl, -⟩ := h.opens
  constructor
  · exact ⟨t, rest, rfl, h.isRead.alone.start_expr.symm⟩
  · have hne := List.cons_ne_nil t rest
    refine ⟨_, _, (List.dropLast_concat_getLast hne).symm, ?_⟩
    have hstop := h.stopsIn 0
    rwa [← List.dropLast_concat_getLast hne, stopOf_append] at hstop

def InRow (ts : List Lexeme) : Prop :=
  (∀ t ∈ ts, t.span.start < t.span.stop) ∧
    ts.Pairwise fun t u => t.span.stop ≤ u.span.start

theorem inRow_significant (cs : List Char) : InRow (significant (lex cs).tokens) := by
  obtain ⟨hlt, hpairwise⟩ := pairwise_tokens_lex cs
  have hsub : (significant (lex cs).tokens).Sublist (lex cs).tokens := List.filter_sublist
  exact ⟨fun t ht => hlt t (hsub.subset ht), hpairwise.sublist hsub⟩

theorem InRow.of_append {front ts back : List Lexeme} (h : InRow (front ++ (ts ++ back))) :
    InRow ts := by
  have hsub : ts.Sublist (front ++ (ts ++ back)) :=
    (List.sublist_append_left ts back).trans (List.sublist_append_right front _)
  exact ⟨fun t ht => h.1 t (hsub.subset ht), h.2.sublist hsub⟩

theorem Spells.within {e : Expr} {ts : List Lexeme} (h : Spells (.expr e) ts) (hrow : InRow ts) :
    ∀ t ∈ ts, e.span.start ≤ t.span.start ∧ t.span.stop ≤ e.span.stop := by
  obtain ⟨⟨u, rest, hu, hstart⟩, init, l, hl, hstop⟩ := h.ends
  intro t ht
  constructor
  · rw [hu] at ht hrow
    rw [← hstart]
    obtain rfl | ht := List.mem_cons.1 ht
    · exact Nat.le_refl _
    · have hlt := hrow.1 u List.mem_cons_self
      exact hlt.le.trans ((List.pairwise_cons.1 hrow.2).1 t ht)
  · rw [hl] at ht hrow
    rw [← hstop]
    obtain ht | ht := List.mem_append.1 ht
    · have hlt := hrow.1 l List.mem_concat_self
      exact ((List.pairwise_append.1 hrow.2).2.2 t ht l List.mem_cons_self).trans hlt.le
    · rw [List.mem_singleton.1 ht]

theorem Laid.pairwise {es : List Expr} {ts : List Lexeme} (h : Laid es ts) (hrow : InRow ts) :
    es.Pairwise fun a b => a.span.stop ≤ b.span.start := by
  induction h with
  | nil => exact .nil
  | @cons gap us ts e es he hes ih =>
    have hrest : InRow ts := by
      rw [← List.append_assoc, ← List.append_nil ts] at hrow
      exact hrow.of_append
    refine List.pairwise_cons.2 ⟨fun a ha => ?_, ih hrest⟩
    obtain ⟨front, vs, back, rfl, hv⟩ := hes.exists_spells ha
    obtain ⟨-, init, l, rfl, hstop⟩ := he.ends
    obtain ⟨⟨u, rest, rfl, hstart⟩, -⟩ := hv.ends
    rw [← hstop, ← hstart]
    have hapart := (List.pairwise_append.1 hrow.2).2.1
    exact (List.pairwise_append.1 hapart).2.2 l List.mem_concat_self u (by simp)

theorem Lexeme.move_shift (n : Nat) (t : Lexeme) : (t.shift n).move (· - n) = t := by
  simp only [move, shift, Span.shift_start, Span.shift_stop, Nat.add_sub_cancel]

theorem Reads.unique_expr {floor : Nat} {e e' : Expr} {ts rest rest' : List Lexeme}
    (h : Reads (.expr floor e) ts rest) (h' : Reads (.expr floor e') ts rest') : e = e' := by
  obtain ⟨hlt, he⟩ := (Parser.reads_iff 0).1 h
  obtain ⟨hlt', he'⟩ := (Parser.reads_iff 0).1 h'
  cases he.symm.trans he'
  rfl

theorem Spells.back {e : Expr} {n : Nat} {ts : List Lexeme}
    (h : Spells (.expr e) (ts.map (Lexeme.shift n))) :
    ∃ e', Spells (.expr e') ts ∧ e'.shift n = e := by
  have hread := h.isRead.alone
  have hmove : (ts.map (Lexeme.shift n)).map (Lexeme.move (· - n)) = ts := by
    rw [List.map_map]
    exact (List.map_congr_left fun t _ => t.move_shift n).trans (List.map_id ts)
  have hback : Reads (.expr 0 (e.move (· - n))) ts [] := hmove ▸ hread.move (· - n)
  obtain ⟨taken, hts, hspells⟩ := hback.spelled_expr
  rw [List.append_nil] at hts
  exact ⟨_, hts ▸ hspells, (hback.shift n).unique_expr hread⟩

theorem parse_of_spells {cs : List Char} {e : Expr} (hs : (lex cs).strays = [])
    (h : Spells (.expr e) (significant (lex cs).tokens)) :
    parse (String.ofList cs) = .ok [⟨.expr e, e.span, false⟩] := by
  rw [parse_eq_ok_iff, String.toList_ofList]
  exact ⟨hs, readsScript_iff_spells.2 (.last (.expr h))⟩

/-- The slice of a text from the first token of an expression to the last reads as the
expression. -/
theorem Spells.slice {cs : List Char} {before ts after : List Lexeme} {e : Expr}
    (hs : (lex cs).strays = []) (hts : significant (lex cs).tokens = before ++ (ts ++ after))
    (h : Spells (.expr e) ts) :
    ∃ body rest e', Text.Slice cs e.span body rest ∧
      parse (String.ofList body) = .ok [⟨.expr e', e'.span, false⟩] ∧
      e'.shift e.span.start = e := by
  obtain ⟨⟨t, us, rfl, hstart⟩, init, l, hlast, hstop⟩ := h.ends
  obtain ⟨front, body, rest, hcs, hfront, hbody, hstrays, htokens⟩ :=
    significant_slice hs hts (List.cons_ne_nil t us)
  have hfront := hfront t rfl
  have hbody := hbody l (by rw [hlast, List.getLast?_concat]; rfl)
  rw [← htokens] at h
  obtain ⟨e', hspells, hshift⟩ := h.back
  refine ⟨body, rest, e', ⟨front, hcs, ?_⟩, parse_of_spells hstrays hspells, ?_⟩
  · rw [← hbody, ← hfront, hstart, hstop]
  · rw [← hstart, hfront, hshift]

/-- The slice of a text at the span of an expression in it reads as that expression, as far back as
it starts. What stands in an expression lies within its span, and operands are disjoint and in
order. -/
theorem spans_are_faithful {source : String} {script : Script} (h : parse source = .ok script)
    {s : Stmt} (hs : s ∈ script) {value : Expr} (hv : s.kind.value? = some value) {e : Expr}
    (he : Expr.Part e value) :
    (∃ body rest e', Text.Slice source.toList e.span body rest ∧
      parse (String.ofList body) = .ok [⟨.expr e', e'.span, false⟩] ∧
      e'.shift e.span.start = e) ∧
    (∀ a, Expr.Part a e → e.span.start ≤ a.span.start ∧ a.span.stop ≤ e.span.stop) ∧
    e.operands.Pairwise fun a b => a.span.stop ≤ b.span.start := by
  obtain ⟨hstrays, hscript⟩ := parse_eq_ok_iff.1 h
  obtain ⟨before, us, after, hus, hvalue⟩ := (readsScript_iff_spells.1 hscript).of_mem hs hv
  obtain ⟨front, ts, back, rfl, hspells⟩ := hvalue.of_part he
  have hts : significant (lex source.toList).tokens =
      (before ++ front) ++ (ts ++ (back ++ after)) := by
    simp only [hus, List.append_assoc]
  have hrow : InRow ts := (hts ▸ inRow_significant source.toList).of_append
  have hlaid : Laid e.operands ts := hspells.lays
  refine ⟨hspells.slice hstrays hts, fun a ha => ?_, hlaid.pairwise hrow⟩
  obtain ⟨front', vs, back', rfl, hpart⟩ := hspells.of_part ha
  obtain ⟨⟨t, rest, hfirst, hstart⟩, init, l, hlast, hstop⟩ := hpart.ends
  have hwithin := hspells.within hrow
  rw [← hstart, ← hstop]
  refine ⟨(hwithin t ?_).1, (hwithin l ?_).2⟩
  · rw [hfirst]
    simp
  · rw [hlast]
    simp

/-- A sum in parentheses inside of a product. -/
theorem spans_are_faithful_of_sum_in_product :
    let source := "let y = (x + 2) * -3;"
    let sum : Expr := .binary ⟨8, 15⟩ .add (.path ⟨9, 10⟩ ["x"]) (.literal ⟨13, 14⟩ (.int 2))
    let script : Script :=
      [⟨.bind "y" (.binary ⟨8, 20⟩ .mul sum (.literal ⟨18, 20⟩ (.int (-3)))), ⟨0, 20⟩, true⟩]
    parse source = .ok script ∧
      (∃ body rest e', Text.Slice source.toList ⟨8, 15⟩ body rest ∧
        parse (String.ofList body) = .ok [⟨.expr e', e'.span, false⟩] ∧ e'.shift 8 = sum) ∧
      (∀ a, Expr.Part a sum → 8 ≤ a.span.start ∧ a.span.stop ≤ 15) ∧
      sum.operands.Pairwise fun a b => a.span.stop ≤ b.span.start := by
  intro source sum script
  have hparse : parse source = .ok script := by decide +kernel
  exact ⟨hparse, spans_are_faithful hparse List.mem_cons_self rfl (.left (.self sum))⟩

end ScriptSession
