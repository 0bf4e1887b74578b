import Mathlib.Data.List.Induction
import ScriptSession.Proofs.Numeral
import ScriptSession.Proofs.Reading

namespace ScriptSession

/-- The tokens that stand between two operands, each with its operator and its level: an operator of
a higher level binds tighter. -/
inductive BinaryOp.Level : Token → BinaryOp → Nat → Prop
  | or : Level .orOr .or 1
  | and : Level .andAnd .and 2
  | eq : Level .eqEq .eq 3
  | notEq : Level .notEq .notEq 3
  | lt : Level .lt .lt 4
  | ltEq : Level .ltEq .ltEq 4
  | gt : Level .gt .gt 4
  | gtEq : Level .gtEq .gtEq 4
  | add : Level .plus .add 5
  | sub : Level .minus .sub 5
  | mul : Level .star .mul 6
  | div : Level .slash .div 6
  | rem : Level .percent .rem 6

theorem BinaryOp.level_iff {t : Token} {op : BinaryOp} {level : Nat} :
    Level t op level ↔ ofToken? t = some op ∧ op.power = level := by
  constructor
  · intro h
    cases h <;> exact ⟨rfl, rfl⟩
  · rintro ⟨ht, rfl⟩
    unfold ofToken? at ht
    split at ht <;> cases ht <;> constructor

/-- `Groups first items e`: the operand `first` and the operations `items` after it make `e`. -/
inductive Groups : Expr → List (BinaryOp × Expr) → Expr → Prop
  | operand (first : Expr) : Groups first [] first
  | split {first operand l r : Expr} {op : BinaryOp} {left right : List (BinaryOp × Expr)} :
      Groups first left l → Groups operand right r → (∀ p ∈ left, op.power ≤ p.1.power) →
      (∀ p ∈ right, op.power < p.1.power) →
      Groups first (left ++ (op, operand) :: right) (.binary ⟨l.span.start, r.span.stop⟩ op l r)

/-- The parts of expressions, each with what it stands for. -/
inductive Clause
  | path (segments : List String) (span : Span)
  | atom (e : Expr)
  | unary (e : Expr)
  | operations (items : List (BinaryOp × Expr))
  | expr (e : Expr)
  | args (es : List Expr)
  | exprs (es : List Expr)

/-- `Spells clause ts`: the tokens `ts`, all of them, spell the clause. -/
inductive Spells : Clause → List Lexeme → Prop
  | segment {n : Lexeme} : n.token = .ident → Spells (.path [n.text] n.span) [n]
  | dotted {n d : Lexeme} {segments : List String} {span : Span} {ts : List Lexeme} :
      n.token = .ident → d.token = .dot → Spells (.path segments span) ts →
      Spells (.path (n.text :: segments) ⟨n.span.start, span.stop⟩) (n :: d :: ts)
  | int {t : Lexeme} {n : Word} :
      t.token = .int → Word.ofDigits? t.text = some n →
      Spells (.atom (.literal t.span (.int n))) [t]
  | str {t : Lexeme} :
      t.token = .str →
      Spells (.atom (.literal t.span (.str (String.ofList (Token.unescape t.text.toList))))) [t]
  | bool {t : Lexeme} {b : Bool} :
      t.token = (if b then .kwTrue else .kwFalse) → Spells (.atom (.literal t.span (.bool b))) [t]
  | paren {t u : Lexeme} {e : Expr} {ts : List Lexeme} :
      t.token = .lparen → Spells (.expr e) ts → u.token = .rparen →
      Spells (.atom (e.withSpan ⟨t.span.start, u.span.stop⟩)) (t :: (ts ++ [u]))
  | call {n t u : Lexeme} {es : List Expr} {ts : List Lexeme} :
      n.token = .ident → t.token = .lparen → Spells (.args es) ts → u.token = .rparen →
      Spells (.atom (.call ⟨n.span.start, u.span.stop⟩ n.text es)) (n :: t :: (ts ++ [u]))
  | name {segments : List String} {span : Span} {ts : List Lexeme} :
      Spells (.path segments span) ts → Spells (.atom (.path span segments)) ts
  | negated {t u : Lexeme} {n : Word} :
      t.token = .minus → u.token = .int → Word.ofNegatedDigits? u.text = some n →
      Spells (.unary (.literal ⟨t.span.start, u.span.stop⟩ (.int n))) [t, u]
  | neg {t u : Lexeme} {e : Expr} {ts : List Lexeme} :
      t.token = .minus → u.token ≠ .int → Spells (.unary e) (u :: ts) →
      Spells (.unary (.unary ⟨t.span.start, e.span.stop⟩ .neg e)) (t :: u :: ts)
  | not {t : Lexeme} {e : Expr} {ts : List Lexeme} :
      t.token = .bang → Spells (.unary e) ts →
      Spells (.unary (.unary ⟨t.span.start, e.span.stop⟩ .not e)) (t :: ts)
  | unsigned {e : Expr} {ts : List Lexeme} : Spells (.atom e) ts → Spells (.unary e) ts
  | done : Spells (.operations []) []
  | operation {t : Lexeme} {op : BinaryOp} {e : Expr} {items : List (BinaryOp × Expr)}
      {ts us : List Lexeme} :
      BinaryOp.ofToken? t.token = some op → Spells (.unary e) ts → Spells (.operations items) us →
      Spells (.operations ((op, e) :: items)) (t :: (ts ++ us))
  | expr {first e : Expr} {items : List (BinaryOp × Expr)} {ts us : List Lexeme} :
      Spells (.unary first) ts → Spells (.operations items) us → Groups first items e →
      Spells (.expr e) (ts ++ us)
  | noArgs : Spells (.args []) []
  | someArgs {es : List Expr} {ts : List Lexeme} : Spells (.exprs es) ts → Spells (.args es) ts
  | lastArg {e : Expr} {ts : List Lexeme} : Spells (.expr e) ts → Spells (.exprs [e]) ts
  | moreArgs {t : Lexeme} {e : Expr} {es : List Expr} {ts us : List Lexeme} :
      Spells (.expr e) ts → t.token = .comma → Spells (.exprs es) us →
      Spells (.exprs (e :: es)) (ts ++ t :: us)

inductive SpellsStmt : StmtKind → Span → List Lexeme → Prop
  | bind {t n a : Lexeme} {e : Expr} {ts : List Lexeme} :
      t.token = .kwLet → n.token = .ident → a.token = .assign → Spells (.expr e) ts →
      SpellsStmt (.bind n.text e) ⟨t.span.start, e.span.stop⟩ (t :: n :: a :: ts)
  | use {t : Lexeme} {segments : List String} {span : Span} {ts : List Lexeme} :
      t.token = .kwUse → Spells (.path segments span) ts →
      SpellsStmt (.use segments) ⟨t.span.start, span.stop⟩ (t :: ts)
  | expr {e : Expr} {ts : List Lexeme} :
      Spells (.expr e) ts → SpellsStmt (.expr e) e.span ts

/-- A script that all of some tokens spell: a statement that a semicolon follows is terminated, and
only the last one may lack it. -/
inductive SpellsScript : Script → List Lexeme → Prop
  | nil : SpellsScript [] []
  | semi {t : Lexeme} {script : Script} {ts : List Lexeme} :
      t.token = .semi → SpellsScript script ts → SpellsScript script (t :: ts)
  | last {kind : StmtKind} {span : Span} {ts : List Lexeme} :
      SpellsStmt kind span ts → SpellsScript [⟨kind, span, false⟩] ts
  | more {t : Lexeme} {kind : StmtKind} {span : Span} {script : Script} {ts rest : List Lexeme} :
      SpellsStmt kind span ts → t.token = .semi → SpellsScript script rest →
      SpellsScript (⟨kind, span, true⟩ :: script) (ts ++ t :: rest)

theorem BinaryOp.power_pos (op : BinaryOp) : 0 < op.power := by
  cases op <;> decide

namespace Groups

variable {first e : Expr} {items : List (BinaryOp × Expr)}

/-- One more operation joins the tree at the weakest operator that it does not bind tighter than. -/
theorem snoc (h : Groups first items e) (op : BinaryOp) (operand : Expr) :
    ∃ e', Groups first (items ++ [(op, operand)]) e' := by
  induction h with
  | operand first =>
    exact ⟨_, .split (.operand first) (.operand operand) (List.forall_mem_nil _)
      (List.forall_mem_nil _)⟩
  | @split first m l r op' left right hl hr hleft hright _ ih =>
    by_cases hop : op.power ≤ op'.power
    · have hweak : ∀ p ∈ left ++ (op', m) :: right, op.power ≤ p.1.power := by
        intro p hp
        obtain hp | hp := List.mem_append.1 hp
        · exact Nat.le_trans hop (hleft p hp)
        · obtain rfl | hp := List.mem_cons.1 hp
          · exact hop
          · exact Nat.le_trans hop (Nat.le_of_lt (hright p hp))
      exact ⟨_, .split (.split hl hr hleft hright) (.operand operand) hweak (List.forall_mem_nil _)⟩
    · obtain ⟨r', hr'⟩ := ih
      have htight : ∀ p ∈ right ++ [(op, operand)], op'.power < p.1.power := by
        intro p hp
        obtain hp | hp := List.mem_append.1 hp
        · exact hright p hp
        · rw [List.mem_singleton.1 hp]
          exact Nat.not_le.1 hop
      have hsplit := split hl hr' hleft htight
      rw [List.append_assoc, List.cons_append]
      exact ⟨_, hsplit⟩

theorem exists_groups (first : Expr) (items : List (BinaryOp × Expr)) :
    ∃ e, Groups first items e := by
  induction items using List.reverseRecOn with
  | nil => exact ⟨first, .operand first⟩
  | append_singleton items p ih =>
    obtain ⟨e, he⟩ := ih
    exact he.snoc p.1 p.2

/-- A row is split at one place only: the weakest operator, of several such ones the last. -/
theorem split_unique {left right left' right' : List (BinaryOp × Expr)} {p p' : BinaryOp × Expr}
    (h : left ++ p :: right = left' ++ p' :: right') (hleft : ∀ q ∈ left, p.1.power ≤ q.1.power)
    (hright : ∀ q ∈ right, p.1.power < q.1.power) (hleft' : ∀ q ∈ left', p'.1.power ≤ q.1.power)
    (hright' : ∀ q ∈ right', p'.1.power < q.1.power) : left = left' ∧ p = p' ∧ right = right' := by
  obtain ⟨mid, rfl, hmid⟩ | ⟨mid, rfl, hmid⟩ := List.append_eq_append_iff.1 h
  · cases mid with
    | nil =>
      cases hmid
      exact ⟨(List.append_nil left).symm, rfl, rfl⟩
    | cons q mid =>
      cases hmid
      have hle := hleft' p (List.mem_append_right _ List.mem_cons_self)
      have hlt := hright p' (List.mem_append_right _ List.mem_cons_self)
      omega
  · cases mid with
    | nil =>
      cases hmid
      exact ⟨List.append_nil left', rfl, rfl⟩
    | cons q mid =>
      cases hmid
      have hle := hleft p' (List.mem_append_right _ List.mem_cons_self)
      have hlt := hright' p (List.mem_append_right _ List.mem_cons_self)
      omega

theorem unique (h : Groups first items e) {e' : Expr} (h' : Groups first items e') : e = e' := by
  induction h generalizing e' with
  | operand first =>
    generalize hnil : ([] : List (BinaryOp × Expr)) = items at h'
    cases h' with
    | operand => rfl
    | split => simp at hnil
  | @split first operand l r op left right _ _ hleft hright ihl ihr =>
    generalize hitems : left ++ (op, operand) :: right = items at h'
    cases h' with
    | operand => simp at hitems
    | split hl' hr' hleft' hright' =>
      obtain ⟨rfl, hp, rfl⟩ := split_unique hitems hleft hright hleft' hright'
      cases hp
      rw [ihl hl', ihr hr']

end Groups

theorem Extends.mono {floor floor' : Nat} {ts : List Lexeme} (h : Extends floor ts)
    (hle : floor' ≤ floor) : Extends floor' ts := by
  obtain ⟨token, op, ha, ho, hlt⟩ := h
  exact ⟨token, op, ha, ho, Nat.lt_of_le_of_lt hle hlt⟩

theorem extends_cons {floor : Nat} {t : Lexeme} {op : BinaryOp}
    (ht : BinaryOp.ofToken? t.token = some op) (ts : List Lexeme) :
    Extends floor (t :: ts) ↔ floor < op.power := by
  constructor
  · rintro ⟨token, op', ha, ho, hlt⟩
    cases ha
    rw [ht] at ho
    cases ho
    exact hlt
  · intro hlt
    exact ⟨t.token, op, rfl, ht, hlt⟩

theorem Spells.operations_append {left right : List (BinaryOp × Expr)} {ts us : List Lexeme}
    (hl : Spells (.operations left) ts) (hr : Spells (.operations right) us) :
    Spells (.operations (left ++ right)) (ts ++ us) := by
  induction left generalizing ts with
  | nil =>
    cases hl
    exact hr
  | cons p left ih =>
    cases hl with
    | operation ht he hl =>
      have hall := Spells.operation ht he (ih hl)
      rwa [List.cons_append, List.cons_append, List.append_assoc]

def operandTokens : List Token :=
  [.int, .str, .kwTrue, .kwFalse, .lparen, .ident]

def Clause.Opens (ts : List Lexeme) : Clause → Prop
  | path _ _ => ∃ t us, ts = t :: us ∧ t.token = .ident
  | atom _ => ∃ t us, ts = t :: us ∧ t.token ∈ operandTokens
  | unary _ | expr _ | exprs _ => ∃ t us, ts = t :: us ∧ t.token ∈ .minus :: .bang :: operandTokens
  | operations _ | args _ => True

theorem Spells.opens {clause : Clause} {ts : List Lexeme} (h : Spells clause ts) :
    clause.Opens ts := by
  induction h with
  | segment hn | dotted hn _ _ _ => exact ⟨_, _, rfl, hn⟩
  | int ht _ | str ht | paren ht _ _ _ | call ht _ _ _ _ =>
    exact ⟨_, _, rfl, by rw [ht]; decide⟩
  | @bool t b ht => exact ⟨_, _, rfl, by cases b <;> rw [ht] <;> decide⟩
  | name _ ih =>
    obtain ⟨t, us, rfl, ht⟩ := ih
    exact ⟨t, us, rfl, by rw [ht]; decide⟩
  | negated ht _ _ | neg ht _ _ _ | not ht _ _ => exact ⟨_, _, rfl, by rw [ht]; decide⟩
  | unsigned _ ih =>
    obtain ⟨t, us, rfl, ht⟩ := ih
    exact ⟨t, us, rfl, List.mem_cons_of_mem _ (List.mem_cons_of_mem _ ht)⟩
  | expr _ _ _ ih _ | moreArgs _ _ _ ih _ =>
    obtain ⟨t, us, rfl, ht⟩ := ih
    exact ⟨t, _, rfl, ht⟩
  | lastArg _ ih => exact ih
  | done | operation | noArgs | someArgs => trivial

theorem Spells.of_int_ahead {e : Expr} {t : Lexeme} {ts : List Lexeme}
    (h : Spells (.unary e) (t :: ts)) (ht : t.token = .int) :
    ts = [] ∧ ∃ n, Word.ofDigits? t.text = some n := by
  cases h with
  | negated hm _ _ | neg hm _ _ | not hm _ =>
    rw [ht] at hm
    cases hm
  | unsigned h =>
    cases h with
    | int _ hn => exact ⟨rfl, _, hn⟩
    | str hs | paren hs _ _ | call hs _ _ _ =>
      rw [ht] at hs
      cases hs
    | @bool _ b hs => cases b <;> rw [ht] at hs <;> cases hs
    | name hp =>
      obtain ⟨u, us, he, hu⟩ := hp.opens
      cases he
      rw [ht] at hu
      cases hu

theorem Spells.of_single {name : String} {span : Span} {ts : List Lexeme}
    (h : Spells (.path [name] span) ts) :
    ∃ n : Lexeme, ts = [n] ∧ name = n.text ∧ span = n.span ∧ n.token = .ident := by
  cases h with
  | segment hn => exact ⟨_, rfl, rfl, rfl, hn⟩
  | dotted _ _ h => cases h

/-- What a reading says: the tokens taken spell the phrase. Operators are read for any operand
before them whose own operators none of those to come would split. -/
def Phrase.Spelled (taken rest : List Lexeme) : Phrase → Prop
  | names stop segments stop' => ∀ n : Lexeme, n.token = .ident → n.span.stop = stop →
    Spells (.path (n.text :: segments) ⟨n.span.start, stop'⟩) (n :: taken)
  | path segments span => Spells (.path segments span) taken
  | expr floor e => ¬ Extends floor rest ∧ ∃ first items us vs, taken = us ++ vs ∧
    Spells (.unary first) us ∧ Spells (.operations items) vs ∧ Groups first items e ∧
    ∀ p ∈ items, floor < p.1.power
  | operators floor lhs e => ¬ Extends floor rest ∧ ∃ items, Spells (.operations items) taken ∧
    (∀ p ∈ items, floor < p.1.power) ∧
    ∀ first before, Groups first before lhs →
      (∀ p ∈ before, ¬ Extends p.1.power (taken ++ rest)) → Groups first (before ++ items) e
  | unary e => Spells (.unary e) taken
  | atom e => Spells (.atom e) taken
  | args es stop => ∃ inner close, taken = inner ++ [close] ∧ close.token = .rparen ∧
    close.span.stop = stop ∧ Spells (.args es) inner
  | argsFrom es stop => ∃ inner close, taken = inner ++ [close] ∧ close.token = .rparen ∧
    close.span.stop = stop ∧ Spells (.exprs es) inner

theorem Reads.spelled {phrase : Phrase} {ts rest : List Lexeme} (h : Reads phrase ts rest) :
    ∃ taken, ts = taken ++ rest ∧ phrase.Spelled taken rest := by
  induction h with
  | nameEnd =>
    refine ⟨[], rfl, fun n hn hstop => ?_⟩
    subst hstop
    exact .segment hn
  | @nameMore _ _ d n _ _ _ hd hn _ ih =>
    obtain ⟨taken, rfl, hs⟩ := ih
    exact ⟨d :: n :: taken, rfl, fun m hm _ => .dotted hm hd (hs n hn rfl)⟩
  | @path n _ _ _ _ hn _ ih =>
    obtain ⟨taken, rfl, hs⟩ := ih
    exact ⟨n :: taken, rfl, hs n hn rfl⟩
  | expr _ _ ihu iho =>
    obtain ⟨us, rfl, hu⟩ := ihu
    obtain ⟨vs, rfl, hend, items, hi, hlt, hgroup⟩ := iho
    refine ⟨us ++ vs, (List.append_assoc ..).symm, hend, _, items, us, vs, rfl, hu, hi, ?_, hlt⟩
    exact hgroup _ [] (.operand _) (List.forall_mem_nil _)
  | operatorEnd hend =>
    refine ⟨[], rfl, hend, [], .done, List.forall_mem_nil _, fun first before hg _ => ?_⟩
    rwa [List.append_nil]
  | @operatorMore floor t op lhs rhs e _ _ rest hop hlt _ _ ihe iho =>
    obtain ⟨front, rfl, hmid, m, right, us, vs, rfl, hu, hr, hgr, htight⟩ := ihe
    obtain ⟨back, rfl, hend, items, hi, hfloor, hgroup⟩ := iho
    refine ⟨t :: (us ++ (vs ++ back)), ?_, hend, (op, m) :: (right ++ items), ?_, ?_, ?_⟩
    · simp only [List.cons_append, List.append_assoc]
    · exact .operation hop hu (hr.operations_append hi)
    · refine List.forall_mem_cons.2 ⟨hlt, List.forall_mem_append.2 ⟨?_, hfloor⟩⟩
      intro p hp
      exact Nat.lt_trans hlt (htight p hp)
    · intro first before hg hbefore
      have hweak : ∀ p ∈ before, op.power ≤ p.1.power := by
        intro p hp
        have hnot := hbefore p hp
        rw [List.cons_append, extends_cons hop] at hnot
        exact Nat.not_lt.1 hnot
      have hwhole := hgroup first (before ++ (op, m) :: right) (hg.split hgr hweak htight) ?_
      · rwa [List.append_assoc, List.cons_append] at hwhole
      · -- what comes after the right operand binds no tighter than its operator
        refine List.forall_mem_append.2 ⟨?_, List.forall_mem_cons.2 ⟨hmid, ?_⟩⟩
        · intro p hp hext
          exact hmid (hext.mono (hweak p hp))
        · intro p hp hext
          exact hmid (hext.mono (Nat.le_of_lt (htight p hp)))
  | @negated t u _ _ ht hu hn => exact ⟨[t, u], rfl, .negated ht hu hn⟩
  | @neg t e _ rest ht hn _ ih =>
    obtain ⟨taken, rfl, hs⟩ := ih
    obtain ⟨u, us, rfl, -⟩ := hs.opens
    refine ⟨t :: u :: us, rfl, .neg ht (fun hu => ?_) hs⟩
    obtain ⟨-, hdigits⟩ := hs.of_int_ahead hu
    obtain ⟨v, hv, hle⟩ := Word.exists_ofDigits?_iff.1 hdigits
    obtain ⟨n, hneg⟩ := Word.exists_ofNegatedDigits?_iff.2 ⟨v, hv, by omega⟩
    exact hn ⟨u, us ++ rest, n, rfl, hu, hneg⟩
  | @not t _ _ _ ht _ ih =>
    obtain ⟨taken, rfl, hs⟩ := ih
    exact ⟨t :: taken, rfl, .not ht hs⟩
  | unsigned _ _ _ ih =>
    obtain ⟨taken, hts, hs⟩ := ih
    exact ⟨taken, hts, .unsigned hs⟩
  | @int t _ _ ht hn => exact ⟨[t], rfl, .int ht hn⟩
  | @str t _ ht => exact ⟨[t], rfl, .str ht⟩
  | @bool t _ _ ht => exact ⟨[t], rfl, .bool ht⟩
  | @paren t u e _ rest ht _ hu ih =>
    obtain ⟨taken, rfl, -, first, items, us, vs, rfl, hf, hi, hg, -⟩ := ih
    refine ⟨t :: (us ++ vs ++ [u]), ?_, .paren ht (.expr hf hi hg) hu⟩
    simp only [List.cons_append, List.append_assoc, List.nil_append]
  | @call t name span es stop _ _ _ _ ht _ ihp iha =>
    obtain ⟨front, rfl, hp⟩ := ihp
    obtain ⟨_, rfl, inner, close, rfl, hclose, rfl, ha⟩ := iha
    obtain ⟨n, rfl, rfl, rfl, hn⟩ := hp.of_single
    refine ⟨n :: t :: (inner ++ [close]), ?_, .call hn ht ha hclose⟩
    simp only [List.cons_append, List.nil_append, List.append_assoc]
  | name _ _ ih =>
    obtain ⟨taken, hts, hs⟩ := ih
    exact ⟨taken, hts, .name hs⟩
  | @argsNone t _ ht => exact ⟨[t], rfl, [], t, rfl, ht, rfl, .noArgs⟩
  | argsSome _ _ ih =>
    obtain ⟨taken, hts, inner, close, htaken, hclose, hstop, hs⟩ := ih
    exact ⟨taken, hts, inner, close, htaken, hclose, hstop, .someArgs hs⟩
  | @argLast t e _ _ _ ht ih =>
    obtain ⟨taken, rfl, -, first, items, us, vs, rfl, hf, hi, hg, -⟩ := ih
    refine ⟨us ++ vs ++ [t], ?_, us ++ vs, t, rfl, ht, rfl, .lastArg (.expr hf hi hg)⟩
    simp only [List.append_assoc, List.cons_append, List.nil_append]
  | @argMore t _ _ _ _ _ _ _ ht _ ihe iha =>
    obtain ⟨_, rfl, -, first, items, us, vs, rfl, hf, hi, hg, -⟩ := ihe
    obtain ⟨_, rfl, inner, close, rfl, hclose, rfl, ha⟩ := iha
    refine ⟨us ++ vs ++ t :: (inner ++ [close]), ?_, us ++ vs ++ t :: inner, close, ?_, hclose, rfl,
      .moreArgs (.expr hf hi hg) ht ha⟩
    · simp only [List.cons_append, List.append_assoc]
    · simp only [List.cons_append, List.append_assoc]

/-- Whether no token stands at the front that would make the operand before it longer. -/
def Parts (rest : List Lexeme) : Prop :=
  ahead? rest ≠ some .dot ∧ ahead? rest ≠ some .lparen

/-- `Row items ts`: the tokens `ts` are the operations, and each operand is read from its own. -/
def Row : List (BinaryOp × Expr) → List Lexeme → Prop
  | [], ts => ts = []
  | (op, operand) :: items, ts => ∃ t us vs, ts = t :: (us ++ vs) ∧
    BinaryOp.ofToken? t.token = some op ∧
    (∀ rest, Parts rest → Reads (.unary operand) (us ++ rest) rest) ∧ Row items vs

theorem Row.split {left right : List (BinaryOp × Expr)} {ts : List Lexeme}
    (h : Row (left ++ right) ts) : ∃ us vs, ts = us ++ vs ∧ Row left us ∧ Row right vs := by
  induction left generalizing ts with
  | nil => exact ⟨[], ts, rfl, rfl, h⟩
  | cons p left ih =>
    obtain ⟨t, us, vs, rfl, ht, hu, hrow⟩ := h
    obtain ⟨ws, xs, rfl, hl, hr⟩ := ih hrow
    refine ⟨t :: (us ++ ws), xs, ?_, ⟨t, us, ws, rfl, ht, hu, hl⟩, hr⟩
    rw [List.cons_append, List.append_assoc]

theorem token_of_ahead {t : Lexeme} {token : Token} {ts : List Lexeme}
    (h : ahead? (t :: ts) = some token) : t.token = token :=
  Option.some.inj h

theorem parts_of_operator {t : Lexeme} {op : BinaryOp} (ht : BinaryOp.ofToken? t.token = some op)
    (ts : List Lexeme) : Parts (t :: ts) := by
  refine ⟨fun ha => ?_, fun ha => ?_⟩
  all_goals
    have htoken := token_of_ahead ha
    rw [htoken] at ht
    cases ht

theorem Row.parts {items : List (BinaryOp × Expr)} {ts rest : List Lexeme} (h : Row items ts)
    (hrest : Parts rest) : Parts (ts ++ rest) := by
  cases items with
  | nil =>
    cases h
    exact hrest
  | cons p items =>
    obtain ⟨t, us, vs, rfl, ht, -⟩ := h
    exact parts_of_operator ht _

/-- The readers climb through a row of operands as the tree groups them, where the operator after
the row would split none of its operators. -/
theorem Groups.climb {first e : Expr} {items : List (BinaryOp × Expr)} (h : Groups first items e)
    {floor : Nat} {whole : Expr} {ts mid rest : List Lexeme} (hrow : Row items ts)
    (hfloor : ∀ p ∈ items, floor < p.1.power) (hparts : Parts mid)
    (hmid : ∀ p ∈ items, ¬ Extends p.1.power mid)
    (hnext : Reads (.operators floor e whole) mid rest) :
    Reads (.operators floor first whole) (ts ++ mid) rest := by
  induction h generalizing floor whole ts mid rest with
  | operand first =>
    cases hrow
    exact hnext
  | @split first operand l r op left right hl hr hleft hright ihl ihr =>
    obtain ⟨front, _, rfl, hrowl, t, us, vs, rfl, ht, hu, hrowr⟩ := hrow.split
    obtain ⟨hfloorl, hfloorr⟩ := List.forall_mem_append.1 hfloor
    obtain ⟨hfloorop, -⟩ := List.forall_mem_cons.1 hfloorr
    obtain ⟨-, hmidr⟩ := List.forall_mem_append.1 hmid
    obtain ⟨hmidop, hmidr⟩ := List.forall_mem_cons.1 hmidr
    have hright : Reads (.expr op.power r) (us ++ (vs ++ mid)) mid :=
      .expr (hu _ (hrowr.parts hparts)) (ihr hrowr hright hparts hmidr (.operatorEnd hmidop))
    have hafter : Reads (.operators floor l whole) (t :: (us ++ (vs ++ mid))) rest :=
      .operatorMore ht hfloorop hright hnext
    have hstop : ∀ p ∈ left, ¬ Extends p.1.power (t :: (us ++ (vs ++ mid))) := by
      intro p hp
      rw [extends_cons ht]
      exact Nat.not_lt.2 (hleft p hp)
    have hwhole := ihl hrowl hfloorl (parts_of_operator ht _) hstop hafter
    rwa [List.append_assoc, List.cons_append, List.append_assoc]

/-- What it is to read a clause from the tokens that spell it, whatever follows them. -/
def Clause.IsRead (ts : List Lexeme) : Clause → Prop
  | path segments span => ∀ rest, ahead? rest ≠ some .dot →
    Reads (.path segments span) (ts ++ rest) rest
  | atom e => ∀ rest, Parts rest → Reads (.atom e) (ts ++ rest) rest
  | unary e => ∀ rest, Parts rest → Reads (.unary e) (ts ++ rest) rest
  | operations items => Row items ts
  | expr e => ∀ rest, Parts rest → ¬ Extends 0 rest → Reads (.expr 0 e) (ts ++ rest) rest
  | args es => ∀ (close : Lexeme) (rest : List Lexeme), close.token = .rparen →
    Reads (.args es close.span.stop) (ts ++ close :: rest) rest
  | exprs es => ∀ (close : Lexeme) (rest : List Lexeme), close.token = .rparen →
    Reads (.argsFrom es close.span.stop) (ts ++ close :: rest) rest

theorem not_extends {floor : Nat} {t : Lexeme} (ht : BinaryOp.ofToken? t.token = none)
    (ts : List Lexeme) : ¬ Extends floor (t :: ts) := by
  rintro ⟨token, op, ha, ho, -⟩
  cases ha
  rw [ht] at ho
  cases ho

/-- An expression is read up to the end, or to a token that is no operator and makes no operand
longer. -/
theorem Clause.IsRead.before {e : Expr} {ts rest : List Lexeme} (h : (Clause.expr e).IsRead ts)
    (hrest : ∀ t ∈ rest.head?, t.token ∈ [.rparen, .comma, .semi]) :
    Reads (.expr 0 e) (ts ++ rest) rest := by
  have hnone : ∀ token ∈ [Token.rparen, .comma, .semi], BinaryOp.ofToken? token = none := by decide
  cases rest with
  | nil => exact h [] ⟨nofun, nofun⟩ fun ⟨_, _, ha, _⟩ => nomatch ha
  | cons t rest =>
    have ht := hrest t rfl
    refine h _ ⟨fun ha => ?_, fun ha => ?_⟩ (not_extends (hnone _ ht) rest)
    · rw [token_of_ahead ha] at ht
      exact absurd ht (by decide)
    · rw [token_of_ahead ha] at ht
      exact absurd ht (by decide)

theorem Clause.IsRead.alone {e : Expr} {ts : List Lexeme} (h : (Clause.expr e).IsRead ts) :
    Reads (.expr 0 e) ts [] := by
  have hread : Reads (.expr 0 e) (ts ++ []) [] := h.before nofun
  rwa [List.append_nil] at hread

theorem Clause.IsRead.before_token {e : Expr} {t : Lexeme} {ts : List Lexeme}
    (h : (Clause.expr e).IsRead ts) (ht : t.token ∈ [.rparen, .comma, .semi])
    (rest : List Lexeme) : Reads (.expr 0 e) (ts ++ t :: rest) (t :: rest) := by
  refine h.before fun u hu => ?_
  cases hu
  exact ht

theorem Spells.isRead {clause : Clause} {ts : List Lexeme} (h : Spells clause ts) :
    clause.IsRead ts := by
  induction h with
  | segment hn =>
    intro rest hrest
    exact .path hn (.nameEnd hrest)
  | dotted hn hd h ih =>
    intro rest hrest
    obtain ⟨m, us, rfl, -⟩ := h.opens
    cases ih rest hrest with
    | path hm htail => exact .path hn (.nameMore hd hm htail)
  | int ht hn => exact fun _ _ => .int ht hn
  | str ht => exact fun _ _ => .str ht
  | bool ht => exact fun _ _ => .bool ht
  | @paren t u e ts ht _ hu ih =>
    intro rest _
    have hinner := ih.before_token (t := u) (by rw [hu]; decide) rest
    rw [List.cons_append, List.append_assoc]
    exact .paren ht hinner hu
  | @call n t u es ts hn ht _ hu ih =>
    intro rest _
    have hname : Reads (.path [n.text] n.span) (n :: t :: (ts ++ u :: rest))
        (t :: (ts ++ u :: rest)) :=
      .path hn (.nameEnd fun ha => by rw [token_of_ahead ha] at ht; cases ht)
    have hcall := Reads.call hname ht (ih u rest hu)
    simpa only [List.cons_append, List.append_assoc, List.nil_append] using hcall
  | name _ ih =>
    intro rest hrest
    exact .name (ih rest hrest.1) fun _ => hrest.2
  | negated ht hu hn => exact fun _ _ => .negated ht hu hn
  | @neg t u e ts ht hu _ ih =>
    intro rest hrest
    refine .neg ht ?_ (ih rest hrest)
    rintro ⟨v, vs, n, he, hv, -⟩
    cases he
    exact hu hv
  | not ht _ ih => exact fun rest hrest => .not ht (ih rest hrest)
  | unsigned h ih =>
    intro rest hrest
    obtain ⟨t, us, rfl, ht⟩ := h.opens
    refine .unsigned ?_ ?_ (ih rest hrest)
    · intro hm
      rw [hm] at ht
      exact absurd ht (by decide)
    · intro hb
      rw [hb] at ht
      exact absurd ht (by decide)
  | done => rfl
  | operation ht _ _ ihu iho => exact ⟨_, _, _, rfl, ht, ihu, iho⟩
  | @expr first e items ts us _ _ hg ihu iho =>
    intro rest hrest hend
    have hitems : ∀ p ∈ items, ¬ Extends p.1.power rest := fun p _ hext =>
      hend (hext.mono (Nat.zero_le _))
    have hpower : ∀ p ∈ items, 0 < p.1.power := fun p _ => p.1.power_pos
    rw [List.append_assoc]
    exact .expr (ihu _ (iho.parts hrest)) (hg.climb iho hpower hrest hitems (.operatorEnd hend))
  | noArgs => exact fun close rest hclose => .argsNone hclose
  | @someArgs es ts h ih =>
    intro close rest hclose
    obtain ⟨t, us, rfl, ht⟩ := h.opens
    refine .argsSome (fun hr => ?_) (ih close rest hclose)
    rw [hr] at ht
    exact absurd ht (by decide)
  | lastArg _ ih =>
    intro close rest hclose
    exact .argLast (ih.before_token (by rw [hclose]; decide) _) hclose
  | @moreArgs t e es ts us _ ht _ ihe iha =>
    intro close rest hclose
    rw [List.append_assoc]
    exact .argMore (ihe.before_token (by rw [ht]; decide) _) ht (iha close rest hclose)

theorem Reads.start_expr {floor : Nat} {e : Expr} {t : Lexeme} {ts rest : List Lexeme}
    (h : Reads (.expr floor e) (t :: ts) rest) : e.span.start = t.span.start := by
  obtain ⟨taken, hts, -, hstart, -⟩ := h.startsIn
  cases taken with
  | nil => cases hstart
  | cons u us =>
    cases hts
    exact (Option.some.inj hstart).symm

theorem Reads.spelled_expr {floor : Nat} {e : Expr} {ts rest : List Lexeme}
    (h : Reads (.expr floor e) ts rest) : ∃ taken, ts = taken ++ rest ∧ Spells (.expr e) taken := by
  obtain ⟨_, hts, -, first, items, us, vs, rfl, hf, hi, hg, -⟩ := h.spelled
  exact ⟨us ++ vs, hts, .expr hf hi hg⟩

theorem ReadsStmt.spelled {s : Stmt} {ts rest : List Lexeme} (h : ReadsStmt s ts rest) :
    ∃ taken, ts = taken ++ rest ∧ SpellsStmt s.kind s.span taken ∧ s.terminated = false := by
  cases h with
  | @bind t n a e _ _ ht hn ha he =>
    obtain ⟨taken, rfl, hs⟩ := he.spelled_expr
    exact ⟨t :: n :: a :: taken, rfl, .bind ht hn ha hs, rfl⟩
  | @use t segments span _ _ ht hp =>
    obtain ⟨taken, rfl, hs⟩ := hp.spelled
    exact ⟨t :: taken, rfl, .use ht hs, rfl⟩
  | @expr t e _ _ _ _ he =>
    obtain ⟨taken, hts, hs⟩ := he.spelled_expr
    refine ⟨taken, hts, ?_, rfl⟩
    rw [← he.start_expr]
    exact .expr hs

theorem SpellsStmt.opens {kind : StmtKind} {span : Span} {ts : List Lexeme}
    (h : SpellsStmt kind span ts) : ∃ t us, ts = t :: us ∧ t.token ≠ .semi := by
  cases h with
  | bind ht _ _ _ | use ht _ => exact ⟨_, _, rfl, by rw [ht]; decide⟩
  | expr he =>
    obtain ⟨t, us, rfl, ht⟩ := he.opens
    refine ⟨t, us, rfl, fun hsemi => ?_⟩
    rw [hsemi] at ht
    exact absurd ht (by decide)

theorem SpellsStmt.reads {kind : StmtKind} {span : Span} {ts rest : List Lexeme}
    (h : SpellsStmt kind span ts) (hrest : ∀ t ∈ rest.head?, t.token = .semi) :
    ReadsStmt ⟨kind, span, false⟩ (ts ++ rest) rest := by
  have hends : ∀ t ∈ rest.head?, t.token ∈ [Token.rparen, .comma, .semi] := by
    intro t ht
    rw [hrest t ht]
    decide
  cases h with
  | bind ht hn ha he => exact .bind ht hn ha (he.isRead.before hends)
  | use ht hp =>
    refine .use ht (hp.isRead rest fun ha => ?_)
    obtain ⟨t, hhead, ht⟩ := Option.map_eq_some_iff.1 ha
    rw [hrest t hhead] at ht
    cases ht
  | @expr e _ he =>
    obtain ⟨t, us, rfl, ht⟩ := he.opens
    have hread := he.isRead.before hends
    have hstmt :
        ReadsStmt ⟨.expr e, ⟨t.span.start, e.span.stop⟩, false⟩ (t :: (us ++ rest)) rest := by
      refine .expr (fun hl => ?_) (fun hu => ?_) hread
      · rw [hl] at ht
        exact absurd ht (by decide)
      · rw [hu] at ht
        exact absurd ht (by decide)
    rwa [← hread.start_expr] at hstmt

theorem readsScript_iff_spells {script : Script} {ts : List Lexeme} :
    ReadsScript script ts ↔ SpellsScript script ts := by
  constructor
  · intro h
    induction h with
    | nil => exact .nil
    | semi ht _ ih => exact .semi ht ih
    | @last t s ts _ hs =>
      obtain ⟨taken, hts, hspells, hterm⟩ := hs.spelled
      obtain ⟨kind, span, terminated⟩ := s
      cases hterm
      rw [hts, List.append_nil]
      exact .last hspells
    | @more t u s script ts rest _ hs hu _ ih =>
      obtain ⟨taken, hts, hspells, -⟩ := hs.spelled
      rw [hts]
      exact .more hspells hu ih
  · intro h
    induction h with
    | nil => exact .nil
    | semi ht _ ih => exact .semi ht ih
    | last hs =>
      have hread : ReadsStmt _ (_ ++ []) [] := hs.reads nofun
      rw [List.append_nil] at hread
      obtain ⟨t, us, rfl, ht⟩ := hs.opens
      exact .last ht hread
    | @more t kind span script ts rest hs ht _ ih =>
      have hread : ReadsStmt _ (_ ++ t :: rest) (t :: rest) :=
        hs.reads fun u hu => by cases hu; exact ht
      obtain ⟨u, us, rfl, hu⟩ := hs.opens
      exact .more hu hread ht ih

end ScriptSession
