import ScriptSession.Proofs.Grammar
import ScriptSession.Syntax.Outline

namespace ScriptSession

theorem ahead?_append {ts : List Lexeme} (h : ts ≠ []) (more : List Lexeme) :
    ahead? (ts ++ more) = ahead? ts := by
  cases ts with
  | nil => exact absurd rfl h
  | cons t ts => rfl

theorem ahead?_map_move (g : Nat → Nat) (ts : List Lexeme) :
    ahead? (ts.map (Lexeme.move g)) = ahead? ts := by
  cases ts <;> rfl

theorem negatesWord_iff {ts : List Lexeme} : NegatesWord ts ↔
    ∃ t n, ts.head? = some t ∧ t.token = .int ∧ Word.ofNegatedDigits? t.text = some n := by
  constructor
  · rintro ⟨t, rest, n, rfl, ht, hn⟩
    exact ⟨t, n, rfl, ht, hn⟩
  · rintro ⟨t, n, hhead, ht, hn⟩
    obtain ⟨rest, rfl⟩ := List.head?_eq_some_iff.1 hhead
    exact ⟨t, rest, n, rfl, ht, hn⟩

theorem head?_exchange {taken rest rest' : List Lexeme} (h : rest'.head? = rest.head?) :
    (taken ++ rest').head? = (taken ++ rest).head? := by
  rw [List.head?_append, List.head?_append, h]

theorem negatesWord_map_move (g : Nat → Nat) (ts : List Lexeme) :
    NegatesWord (ts.map (Lexeme.move g)) ↔ NegatesWord ts := by
  cases ts with
  | nil => exact Iff.rfl
  | cons t ts =>
    constructor
    · rintro ⟨u, rest, w, he, hu, hw⟩
      cases he
      exact ⟨t, ts, w, rfl, hu, hw⟩
    · rintro ⟨u, rest, w, he, hu, hw⟩
      cases he
      exact ⟨_, _, w, rfl, hu, hw⟩

theorem exists_cons_of_exchange {t : Lexeme} {ts taken rest rest' : List Lexeme}
    (hts : t :: ts = taken ++ rest) (h : rest'.head? = rest.head?) :
    ∃ us, taken ++ rest' = t :: us := by
  apply List.head?_eq_some_iff.1
  rw [head?_exchange h, ← hts]
  rfl

def starts (ts : List Lexeme) : List Nat :=
  ts.map (·.span.start)

namespace Phrase

def shift (n : Nat) : Phrase → Phrase
  | names stop segments stop' => names (stop + n) segments (stop' + n)
  | path segments span => path segments (span.shift n)
  | expr floor e => expr floor (e.shift n)
  | operators floor lhs e => operators floor (lhs.shift n) (e.shift n)
  | unary e => unary (e.shift n)
  | atom e => atom (e.shift n)
  | args es stop => args (es.map (Expr.shift n)) (stop + n)
  | argsFrom es stop => argsFrom (es.map (Expr.shift n)) (stop + n)

/-- The same phrase with its offsets taken elsewhere. -/
def move (g : Nat → Nat) : Phrase → Phrase
  | names stop segments stop' => names (g stop) segments (g stop')
  | path segments span => path segments ⟨g span.start, g span.stop⟩
  | expr floor e => expr floor (e.move g)
  | operators floor lhs e => operators floor (lhs.move g) (e.move g)
  | unary e => unary (e.move g)
  | atom e => atom (e.move g)
  | args es stop => args (es.map (Expr.move g)) (g stop)
  | argsFrom es stop => argsFrom (es.map (Expr.move g)) (g stop)

theorem shift_eq_move (n : Nat) (phrase : Phrase) : phrase.shift n = phrase.move (· + n) := by
  have hmap : Expr.shift n = Expr.move (· + n) := funext (Expr.shift_eq_move n)
  cases phrase <;> simp only [shift, move, Span.shift, hmap]

/-- Where a phrase and its paths start, given the tokens that it takes. -/
def StartsIn (taken : List Lexeme) : Phrase → Prop
  | names .. => True
  | path _ span => (starts taken).head? = some span.start
  | expr _ e | unary e | atom e =>
    (starts taken).head? = some e.span.start ∧ e.pathStarts.Sublist (starts taken)
  | operators _ lhs e =>
    e.span.start = lhs.span.start ∧ e.pathStarts.Sublist (lhs.pathStarts ++ starts taken)
  | args es _ | argsFrom es _ => (es.flatMap Expr.pathStarts).Sublist (starts taken)

end Phrase

namespace Reads

variable {phrase : Phrase} {ts rest : List Lexeme}

/-- A phrase takes tokens from the front, and it is read from them alike before any tokens that
start like those that follow it. -/
theorem exchange (h : Reads phrase ts rest) :
    ∃ taken, ts = taken ++ rest ∧
      ∀ rest' : List Lexeme, rest'.head? = rest.head? → Reads phrase (taken ++ rest') rest' := by
  -- what a phrase takes may end before its last look ahead, which goes one token further at most
  induction h with
  | nameEnd hdot => exact ⟨[], rfl, fun _ hr => .nameEnd (by rwa [List.nil_append, ahead?, hr])⟩
  | nameMore hd hn _ ih =>
    obtain ⟨taken, rfl, hx⟩ := ih
    exact ⟨_ :: _ :: taken, rfl, fun rest' hr => .nameMore hd hn (hx rest' hr)⟩
  | path hn _ ih =>
    obtain ⟨taken, rfl, hx⟩ := ih
    exact ⟨_ :: taken, rfl, fun rest' hr => .path hn (hx rest' hr)⟩
  | expr _ _ ihu iho =>
    obtain ⟨front, rfl, hu⟩ := ihu
    obtain ⟨back, rfl, ho⟩ := iho
    refine ⟨front ++ back, (List.append_assoc _ _ _).symm, fun rest' hr => ?_⟩
    rw [List.append_assoc]
    exact .expr (hu _ (head?_exchange hr)) (ho rest' hr)
  | operatorEnd hx =>
    exact ⟨[], rfl, fun _ hr => .operatorEnd (by rwa [List.nil_append, Extends, ahead?, hr])⟩
  | operatorMore hop hlt _ _ ihe iho =>
    obtain ⟨front, rfl, he⟩ := ihe
    obtain ⟨back, rfl, ho⟩ := iho
    refine ⟨_ :: (front ++ back), by rw [List.cons_append, List.append_assoc], fun rest' hr => ?_⟩
    rw [List.cons_append, List.append_assoc]
    exact .operatorMore hop hlt (he _ (head?_exchange hr)) (ho rest' hr)
  | negated ht hu hn => exact ⟨[_, _], rfl, fun _ _ => .negated ht hu hn⟩
  | neg ht hn _ ih =>
    obtain ⟨taken, rfl, hx⟩ := ih
    refine ⟨_ :: taken, rfl, fun rest' hr => .neg ht ?_ (hx rest' hr)⟩
    change ¬ NegatesWord (taken ++ rest')
    rwa [negatesWord_iff, head?_exchange hr, ← negatesWord_iff]
  | not ht _ ih =>
    obtain ⟨taken, rfl, hx⟩ := ih
    exact ⟨_ :: taken, rfl, fun rest' hr => .not ht (hx rest' hr)⟩
  | unsigned hm hb _ ih =>
    obtain ⟨taken, hts, hx⟩ := ih
    refine ⟨taken, hts, fun rest' hr => ?_⟩
    have hread := hx rest' hr
    obtain ⟨us, hus⟩ := exists_cons_of_exchange hts hr
    rw [hus] at hread ⊢
    exact .unsigned hm hb hread
  | int ht hn => exact ⟨[_], rfl, fun _ _ => .int ht hn⟩
  | str ht => exact ⟨[_], rfl, fun _ _ => .str ht⟩
  | bool ht => exact ⟨[_], rfl, fun _ _ => .bool ht⟩
  | @paren t u _ _ _ ht _ hu ih =>
    obtain ⟨taken, rfl, hx⟩ := ih
    refine ⟨t :: (taken ++ [u]), by rw [List.cons_append, List.append_assoc]; rfl,
      fun rest' _ => ?_⟩
    rw [List.cons_append, List.append_assoc]
    exact .paren ht (hx (u :: rest') rfl) hu
  | @call t _ _ _ _ _ _ _ _ ht _ ihp iha =>
    obtain ⟨front, rfl, hp⟩ := ihp
    obtain ⟨back, rfl, ha⟩ := iha
    refine ⟨front ++ t :: back, by rw [List.append_assoc]; rfl, fun rest' hr => ?_⟩
    rw [List.append_assoc]
    exact .call (hp (t :: (back ++ rest')) rfl) ht (ha rest' hr)
  | name _ hne ih =>
    obtain ⟨taken, rfl, hx⟩ := ih
    exact ⟨taken, rfl, fun rest' hr => .name (hx rest' hr) (by rwa [ahead?, hr])⟩
  | argsNone ht => exact ⟨[_], rfl, fun _ _ => .argsNone ht⟩
  | argsSome ht _ ih =>
    obtain ⟨taken, hts, hx⟩ := ih
    refine ⟨taken, hts, fun rest' hr => ?_⟩
    have hread := hx rest' hr
    obtain ⟨us, hus⟩ := exists_cons_of_exchange hts hr
    rw [hus] at hread ⊢
    exact .argsSome ht hread
  | @argLast t _ _ _ _ ht ih =>
    obtain ⟨taken, rfl, hx⟩ := ih
    refine ⟨taken ++ [t], by rw [List.append_assoc]; rfl, fun rest' _ => ?_⟩
    rw [List.append_assoc]
    exact .argLast (hx (t :: rest') rfl) ht
  | @argMore t _ _ _ _ _ _ _ ht _ ihe iha =>
    obtain ⟨front, rfl, he⟩ := ihe
    obtain ⟨back, rfl, ha⟩ := iha
    refine ⟨front ++ t :: back, by rw [List.append_assoc]; rfl, fun rest' hr => ?_⟩
    rw [List.append_assoc]
    exact .argMore (he (t :: (back ++ rest')) rfl) ht (ha rest' hr)

theorem move (h : Reads phrase ts rest) (g : Nat → Nat) :
    Reads (phrase.move g) (ts.map (Lexeme.move g)) (rest.map (Lexeme.move g)) := by
  induction h with
  | nameEnd h => exact .nameEnd (by rwa [ahead?_map_move])
  | nameMore hd hn _ ih => exact .nameMore (d := Lexeme.move g _) (n := Lexeme.move g _) hd hn ih
  | path hn _ ih => exact .path (n := Lexeme.move g _) hn ih
  | expr _ _ ihu iho => exact .expr ihu iho
  | operatorEnd h => exact .operatorEnd (by rwa [Extends, ahead?_map_move])
  | operatorMore hop hlt _ _ ihe iho =>
    simp only [Phrase.move, Expr.move] at ihe iho
    refine .operatorMore hop hlt ihe ?_
    simpa only [Expr.span_move] using iho
  | negated ht hu hn =>
    simp only [Phrase.move, Expr.move]
    exact .negated (t := Lexeme.move g _) (u := Lexeme.move g _) ht hu hn
  | neg ht hn _ ih =>
    have := Reads.neg (t := Lexeme.move g _) ht (by rwa [negatesWord_map_move]) ih
    simpa only [Phrase.move, Expr.move, Expr.span_move, Lexeme.move, List.map_cons] using this
  | not ht _ ih =>
    have := Reads.not (t := Lexeme.move g _) ht ih
    simpa only [Phrase.move, Expr.move, Expr.span_move, Lexeme.move, List.map_cons] using this
  | unsigned hm hb _ ih => exact .unsigned hm hb ih
  | int ht hn =>
    simp only [Phrase.move, Expr.move]
    exact .int (t := Lexeme.move g _) ht hn
  | str ht =>
    simp only [Phrase.move, Expr.move]
    exact .str (t := Lexeme.move g _) ht
  | bool ht =>
    simp only [Phrase.move, Expr.move]
    exact .bool (t := Lexeme.move g _) ht
  | paren ht _ hu ih =>
    simp only [Phrase.move, Expr.withSpan_move]
    exact .paren (t := Lexeme.move g _) (u := Lexeme.move g _) ht ih hu
  | call _ ht _ ihp iha =>
    simp only [Phrase.move, Expr.move]
    exact .call ihp ht iha
  | name _ hne ih =>
    simp only [Phrase.move, Expr.move]
    exact .name ih (by rwa [ahead?_map_move])
  | argsNone ht => exact .argsNone (t := Lexeme.move g _) ht
  | argsSome ht _ ih => exact .argsSome ht ih
  | argLast _ ht ih => exact .argLast (t := Lexeme.move g _) ih ht
  | argMore _ ht _ ihe iha => exact .argMore ihe ht iha

theorem shift (h : Reads phrase ts rest) (n : Nat) :
    Reads (phrase.shift n) (ts.map (Lexeme.shift n)) (rest.map (Lexeme.shift n)) := by
  rw [Phrase.shift_eq_move]
  exact h.move (· + n)

/-- A phrase takes tokens from the front, none of them a `let` or a `use`, and it and its paths
start where these start. -/
theorem startsIn (h : Reads phrase ts rest) :
    ∃ taken, ts = taken ++ rest ∧ (∀ t ∈ taken, t.token ≠ .kwLet ∧ t.token ≠ .kwUse) ∧
      phrase.StartsIn taken := by
  induction h with
  | nameEnd => exact ⟨[], rfl, List.forall_mem_nil _, trivial⟩
  | @nameMore _ _ d n _ _ _ hd hn _ ih =>
    obtain ⟨taken, rfl, hl, -⟩ := ih
    refine ⟨d :: n :: taken, rfl, ?_, trivial⟩
    exact List.forall_mem_cons.2
      ⟨by rw [hd]; decide, List.forall_mem_cons.2 ⟨by rw [hn]; decide, hl⟩⟩
  | @path n _ _ _ _ hn _ ih =>
    obtain ⟨taken, rfl, hl, -⟩ := ih
    exact ⟨n :: taken, rfl, List.forall_mem_cons.2 ⟨by rw [hn]; decide, hl⟩, rfl⟩
  | expr _ _ ihu iho =>
    obtain ⟨front, rfl, hl, hs, hp⟩ := ihu
    obtain ⟨back, rfl, hl', hs', hp'⟩ := iho
    refine ⟨front ++ back, by rw [List.append_assoc], List.forall_mem_append.2 ⟨hl, hl'⟩, ?_, ?_⟩
    · rw [starts, List.map_append, hs', List.head?_append, ← starts, hs, Option.some_or]
    · rw [starts, List.map_append]
      exact hp'.trans (hp.append_right _)
  | operatorEnd => exact ⟨[], rfl, List.forall_mem_nil _, rfl, List.sublist_append_left _ _⟩
  | @operatorMore _ t op lhs rhs e _ _ _ hop _ _ _ ihe iho =>
    obtain ⟨front, rfl, hl, -, hp⟩ := ihe
    obtain ⟨back, rfl, hl', hs', hp'⟩ := iho
    refine ⟨t :: (front ++ back), by rw [List.cons_append, List.append_assoc], ?_, hs', ?_⟩
    · refine List.forall_mem_cons.2
        ⟨⟨fun ht => ?_, fun ht => ?_⟩, List.forall_mem_append.2 ⟨hl, hl'⟩⟩
      all_goals
        rw [ht] at hop
        cases hop
    · simp only [Expr.pathStarts, List.append_assoc] at hp'
      simp only [starts, List.map_cons, List.map_append]
      exact hp'.trans (((hp.append_right _).trans (List.sublist_cons_self _ _)).append_left _)
  | @negated t u _ _ ht hu =>
    refine ⟨[t, u], rfl, ?_, rfl, by simp only [Expr.pathStarts, List.nil_sublist]⟩
    exact List.forall_mem_cons.2
      ⟨by rw [ht]; decide, List.forall_mem_singleton.2 (by rw [hu]; decide)⟩
  | @neg t _ _ _ ht _ _ ih =>
    obtain ⟨taken, rfl, hl, -, hp⟩ := ih
    refine ⟨t :: taken, rfl, List.forall_mem_cons.2 ⟨by rw [ht]; decide, hl⟩, rfl, ?_⟩
    rw [Expr.pathStarts]
    exact hp.cons _
  | @not t _ _ _ ht _ ih =>
    obtain ⟨taken, rfl, hl, -, hp⟩ := ih
    refine ⟨t :: taken, rfl, List.forall_mem_cons.2 ⟨by rw [ht]; decide, hl⟩, rfl, ?_⟩
    rw [Expr.pathStarts]
    exact hp.cons _
  | unsigned _ _ _ ih | argsSome _ _ ih => exact ih
  | name _ _ ih =>
    obtain ⟨taken, rfl, hl, hs⟩ := ih
    refine ⟨taken, rfl, hl, hs, ?_⟩
    simpa only [Expr.pathStarts, List.singleton_sublist] using List.mem_of_head? hs
  | @int t _ _ ht | @str t _ ht =>
    refine ⟨[t], rfl, List.forall_mem_singleton.2 (by rw [ht]; decide), rfl, ?_⟩
    simp only [Expr.pathStarts, List.nil_sublist]
  | @argsNone t _ ht =>
    exact ⟨[t], rfl, List.forall_mem_singleton.2 (by rw [ht]; decide), List.nil_sublist _⟩
  | @bool t b _ ht =>
    refine ⟨[t], rfl, List.forall_mem_singleton.2 ?_, rfl, ?_⟩
    · cases b <;> rw [ht] <;> decide
    · simp only [Expr.pathStarts, List.nil_sublist]
  | @paren t u e _ _ ht _ hu ih =>
    obtain ⟨taken, rfl, hl, hs, hp⟩ := ih
    refine ⟨t :: (taken ++ [u]), by rw [List.cons_append, List.append_assoc]; rfl, ?_, ?_, ?_⟩
    · refine List.forall_mem_cons.2 ⟨by rw [ht]; decide, List.forall_mem_append.2 ⟨hl, ?_⟩⟩
      exact List.forall_mem_singleton.2 (by rw [hu]; decide)
    · rw [Expr.span_withSpan]
      rfl
    · simp only [starts, List.map_cons, List.map_append]
      obtain he | he := e.pathStarts_withSpan ⟨t.span.start, u.span.stop⟩
      · rw [he]
        exact (hp.trans (List.sublist_append_left _ _)).cons _
      · rw [he]
        exact (List.nil_sublist _).cons_cons _
  | @call t _ _ _ _ _ _ _ _ ht _ ihp iha =>
    obtain ⟨front, rfl, hl, hs⟩ := ihp
    obtain ⟨back, rfl, hl', hp⟩ := iha
    refine ⟨front ++ t :: back, by rw [List.append_assoc]; rfl, ?_, ?_, ?_⟩
    · exact List.forall_mem_append.2 ⟨hl, List.forall_mem_cons.2 ⟨by rw [ht]; decide, hl'⟩⟩
    · rw [starts, List.map_append, List.head?_append, ← starts, hs, Option.some_or]
      rfl
    · simp only [Expr.pathStarts, starts, List.map_append, List.map_cons]
      exact (hp.cons _).trans (List.sublist_append_right _ _)
  | @argLast t e _ _ _ ht ih =>
    obtain ⟨taken, rfl, hl, -, hp⟩ := ih
    refine ⟨taken ++ [t], by rw [List.append_assoc]; rfl, ?_, ?_⟩
    · exact List.forall_mem_append.2 ⟨hl, List.forall_mem_singleton.2 (by rw [ht]; decide)⟩
    · simp only [Phrase.StartsIn, List.flatMap_singleton, starts, List.map_append]
      exact hp.trans (List.sublist_append_left _ _)
  | @argMore t _ _ _ _ _ _ _ ht _ ihe iha =>
    obtain ⟨front, rfl, hl, -, hp⟩ := ihe
    obtain ⟨back, rfl, hl', hp'⟩ := iha
    refine ⟨front ++ t :: back, by rw [List.append_assoc]; rfl, ?_, ?_⟩
    · exact List.forall_mem_append.2 ⟨hl, List.forall_mem_cons.2 ⟨by rw [ht]; decide, hl'⟩⟩
    · simp only [Phrase.StartsIn, List.flatMap_cons, starts, List.map_append, List.map_cons]
      exact hp.append (hp'.cons _)

end Reads

namespace ReadsStmt

variable {s : Stmt} {ts rest : List Lexeme}

/-- A statement is read alike before any tokens that start like those that follow it. -/
theorem exchange (h : ReadsStmt s ts rest) :
    ∃ taken, ts = taken ++ rest ∧
      ∀ rest' : List Lexeme, rest'.head? = rest.head? → ReadsStmt s (taken ++ rest') rest' := by
  cases h with
  | bind ht hn ha he =>
    obtain ⟨taken, rfl, hx⟩ := he.exchange
    exact ⟨_ :: _ :: _ :: taken, rfl, fun rest' hr => .bind ht hn ha (hx rest' hr)⟩
  | use ht hp =>
    obtain ⟨taken, rfl, hx⟩ := hp.exchange
    exact ⟨_ :: taken, rfl, fun rest' hr => .use ht (hx rest' hr)⟩
  | expr hl hu he =>
    obtain ⟨taken, hts, hx⟩ := he.exchange
    refine ⟨taken, hts, fun rest' hr => ?_⟩
    have hread := hx rest' hr
    obtain ⟨us, hus⟩ := exists_cons_of_exchange hts hr
    rw [hus] at hread ⊢
    exact .expr hl hu hread

theorem shift (h : ReadsStmt s ts rest) (n : Nat) :
    ReadsStmt (s.shift n) (ts.map (Lexeme.shift n)) (rest.map (Lexeme.shift n)) := by
  cases h with
  | bind ht hn ha he =>
    have := ReadsStmt.bind (t := Lexeme.shift n _) (n := Lexeme.shift n _) (a := Lexeme.shift n _)
      ht hn ha (he.shift n)
    simpa only [Stmt.shift, StmtKind.shift, Expr.span_shift, Span.shift_mk, Span.shift_start,
      Span.shift_stop, Lexeme.shift_span, Lexeme.shift_text, List.map_cons] using this
  | use ht hp => exact .use (t := Lexeme.shift n _) ht (hp.shift n)
  | expr hl hu he =>
    have := ReadsStmt.expr (t := Lexeme.shift n _) hl hu (he.shift n)
    simpa only [Stmt.shift, StmtKind.shift, Expr.span_shift, Span.shift_mk, Span.shift_start,
      Span.shift_stop, Lexeme.shift_span, List.map_cons] using this

end ReadsStmt

namespace Outline

theorem letNames_cons {t : Lexeme} (h : t.token ≠ .kwLet) (ts : List Lexeme) :
    letNames (t :: ts) = letNames ts := by
  cases ts with
  | nil => rfl
  | cons n ts =>
    simp only [letNames, List.tail_cons, List.zip_cons_cons, List.filterMap_cons]
    rw [if_neg fun hl => h hl.1]

theorem letNames_let {t n : Lexeme} (ht : t.token = .kwLet) (hn : n.token = .ident)
    (ts : List Lexeme) : letNames (t :: n :: ts) = n.text :: letNames (n :: ts) := by
  simp only [letNames, List.tail_cons, List.zip_cons_cons, List.filterMap_cons]
  rw [if_pos ⟨ht, hn⟩]

/-- Every `let` is directly followed by the name that it binds. -/
def LetsBound : List Lexeme → Prop
  | [] => True
  | t :: rest => (t.token = .kwLet → ahead? rest = some .ident) ∧ LetsBound rest

theorem letsBound_of_forall_ne {ts : List Lexeme} (h : ∀ t ∈ ts, t.token ≠ .kwLet) :
    LetsBound ts := by
  induction ts with
  | nil => trivial
  | cons t ts ih =>
    obtain ⟨ht, hts⟩ := List.forall_mem_cons.1 h
    exact ⟨fun hl => absurd hl ht, ih hts⟩

theorem LetsBound.append {front back : List Lexeme} (h : LetsBound front) (hb : LetsBound back) :
    LetsBound (front ++ back) := by
  induction front with
  | nil => exact hb
  | cons t ts ih =>
    refine ⟨fun hl => ?_, ih h.2⟩
    have hn := h.1 hl
    have hne : ts ≠ [] := by
      rintro rfl
      cases hn
    exact (ahead?_append hne back).trans hn

theorem LetsBound.right {front back : List Lexeme} (h : LetsBound (front ++ back)) :
    LetsBound back := by
  induction front with
  | nil => exact h
  | cons t ts ih => exact ih h.2

/-- Where the last token binds nothing across the cut, what stands before it binds its names. -/
theorem LetsBound.left {front back : List Lexeme} (h : LetsBound (front ++ back))
    (hlast : ∀ t ∈ front.getLast?, t.token = .kwLet → ahead? back ≠ some .ident) :
    LetsBound front := by
  induction front with
  | nil => trivial
  | cons t ts ih =>
    cases ts with
    | nil => exact ⟨fun ht => absurd (h.1 ht) (hlast t rfl ht), trivial⟩
    | cons u us =>
      refine ⟨h.1, ih h.2 fun v hv => hlast v ?_⟩
      rwa [List.getLast?_cons_cons]

theorem letNames_append {front : List Lexeme} (h : LetsBound front) (back : List Lexeme) :
    letNames (front ++ back) = letNames front ++ letNames back := by
  induction front with
  | nil => rfl
  | cons t ts ih =>
    by_cases ht : t.token = .kwLet
    · obtain ⟨n, ts, rfl⟩ : ∃ n us, ts = n :: us :=
        List.exists_cons_of_ne_nil fun hnil => by
          rw [hnil] at h
          cases h.1 ht
      have hn : n.token = .ident := Option.some.inj (h.1 ht)
      have := ih h.2
      simp only [List.cons_append] at this ⊢
      rw [letNames_let ht hn, letNames_let ht hn, this, List.cons_append]
    · rw [List.cons_append, letNames_cons ht, letNames_cons ht, ih h.2]

theorem letNames_of_forall_ne {ts : List Lexeme} (h : ∀ t ∈ ts, t.token ≠ .kwLet) :
    letNames ts = [] := by
  induction ts with
  | nil => rfl
  | cons t ts ih =>
    obtain ⟨ht, hts⟩ := List.forall_mem_cons.1 h
    rw [letNames_cons ht, ih hts]

end Outline

theorem ReadsStmt.taken {s : Stmt} {ts rest : List Lexeme} (h : ReadsStmt s ts rest) :
    ∃ taken, ts = taken ++ rest ∧ (starts taken).head? = some s.span.start ∧
      s.pathStarts.Sublist (starts taken) ∧ Outline.LetsBound taken ∧
      Outline.letNames taken = s.kind.bound?.toList := by
  cases h with
  | @bind t n a e _ _ ht hn ha he =>
    obtain ⟨taken, rfl, hl, -, hp⟩ := he.startsIn
    have hrest : ∀ u ∈ n :: a :: taken, u.token ≠ .kwLet :=
      List.forall_mem_cons.2 ⟨by rw [hn]; nofun, List.forall_mem_cons.2
        ⟨by rw [ha]; nofun, fun u hu => (hl u hu).1⟩⟩
    refine ⟨t :: n :: a :: taken, rfl, rfl, ((hp.cons _).cons _).cons _, ?_, ?_⟩
    · exact ⟨fun _ => congrArg some hn, Outline.letsBound_of_forall_ne hrest⟩
    · rw [Outline.letNames_let ht hn, Outline.letNames_of_forall_ne hrest]
      rfl
  | @use t _ _ _ _ ht hp =>
    obtain ⟨taken, rfl, hl, -⟩ := hp.startsIn
    have htaken : ∀ u ∈ t :: taken, u.token ≠ .kwLet :=
      List.forall_mem_cons.2 ⟨by rw [ht]; nofun, fun u hu => (hl u hu).1⟩
    exact ⟨t :: taken, rfl, rfl, List.nil_sublist _, Outline.letsBound_of_forall_ne htaken,
      Outline.letNames_of_forall_ne htaken⟩
  | @expr t e ts _ _ _ he =>
    obtain ⟨taken, hts, hl, hs, hp⟩ := he.startsIn
    have hlet : ∀ u ∈ taken, u.token ≠ .kwLet := fun u hu => (hl u hu).1
    refine ⟨taken, hts, ?_, hp, Outline.letsBound_of_forall_ne hlet,
      Outline.letNames_of_forall_ne hlet⟩
    cases taken with
    | nil => cases hs
    | cons u us =>
      cases hts
      rfl

namespace ReadsScript

variable {script : Script} {ts : List Lexeme}

theorem shift (h : ReadsScript script ts) (n : Nat) :
    ReadsScript (script.map (Stmt.shift n)) (ts.map (Lexeme.shift n)) := by
  induction h with
  | nil => exact .nil
  | semi ht _ ih => exact .semi ht ih
  | last ht hs => exact .last ht (hs.shift n)
  | more ht hs hu _ ih =>
    exact .more (t := Lexeme.shift n _) (u := Lexeme.shift n _) ht (hs.shift n) hu ih

/-- Two scripts in a row are one, where a semicolon ends the first. -/
theorem append (h : ReadsScript script ts) (ht : ∀ s ∈ script.getLast?, s.terminated)
    {next : Script} {us : List Lexeme} (hn : ReadsScript next us) :
    ReadsScript (script ++ next) (ts ++ us) := by
  induction h with
  | nil => exact hn
  | semi hs _ ih => exact .semi hs (ih ht)
  | @last t s ts _ hs =>
    have := ht s rfl
    cases hs <;> cases this
  | @more t u s script ts rest hs hstmt hu hrest ih =>
    obtain ⟨taken, hts, hx⟩ := hstmt.exchange
    have hstmt := hx (u :: (rest ++ us)) rfl
    have hus : t :: (ts ++ us) = taken ++ u :: (rest ++ us) := by
      rw [← List.cons_append, hts, List.append_assoc, List.cons_append]
    rw [← hus] at hstmt
    refine .more hs hstmt hu (ih fun s hs => ht s ?_)
    rw [List.getLast?_cons, Option.mem_def.1 hs]
    rfl

theorem pathStarts_sublist (h : ReadsScript script ts) :
    script.pathStarts.Sublist (starts ts) := by
  induction h with
  | nil => exact .slnil
  | semi _ _ ih => exact ih.cons _
  | @last t s ts _ hs =>
    obtain ⟨taken, hts, -, hp, -⟩ := hs.taken
    rw [hts, List.append_nil]
    simpa only [Script.pathStarts, List.flatMap_singleton] using hp
  | @more t u s script ts rest _ hs _ _ ih =>
    obtain ⟨taken, hts, -, hp, -⟩ := hs.taken
    rw [hts]
    simp only [Script.pathStarts, List.flatMap_cons, starts, List.map_append, List.map_cons]
    exact hp.append (ih.cons _)

theorem letNames_eq (h : ReadsScript script ts) :
    Outline.LetsBound ts ∧ Outline.letNames ts = script.boundNames := by
  induction h with
  | nil => exact ⟨trivial, rfl⟩
  | @semi t _ _ ht _ ih =>
    have hne : t.token ≠ .kwLet := by rw [ht]; nofun
    exact ⟨⟨fun hl => absurd hl hne, ih.1⟩, by rw [Outline.letNames_cons hne, ih.2]⟩
  | @last t s ts _ hs =>
    obtain ⟨taken, hts, -, -, hb, hl⟩ := hs.taken
    rw [hts, List.append_nil, hl, Script.boundNames_cons]
    exact ⟨hb, (List.append_nil _).symm⟩
  | @more t u s script ts rest _ hs hu _ ih =>
    obtain ⟨taken, hts, -, -, hb, hl⟩ := hs.taken
    have hne : u.token ≠ .kwLet := by rw [hu]; nofun
    rw [hts, Outline.letNames_append hb, hl, Outline.letNames_cons hne, ih.2,
      Script.boundNames_cons]
    exact ⟨hb.append ⟨fun hl => absurd hl hne, ih.1⟩, rfl⟩

theorem before {front back : Script} {s : Stmt} (h : ReadsScript (front ++ s :: back) ts) :
    ∃ before after, ts = before ++ after ∧ (starts after).head? = some s.span.start ∧
      ReadsScript front before := by
  generalize he : front ++ s :: back = script at h
  induction h generalizing front with
  | nil => cases front <;> cases he
  | @semi t _ _ ht _ ih =>
    obtain ⟨before, after, rfl, hs, hread⟩ := ih he
    exact ⟨t :: before, after, rfl, hs, .semi ht hread⟩
  | @last t s' ts _ hs =>
    obtain ⟨rfl, rfl, rfl⟩ : front = [] ∧ s = s' ∧ back = [] := by
      cases front with
      | nil => cases he; exact ⟨rfl, rfl, rfl⟩
      | cons a front => cases front <;> cases he
    obtain ⟨taken, hts, hstart, -⟩ := hs.taken
    rw [List.append_nil] at hts
    exact ⟨[], t :: ts, rfl, by rw [hts, hstart], .nil⟩
  | @more t u s' script ts rest ht hs hu _ ih =>
    cases front with
    | nil =>
      cases he
      obtain ⟨taken, hts, hstart, -⟩ := hs.taken
      refine ⟨[], t :: ts, rfl, ?_, .nil⟩
      rw [hts, starts, List.map_append, List.head?_append, ← starts, hstart, Option.some_or]
    | cons a front =>
      obtain ⟨rfl, htail⟩ := List.cons.inj he
      obtain ⟨before, after, rfl, hs', hread⟩ := ih htail
      obtain ⟨taken, hts, hx⟩ := hs.exchange
      cases taken with
      | nil =>
        -- a statement takes a token: the semicolon behind it does not start it
        cases hts
        exact absurd hu ht
      | cons v taken =>
        obtain ⟨rfl, rfl⟩ := List.cons.inj hts
        refine ⟨t :: (taken ++ u :: before), after, ?_, hs', ?_⟩
        · rw [List.cons_append, List.append_assoc, List.cons_append]
          rfl
        · exact .more ht (hx (u :: before) rfl) hu hread

end ReadsScript
end ScriptSession
