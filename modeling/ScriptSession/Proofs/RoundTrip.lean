import ScriptSession.Proofs.Precedence
import ScriptSession.Proofs.Printing
import ScriptSession.Proofs.Text

namespace ScriptSession

def Expr.erase : Expr → Expr
  | literal _ v => literal ⟨0, 0⟩ v
  | path _ segments => path ⟨0, 0⟩ segments
  | unary _ op e => unary ⟨0, 0⟩ op e.erase
  | binary _ op l r => binary ⟨0, 0⟩ op l.erase r.erase
  | call _ name args => call ⟨0, 0⟩ name (args.map erase)

def StmtKind.erase : StmtKind → StmtKind
  | bind name value => bind name value.erase
  | use segments => use segments
  | expr value => expr value.erase

def Stmt.erase (s : Stmt) : Stmt :=
  ⟨s.kind.erase, ⟨0, 0⟩, s.terminated⟩

theorem Expr.erase_withSpan (span : Span) (e : Expr) : (e.withSpan span).erase = e.erase := by
  cases e <;> simp only [withSpan, erase]

theorem readDigits?_numeral (n : Nat) : Text.readDigits? (numeral n).toList = some n := by
  rw [numeral, String.toList_ofList, Text.readDigits?_toDigits]

theorem ofDigits?_numeral {n : Word} (h : 0 ≤ n.toInt) :
    Word.ofDigits? (numeral n.toInt.natAbs) = some n := by
  rw [Word.ofDigits?, readDigits?_numeral, Option.bind_some, Word.ofInt?_eq_some_iff]
  omega

theorem ofNegatedDigits?_numeral {n : Word} (h : n.toInt < 0) :
    Word.ofNegatedDigits? (numeral n.toInt.natAbs) = some n := by
  rw [Word.ofNegatedDigits?, readDigits?_numeral, Option.bind_some, Word.ofInt?_eq_some_iff]
  omega

namespace Token

/-- Whether `cs` is read back as `back` wherever it stands in a string body. -/
def Decodes (cs back : List Char) : Prop :=
  ∀ done rest, decodeOnto done (cs ++ rest) = decodeOnto (back.reverse ++ done) rest

theorem decodes_nil : Decodes [] [] := fun _ _ => rfl

theorem decodes_escape (c : Char) : Decodes ['\\', c] [escaped c] := by
  intro done rest
  rw [List.cons_append, List.singleton_append, decodeOnto]
  rfl

theorem decodes_plain {c : Char} (hc : c ≠ '\\') : Decodes [c] [c] := by
  intro done rest
  rw [List.singleton_append, decodeOnto]
  · rfl
  · exact fun _ _ he _ => hc he

namespace Decodes

variable {cs back more moreBack : List Char}

theorem append (h : Decodes cs back) (hmore : Decodes more moreBack) :
    Decodes (cs ++ more) (back ++ moreBack) := by
  intro done rest
  rw [List.append_assoc, h, hmore, List.reverse_append, List.append_assoc]

theorem decodeOnto_eq (h : Decodes cs back) (done : List Char) :
    decodeOnto done cs = done.reverse ++ back := by
  have hend := h done []
  rw [List.append_nil, decodeOnto, List.reverse_append, List.reverse_reverse] at hend
  exact hend

end Decodes

/-- A text that is written character by character is read back character by character. -/
theorem decodes_flatMap {write read : Char → List Char} (h : ∀ c, Decodes (write c) (read c))
    (cs : List Char) : Decodes (cs.flatMap write) (cs.flatMap read) := by
  induction cs with
  | nil => exact decodes_nil
  | cons c cs ih =>
    rw [List.flatMap_cons, List.flatMap_cons]
    exact (h c).append ih

theorem decodes_escapedChar (c : Char) : Decodes (escapedChar c) [c] := by
  obtain ⟨d, hc, -, rfl⟩ | ⟨hc, hplain⟩ := Lexer.escapedChar_cases c
  · rw [hc]
    exact decodes_escape d
  · rw [hc]
    exact decodes_plain fun he => hplain (.inr (.inl he))

end Token

theorem unquoted_body (body : List Char) : Token.unquoted ('"' :: (body ++ ['"'])) = body := by
  have hlead : Text.afterLead ['"'] ('"' :: (body ++ ['"'])) = some (body ++ ['"']) := rfl
  have htail : Text.beforeTail ['"'] (body ++ ['"']) = some body :=
    Text.beforeTail_eq_some_iff.2 rfl
  rw [Token.unquoted, hlead]
  dsimp only
  rw [htail, Option.getD_some]

theorem unescape_quoted (s : String) :
    String.ofList (Token.unescape (quoted s).toList) = s := by
  have hbody := Token.decodes_flatMap Token.decodes_escapedChar s.toList
  rw [quoted, String.toList_ofList, Token.unescape, unquoted_body, hbody.decodeOnto_eq,
    List.flatMap_singleton', List.reverse_nil, List.nil_append, String.ofList_toList]

theorem BinaryOp.ofToken?_token (op : BinaryOp) : ofToken? op.token = some op := by
  cases op <;> rfl

theorem BinaryOp.power_lt (op : BinaryOp) : op.power < 7 := by
  cases op <;> decide

/-- `Renders floor e ts`: the tokens `ts` spell the tree `e`, and no operator of its row of operands
is weaker than `floor`. -/
def Renders (floor : Nat) (e : Expr) (ts : List Lexeme) : Prop :=
  ∃ first items e' us vs, ts = us ++ vs ∧ Spells (.unary first) us ∧
    Spells (.operations items) vs ∧ Groups first items e' ∧ e'.erase = e.erase ∧
    ∀ p ∈ items, floor ≤ p.1.power

namespace Renders

variable {floor : Nat} {e : Expr} {ts : List Lexeme}

theorem of_unary {e' : Expr} (h : Spells (.unary e') ts) (he : e'.erase = e.erase) :
    Renders floor e ts :=
  ⟨e', [], e', ts, [], (List.append_nil ts).symm, h, .done, .operand e', he, List.forall_mem_nil _⟩

theorem expr (h : Renders floor e ts) : ∃ e', Spells (.expr e') ts ∧ e'.erase = e.erase := by
  obtain ⟨first, items, e', us, vs, rfl, hf, hi, hg, he, -⟩ := h
  exact ⟨e', .expr hf hi hg, he⟩

/-- A row whose operators would all be tighter than every operator is one operand. -/
theorem unary (h : Renders 7 e ts) : ∃ e', Spells (.unary e') ts ∧ e'.erase = e.erase := by
  obtain ⟨first, items, e', us, vs, rfl, hf, hi, hg, he, hfloor⟩ := h
  cases items with
  | nil =>
    cases hi
    generalize hnil : ([] : List (BinaryOp × Expr)) = items at hg
    cases hg with
    | operand =>
      rw [List.append_nil]
      exact ⟨first, hf, he⟩
    | split => simp at hnil
  | cons p items =>
    have habove : 7 ≤ p.1.power := hfloor p List.mem_cons_self
    have hbelow := p.1.power_lt
    omega

theorem paren {t u : Lexeme} (h : Renders floor e ts) (ht : t.token = .lparen)
    (hu : u.token = .rparen) : Renders 7 e (t :: (ts ++ [u])) := by
  obtain ⟨e', hs, he⟩ := h.expr
  refine of_unary (.unsigned (.paren ht hs hu)) ?_
  rw [Expr.erase_withSpan, he]

theorem enclosed {b : Bool} {words : List (Token × String)}
    (h : ∀ us : List Lexeme, us.map Lexeme.word = words → Renders floor e us)
    (hts : ts.map Lexeme.word = enclosed b words) :
    Renders (if b then 7 else floor) e ts := by
  cases b with
  | false => exact h ts hts
  | true =>
    obtain ⟨t, rest, rfl, ht, hrest⟩ := List.map_eq_cons_iff.1 hts
    obtain ⟨us, last, rfl, hus, hlast⟩ := List.map_eq_append_iff.1 hrest
    obtain ⟨u, rfl, hu⟩ := List.map_eq_singleton_iff.1 hlast
    exact (h us hus).paren (congrArg Prod.fst ht) (congrArg Prod.fst hu)

theorem binary {op : BinaryOp} {span : Span} {l r : Expr} {floorl floorr : Nat} {t : Lexeme}
    {us vs : List Lexeme} (hl : Renders floorl l us) (hr : Renders floorr r vs)
    (ht : BinaryOp.ofToken? t.token = some op) (hleft : op.power ≤ floorl)
    (hright : op.power < floorr) : Renders op.power (.binary span op l r) (us ++ t :: vs) := by
  obtain ⟨first, left, l', ls, ls', rfl, hfirst, hls, hgl, hel, hfloorl⟩ := hl
  obtain ⟨operand, right, r', rs, rs', rfl, hoperand, hrs, hgr, her, hfloorr⟩ := hr
  have hweak : ∀ p ∈ left, op.power ≤ p.1.power := fun p hp => Nat.le_trans hleft (hfloorl p hp)
  have htight : ∀ p ∈ right, op.power < p.1.power := fun p hp =>
    Nat.lt_of_lt_of_le hright (hfloorr p hp)
  refine ⟨first, left ++ (op, operand) :: right, _, ls, ls' ++ t :: (rs ++ rs'), ?_, hfirst,
    hls.operations_append (.operation ht hoperand hrs), hgl.split hgr hweak htight, ?_, ?_⟩
  · rw [List.append_assoc]
  · simp only [Expr.erase, hel, her]
  · refine List.forall_mem_append.2 ⟨hweak, List.forall_mem_cons.2 ⟨Nat.le_refl _, ?_⟩⟩
    intro p hp
    exact Nat.le_of_lt (htight p hp)

end Renders

theorem spells_path {segments : List String} {ts : List Lexeme} (hne : segments ≠ [])
    (h : ts.map Lexeme.word = pathWords segments) :
    ∃ span, Spells (.path segments span) ts := by
  induction segments generalizing ts with
  | nil => exact absurd rfl hne
  | cons s segments ih =>
    cases segments with
    | nil =>
      obtain ⟨n, rfl, hn⟩ := List.map_eq_singleton_iff.1 h
      obtain ⟨hident, rfl⟩ := Prod.mk.inj hn
      exact ⟨_, .segment hident⟩
    | cons s' segments =>
      rw [pathWords, List.map_cons, List.map_cons, List.intercalate_cons_cons] at h
      obtain ⟨n, rest, rfl, hn, hrest⟩ := List.map_eq_cons_iff.1 h
      obtain ⟨d, rest, rfl, hd, hrest⟩ := List.map_eq_cons_iff.1 hrest
      obtain ⟨span, hs⟩ := ih (List.cons_ne_nil _ _) hrest
      obtain ⟨hident, rfl⟩ := Prod.mk.inj hn
      exact ⟨_, .dotted hident (congrArg Prod.fst hd) hs⟩

theorem spells_args {args : List Expr} {ts : List Lexeme}
    (h : ts.map Lexeme.word = [(.comma, ",")].intercalate (args.map Expr.words))
    (hargs : ∀ a ∈ args, ∀ us : List Lexeme, us.map Lexeme.word = a.words →
      ∃ a', Spells (.expr a') us ∧ a'.erase = a.erase) :
    ∃ args', Spells (.args args') ts ∧ args'.map Expr.erase = args.map Expr.erase := by
  have hexprs (a : Expr) (args : List Expr) (ts : List Lexeme)
      (h : ts.map Lexeme.word = [(.comma, ",")].intercalate ((a :: args).map Expr.words))
      (hargs : ∀ b ∈ a :: args, ∀ us : List Lexeme, us.map Lexeme.word = b.words →
        ∃ b', Spells (.expr b') us ∧ b'.erase = b.erase) :
      ∃ args', Spells (.exprs args') ts ∧ args'.map Expr.erase = (a :: args).map Expr.erase := by
    induction args generalizing a ts with
    | nil =>
      rw [List.map_singleton, List.intercalate_singleton] at h
      obtain ⟨a', hs, he⟩ := hargs a List.mem_cons_self ts h
      exact ⟨[a'], .lastArg hs, by rw [List.map_singleton, List.map_singleton, he]⟩
    | cons b args ih =>
      obtain ⟨ha, hrest⟩ := List.forall_mem_cons.1 hargs
      rw [List.map_cons, List.map_cons, List.intercalate_cons_cons, List.append_assoc] at h
      obtain ⟨us, vs, rfl, hus, hvs⟩ := List.map_eq_append_iff.1 h
      obtain ⟨t, vs, rfl, ht, hvs⟩ := List.map_eq_cons_iff.1 hvs
      obtain ⟨a', hs, he⟩ := ha us hus
      obtain ⟨args', hargs', hes⟩ := ih b vs hvs hrest
      refine ⟨a' :: args', .moreArgs hs (congrArg Prod.fst ht) hargs', ?_⟩
      rw [List.map_cons, he, hes]
      rfl
  cases args with
  | nil =>
    cases List.map_eq_nil_iff.1 h
    exact ⟨[], .noArgs, rfl⟩
  | cons a args =>
    obtain ⟨args', hs, he⟩ := hexprs a args ts h hargs
    exact ⟨args', .someArgs hs, he⟩

theorem head_pathWords (segments : List String) :
    ∀ w ∈ (pathWords segments).head?, w.1 = .ident := by
  intro w hw
  cases segments with
  | nil => cases hw
  | cons s segments =>
    cases segments with
    | nil =>
      cases hw
      rfl
    | cons s' segments =>
      rw [pathWords, List.map_cons, List.map_cons, List.intercalate_cons_cons] at hw
      cases hw
      rfl

theorem head_after_neg (e : Expr) : ∀ w ∈ (enclosed (e.loose .neg) e.words).head?, w.1 ≠ .int := by
  intro w hw
  cases e with
  | literal span v =>
    rw [Expr.words] at hw
    cases v with
    | int n =>
      rw [Literal.words] at hw
      split at hw
      next hn =>
        have hloose : (Expr.literal span (.int n)).loose .neg = false := by
          simpa [Expr.loose] using hn
        rw [hloose] at hw
        cases hw
        decide
      next hn =>
        have hloose : (Expr.literal span (.int n)).loose .neg = true := by
          simpa [Expr.loose] using hn
        rw [hloose] at hw
        cases hw
        decide
    | str s =>
      cases hw
      intro hint
      cases hint
    | bool b =>
      cases b with
      | true | false =>
        cases hw
        decide
  | path span segments =>
    rw [Expr.words] at hw
    rw [head_pathWords segments w hw]
    decide
  | unary span op e =>
    rw [Expr.words] at hw
    cases hw
    cases op <;> decide
  | binary span op l r =>
    cases hw
    decide
  | call span name args =>
    rw [Expr.words] at hw
    cases hw
    intro hint
    cases hint

theorem rank_of_not_loose {op : UnaryOp} {e : Expr} (h : e.loose op = false) : e.rank = 7 := by
  cases e with
  | binary => cases h
  | _ => rfl

theorem renders_words {e : Expr} (h : e.Named) {ts : List Lexeme}
    (hts : ts.map Lexeme.word = e.words) : Renders e.rank e ts := by
  induction h generalizing ts with
  | literal span v =>
    rw [Expr.words] at hts
    cases v with
    | int n =>
      rw [Literal.words] at hts
      split at hts
      next hn =>
        obtain ⟨t, rest, rfl, ht, hrest⟩ := List.map_eq_cons_iff.1 hts
        obtain ⟨u, rfl, hu⟩ := List.map_eq_singleton_iff.1 hrest
        obtain ⟨hint, htext⟩ := Prod.mk.inj hu
        have hneg : Word.ofNegatedDigits? u.text = some n := by
          rw [htext, ofNegatedDigits?_numeral hn]
        exact .of_unary (.negated (congrArg Prod.fst ht) hint hneg) (by simp only [Expr.erase])
      next hn =>
        obtain ⟨t, rfl, ht⟩ := List.map_eq_singleton_iff.1 hts
        obtain ⟨hint, htext⟩ := Prod.mk.inj ht
        have hdigits : Word.ofDigits? t.text = some n := by
          rw [htext, ofDigits?_numeral (Int.not_lt.1 hn)]
        exact .of_unary (.unsigned (.int hint hdigits)) (by simp only [Expr.erase])
    | str s =>
      obtain ⟨t, rfl, ht⟩ := List.map_eq_singleton_iff.1 hts
      obtain ⟨hstr, htext⟩ := Prod.mk.inj ht
      refine .of_unary (.unsigned (.str hstr)) ?_
      rw [htext, unescape_quoted, Expr.erase, Expr.erase]
    | bool b =>
      have hbool : ∃ t : Lexeme, ts = [t] ∧ t.token = if b then .kwTrue else .kwFalse := by
        cases b with
        | true | false =>
          obtain ⟨t, rfl, ht⟩ := List.map_eq_singleton_iff.1 hts
          exact ⟨t, rfl, congrArg Prod.fst ht⟩
      obtain ⟨t, rfl, ht⟩ := hbool
      exact .of_unary (.unsigned (.bool ht)) (by simp only [Expr.erase])
  | path hp =>
    rw [Expr.words] at hts
    obtain ⟨span, hs⟩ := spells_path hp.1 hts
    exact .of_unary (.unsigned (.name hs)) (by simp only [Expr.erase])
  | @unary _ op e he ih =>
    rw [Expr.words] at hts
    obtain ⟨t, us, rfl, ht, hus⟩ := List.map_eq_cons_iff.1 hts
    have hoperand : Renders 7 e us := by
      have hrow := Renders.enclosed (fun us hus => ih hus) hus
      cases hl : e.loose op with
      | true => rwa [hl] at hrow
      | false =>
        rw [hl, rank_of_not_loose hl] at hrow
        exact hrow
    obtain ⟨e', hs, hes⟩ := hoperand.unary
    cases op with
    | not => exact .of_unary (.not (congrArg Prod.fst ht) hs) (by simp only [Expr.erase, hes])
    | neg =>
      obtain ⟨u, us, rfl, -⟩ := hs.opens
      have hu : u.token ≠ .int := by
        refine head_after_neg e u.word ?_
        rw [← hus]
        rfl
      exact .of_unary (.neg (congrArg Prod.fst ht) hu hs) (by simp only [Expr.erase, hes])
  | @binary span op l r _ _ ihl ihr =>
    rw [Expr.words] at hts
    obtain ⟨us, rest, rfl, hus, hrest⟩ := List.map_eq_append_iff.1 hts
    obtain ⟨t, vs, rfl, ht, hvs⟩ := List.map_eq_cons_iff.1 hrest
    have hop : BinaryOp.ofToken? t.token = some op := by
      have htoken : t.token = op.token := congrArg Prod.fst ht
      rw [htoken, op.ofToken?_token]
    have hlt := op.power_lt
    refine Renders.binary (Renders.enclosed (fun us hus => ihl hus) hus)
      (Renders.enclosed (fun vs hvs => ihr hvs) hvs) hop ?_ ?_
    · split
      · exact hlt.le
      next hl => simpa using hl
    · split
      · exact hlt
      next hr => simpa using hr
  | @call span name args _ _ ih =>
    rw [Expr.words] at hts
    obtain ⟨n, rest, rfl, hn, hrest⟩ := List.map_eq_cons_iff.1 hts
    obtain ⟨t, rest, rfl, ht, hrest⟩ := List.map_eq_cons_iff.1 hrest
    obtain ⟨us, last, rfl, hus, hlast⟩ := List.map_eq_append_iff.1 hrest
    obtain ⟨u, rfl, hu⟩ := List.map_eq_singleton_iff.1 hlast
    obtain ⟨hident, rfl⟩ := Prod.mk.inj hn
    obtain ⟨args', ha, hes⟩ := spells_args hus fun a ha us hus => (ih a ha hus).expr
    refine .of_unary (.unsigned (.call hident (congrArg Prod.fst ht) ha (congrArg Prod.fst hu))) ?_
    simp only [Expr.erase, hes]

theorem spells_expr {e : Expr} (h : e.Named) {ts : List Lexeme}
    (hts : ts.map Lexeme.word = e.words) : ∃ e', Spells (.expr e') ts ∧ e'.erase = e.erase :=
  (renders_words h hts).expr

theorem spells_kind {kind : StmtKind} (h : kind.Named) {ts : List Lexeme}
    (hts : ts.map Lexeme.word = kind.words) :
    ∃ kind' span, SpellsStmt kind' span ts ∧ kind'.erase = kind.erase := by
  cases kind with
  | bind name value =>
    obtain ⟨t, rest, rfl, ht, hrest⟩ := List.map_eq_cons_iff.1 hts
    obtain ⟨n, rest, rfl, hn, hrest⟩ := List.map_eq_cons_iff.1 hrest
    obtain ⟨a, us, rfl, ha, hus⟩ := List.map_eq_cons_iff.1 hrest
    obtain ⟨hident, rfl⟩ := Prod.mk.inj hn
    obtain ⟨e', hs, he⟩ := spells_expr h.2 hus
    refine ⟨_, _, .bind (congrArg Prod.fst ht) hident (congrArg Prod.fst ha) hs, ?_⟩
    rw [StmtKind.erase, StmtKind.erase, he]
  | use segments =>
    obtain ⟨t, us, rfl, ht, hus⟩ := List.map_eq_cons_iff.1 hts
    obtain ⟨span, hs⟩ := spells_path h.1 hus
    exact ⟨_, _, .use (congrArg Prod.fst ht) hs, rfl⟩
  | expr value =>
    obtain ⟨e', hs, he⟩ := spells_expr h hts
    refine ⟨_, _, .expr hs, ?_⟩
    rw [StmtKind.erase, StmtKind.erase, he]

theorem spells_script {script : Script} (h : ∀ s ∈ script, s.kind.Named)
    (hterm : ∀ s ∈ script.dropLast, s.terminated = true) {ts : List Lexeme}
    (hts : ts.map Lexeme.word = script.words) :
    ∃ script', SpellsScript script' ts ∧ script'.map Stmt.erase = script.map Stmt.erase := by
  induction script generalizing ts with
  | nil =>
    cases List.map_eq_nil_iff.1 hts
    exact ⟨[], .nil, rfl⟩
  | cons s script ih =>
    obtain ⟨hs, hscript⟩ := List.forall_mem_cons.1 h
    rw [Script.words, List.flatMap_cons] at hts
    obtain ⟨front, rest, rfl, hfront, hrest⟩ := List.map_eq_append_iff.1 hts
    obtain ⟨us, last, rfl, hus, hlast⟩ := List.map_eq_append_iff.1 hfront
    obtain ⟨kind, span, hkind, hkinds⟩ := spells_kind hs hus
    cases hend : s.terminated with
    | true =>
      have hterm' : ∀ s ∈ script.dropLast, s.terminated = true := by
        intro s' hs'
        refine hterm s' ?_
        cases script with
        | nil => cases hs'
        | cons => exact List.mem_cons_of_mem _ hs'
      obtain ⟨script', hscript', hes⟩ := ih hscript hterm' hrest
      rw [hend, if_pos rfl] at hlast
      obtain ⟨t, rfl, ht⟩ := List.map_eq_singleton_iff.1 hlast
      refine ⟨⟨kind, span, true⟩ :: script', ?_, ?_⟩
      · rw [List.append_assoc]
        exact .more hkind (congrArg Prod.fst ht) hscript'
      · rw [List.map_cons, List.map_cons, hes, Stmt.erase, Stmt.erase, hkinds, hend]
    | false =>
      -- only the last statement lacks a semicolon
      cases script with
      | cons s' script =>
        have hterminated := hterm s List.mem_cons_self
        rw [hend] at hterminated
        cases hterminated
      | nil =>
        rw [hend] at hlast
        cases List.map_eq_nil_iff.1 hlast
        cases List.map_eq_nil_iff.1 hrest
        refine ⟨[⟨kind, span, false⟩], ?_, ?_⟩
        · rw [List.append_nil, List.append_nil]
          exact .last hkind
        · rw [List.map_singleton, List.map_singleton, Stmt.erase, Stmt.erase, hkinds, hend]

/-- A script written as text parses as itself, up to the places of its parts. -/
theorem parse_print {script : Script} (h : ∀ s ∈ script, s.kind.Named)
    (hterm : ∀ s ∈ script.dropLast, s.terminated = true) :
    ∃ script', parse script.print = .ok script' ∧
      script'.map Stmt.erase = script.map Stmt.erase := by
  obtain ⟨hstrays, hwords⟩ := lex_words (Lexer.readable_script h)
  obtain ⟨script', hs, he⟩ := spells_script h hterm hwords
  exact ⟨script', parse_eq_ok_iff.2 ⟨hstrays, readsScript_iff_spells.2 hs⟩, he⟩

/-- `let x = 1 - ( 2 - - 3 ) ; f ( "a\"b" , - ( 5 ) )` -/
theorem parse_print_of_nested_operands :
    let place : Span := ⟨0, 0⟩
    let inner : Expr := .binary place .sub (.literal place (.int 2)) (.literal place (.int (-3)))
    let value : Expr := .binary place .sub (.literal place (.int 1)) inner
    let args : List Expr :=
      [.literal place (.str "a\"b"), .unary place .neg (.literal place (.int 5))]
    let script : Script :=
      [⟨.bind "x" value, place, true⟩, ⟨.expr (.call place "f" args), place, false⟩]
    ((∀ s ∈ script, s.kind.Named) ∧ ∀ s ∈ script.dropLast, s.terminated = true) ∧
      ∃ script', parse script.print = .ok script' ∧
        script'.map Stmt.erase = script.map Stmt.erase := by
  intro place inner value args script
  have hx : IsIdentifier "x" := ⟨'x', [], rfl, rfl, List.forall_mem_nil _, by decide⟩
  have hf : IsIdentifier "f" := ⟨'f', [], rfl, rfl, List.forall_mem_nil _, by decide⟩
  have hvalue : value.Named := .binary (.literal _ _) (.binary (.literal _ _) (.literal _ _))
  have hcall : (Expr.call place "f" args).Named := by
    refine .call hf (List.forall_mem_cons.2 ⟨.literal _ _, List.forall_mem_singleton.2 ?_⟩)
    exact .unary (.literal _ _)
  have hnamed : ∀ s ∈ script, s.kind.Named :=
    List.forall_mem_cons.2 ⟨⟨hx, hvalue⟩, List.forall_mem_singleton.2 hcall⟩
  have hterm : ∀ s ∈ script.dropLast, s.terminated = true := List.forall_mem_singleton.2 rfl
  exact ⟨⟨hnamed, hterm⟩, parse_print hnamed hterm⟩

end ScriptSession
