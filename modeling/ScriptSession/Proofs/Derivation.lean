import ScriptSession.Proofs.Precedence
/-!
The grammar of scripts as productions over tokens, with no trees in them, and the language that it
generates: a text parses if and only if its tokens are in it.

    script     := stmt | ';' script | stmt ';' script |
    stmt       := 'let' IDENT '=' expr | 'use' path | expr
    expr       := unary operations
    operations := BINOP unary operations |
    unary      := ('-' | '!') unary | atom
    atom       := INT | STR | 'true' | 'false' | '(' expr ')' | IDENT '(' args ')' | path
    path       := IDENT '.' path | IDENT
    args       := exprs |
    exprs      := expr ',' exprs | expr
-/
namespace ScriptSession

inductive Nonterminal
  | script | stmt | expr | operations | unary | atom | path | args | exprs

/-- `Derives symbol ts`: the tokens `ts` are derived from the symbol. An integer is at most the
greatest word, or greater by one directly after the minus sign of a `unary`. -/
inductive Derives : Nonterminal → List Lexeme → Prop
  | empty : Derives .script []
  | last {ts : List Lexeme} : Derives .stmt ts → Derives .script ts
  | semi {t : Lexeme} {ts : List Lexeme} :
      t.token = .semi → Derives .script ts → Derives .script (t :: ts)
  | more {t : Lexeme} {ts us : List Lexeme} :
      Derives .stmt ts → t.token = .semi → Derives .script us → Derives .script (ts ++ t :: us)
  | bind {t n a : Lexeme} {ts : List Lexeme} :
      t.token = .kwLet → n.token = .ident → a.token = .assign → Derives .expr ts →
      Derives .stmt (t :: n :: a :: ts)
  | use {t : Lexeme} {ts : List Lexeme} :
      t.token = .kwUse → Derives .path ts → Derives .stmt (t :: ts)
  | value {ts : List Lexeme} : Derives .expr ts → Derives .stmt ts
  | expr {ts us : List Lexeme} :
      Derives .unary ts → Derives .operations us → Derives .expr (ts ++ us)
  | done : Derives .operations []
  | operation {t : Lexeme} {op : BinaryOp} {ts us : List Lexeme} :
      BinaryOp.ofToken? t.token = some op → Derives .unary ts → Derives .operations us →
      Derives .operations (t :: (ts ++ us))
  | sign {t : Lexeme} {ts : List Lexeme} :
      t.token = .minus ∨ t.token = .bang → Derives .unary ts → Derives .unary (t :: ts)
  | least {t u : Lexeme} :
      t.token = .minus → u.token = .int →
      Text.readDigits? u.text.toList = some 9223372036854775808 → Derives .unary [t, u]
  | unsigned {ts : List Lexeme} : Derives .atom ts → Derives .unary ts
  | int {t : Lexeme} {v : Nat} :
      t.token = .int → Text.readDigits? t.text.toList = some v → v ≤ 9223372036854775807 →
      Derives .atom [t]
  | constant {t : Lexeme} :
      t.token = .str ∨ t.token = .kwTrue ∨ t.token = .kwFalse → Derives .atom [t]
  | paren {t u : Lexeme} {ts : List Lexeme} :
      t.token = .lparen → Derives .expr ts → u.token = .rparen → Derives .atom (t :: (ts ++ [u]))
  | call {n t u : Lexeme} {ts : List Lexeme} :
      n.token = .ident → t.token = .lparen → Derives .args ts → u.token = .rparen →
      Derives .atom (n :: t :: (ts ++ [u]))
  | name {ts : List Lexeme} : Derives .path ts → Derives .atom ts
  | segment {n : Lexeme} : n.token = .ident → Derives .path [n]
  | dotted {n d : Lexeme} {ts : List Lexeme} :
      n.token = .ident → d.token = .dot → Derives .path ts → Derives .path (n :: d :: ts)
  | noArgs : Derives .args []
  | someArgs {ts : List Lexeme} : Derives .exprs ts → Derives .args ts
  | lastArg {ts : List Lexeme} : Derives .expr ts → Derives .exprs ts
  | moreArgs {t : Lexeme} {ts us : List Lexeme} :
      Derives .expr ts → t.token = .comma → Derives .exprs us → Derives .exprs (ts ++ t :: us)

def Clause.symbol : Clause → Nonterminal
  | path _ _ => .path
  | atom _ => .atom
  | unary _ => .unary
  | operations _ => .operations
  | expr _ => .expr
  | args _ => .args
  | exprs _ => .exprs

theorem Spells.derives {clause : Clause} {ts : List Lexeme} (h : Spells clause ts) :
    Derives clause.symbol ts := by
  induction h with
  | segment hn => exact .segment hn
  | dotted hn hd _ ih => exact .dotted hn hd ih
  | int ht hn =>
    obtain ⟨v, hv, hle⟩ := Word.exists_ofDigits?_iff.1 ⟨_, hn⟩
    exact .int ht hv hle
  | str ht => exact .constant (.inl ht)
  | @bool t b ht =>
    cases b with
    | true => exact .constant (.inr (.inl ht))
    | false => exact .constant (.inr (.inr ht))
  | paren ht _ hu ih => exact .paren ht ih hu
  | call hn ht _ hu ih => exact .call hn ht ih hu
  | name _ ih => exact .name ih
  | negated ht hu hn =>
    obtain ⟨v, hv, hle⟩ := Word.exists_ofNegatedDigits?_iff.1 ⟨_, hn⟩
    obtain hlt | rfl := Nat.lt_or_eq_of_le hle
    · exact .sign (.inl ht) (.unsigned (.int hu hv (Nat.le_of_lt_succ hlt)))
    · exact .least ht hu hv
  | neg ht _ _ ih => exact .sign (.inl ht) ih
  | not ht _ ih => exact .sign (.inr ht) ih
  | unsigned _ ih => exact .unsigned ih
  | done => exact .done
  | operation ht _ _ ihu iho => exact .operation ht ihu iho
  | expr _ _ _ ihu iho => exact .expr ihu iho
  | noArgs => exact .noArgs
  | someArgs _ ih => exact .someArgs ih
  | lastArg _ ih => exact .lastArg ih
  | moreArgs _ ht _ ihe iha => exact .moreArgs ihe ht iha

theorem SpellsStmt.derives {kind : StmtKind} {span : Span} {ts : List Lexeme}
    (h : SpellsStmt kind span ts) : Derives .stmt ts := by
  cases h with
  | bind ht hn ha he => exact .bind ht hn ha he.derives
  | use ht hp => exact .use ht hp.derives
  | expr he => exact .value he.derives

theorem SpellsScript.derives {script : Script} {ts : List Lexeme} (h : SpellsScript script ts) :
    Derives .script ts := by
  induction h with
  | nil => exact .empty
  | semi ht _ ih => exact .semi ht ih
  | last hs => exact .last hs.derives
  | more hs ht _ ih => exact .more hs.derives ht ih

/-- Whether tokens spell something that is derived from the symbol. -/
def Nonterminal.Spelled (ts : List Lexeme) : Nonterminal → Prop
  | script => ∃ s, SpellsScript s ts
  | stmt => ∃ kind span, SpellsStmt kind span ts
  | expr => ∃ e, Spells (.expr e) ts
  | operations => ∃ items, Spells (.operations items) ts
  | unary => ∃ e, Spells (.unary e) ts
  | atom => ∃ e, Spells (.atom e) ts
  | path => ∃ segments span, Spells (.path segments span) ts
  | args => ∃ es, Spells (.args es) ts
  | exprs => ∃ es, Spells (.exprs es) ts

/-- A minus sign before an operand is folded into it where that is an integer literal. -/
theorem Spells.exists_negation {t : Lexeme} {e : Expr} {ts : List Lexeme} (ht : t.token = .minus)
    (h : Spells (.unary e) ts) : ∃ e', Spells (.unary e') (t :: ts) := by
  obtain ⟨u, us, rfl, -⟩ := h.opens
  by_cases hu : u.token = .int
  · obtain ⟨rfl, hdigits⟩ := h.of_int_ahead hu
    obtain ⟨v, hv, hle⟩ := Word.exists_ofDigits?_iff.1 hdigits
    obtain ⟨n, hn⟩ := Word.exists_ofNegatedDigits?_iff.2 ⟨v, hv, Nat.le_succ_of_le hle⟩
    exact ⟨_, .negated ht hu hn⟩
  · exact ⟨_, .neg ht hu h⟩

theorem Derives.spelled {symbol : Nonterminal} {ts : List Lexeme} (h : Derives symbol ts) :
    symbol.Spelled ts := by
  induction h with
  | empty => exact ⟨_, .nil⟩
  | last _ ih =>
    obtain ⟨kind, span, hs⟩ := ih
    exact ⟨_, .last hs⟩
  | semi ht _ ih =>
    obtain ⟨script, hs⟩ := ih
    exact ⟨script, .semi ht hs⟩
  | more _ ht _ ihs ihr =>
    obtain ⟨kind, span, hs⟩ := ihs
    obtain ⟨script, hr⟩ := ihr
    exact ⟨_, .more hs ht hr⟩
  | bind ht hn ha _ ih =>
    obtain ⟨e, he⟩ := ih
    exact ⟨_, _, .bind ht hn ha he⟩
  | use ht _ ih =>
    obtain ⟨segments, span, hp⟩ := ih
    exact ⟨_, _, .use ht hp⟩
  | value _ ih =>
    obtain ⟨e, he⟩ := ih
    exact ⟨_, _, .expr he⟩
  | expr _ _ ihu iho =>
    obtain ⟨first, hf⟩ := ihu
    obtain ⟨items, hi⟩ := iho
    obtain ⟨e, hg⟩ := Groups.exists_groups first items
    exact ⟨e, .expr hf hi hg⟩
  | done => exact ⟨_, .done⟩
  | operation ht _ _ ihu iho =>
    obtain ⟨e, he⟩ := ihu
    obtain ⟨items, hi⟩ := iho
    exact ⟨_, .operation ht he hi⟩
  | sign ht _ ih =>
    obtain ⟨e, he⟩ := ih
    obtain ht | ht := ht
    · exact he.exists_negation ht
    · exact ⟨_, .not ht he⟩
  | least ht hu hv =>
    obtain ⟨n, hn⟩ := Word.exists_ofNegatedDigits?_iff.2 ⟨_, hv, Nat.le_refl _⟩
    exact ⟨_, .negated ht hu hn⟩
  | unsigned _ ih =>
    obtain ⟨e, he⟩ := ih
    exact ⟨e, .unsigned he⟩
  | int ht hv hle =>
    obtain ⟨n, hn⟩ := Word.exists_ofDigits?_iff.2 ⟨_, hv, hle⟩
    exact ⟨_, .int ht hn⟩
  | constant ht =>
    obtain ht | ht | ht := ht
    · exact ⟨_, .str ht⟩
    · exact ⟨_, .bool (b := true) ht⟩
    · exact ⟨_, .bool (b := false) ht⟩
  | paren ht _ hu ih =>
    obtain ⟨e, he⟩ := ih
    exact ⟨_, .paren ht he hu⟩
  | call hn ht _ hu ih =>
    obtain ⟨es, ha⟩ := ih
    exact ⟨_, .call hn ht ha hu⟩
  | name _ ih =>
    obtain ⟨segments, span, hp⟩ := ih
    exact ⟨_, .name hp⟩
  | segment hn => exact ⟨_, _, .segment hn⟩
  | dotted hn hd _ ih =>
    obtain ⟨segments, span, hp⟩ := ih
    exact ⟨_, _, .dotted hn hd hp⟩
  | noArgs => exact ⟨_, .noArgs⟩
  | someArgs _ ih =>
    obtain ⟨es, ha⟩ := ih
    exact ⟨es, .someArgs ha⟩
  | lastArg _ ih =>
    obtain ⟨e, he⟩ := ih
    exact ⟨_, .lastArg he⟩
  | moreArgs _ ht _ ihe iha =>
    obtain ⟨e, he⟩ := ihe
    obtain ⟨es, ha⟩ := iha
    exact ⟨_, .moreArgs he ht ha⟩

/-- A text parses if and only if it has no stray pieces and its tokens without comments are derived
from the grammar. What it parses as is the script that they spell, in which every expression groups
its row of operands by binding power, to the left among equals, and a statement is terminated where
a semicolon follows it. -/
theorem parse_accepts_grammar (source : String) :
    ((∃ script, parse source = .ok script) ↔
      (lex source.toList).strays = [] ∧
        Derives .script (significant (lex source.toList).tokens)) ∧
    ∀ script, parse source = .ok script ↔
      (lex source.toList).strays = [] ∧
        SpellsScript script (significant (lex source.toList).tokens) := by
  have hparse (script : Script) : parse source = .ok script ↔
      (lex source.toList).strays = [] ∧
        SpellsScript script (significant (lex source.toList).tokens) := by
    rw [parse_eq_ok_iff, readsScript_iff_spells]
  refine ⟨?_, hparse⟩
  constructor
  · rintro ⟨script, h⟩
    obtain ⟨hstrays, hs⟩ := (hparse script).1 h
    exact ⟨hstrays, hs.derives⟩
  · rintro ⟨hstrays, hd⟩
    obtain ⟨script, hs⟩ := hd.spelled
    exact ⟨script, (hparse script).2 ⟨hstrays, hs⟩⟩

end ScriptSession
