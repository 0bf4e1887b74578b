import Mathlib.Data.List.Basic
import ScriptSession.Proofs.Munch
import ScriptSession.Proofs.Numeral
import ScriptSession.Proofs.Lexing

namespace ScriptSession

def Lexeme.word (t : Lexeme) : Token × String :=
  (t.token, t.text)

def escapedChar (c : Char) : List Char :=
  if c = '\\' then ['\\', '\\']
  else if c = '"' then ['\\', '"']
  else if c = '\n' then ['\\', 'n']
  else if c = '\r' then ['\\', '\r']
  else [c]

def quoted (s : String) : String :=
  String.ofList ('"' :: (s.toList.flatMap escapedChar ++ ['"']))

def numeral (n : Nat) : String :=
  String.ofList (Nat.toDigits 10 n)

def Literal.words : Literal → List (Token × String)
  | int n =>
    if n.toInt < 0 then [(.minus, "-"), (.int, numeral n.toInt.natAbs)]
    else [(.int, numeral n.toInt.natAbs)]
  | str s => [(.str, quoted s)]
  | bool true => [(.kwTrue, "true")]
  | bool false => [(.kwFalse, "false")]

def UnaryOp.token : UnaryOp → Token
  | neg => .minus
  | not => .bang

def BinaryOp.token : BinaryOp → Token
  | add => .plus
  | sub => .minus
  | mul => .star
  | div => .slash
  | rem => .percent
  | eq => .eqEq
  | notEq => .notEq
  | lt => .lt
  | ltEq => .ltEq
  | gt => .gt
  | gtEq => .gtEq
  | and => .andAnd
  | or => .orOr

def pathWords (segments : List String) : List (Token × String) :=
  [(.dot, ".")].intercalate (segments.map fun s => [(.ident, s)])

def enclosed (b : Bool) (words : List (Token × String)) : List (Token × String) :=
  if b then (.lparen, "(") :: (words ++ [(.rparen, ")")]) else words

namespace Expr

/-- How tightly an expression holds together: a binary one as its operator, any other tighter than
every operator. -/
def rank : Expr → Nat
  | binary _ op _ _ => op.power
  | _ => 7

/-- Whether an operand needs parentheses after a sign: where it is binary, and after a minus sign
where it is an integer that would be read together with the sign. -/
def loose (op : UnaryOp) : Expr → Bool
  | binary .. => true
  | literal _ (.int n) => op = .neg ∧ 0 ≤ n.toInt
  | _ => false

def words : Expr → List (Token × String)
  | literal _ v => v.words
  | path _ segments => pathWords segments
  | unary _ op e => (op.token, op.symbol) :: enclosed (e.loose op) e.words
  | binary _ op l r =>
    enclosed (l.rank < op.power) l.words ++
      (op.token, op.symbol) :: enclosed (r.rank ≤ op.power) r.words
  | call _ name args =>
    (.ident, name) :: (.lparen, "(") ::
      ([(.comma, ",")].intercalate (args.map words) ++ [(.rparen, ")")])

end Expr

def StmtKind.words : StmtKind → List (Token × String)
  | bind name value => (.kwLet, "let") :: (.ident, name) :: (.assign, "=") :: value.words
  | use segments => (.kwUse, "use") :: pathWords segments
  | expr value => value.words

def Stmt.words (s : Stmt) : List (Token × String) :=
  s.kind.words ++ if s.terminated then [(.semi, ";")] else []

def Script.words (script : Script) : List (Token × String) :=
  script.flatMap Stmt.words

def Script.print (script : Script) : String :=
  " ".intercalate (script.words.map Prod.snd)

/-- Whether a text is an identifier that is no keyword. -/
def IsIdentifier (s : String) : Prop :=
  ∃ c cs, s.toList = c :: cs ∧ Lexer.isWordStart c = true ∧
    (∀ d ∈ cs, Lexer.isWordPart d = true) ∧ s ∉ Token.keywords

def IsPath (segments : List String) : Prop :=
  segments ≠ [] ∧ ∀ s ∈ segments, IsIdentifier s

/-- Whether the paths and the called names of an expression are identifiers. -/
inductive Expr.Named : Expr → Prop
  | literal (span : Span) (v : Literal) : Named (.literal span v)
  | path {span : Span} {segments : List String} : IsPath segments → Named (.path span segments)
  | unary {span : Span} {op : UnaryOp} {e : Expr} : Named e → Named (.unary span op e)
  | binary {span : Span} {op : BinaryOp} {l r : Expr} :
      Named l → Named r → Named (.binary span op l r)
  | call {span : Span} {name : String} {args : List Expr} :
      IsIdentifier name → (∀ a ∈ args, Named a) → Named (.call span name args)

def StmtKind.Named : StmtKind → Prop
  | bind name value => IsIdentifier name ∧ value.Named
  | use segments => IsPath segments
  | expr value => value.Named

theorem Token.ofWord_eq_ident_iff {word : List Char} :
    ofWord word = .ident ↔ String.ofList word ∉ keywords := by
  constructor
  · intro h hm
    have hkeyword : ∀ k ∈ keywords, ofWord k.toList ≠ .ident := by decide
    have hne := hkeyword _ hm
    rw [String.toList_ofList] at hne
    exact hne h
  · intro h
    have hne (k : String) (hk : k ∈ keywords) : word ≠ k.toList := by
      rintro rfl
      rw [String.ofList_toList] at h
      exact h hk
    have hlet : word ≠ ['l', 'e', 't'] := hne "let" (by decide)
    have huse : word ≠ ['u', 's', 'e'] := hne "use" (by decide)
    have htrue : word ≠ ['t', 'r', 'u', 'e'] := hne "true" (by decide)
    have hfalse : word ≠ ['f', 'a', 'l', 's', 'e'] := hne "false" (by decide)
    rw [ofWord, if_neg hlet, if_neg huse, if_neg htrue, if_neg hfalse]

namespace Lexer

/-- Whether a word is read as its token at the end of a text and before a space. -/
def Readable (w : Token × String) : Prop :=
  w.1 ≠ .comment ∧ ∃ c cs, w.2.toList = c :: cs ∧ isGap c = false ∧
    ∀ rest : List Char, (∀ d ∈ rest.head?, d = ' ') → munch c (cs ++ rest) = (.token w.1, cs, rest)

theorem eq_of_isGap {c : Char} (h : isGap c = true) : c = ' ' ∨ c = '\t' ∨ c = '\r' ∨ c = '\n' := by
  simpa only [isGap, Bool.or_eq_true, decide_eq_true_eq, or_assoc] using h

theorem isGap_of_isDigit {c : Char} (h : c.isDigit = true) : isGap c = false := by
  refine Bool.eq_false_iff.2 fun hg => ?_
  obtain rfl | rfl | rfl | rfl := eq_of_isGap hg <;> cases h

theorem isGap_of_isWordStart {c : Char} (h : isWordStart c = true) : isGap c = false := by
  refine Bool.eq_false_iff.2 fun hg => ?_
  obtain rfl | rfl | rfl | rfl := eq_of_isGap hg <;> cases h

theorem isDigit_of_isWordStart {c : Char} (h : isWordStart c = true) : c.isDigit = false := by
  refine Bool.eq_false_iff.2 fun hd => ?_
  have hu : c ≠ '_' := by
    rintro rfl
    cases hd
  simp only [isWordStart, isAlpha_eq, hu, decide_false, Bool.or_false, Bool.or_eq_true,
    Bool.and_eq_true, decide_eq_true_eq, ge_iff_le, UInt32.le_iff_toNat_le, Char.toNat_val] at h
  simp only [Char.isDigit, Bool.and_eq_true, decide_eq_true_eq, ge_iff_le,
    UInt32.le_iff_toNat_le, Char.toNat_val] at hd
  simp only [↓Char.isValue, Char.reduceToNat] at h hd
  omega

theorem munch_digits {c : Char} (hc : c.isDigit = true) (cs : List Char) :
    munch c cs = spanning (.token .int) Char.isDigit cs := by
  unfold munch
  rw [isGap_of_isDigit hc, hc]
  rfl

theorem munch_word {c : Char} (hc : isWordStart c = true) (cs : List Char) :
    munch c cs = takeWord c cs := by
  unfold munch
  rw [isGap_of_isWordStart hc, isDigit_of_isWordStart hc, hc]
  rfl

theorem readable_numeral (n : Nat) : Readable (.int, numeral n) := by
  have hdigits : ∀ d ∈ Nat.toDigits 10 n, d.isDigit = true := fun d hd =>
    Nat.isDigit_of_mem_toDigits (by decide) (by decide) hd
  obtain ⟨c, cs, hcs⟩ := List.exists_cons_of_ne_nil (Nat.toDigits_ne_nil (n := n) (b := 10))
  rw [hcs] at hdigits
  obtain ⟨hc, hrun⟩ := List.forall_mem_cons.1 hdigits
  refine ⟨nofun, c, cs, ?_, isGap_of_isDigit hc, fun rest hrest => ?_⟩
  · rw [numeral, String.toList_ofList, hcs]
  · obtain ⟨htake, hdrop⟩ := run_ends hrun fun d hd => hrest d hd ▸ rfl
    rw [munch_digits hc, spanning, htake, hdrop]

theorem munch_identifier {s : String} (h : IsIdentifier s) :
    ∃ c cs, s.toList = c :: cs ∧ isGap c = false ∧
      ∀ rest : List Char, (∀ d ∈ rest.head?, isWordPart d = false) →
        munch c (cs ++ rest) = (.token .ident, cs, rest) := by
  obtain ⟨c, cs, hs, hc, hcs, hk⟩ := h
  rw [← s.ofList_toList, hs, ← Token.ofWord_eq_ident_iff] at hk
  refine ⟨c, cs, hs, isGap_of_isWordStart hc, fun rest hrest => ?_⟩
  obtain ⟨htake, hdrop⟩ := run_ends hcs hrest
  rw [munch_word hc, takeWord, htake, hdrop, hk]

theorem readable_identifier {s : String} (h : IsIdentifier s) : Readable (.ident, s) := by
  obtain ⟨c, cs, hs, hc, hmunch⟩ := munch_identifier h
  exact ⟨nofun, c, cs, hs, hc, fun rest hrest => hmunch rest fun d hd => hrest d hd ▸ rfl⟩

theorem escapedChar_cases (c : Char) :
    (∃ d, escapedChar c = ['\\', d] ∧ d ≠ '\n' ∧ Token.escaped d = c) ∨
      escapedChar c = [c] ∧ ¬ (c = '"' ∨ c = '\\' ∨ c = '\n' ∨ c = '\r') := by
  unfold escapedChar
  split_ifs with hb hq hn hr
  · exact .inl ⟨'\\', rfl, by decide, hb.symm⟩
  · exact .inl ⟨'"', rfl, by decide, hq.symm⟩
  · exact .inl ⟨'n', rfl, by decide, hn.symm⟩
  · exact .inl ⟨'\r', rfl, by decide, hr.symm⟩
  · refine .inr ⟨rfl, ?_⟩
    rintro (h | h | h | h)
    · exact hq h
    · exact hb h
    · exact hn h
    · exact hr h

theorem isBody_escaped (s : List Char) : IsBody (s.flatMap escapedChar) := by
  apply IsBody.flatMap
  intro c
  obtain ⟨d, hc, hd, -⟩ | ⟨hc, hplain⟩ := escapedChar_cases c
  · rw [hc]
    exact .escape hd .nil
  · rw [hc]
    exact .plain hplain .nil

theorem readable_quoted (s : String) : Readable (.str, quoted s) := by
  refine ⟨nofun, '"', s.toList.flatMap escapedChar ++ ['"'], String.toList_ofList, rfl, ?_⟩
  intro rest _
  rw [List.append_assoc]
  exact takeQuote_body (isBody_escaped s.toList) rest

/-- A word whose extent is seen from its end or from the space after it. -/
theorem readable_of_ends {token : Token} {text : String} {c : Char} {cs : List Char}
    (ht : token ≠ .comment) (htext : text.toList = c :: cs) (hc : isGap c = false)
    (hnil : munch c (cs ++ []) = (.token token, cs, []))
    (hspace : ∀ rest, munch c (cs ++ ' ' :: rest) = (.token token, cs, ' ' :: rest)) :
    Readable (token, text) := by
  refine ⟨ht, c, cs, htext, hc, fun rest hrest => ?_⟩
  cases rest with
  | nil => exact hnil
  | cons d rest =>
    cases hrest d rfl
    exact hspace rest

theorem readable_binary (op : BinaryOp) : Readable (op.token, op.symbol) := by
  cases op <;> exact readable_of_ends nofun rfl rfl rfl fun _ => rfl

theorem readable_unary (op : UnaryOp) : Readable (op.token, op.symbol) := by
  cases op <;> exact readable_of_ends nofun rfl rfl rfl fun _ => rfl

def fixedWords : List (Token × String) :=
  [(.lparen, "("), (.rparen, ")"), (.comma, ","), (.dot, "."), (.semi, ";"), (.assign, "="),
    (.minus, "-"), (.kwLet, "let"), (.kwUse, "use"), (.kwTrue, "true"), (.kwFalse, "false")]

theorem readable_fixed {w : Token × String} (h : w ∈ fixedWords) : Readable w := by
  have hall : ∀ w ∈ fixedWords, Readable w := by
    simp only [fixedWords, List.forall_mem_cons, List.not_mem_nil, false_implies, implies_true,
      and_true]
    refine ⟨?_, ?_, ?_, ?_, ?_, ?_, ?_, ?_, ?_, ?_, ?_⟩
    all_goals exact readable_of_ends nofun rfl rfl rfl fun _ => rfl
  exact hall w h

theorem readable_enclosed {b : Bool} {words : List (Token × String)}
    (h : ∀ w ∈ words, Readable w) : ∀ w ∈ enclosed b words, Readable w := by
  unfold enclosed
  split
  · refine List.forall_mem_cons.2 ⟨readable_fixed (by decide), List.forall_mem_append.2 ⟨h, ?_⟩⟩
    exact List.forall_mem_singleton.2 (readable_fixed (by decide))
  · exact h

theorem readable_intercalate {w : Token × String} {parts : List (List (Token × String))}
    (hw : Readable w) (h : ∀ words ∈ parts, ∀ w ∈ words, Readable w) :
    ∀ v ∈ [w].intercalate parts, Readable v := by
  induction parts with
  | nil => exact List.forall_mem_nil _
  | cons words parts ih =>
    obtain ⟨hwords, hparts⟩ := List.forall_mem_cons.1 h
    cases parts with
    | nil =>
      rw [List.intercalate_singleton]
      exact hwords
    | cons words' parts =>
      rw [List.intercalate_cons_cons, List.append_assoc]
      refine List.forall_mem_append.2 ⟨hwords, List.forall_mem_append.2 ⟨?_, ih hparts⟩⟩
      exact List.forall_mem_singleton.2 hw

theorem readable_path {segments : List String} (h : IsPath segments) :
    ∀ w ∈ pathWords segments, Readable w := by
  refine readable_intercalate (readable_fixed (by decide)) fun words hwords => ?_
  obtain ⟨s, hs, rfl⟩ := List.mem_map.1 hwords
  exact List.forall_mem_singleton.2 (readable_identifier (h.2 s hs))

theorem readable_literal (v : Literal) : ∀ w ∈ v.words, Readable w := by
  cases v with
  | int n =>
    rw [Literal.words]
    split
    · refine List.forall_mem_cons.2 ⟨readable_fixed (by decide), ?_⟩
      exact List.forall_mem_singleton.2 (readable_numeral _)
    · exact List.forall_mem_singleton.2 (readable_numeral _)
  | str s => exact List.forall_mem_singleton.2 (readable_quoted s)
  | bool b => cases b <;> exact List.forall_mem_singleton.2 (readable_fixed (by decide))

theorem readable_expr {e : Expr} (h : e.Named) : ∀ w ∈ e.words, Readable w := by
  induction h with
  | literal span v =>
    rw [Expr.words]
    exact readable_literal v
  | path hp =>
    rw [Expr.words]
    exact readable_path hp
  | @unary _ op _ _ ih =>
    rw [Expr.words]
    exact List.forall_mem_cons.2 ⟨readable_unary op, readable_enclosed ih⟩
  | @binary _ op _ _ _ _ ihl ihr =>
    rw [Expr.words]
    refine List.forall_mem_append.2 ⟨readable_enclosed ihl, ?_⟩
    exact List.forall_mem_cons.2 ⟨readable_binary op, readable_enclosed ihr⟩
  | @call _ name args hname _ ih =>
    have hargs : ∀ words ∈ args.map Expr.words, ∀ w ∈ words, Readable w := by
      intro words hwords
      obtain ⟨a, ha, rfl⟩ := List.mem_map.1 hwords
      exact ih a ha
    rw [Expr.words]
    refine List.forall_mem_cons.2 ⟨readable_identifier hname, List.forall_mem_cons.2
      ⟨readable_fixed (by decide), List.forall_mem_append.2 ⟨?_, ?_⟩⟩⟩
    · exact readable_intercalate (readable_fixed (by decide)) hargs
    · exact List.forall_mem_singleton.2 (readable_fixed (by decide))

theorem readable_kind {kind : StmtKind} (h : kind.Named) : ∀ w ∈ kind.words, Readable w := by
  cases kind with
  | bind name value =>
    refine List.forall_mem_cons.2 ⟨readable_fixed (by decide), List.forall_mem_cons.2
      ⟨readable_identifier h.1, List.forall_mem_cons.2 ⟨readable_fixed (by decide), ?_⟩⟩⟩
    exact readable_expr h.2
  | use segments =>
    exact List.forall_mem_cons.2 ⟨readable_fixed (by decide), readable_path h⟩
  | expr value => exact readable_expr h

theorem readable_script {script : Script} (h : ∀ s ∈ script, s.kind.Named) :
    ∀ w ∈ script.words, Readable w := by
  intro w hw
  obtain ⟨s, hs, hmem⟩ := List.mem_flatMap.1 hw
  obtain hmem | hmem := List.mem_append.1 hmem
  · exact readable_kind (h s hs) w hmem
  · split at hmem
    · rw [List.mem_singleton.1 hmem]
      exact readable_fixed (by decide)
    · cases hmem

theorem pieces_readable {w : Token × String} (h : Readable w) (offset : Nat) :
    pieces offset w.2.toList = [⟨.token w.1, w.2.toList, offset⟩] := by
  obtain ⟨-, c, cs, hw, hgap, hmunch⟩ := h
  have hend := hmunch [] nofun
  rw [List.append_nil] at hend
  rw [hw, pieces_cons hgap, hend, pieces_nil]

theorem pieces_words {words : List (Token × String)} (h : ∀ w ∈ words, Readable w)
    (offset : Nat) :
    (pieces offset ([' '].intercalate (words.map fun w => w.2.toList))).map
        (fun f => (f.piece, f.chars)) =
      words.map fun w => (.token w.1, w.2.toList) := by
  induction words generalizing offset with
  | nil => simp [List.intercalate_nil]
  | cons w words ih =>
    obtain ⟨hreadable, hwords⟩ := List.forall_mem_cons.1 h
    cases words with
    | nil =>
      rw [List.map_singleton, List.intercalate_singleton, pieces_readable hreadable]
      rfl
    | cons w' words =>
      obtain ⟨-, c, cs, hw, hgap, hmunch⟩ := hreadable
      have hrest := hmunch (' ' :: [' '].intercalate ((w' :: words).map fun w => w.2.toList))
        fun d hd => by cases hd; rfl
      rw [List.map_cons, List.map_cons, List.intercalate_cons_cons, List.append_assoc,
        List.singleton_append, hw, List.cons_append, pieces_cons hgap]
      rw [List.map_cons] at hrest
      rw [hrest, List.map_cons, pieces_gap rfl]
      have hword : (Piece.token w.1, c :: cs) = (Piece.token w.1, w.2.toList) := by rw [hw]
      exact congrArg₂ List.cons hword (ih hwords _)

end Lexer

theorem words_of_pieces {fs : List Fragment} {words : List (Token × String)}
    (h : fs.map (fun f => (f.piece, f.chars)) = words.map fun w => (.token w.1, w.2.toList)) :
    fs.filterMap Fragment.stray? = [] ∧
      (fs.filterMap Fragment.lexeme?).map Lexeme.word = words := by
  induction fs generalizing words with
  | nil =>
    rw [List.map_eq_nil_iff.1 h.symm]
    exact ⟨rfl, rfl⟩
  | cons f fs ih =>
    cases words with
    | nil => cases h
    | cons w words =>
      obtain ⟨hf, hfs⟩ := List.cons.inj h
      obtain ⟨hpiece, hchars⟩ := Prod.mk.inj hf
      obtain ⟨hstrays, hwords⟩ := ih hfs
      have hstray : f.stray? = none := by rw [Fragment.stray?, hpiece]
      have hlexeme : f.lexeme? = some ⟨w.1, w.2, f.span⟩ := by
        rw [Fragment.lexeme?, hpiece, hchars, String.ofList_toList]
      rw [List.filterMap_cons_none hstray, List.filterMap_cons_some hlexeme, List.map_cons, hwords]
      exact ⟨hstrays, rfl⟩

theorem lex_of_pieces {cs : List Char} {words : List (Token × String)}
    (h : (Lexer.pieces 0 cs).map (fun f => (f.piece, f.chars)) =
      words.map fun w => (.token w.1, w.2.toList)) :
    (lex cs).strays = [] ∧ (lex cs).tokens.map Lexeme.word = words := by
  rw [strays_lex, tokens_lex]
  exact words_of_pieces h

theorem significant_of_words {ts : List Lexeme} {words : List (Token × String)}
    (h : ts.map Lexeme.word = words) (hwords : ∀ w ∈ words, w.1 ≠ .comment) :
    significant ts = ts := by
  refine List.filter_eq_self.2 fun t ht => decide_eq_true ?_
  have hmem : t.word ∈ words := h ▸ List.mem_map_of_mem ht
  exact hwords _ hmem

/-- A text of readable words has no stray pieces, and its tokens are the words. -/
theorem lex_words {words : List (Token × String)} (h : ∀ w ∈ words, Lexer.Readable w) :
    (lex (" ".intercalate (words.map Prod.snd)).toList).strays = [] ∧
      (significant (lex (" ".intercalate (words.map Prod.snd)).toList).tokens).map Lexeme.word =
        words := by
  have hchars : (" ".intercalate (words.map Prod.snd)).toList =
      [' '].intercalate (words.map fun w => w.2.toList) := by
    rw [String.toList_intercalate, List.map_map]
    rfl
  rw [hchars]
  obtain ⟨hstrays, hwords⟩ := lex_of_pieces (Lexer.pieces_words h 0)
  rw [significant_of_words hwords fun w hw => (h w hw).1]
  exact ⟨hstrays, hwords⟩

end ScriptSession
