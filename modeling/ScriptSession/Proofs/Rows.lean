import Mathlib.Data.List.Chain
import ScriptSession.Proofs.Meaning
import ScriptSession.Text.Lines

namespace ScriptSession

/-- In a row nothing but a comment stands after the other tokens. -/
theorem tokens_row {row : List Char} (h : '\n' ∉ row) :
    ∃ comments, (lex row).tokens = significant (lex row).tokens ++ comments ∧
      ∀ t ∈ comments, t.token ≠ .kwLet := by
  rw [tokens_lex]
  induction (0 : Nat), row using Lexer.pieces_induction with
  | nil offset =>
    rw [Lexer.pieces_nil]
    exact ⟨[], rfl, nofun⟩
  | gap offset c cs hc ih =>
    rw [Lexer.pieces_gap hc]
    exact ih fun hn => h (List.mem_cons_of_mem c hn)
  | piece offset c cs hc ih =>
    have hcs : '\n' ∉ cs := fun hn => h (List.mem_cons_of_mem c hn)
    have happend := Lexer.munch_append c cs
    obtain ⟨comments, hts, hcomments⟩ :=
      ih fun hn => hcs (happend ▸ List.mem_append_right _ hn)
    rw [Lexer.pieces_cons hc, List.filterMap_cons]
    rcases hp : (Lexer.munch c cs).1 with _ | t | _
    · exact ⟨comments, hts, hcomments⟩
    · dsimp only [Fragment.lexeme?]
      by_cases ht : t = .comment
      · subst ht
        have hrest : (Lexer.munch c cs).2.2 = [] := by
          rw [(Lexer.takes_munch hc).comment hp, List.dropWhile_eq_nil_iff]
          exact fun d hd => decide_eq_true fun hdn : d = '\n' => hcs (hdn ▸ hd)
        rw [hrest, Lexer.pieces_nil]
        exact ⟨_, rfl, List.forall_mem_singleton.2 nofun⟩
      · refine ⟨comments, ?_, hcomments⟩
        rw [significant_cons ht, List.cons_append, ← hts]
    · exact ⟨comments, hts, hcomments⟩

namespace Outline

theorem letNames_row {row : List Char} (h : '\n' ∉ row)
    (hb : LetsBound (significant (lex row).tokens)) :
    LetsBound (lex row).tokens ∧
      letNames (lex row).tokens = letNames (significant (lex row).tokens) := by
  obtain ⟨comments, hts, hc⟩ := tokens_row h
  have hbound := hb.append (letsBound_of_forall_ne hc)
  have hnames := letNames_append hb comments
  rw [letNames_of_forall_ne hc, List.append_nil, ← hts] at hnames
  rw [← hts] at hbound
  exact ⟨hbound, hnames⟩

/-- Whether every `let` of a text stands on the line of the name after it. -/
def LetsOnOneLine (cs : List Char) : Prop :=
  (significant (lex cs).tokens).IsChain fun t n => t.token = .kwLet → n.token = .ident →
    (Position.ofOffset cs t.span.start).line = (Position.ofOffset cs n.span.start).line

instance (cs : List Char) : Decidable (LetsOnOneLine cs) :=
  inferInstanceAs (Decidable (List.IsChain _ _))

theorem LetsOnOneLine.newline {a b : List Char} (h : LetsOnOneLine (a ++ '\n' :: b))
    (hb : LetsBound (significant (lex (a ++ '\n' :: b)).tokens)) :
    LetsBound (significant (lex a).tokens) ∧ LetsOnOneLine b ∧
      LetsBound (significant (lex b).tokens) := by
  unfold LetsOnOneLine at h
  rw [significant_newline] at h hb
  obtain ⟨-, hback, hcut⟩ := List.isChain_append.1 h
  refine ⟨hb.left fun t ht hl hnext => ?_, ?_, ?_⟩
  · obtain ⟨n, hn, hident⟩ := Option.map_eq_some_iff.1 hnext
    have hlines := hcut t ht n hn hl hident
    rw [List.head?_map] at hn
    obtain ⟨m, -, rfl⟩ := Option.map_eq_some_iff.1 hn
    rw [Lexeme.shift_span, Span.shift_start, Nat.add_comm m.span.start,
      Position.ofOffset_newline] at hlines
    have hle := Position.line_walk_append_le .first
      (start_le_of_mem_tokens (List.mem_of_mem_filter (List.mem_of_getLast? ht))) ('\n' :: b)
    have hge := Position.le_line_walk .first b m.span.start
    change (Position.ofOffset _ _).line ≤ _ at hle
    rw [hlines] at hle
    simp only [Position.down, Position.first, Position.ofOffset] at hle hge
    omega
  · unfold LetsOnOneLine
    rw [List.isChain_map] at hback
    refine hback.imp fun t n hr hl hident => ?_
    have := hr hl hident
    simp only [Lexeme.shift_span, Span.shift_start, Nat.add_comm _ (Text.byteLength a + 1),
      Position.ofOffset_newline, Position.down] at this
    exact Nat.add_right_cancel this
  · exact hb.right.congr (map_meaning_shift _ _)

/-- Whether a row is left as it is, or emptied where it binds nothing. -/
def Emptied (row kept : List Char) : Prop :=
  kept = row ∨ kept = [] ∧ ∀ t ∈ (lex row).tokens, t.token ≠ .kwLet

theorem Emptied.letNames_eq {row kept : List Char} (h : Emptied row kept) (hn : '\n' ∉ row)
    (hb : LetsBound (significant (lex kept).tokens)) :
    LetsBound (lex row).tokens ∧
      letNames (lex row).tokens = letNames (significant (lex kept).tokens) := by
  obtain rfl | ⟨rfl, hnone⟩ := h
  · exact letNames_row hn hb
  · exact ⟨letsBound_of_forall_ne hnone, by
      rw [letNames_of_forall_ne hnone, tokens_lex_nil]
      rfl⟩

/-- Rows of which some that bind nothing are emptied bind what all of them bind. -/
theorem letNames_rows {rows kept : List (List Char)} (h : List.Forall₂ Emptied rows kept)
    (hn : ∀ row ∈ rows, '\n' ∉ row) (hlines : LetsOnOneLine (Text.joinWith ['\n'] kept))
    (hb : LetsBound (significant (lex (Text.joinWith ['\n'] kept)).tokens)) :
    LetsBound (lex (Text.joinWith ['\n'] rows)).tokens ∧
      letNames (lex (Text.joinWith ['\n'] rows)).tokens =
        letNames (significant (lex (Text.joinWith ['\n'] kept)).tokens) := by
  induction h with
  | nil => exact ⟨by rw [Text.joinWith, List.intercalate_nil, tokens_lex_nil]; trivial, by
      rw [Text.joinWith, List.intercalate_nil, tokens_lex_nil]; rfl⟩
  | @cons row k rows kept hrow hrest ih =>
    obtain ⟨hnrow, hnrest⟩ := List.forall_mem_cons.1 hn
    cases hrest with
    | nil =>
      simp only [Text.joinWith, List.intercalate_singleton] at hb ⊢
      exact hrow.letNames_eq hnrow hb
    | cons hnext hlast =>
      simp only [Text.joinWith, List.intercalate_cons_cons, List.append_assoc,
        List.singleton_append] at hlines hb ih ⊢
      obtain ⟨hfront, hlines', hback⟩ := hlines.newline hb
      obtain ⟨hbrow, hlrow⟩ := hrow.letNames_eq hnrow hfront
      obtain ⟨hbrest, hlrest⟩ := ih hnrest hlines' hback
      obtain ⟨hbound, hnames⟩ := letNames_newline hbrow hbrest
      refine ⟨hbound, ?_⟩
      rw [hnames, hlrow, hlrest, significant_newline, letNames_append hfront,
        letNames_congr (map_meaning_shift _ (significant _))]

end Outline
end ScriptSession
