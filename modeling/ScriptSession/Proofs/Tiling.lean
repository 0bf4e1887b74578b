import Mathlib.Data.List.Pairwise
import ScriptSession.Proofs.Shape

namespace ScriptSession

/-- Whether one of two spans ends before the other starts. -/
def Span.Apart (a b : Span) : Prop :=
  a.stop ≤ b.start ∨ b.stop ≤ a.start

/-- The text of a span between two characters of `cs` is `word`, and `rest` comes after it. -/
def Text.Slice (cs : List Char) (span : Span) (word rest : List Char) : Prop :=
  ∃ front, cs = front ++ (word ++ rest) ∧
    span = ⟨byteLength front, byteLength front + byteLength word⟩

namespace Lexing

def spans (l : Lexing) : List Span :=
  l.tokens.map (·.span) ++ l.strays.map (·.span)

/-- Whether tokens and stray pieces lie in a text one after the other, each on one line, with
nothing but blanks outside them. -/
structure Tiles (l : Lexing) (cs : List Char) : Prop where
  tokens : l.tokens.Pairwise fun t u => t.span.stop ≤ u.span.start
  strays : l.strays.Pairwise fun s r => s.span.stop ≤ r.span.start
  apart : ∀ t ∈ l.tokens, ∀ s ∈ l.strays, t.span.Apart s.span
  lines : ∀ span ∈ l.spans, span.start < span.stop ∧
    ∃ word rest, Text.Slice cs span word rest ∧ '\n' ∉ word
  blanks : ∀ byte < Text.byteLength cs, (∀ span ∈ l.spans, byte < span.start ∨ span.stop ≤ byte) →
    ∃ front c back, cs = front ++ c :: back ∧ Text.byteLength front = byte ∧
      c ∈ [' ', '\t', '\r', '\n']

end Lexing

namespace Lexer

theorem gap_of_outside {offset : Nat} {cs : List Char} {byte : Nat} (hstart : offset ≤ byte)
    (hstop : byte < offset + Text.byteLength cs)
    (h : ∀ f ∈ pieces offset cs, byte < f.span.start ∨ f.span.stop ≤ byte) :
    ∃ front c back, cs = front ++ c :: back ∧ offset + Text.byteLength front = byte ∧
      isGap c = true := by
  induction offset, cs using pieces_induction with
  | nil offset =>
    rw [Text.byteLength_nil] at hstop
    omega
  | gap offset c cs hc ih =>
    have hsize : c.utf8Size = 1 := by obtain rfl | rfl | rfl | rfl := eq_of_isGap hc <;> rfl
    rw [Text.byteLength_cons] at hstop
    rw [pieces_gap hc] at h
    obtain rfl | hlt := Nat.eq_or_lt_of_le hstart
    · exact ⟨[], c, cs, rfl, rfl, hc⟩
    · obtain ⟨front, d, back, rfl, hbyte, hd⟩ := ih (by omega) (by omega) h
      refine ⟨c :: front, d, back, rfl, ?_, hd⟩
      rw [Text.byteLength_cons]
      omega
  | piece offset c cs hc ih =>
    have hlength := congrArg Text.byteLength (munch_append c cs)
    rw [Text.byteLength_append] at hlength
    rw [pieces_cons hc] at h
    obtain ⟨hfirst, hrest⟩ := List.forall_mem_cons.1 h
    have hafter := hfirst.resolve_left (Nat.not_lt.2 hstart)
    simp only [Fragment.span, Text.byteLength_cons] at hafter hstop
    rw [Text.byteLength_cons] at ih hrest
    obtain ⟨front, d, back, hsplit, hbyte, hd⟩ := ih hafter (by omega) hrest
    refine ⟨c :: ((munch c cs).2.1 ++ front), d, back, ?_, ?_, hd⟩
    · rw [List.cons_append, List.append_assoc, ← hsplit, munch_append]
    · rw [Text.byteLength_cons, Text.byteLength_append]
      omega

end Lexer

theorem Fragment.span_stray? {f : Fragment} {s : Stray} (h : f.stray? = some s) :
    s.span = f.span ∧ f.piece = .stray ∧ f.chars = s.text.toList := by
  unfold stray? at h
  split at h
  next hpiece =>
    cases h
    exact ⟨rfl, hpiece, String.toList_ofList.symm⟩
  next => cases h

namespace Lexer

theorem longest_of_mem_pieces {cs : List Char} {f : Fragment} (h : f ∈ pieces 0 cs) :
    f.span.start < f.span.stop ∧ ∃ rest, Text.Slice cs f.span f.chars rest ∧
      ((∃ token, f.piece = .token token ∧ token.Longest f.chars rest) ∨
        f.piece = .stray ∧ LongestStray f.chars rest) := by
  obtain ⟨before, after, hp⟩ := List.append_of_mem h
  obtain ⟨front, back, hcs, hstart, -, -, -, c, tail, hc, hchars, hmunch⟩ := pieces_cut hp
  have hlongest := longest_munch hc (tail ++ back)
  rw [hmunch] at hlongest
  rw [Nat.zero_add] at hstart
  refine ⟨((pairwise_pieces 0 cs).1 f h).2, back, ⟨front, hcs, ?_⟩, ?_⟩
  · rw [Fragment.span, hstart]
  · rw [hchars]
    exact hlongest

theorem disjoint_pieces {cs : List Char} {f g : Fragment} (hf : f ∈ pieces 0 cs)
    (hg : g ∈ pieces 0 cs) (h : f ≠ g) : f.span.Apart g.span := by
  have : Std.Symm fun f g : Fragment => f.span.Apart g.span := ⟨fun _ _ => Or.symm⟩
  have hapart : (pieces 0 cs).Pairwise fun f g => f.span.Apart g.span :=
    (pairwise_pieces 0 cs).2.imp Or.inl
  exact hapart.forall hf hg h

end Lexer

theorem mem_spans_lex {cs : List Char} {span : Span} :
    span ∈ (lex cs).spans ↔ ∃ f ∈ Lexer.pieces 0 cs, f.span = span := by
  rw [Lexing.spans, List.mem_append, List.mem_map, List.mem_map, tokens_lex, strays_lex]
  constructor
  · rintro (⟨t, ht, rfl⟩ | ⟨s, hs, rfl⟩)
    · obtain ⟨f, hf, ht⟩ := List.mem_filterMap.1 ht
      exact ⟨f, hf, (Fragment.span_lexeme? ht).1.symm⟩
    · obtain ⟨f, hf, hs⟩ := List.mem_filterMap.1 hs
      exact ⟨f, hf, (Fragment.span_stray? hs).1.symm⟩
  · rintro ⟨f, hf, rfl⟩
    obtain ⟨-, rest, -, ⟨token, hpiece, -⟩ | ⟨hpiece, -⟩⟩ := Lexer.longest_of_mem_pieces hf
    · have ht : f.lexeme? = some ⟨token, String.ofList f.chars, f.span⟩ := by
        rw [Fragment.lexeme?, hpiece]
      exact .inl ⟨_, List.mem_filterMap.2 ⟨f, hf, ht⟩, rfl⟩
    · have hs : f.stray? = some ⟨String.ofList f.chars, f.span⟩ := by
        rw [Fragment.stray?, hpiece]
      exact .inr ⟨_, List.mem_filterMap.2 ⟨f, hf, hs⟩, rfl⟩

theorem longest_of_mem_tokens {cs : List Char} {t : Lexeme} (h : t ∈ (lex cs).tokens) :
    ∃ rest, Text.Slice cs t.span t.text.toList rest ∧ t.token.Longest t.text.toList rest := by
  rw [tokens_lex] at h
  obtain ⟨f, hf, ht⟩ := List.mem_filterMap.1 h
  obtain ⟨hspan, hpiece, hchars⟩ := Fragment.span_lexeme? ht
  obtain ⟨-, rest, hslice, ⟨token, htoken, hlongest⟩ | ⟨hstray, -⟩⟩ :=
    Lexer.longest_of_mem_pieces hf
  · cases hpiece.symm.trans htoken
    rw [hspan, ← hchars]
    exact ⟨rest, hslice, hlongest⟩
  · cases hpiece.symm.trans hstray

theorem longest_of_mem_strays {cs : List Char} {s : Stray} (h : s ∈ (lex cs).strays) :
    ∃ rest, Text.Slice cs s.span s.text.toList rest ∧ LongestStray s.text.toList rest := by
  rw [strays_lex] at h
  obtain ⟨f, hf, hs⟩ := List.mem_filterMap.1 h
  obtain ⟨hspan, hpiece, hchars⟩ := Fragment.span_stray? hs
  obtain ⟨-, rest, hslice, ⟨token, htoken, -⟩ | ⟨-, hlongest⟩⟩ :=
    Lexer.longest_of_mem_pieces hf
  · cases hpiece.symm.trans htoken
  · rw [hspan, ← hchars]
    exact ⟨rest, hslice, hlongest⟩

theorem tiles_lex (cs : List Char) : (lex cs).Tiles cs where
  tokens := (pairwise_tokens_lex cs).2
  strays := by
    rw [strays_lex]
    refine (Lexer.pairwise_pieces 0 cs).2.filterMap _ fun f g hfg s hs r hr => ?_
    rwa [(Fragment.span_stray? hs).1, (Fragment.span_stray? hr).1]
  apart := by
    intro t ht s hs
    rw [tokens_lex] at ht
    rw [strays_lex] at hs
    obtain ⟨f, hf, ht⟩ := List.mem_filterMap.1 ht
    obtain ⟨g, hg, hs⟩ := List.mem_filterMap.1 hs
    obtain ⟨hft, htoken, -⟩ := Fragment.span_lexeme? ht
    obtain ⟨hgs, hstray, -⟩ := Fragment.span_stray? hs
    rw [hft, hgs]
    apply Lexer.disjoint_pieces hf hg
    rintro rfl
    cases htoken.symm.trans hstray
  lines := by
    intro span h
    obtain ⟨f, hf, rfl⟩ := mem_spans_lex.1 h
    obtain ⟨hlt, rest, hslice, hlongest⟩ := Lexer.longest_of_mem_pieces hf
    refine ⟨hlt, f.chars, rest, hslice, ?_⟩
    obtain ⟨token, -, htoken⟩ | ⟨-, hstray⟩ := hlongest
    · exact htoken.isMatch.newline
    · exact hstray.isStray.newline
  blanks := by
    intro byte hbyte h
    obtain ⟨front, c, back, hcs, hfront, hc⟩ := Lexer.gap_of_outside (Nat.zero_le byte)
      ((Nat.zero_add _).symm ▸ hbyte) fun f hf => h _ (mem_spans_lex.2 ⟨f, hf, rfl⟩)
    refine ⟨front, c, back, hcs, (Nat.zero_add _).symm.trans hfront, ?_⟩
    obtain rfl | rfl | rfl | rfl := Lexer.eq_of_isGap hc <;> decide

/-- The tokens and stray pieces of a text tile it but for blanks, each is the longest that can be
read at its start, and a text goes on after a line feed as it would at its own start. -/
theorem lexing_loses_nothing (cs : List Char) :
    (lex cs).Tiles cs ∧
      (∀ t ∈ (lex cs).tokens, ∃ rest, Text.Slice cs t.span t.text.toList rest ∧
        t.token.Longest t.text.toList rest) ∧
      (∀ s ∈ (lex cs).strays, ∃ rest, Text.Slice cs s.span s.text.toList rest ∧
        LongestStray s.text.toList rest) ∧
      ∀ more, lex (cs ++ '\n' :: more) =
        ⟨(lex cs).tokens ++ (lex more).tokens.map (Lexeme.shift (Text.byteLength cs + 1)),
          (lex cs).strays ++ (lex more).strays.map (Stray.shift (Text.byteLength cs + 1))⟩ := by
  refine ⟨tiles_lex cs, fun t ht => longest_of_mem_tokens ht, fun s hs => longest_of_mem_strays hs,
    fun more => ?_⟩
  rw [← tokens_lex_newline, ← strays_lex_newline]

end ScriptSession
