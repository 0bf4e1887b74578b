import ScriptSession.Proofs.Lexing

namespace ScriptSession

theorem tokens_cut {cs : List Char} {before after : List Lexeme} {t : Lexeme}
    (hs : (lex cs).strays = []) (h : (lex cs).tokens = before ++ t :: after) :
    ∃ front word back, cs = front ++ (word ++ back) ∧
      t.span = ⟨Text.byteLength front, Text.byteLength front + Text.byteLength word⟩ ∧
      ((lex (front ++ word)).tokens = before ++ [t] ∧ (lex (front ++ word)).strays = []) ∧
      (lex (word ++ back)).tokens.map (Lexeme.shift (Text.byteLength front)) = t :: after ∧
        (lex (word ++ back)).strays = [] := by
  obtain ⟨ps, f, qs, hpieces, hbefore, hf, hafter⟩ := pieces_of_tokens h
  obtain ⟨front, back, hcs, hstart, -, hfront, hback, c, tail, hc, hchars, hmunch⟩ :=
    Lexer.pieces_cut hpieces
  rw [Nat.zero_add] at hstart
  have hsuffix : Lexer.pieces (Text.byteLength front) (f.chars ++ back) = f :: qs := by
    rw [← hstart, hchars, List.cons_append, Lexer.pieces_cons hc, hmunch, ← hchars]
    exact congrArg (f :: ·) hback
  have hnone := hpieces ▸ Lexer.piece_ne_stray hs
  refine ⟨front, f.chars, back, hcs, ?_, ⟨?_, ?_⟩, ?_, ?_⟩
  · rw [(Fragment.span_lexeme? hf).1, Fragment.span, hstart]
  · rw [tokens_lex, hfront, List.filterMap_append, hbefore, List.filterMap_cons_some hf]
    rfl
  · rw [strays_lex_eq_nil_iff, hfront]
    intro g hg
    apply hnone
    simp only [List.mem_append, List.mem_cons, List.not_mem_nil, or_false] at hg ⊢
    exact hg.imp_right .inl
  · rw [map_shift_tokens_lex, hsuffix, List.filterMap_cons_some hf, hafter]
  · rw [strays_lex_eq_nil_iff]
    intro g hg
    have hshift := Lexer.pieces_shift (Text.byteLength front) 0 (f.chars ++ back)
    rw [Nat.zero_add, hsuffix] at hshift
    have hmem : g.shift (Text.byteLength front) ∈ f :: qs := hshift ▸ List.mem_map_of_mem hg
    exact hnone (g.shift (Text.byteLength front)) (List.mem_append_right ps hmem)

/-- Tokens in a row that are significant are those of the slice from the first to the last. -/
theorem significant_slice {cs : List Char} {before us after : List Lexeme}
    (hs : (lex cs).strays = []) (h : significant (lex cs).tokens = before ++ (us ++ after))
    (hne : us ≠ []) :
    ∃ front body back, cs = front ++ (body ++ back) ∧
      (∀ t ∈ us.head?, t.span.start = Text.byteLength front) ∧
      (∀ t ∈ us.getLast?, t.span.stop = Text.byteLength front + Text.byteLength body) ∧
      (lex body).strays = [] ∧
      (significant (lex body).tokens).map (Lexeme.shift (Text.byteLength front)) = us := by
  have hcomment : ∀ t ∈ us, t.token ≠ .comment := by
    intro t ht
    have hmem : t ∈ significant (lex cs).tokens :=
      h ▸ List.mem_append_right _ (List.mem_append_left _ ht)
    exact of_decide_eq_true (List.mem_filter.1 hmem).2
  -- first the text is cut after the last of the tokens
  obtain ⟨init, l, hinit⟩ : ∃ init l, us = init ++ [l] :=
    ⟨_, _, (List.dropLast_concat_getLast hne).symm⟩
  have hlast : significant (lex cs).tokens = (before ++ init) ++ l :: after := by
    rw [h, hinit, List.append_assoc, List.append_assoc, List.singleton_append]
  obtain ⟨xs, ys, htokens, hxs, -⟩ := tokens_of_significant hlast
  obtain ⟨front, word, back, hcs, hl, ⟨hfront, hstrays⟩, -⟩ := tokens_cut hs htokens
  have hl' : significant [l] = [l] :=
    significant_cons (hcomment l (by rw [hinit]; exact List.mem_concat_self)) []
  have hthrough : significant (lex (front ++ word)).tokens = before ++ us := by
    rw [hfront, significant, List.filter_append, ← significant, ← significant, hxs, hl', hinit,
      List.append_assoc]
  -- and what is left of it before the first one
  obtain ⟨u, rest, rfl⟩ := List.exists_cons_of_ne_nil hne
  obtain ⟨xs', ys', htokens', -, hys⟩ := tokens_of_significant hthrough
  obtain ⟨front', word', back', hcut, hu, -, hbody, hbodyStrays⟩ := tokens_cut hstrays htokens'
  refine ⟨front', word' ++ back', back, ?_, ?_, ?_, hbodyStrays, ?_⟩
  · rw [hcs, ← List.append_assoc front, hcut, List.append_assoc]
  · intro t ht
    cases ht
    rw [hu]
  · intro t ht
    rw [hinit, List.getLast?_concat] at ht
    cases ht
    rw [hl, ← Text.byteLength_append, ← Text.byteLength_append, hcut]
  · rw [← significant_shift, hbody, significant_cons (hcomment u List.mem_cons_self), hys]

end ScriptSession
