import ScriptSession.Proofs.Munch
import ScriptSession.Proofs.Offset
import ScriptSession.Proofs.Syntax
import ScriptSession.Syntax.Parser

namespace ScriptSession

def Stray.shift (n : Nat) (s : Stray) : Stray :=
  { s with span := s.span.shift n }

def Fragment.shift (n : Nat) (f : Fragment) : Fragment :=
  { f with start := f.start + n }

theorem Fragment.span_shift (n : Nat) (f : Fragment) : (f.shift n).span = f.span.shift n := by
  simp only [span, shift, Span.shift_mk, Nat.add_right_comm]

theorem Fragment.lexeme?_shift (n : Nat) (f : Fragment) :
    (f.shift n).lexeme? = f.lexeme?.map (Lexeme.shift n) := by
  unfold lexeme?
  rw [span_shift, show (f.shift n).piece = f.piece from rfl]
  cases f.piece <;> rfl

theorem Fragment.stray?_shift (n : Nat) (f : Fragment) :
    (f.shift n).stray? = f.stray?.map (Stray.shift n) := by
  unfold stray?
  rw [span_shift, show (f.shift n).piece = f.piece from rfl]
  cases f.piece <;> rfl

namespace Lexer

/-- The pieces that are no blanks of a text that starts at `offset`. -/
def pieces (offset : Nat) (cs : List Char) : List Fragment :=
  (fragmentsOnto [] offset cs).reverse.filter (·.piece ≠ .blank)

theorem fragmentsOnto_eq (done : List Fragment) (offset : Nat) (cs : List Char) :
    fragmentsOnto done offset cs = fragmentsOnto [] offset cs ++ done := by
  have h (done more : List Fragment) (offset : Nat) (cs : List Char) :
      fragmentsOnto (done ++ more) offset cs = fragmentsOnto done offset cs ++ more := by
    induction h : cs.length using Nat.strongRecOn generalizing done offset cs with
    | ind n ih =>
      cases cs with
      | nil => simp only [fragmentsOnto]
      | cons c cs =>
        rw [fragmentsOnto, fragmentsOnto, ← List.cons_append]
        refine ih _ ?_ _ _ _ rfl
        have := length_munch_rest_le c cs
        rw [List.length_cons] at h
        omega
  exact h [] done offset cs

@[simp] theorem pieces_nil (offset : Nat) : pieces offset [] = [] := by
  simp only [pieces, fragmentsOnto, List.reverse_nil, List.filter_nil]

theorem pieces_munch (offset : Nat) (c : Char) (cs : List Char) :
    pieces offset (c :: cs) =
      [(⟨(munch c cs).1, c :: (munch c cs).2.1, offset⟩ : Fragment)].filter (·.piece ≠ .blank) ++
        pieces (offset + Text.byteLength (c :: (munch c cs).2.1)) (munch c cs).2.2 := by
  rw [pieces, fragmentsOnto, fragmentsOnto_eq, List.reverse_append, List.filter_append]
  rfl

theorem munch_gap {c : Char} (hc : isGap c = true) (cs : List Char) :
    munch c cs = (.blank, cs.takeWhile isGap, cs.dropWhile isGap) := by
  unfold munch
  rw [if_pos hc, spanning]

theorem pieces_gap {c : Char} (hc : isGap c = true) (offset : Nat) (cs : List Char) :
    pieces offset (c :: cs) = pieces (offset + c.utf8Size) cs := by
  rw [pieces_munch, munch_gap hc]
  cases cs with
  | nil => simp
  | cons d cs =>
    cases hd : isGap d with
    | true =>
      rw [pieces_munch (offset + c.utf8Size), munch_gap hd, List.takeWhile_cons_of_pos hd,
        List.dropWhile_cons_of_pos hd, Text.byteLength_cons, Nat.add_assoc]
      rfl
    | false =>
      rw [List.takeWhile_cons_of_neg (by simp [hd]), List.dropWhile_cons_of_neg (by simp [hd]),
        Text.byteLength_cons, Text.byteLength_nil]
      rfl

theorem pieces_cons {c : Char} (hc : isGap c = false) (offset : Nat) (cs : List Char) :
    pieces offset (c :: cs) =
      ⟨(munch c cs).1, c :: (munch c cs).2.1, offset⟩ ::
        pieces (offset + Text.byteLength (c :: (munch c cs).2.1)) (munch c cs).2.2 := by
  rw [pieces_munch, List.filter_cons_of_pos (by simpa using (takes_munch hc).piece_ne_blank cs)]
  rfl

theorem pieces_induction {motive : Nat → List Char → Prop} (nil : ∀ offset, motive offset [])
    (gap : ∀ offset c cs, isGap c = true → motive (offset + c.utf8Size) cs →
      motive offset (c :: cs))
    (piece : ∀ offset c cs, isGap c = false →
      motive (offset + Text.byteLength (c :: (munch c cs).2.1)) (munch c cs).2.2 →
      motive offset (c :: cs)) (offset : Nat) (cs : List Char) : motive offset cs := by
  induction h : cs.length using Nat.strongRecOn generalizing offset cs with
  | ind n ih =>
    cases cs with
    | nil => exact nil offset
    | cons c cs =>
      rw [List.length_cons] at h
      cases hc : isGap c with
      | true => exact gap offset c cs hc (ih _ (by omega) _ _ rfl)
      | false =>
        have := length_munch_rest_le c cs
        exact piece offset c cs hc (ih _ (by omega) _ _ rfl)

theorem pieces_shift (n offset : Nat) (cs : List Char) :
    pieces (offset + n) cs = (pieces offset cs).map (Fragment.shift n) := by
  induction offset, cs using pieces_induction with
  | nil => rw [pieces_nil, pieces_nil, List.map_nil]
  | gap offset c cs hc ih => rw [pieces_gap hc, pieces_gap hc, ← ih, Nat.add_right_comm]
  | piece offset c cs hc ih =>
    rw [pieces_cons hc, pieces_cons hc, List.map_cons, ← ih, Nat.add_right_comm]
    rfl

theorem pieces_newline (offset : Nat) (a b : List Char) :
    pieces offset (a ++ '\n' :: b) =
      pieces offset a ++ pieces (offset + (Text.byteLength a + 1)) b := by
  induction offset, a using pieces_induction with
  | nil offset =>
    rw [List.nil_append, pieces_gap (by decide), pieces_nil, List.nil_append]
    rfl
  | gap offset c cs hc ih =>
    rw [List.cons_append, pieces_gap hc, pieces_gap hc, ih, Text.byteLength_cons]
    congr 2
    omega
  | piece offset c cs hc ih =>
    have hlen := congrArg Text.byteLength (munch_append c cs)
    rw [Text.byteLength_append] at hlen
    rw [List.cons_append, pieces_cons hc, munch_newline hc, pieces_cons hc, ih, List.cons_append]
    simp only [Text.byteLength_cons]
    congr 3
    omega

/-- A text is cut at both ends of a piece: what stands before it, with the piece or without, and
what stands after it have the pieces that the whole text has there. -/
theorem pieces_cut {offset : Nat} {cs : List Char} {before after : List Fragment} {f : Fragment}
    (h : pieces offset cs = before ++ f :: after) :
    ∃ front back, cs = front ++ (f.chars ++ back) ∧ f.start = offset + Text.byteLength front ∧
      pieces offset front = before ∧ pieces offset (front ++ f.chars) = before ++ [f] ∧
      pieces f.span.stop back = after ∧
      ∃ c tail, isGap c = false ∧ f.chars = c :: tail ∧
        munch c (tail ++ back) = (f.piece, tail, back) := by
  induction offset, cs using pieces_induction generalizing before with
  | nil offset =>
    rw [pieces_nil] at h
    cases before <;> cases h
  | gap offset c cs hc ih =>
    rw [pieces_gap hc] at h
    obtain ⟨front, back, rfl, hs, hp, hend, hafter⟩ := ih h
    refine ⟨c :: front, back, rfl, ?_, by rw [pieces_gap hc, hp], ?_, hafter⟩
    · rw [hs, Text.byteLength_cons, Nat.add_assoc]
    · rw [List.cons_append, pieces_gap hc, hend]
  | piece offset c cs hc ih =>
    rw [pieces_cons hc] at h
    cases before with
    | nil =>
      cases h
      refine ⟨[], (munch c cs).2.2, ?_, rfl, pieces_nil offset, ?_, rfl, c, _, hc, rfl, ?_⟩
      · exact congrArg (c :: ·) (munch_append c cs).symm
      · have hmunch : munch c ((munch c cs).2.1 ++ []) = ((munch c cs).1, (munch c cs).2.1, []) :=
          munch_meets hc nofun
        rw [List.append_nil] at hmunch
        rw [List.nil_append, pieces_cons hc, hmunch, pieces_nil]
        rfl
      · rw [munch_append]
    | cons g before =>
      obtain ⟨rfl, htail⟩ := List.cons.inj h
      obtain ⟨front, back, hrest, hs, hp, hend, hafter⟩ := ih htail
      have hmunch := munch_meets hc (meets_front ⟨_, hrest.symm⟩)
      rw [← List.append_assoc] at hrest
      have hmunchEnd := munch_meets hc (meets_front ⟨_, hrest.symm⟩)
      refine ⟨c :: ((munch c cs).2.1 ++ front), back, ?_, ?_, ?_, ?_, hafter⟩
      · rw [List.cons_append, List.append_assoc, ← List.append_assoc front, ← hrest, munch_append]
      · rw [hs, Text.byteLength_cons, Text.byteLength_cons, Text.byteLength_append]
        omega
      · rw [pieces_cons hc, hmunch, hp]
      · rw [List.cons_append, List.append_assoc, pieces_cons hc, hmunchEnd, hend]
        rfl

theorem pairwise_pieces (offset : Nat) (cs : List Char) :
    (∀ f ∈ pieces offset cs, offset ≤ f.span.start ∧ f.span.start < f.span.stop) ∧
      (pieces offset cs).Pairwise fun f g => f.span.stop ≤ g.span.start := by
  induction offset, cs using pieces_induction with
  | nil => simp
  | gap offset c cs hc ih =>
    rw [pieces_gap hc]
    exact ⟨fun f hf => ⟨(Nat.le_add_right _ _).trans (ih.1 f hf).1, (ih.1 f hf).2⟩, ih.2⟩
  | piece offset c cs hc ih =>
    have hpos : offset < offset + Text.byteLength (c :: (munch c cs).2.1) := by
      have := c.utf8Size_pos
      rw [Text.byteLength_cons]
      omega
    rw [pieces_cons hc]
    refine ⟨List.forall_mem_cons.2 ⟨⟨Nat.le_refl _, hpos⟩, fun f hf => ?_⟩,
      List.pairwise_cons.2 ⟨fun f hf => (ih.1 f hf).1, ih.2⟩⟩
    exact ⟨hpos.le.trans (ih.1 f hf).1, (ih.1 f hf).2⟩

theorem start_le_of_mem_pieces {offset : Nat} {cs : List Char} {f : Fragment}
    (h : f ∈ pieces offset cs) : f.start ≤ offset + Text.byteLength cs := by
  obtain ⟨before, after, hp⟩ := List.append_of_mem h
  obtain ⟨front, back, rfl, hs, -⟩ := pieces_cut hp
  rw [hs, Text.byteLength_append]
  omega

theorem filterMap_fragments {β : Type} (g : Fragment → Option β)
    (h : ∀ f : Fragment, f.piece = .blank → g f = none) (cs : List Char) :
    (fragments cs).filterMap g = (pieces 0 cs).filterMap g := by
  rw [pieces, List.filterMap_filter, fragments]
  congr 1
  funext f
  split
  · rfl
  next hf => exact h f (by simpa using hf)

end Lexer

theorem tokens_lex (cs : List Char) :
    (lex cs).tokens = (Lexer.pieces 0 cs).filterMap Fragment.lexeme? :=
  Lexer.filterMap_fragments _ (fun f hf => by rw [Fragment.lexeme?, hf]) cs

theorem strays_lex (cs : List Char) :
    (lex cs).strays = (Lexer.pieces 0 cs).filterMap Fragment.stray? :=
  Lexer.filterMap_fragments _ (fun f hf => by rw [Fragment.stray?, hf]) cs

@[simp] theorem tokens_lex_nil : (lex []).tokens = [] := by
  rw [tokens_lex, Lexer.pieces_nil, List.filterMap_nil]

theorem map_shift_tokens_lex (n : Nat) (cs : List Char) :
    (lex cs).tokens.map (Lexeme.shift n) = (Lexer.pieces n cs).filterMap Fragment.lexeme? := by
  rw [tokens_lex, ← Nat.zero_add n, Lexer.pieces_shift, List.filterMap_map, List.map_filterMap,
    Nat.zero_add]
  congr 1
  exact funext fun f => (Fragment.lexeme?_shift n f).symm

theorem tokens_lex_newline (a b : List Char) :
    (lex (a ++ '\n' :: b)).tokens =
      (lex a).tokens ++ (lex b).tokens.map (Lexeme.shift (Text.byteLength a + 1)) := by
  rw [map_shift_tokens_lex, tokens_lex, tokens_lex, Lexer.pieces_newline, List.filterMap_append,
    Nat.zero_add]

theorem significant_cons {t : Lexeme} (h : t.token ≠ .comment) (ts : List Lexeme) :
    significant (t :: ts) = t :: significant ts :=
  List.filter_cons_of_pos (by simpa using h)

theorem significant_comment {t : Lexeme} (h : t.token = .comment) (ts : List Lexeme) :
    significant (t :: ts) = significant ts :=
  List.filter_cons_of_neg (by simpa using h)

theorem significant_shift (n : Nat) (ts : List Lexeme) :
    significant (ts.map (Lexeme.shift n)) = (significant ts).map (Lexeme.shift n) := by
  rw [significant, List.filter_map, significant]
  rfl

theorem significant_newline (a b : List Char) :
    significant (lex (a ++ '\n' :: b)).tokens = significant (lex a).tokens ++
      (significant (lex b).tokens).map (Lexeme.shift (Text.byteLength a + 1)) := by
  rw [tokens_lex_newline, ← significant_shift]
  exact List.filter_append _ _

theorem strays_lex_newline (a b : List Char) :
    (lex (a ++ '\n' :: b)).strays =
      (lex a).strays ++ (lex b).strays.map (Stray.shift (Text.byteLength a + 1)) := by
  rw [strays_lex, strays_lex, strays_lex, Lexer.pieces_newline, Lexer.pieces_shift,
    List.filterMap_append, List.filterMap_map, List.map_filterMap]
  congr 2
  exact funext (Fragment.stray?_shift _)

theorem Fragment.span_lexeme? {f : Fragment} {t : Lexeme} (h : f.lexeme? = some t) :
    t.span = f.span ∧ f.piece = .token t.token ∧ f.chars = t.text.toList := by
  unfold lexeme? at h
  split at h
  next hpiece =>
    cases h
    exact ⟨rfl, hpiece, String.toList_ofList.symm⟩
  next => cases h

theorem Fragment.start_lexeme? {f : Fragment} {t : Lexeme} (h : f.lexeme? = some t) :
    t.span.start = f.start :=
  congrArg Span.start (span_lexeme? h).1

theorem pairwise_tokens_lex (cs : List Char) :
    (∀ t ∈ (lex cs).tokens, t.span.start < t.span.stop) ∧
      (lex cs).tokens.Pairwise fun t u => t.span.stop ≤ u.span.start := by
  rw [tokens_lex]
  obtain ⟨hstart, hpairwise⟩ := Lexer.pairwise_pieces 0 cs
  constructor
  · intro t ht
    obtain ⟨f, hf, ht⟩ := List.mem_filterMap.1 ht
    rw [(Fragment.span_lexeme? ht).1]
    exact (hstart f hf).2
  · refine hpairwise.filterMap _ fun f g hfg t ht u hu => ?_
    rwa [(Fragment.span_lexeme? ht).1, (Fragment.span_lexeme? hu).1]

theorem starts_tokens_lex (cs : List Char) :
    (lex cs).tokens.Pairwise fun t u => t.span.start < u.span.start := by
  obtain ⟨hlt, hpairwise⟩ := pairwise_tokens_lex cs
  exact hpairwise.imp_of_mem fun ht _ hle => Nat.lt_of_lt_of_le (hlt _ ht) hle

theorem start_le_of_mem_tokens {cs : List Char} {t : Lexeme} (h : t ∈ (lex cs).tokens) :
    t.span.start ≤ Text.byteLength cs := by
  rw [tokens_lex] at h
  obtain ⟨f, hf, ht⟩ := List.mem_filterMap.1 h
  have := Lexer.start_le_of_mem_pieces hf
  rw [Fragment.start_lexeme? ht]
  omega

theorem pieces_of_tokens {cs : List Char} {before after : List Lexeme} {t : Lexeme}
    (h : (lex cs).tokens = before ++ t :: after) :
    ∃ ps f qs, Lexer.pieces 0 cs = ps ++ f :: qs ∧ ps.filterMap Fragment.lexeme? = before ∧
      f.lexeme? = some t ∧ qs.filterMap Fragment.lexeme? = after := by
  rw [tokens_lex] at h
  obtain ⟨ps, qs, hp, hbefore, hqs⟩ := List.filterMap_eq_append_iff.1 h
  obtain ⟨gaps, f, rest, rfl, hgaps, hf, hafter⟩ := List.filterMap_eq_cons_iff.1 hqs
  refine ⟨ps ++ gaps, f, rest, by rw [hp, List.append_assoc], ?_, hf, hafter⟩
  rw [List.filterMap_append, hbefore, List.filterMap_eq_nil_iff.2 hgaps, List.append_nil]

/-- A text that is cut where a token starts keeps the pieces and tokens before that one. -/
theorem tokens_takeBytes {cs : List Char} {before after : List Lexeme} {t : Lexeme}
    (h : (lex cs).tokens = before ++ t :: after) :
    let cut := Text.takeBytes t.span.start cs
    Text.byteLength cut = t.span.start ∧ cut <+: cs ∧ (lex cut).tokens = before ∧
      Lexer.pieces 0 cut <+: Lexer.pieces 0 cs := by
  obtain ⟨ps, f, qs, hpieces, hbefore, hf, -⟩ := pieces_of_tokens h
  obtain ⟨front, back, rfl, hstart, hfront, -⟩ := Lexer.pieces_cut hpieces
  rw [Fragment.start_lexeme? hf, hstart, Nat.zero_add, Text.takeBytes_append]
  refine ⟨rfl, List.prefix_append _ _, ?_, hfront ▸ ⟨f :: qs, hpieces.symm⟩⟩
  rw [tokens_lex, hfront, hbefore]

theorem tokens_of_significant {ts before after : List Lexeme} {t : Lexeme}
    (h : significant ts = before ++ t :: after) :
    ∃ us vs, ts = us ++ t :: vs ∧ significant us = before ∧ significant vs = after := by
  obtain ⟨us, vs, rfl, hus, hvs⟩ := List.filter_eq_append_iff.1 h
  obtain ⟨comments, xs, rfl, hcomments, -, hxs⟩ := List.filter_eq_cons_iff.1 hvs
  refine ⟨us ++ comments, xs, (List.append_assoc ..).symm, ?_, hxs⟩
  rw [significant, List.filter_append, hus, List.filter_eq_nil_iff.2 hcomments, List.append_nil]

theorem significant_takeBytes {cs : List Char} {before after : List Lexeme} {t : Lexeme}
    (h : significant (lex cs).tokens = before ++ t :: after) :
    let cut := Text.takeBytes t.span.start cs
    Text.byteLength cut = t.span.start ∧ cut <+: cs ∧ significant (lex cut).tokens = before ∧
      (lex cut).tokens <+: (lex cs).tokens ∧ Lexer.pieces 0 cut <+: Lexer.pieces 0 cs := by
  obtain ⟨us, vs, hsplit, hus, -⟩ := tokens_of_significant h
  obtain ⟨hlength, hcut, htokens, hpieces⟩ := tokens_takeBytes hsplit
  refine ⟨hlength, hcut, ?_, ⟨_, htokens ▸ hsplit.symm⟩, hpieces⟩
  rw [htokens, hus]

theorem strays_lex_eq_nil_iff {cs : List Char} :
    (lex cs).strays = [] ↔ ∀ f ∈ Lexer.pieces 0 cs, f.piece ≠ .stray := by
  rw [strays_lex, List.filterMap_eq_nil_iff]
  refine forall₂_congr fun f _ => ?_
  unfold Fragment.stray?
  split
  next hs => exact ⟨nofun, fun h => absurd hs h⟩
  next hs => exact ⟨fun _ => hs, fun _ => rfl⟩

theorem Lexer.piece_ne_stray {cs : List Char} (h : (lex cs).strays = []) :
    ∀ f ∈ pieces 0 cs, f.piece ≠ .stray :=
  strays_lex_eq_nil_iff.1 h

/-- Where no piece of a text is stray, none is of a text with a part of its pieces. -/
theorem strays_lex_of_prefix {front cs : List Char} (h : (lex cs).strays = [])
    (hpieces : Lexer.pieces 0 front <+: Lexer.pieces 0 cs) : (lex front).strays = [] :=
  strays_lex_eq_nil_iff.2 fun f hf => Lexer.piece_ne_stray h f (hpieces.subset hf)

end ScriptSession
