import ScriptSession.Proofs.Lexing
import ScriptSession.Proofs.Reading
import ScriptSession.Proofs.Text

namespace ScriptSession

/-- What a token says, apart from where it stands; a comment says nothing. -/
def Lexeme.meaning (t : Lexeme) : Token × String :=
  (t.token, if t.token = .comment then "" else t.text)

def Piece.meaning? (p : Piece) (chars : List Char) : Option (Token × String) :=
  match p with
  | .token t => some (t, if t = .comment then "" else String.ofList chars)
  | _ => none

def meanings (cs : List Char) : List (Token × String) :=
  (lex cs).tokens.map Lexeme.meaning

theorem meaning_lexeme? (f : Fragment) :
    f.lexeme?.map Lexeme.meaning = f.piece.meaning? f.chars := by
  unfold Fragment.lexeme? Piece.meaning?
  cases f.piece <;> rfl

theorem meanings_eq (offset : Nat) (cs : List Char) :
    meanings cs = (Lexer.pieces offset cs).filterMap fun f => f.piece.meaning? f.chars := by
  rw [meanings, tokens_lex, ← Nat.zero_add offset, Lexer.pieces_shift, List.filterMap_map,
    List.map_filterMap]
  congr 1
  exact funext fun f => meaning_lexeme? f

@[simp] theorem meanings_nil : meanings [] = [] := by
  rw [meanings_eq 0, Lexer.pieces_nil, List.filterMap_nil]

theorem meanings_gap {c : Char} (hc : Lexer.isGap c = true) (cs : List Char) :
    meanings (c :: cs) = meanings cs := by
  rw [meanings_eq 0, Lexer.pieces_gap hc, ← meanings_eq]

theorem meanings_cons {c : Char} (hc : Lexer.isGap c = false) (cs : List Char) :
    meanings (c :: cs) =
      ((Lexer.munch c cs).1.meaning? (c :: (Lexer.munch c cs).2.1)).toList ++
        meanings (Lexer.munch c cs).2.2 := by
  rw [meanings_eq 0, Lexer.pieces_cons hc, List.filterMap_cons, ← meanings_eq]
  cases (Lexer.munch c cs).1.meaning? (c :: (Lexer.munch c cs).2.1) <;> rfl

theorem meanings_of_munch {c : Char} {cs taken rest : List Char} {t : Token}
    (hc : Lexer.isGap c = false) (h : Lexer.munch c cs = (.token t, taken, rest)) :
    meanings (c :: cs) =
      (t, if t = .comment then "" else String.ofList (c :: taken)) :: meanings rest := by
  rw [meanings_cons hc, h]
  rfl

theorem map_meaning_shift (n : Nat) (ts : List Lexeme) :
    (ts.map (Lexeme.shift n)).map Lexeme.meaning = ts.map Lexeme.meaning := by
  rw [List.map_map]
  rfl

namespace Lexer

theorem isWordPart_of_isBlank {c : Char} (hb : Text.isBlank c = true) : isWordPart c = false := by
  have hu : c ≠ '_' := by
    rintro rfl
    cases hb
  simp only [Text.isBlank, Bool.or_eq_true, Bool.and_eq_true, decide_eq_true_eq,
    beq_iff_eq] at hb
  simp only [isWordPart, Char.isAlphanum, isAlpha_eq, Char.isDigit,
    hu, decide_false, Bool.or_false, Bool.or_eq_false_iff, Bool.and_eq_false_iff,
    decide_eq_false_iff_not, ge_iff_le, UInt32.le_iff_toNat_le,
    Char.toNat_val]
  simp only [↓Char.isValue, Char.reduceToNat, not_and, not_le]
  omega

theorem isAlpha_of_isBlank {c : Char} (hb : Text.isBlank c = true) : c.isAlpha = false := by
  have h := isWordPart_of_isBlank hb
  simp only [isWordPart, Char.isAlphanum, Bool.or_eq_false_iff] at h
  exact h.1.1

theorem isDigit_of_isBlank {c : Char} (hb : Text.isBlank c = true) : c.isDigit = false := by
  have h := isWordPart_of_isBlank hb
  simp only [isWordPart, Char.isAlphanum, Bool.or_eq_false_iff] at h
  exact h.1.2

theorem munch_blank {c : Char} (hb : Text.isBlank c = true) (hc : isGap c = false)
    (cs : List Char) : munch c cs = (.stray, [], cs) := by
  have hw := isWordPart_of_isBlank hb
  have hd := isDigit_of_isBlank hb
  have hs : isWordStart c = false := by
    simp only [isWordPart, Bool.or_eq_false_iff] at hw
    rw [isWordStart, isAlpha_of_isBlank hb, hw.2]
    rfl
  unfold munch
  rw [hc, hd, hs]
  simp only [Bool.false_eq_true, if_false]
  split
  case h_19 => rfl
  all_goals cases hb

/-- A piece that ends in blanks is no token, or a comment that it is without them too. -/
theorem Takes.ends_blank {c : Char} {take : List Char → Piece × List Char × List Char}
    (h : Takes c take) {cs a w : List Char} {b : Char} (hw : ∀ d ∈ w ++ [b], Text.isBlank d = true)
    (ht : (take cs).2.1 = a ++ (w ++ [b])) :
    (take cs).1 = .stray ∨
      (take cs).1 = .token .comment ∧ take a = (.token .comment, a, []) := by
  have hb : Text.isBlank b = true := hw b (List.mem_append_right _ (List.mem_singleton_self b))
  have hmem : b ∈ (take cs).2.1 := by
    rw [ht]
    exact List.mem_append_right _ (List.mem_append_right _ (List.mem_singleton_self b))
  cases h with
  | digits =>
    have := List.mem_takeWhile_imp hmem
    rw [isDigit_of_isBlank hb] at this
    cases this
  | word =>
    have := List.mem_takeWhile_imp hmem
    rw [isWordPart_of_isBlank hb] at this
    cases this
  | slash =>
    unfold takeSlash at ht hmem ⊢
    split at ht
    next hs =>
      refine .inr ⟨by rw [if_pos hs]; rfl, ?_⟩
      simp only [spanning] at ht
      have hhead : a.head? = some '/' := by
        have hfront := congrArg List.head? ht
        rw [List.head?_takeWhile, hs] at hfront
        cases a with
        | nil =>
          have := hw '/' (List.mem_of_head? hfront.symm)
          cases this
        | cons d a => exact hfront.symm
      have hline : ∀ d ∈ a, decide (d ≠ '\n') = true := fun d hd =>
        List.mem_takeWhile_imp (p := fun x => decide (x ≠ '\n')) (ht ▸ List.mem_append_left _ hd)
      rw [if_pos hhead, spanning, List.takeWhile_eq_self_iff.2 hline,
        List.dropWhile_eq_nil_iff.2 hline]
    next hs =>
      rw [if_neg hs] at hmem
      cases hmem
  | hash =>
    unfold takeHash at hmem ⊢
    split at hmem
    next hs => cases hmem
    next hs =>
      have := List.mem_takeWhile_imp hmem
      rw [isAlpha_of_isBlank hb] at this
      cases this
  | quote =>
    rcases hq : quotedRun [] cs with ⟨body, rest⟩
    by_cases hr : rest.head? = some '"'
    · obtain ⟨rest, rfl⟩ : ∃ r, rest = '"' :: r := List.head?_eq_some_iff.1 hr
      rw [takeQuote_closed hq, ← List.append_assoc] at ht
      obtain ⟨-, hquote⟩ := List.append_inj' ht rfl
      cases hquote
      cases hb
    · rw [takeQuote_open hq hr]
      exact .inl rfl
  | follow next long short hn _ _ =>
    have hnext : b = next := by
      cases cs with
      | nil => cases hmem
      | cons d cs =>
        by_cases hd : d = next
        · rw [Lexer.follow, if_pos hd] at hmem
          exact (List.mem_singleton.1 hmem).trans hd
        · rw [Lexer.follow, if_neg hd] at hmem
          cases hmem
    subst hnext
    obtain rfl | rfl | rfl := hn <;> cases hb
  | single piece h => cases hmem

end Lexer

theorem meanings_blank {c : Char} (hb : Text.isBlank c = true) (cs : List Char) :
    meanings (c :: cs) = meanings cs := by
  cases hc : Lexer.isGap c with
  | true => exact meanings_gap hc cs
  | false =>
    rw [meanings_cons hc, Lexer.munch_blank hb hc]
    rfl

theorem meanings_append_of_blank {blanks : List Char} (h : ∀ c ∈ blanks, Text.isBlank c = true)
    (cs : List Char) : meanings (blanks ++ cs) = meanings cs := by
  induction blanks with
  | nil => rfl
  | cons c blanks ih =>
    obtain ⟨hc, hblanks⟩ := List.forall_mem_cons.1 h
    rw [List.cons_append, meanings_blank hc, ih hblanks]

theorem meanings_trimStart (cs rest : List Char) :
    meanings (Text.trimStart cs ++ rest) = meanings (cs ++ rest) := by
  have hblank : ∀ c ∈ cs.takeWhile Text.isBlank, Text.isBlank c = true :=
    fun c hc => List.mem_takeWhile_imp hc
  have h := meanings_append_of_blank hblank (cs.dropWhile Text.isBlank ++ rest)
  rw [← List.append_assoc, List.takeWhile_append_dropWhile] at h
  exact h.symm

theorem meanings_of_blank {blanks : List Char} (h : ∀ c ∈ blanks, Text.isBlank c = true) :
    meanings blanks = [] := by
  rw [← List.append_nil blanks, meanings_append_of_blank h, meanings_nil]

theorem meanings_of_append_blank {offset : Nat} {a blanks : List Char}
    (hb : ∀ c ∈ blanks, Text.isBlank c = true)
    (hs : ∀ f ∈ Lexer.pieces offset (a ++ blanks), f.piece ≠ .stray) :
    meanings (a ++ blanks) = meanings a := by
  induction h : a.length using Nat.strongRecOn generalizing offset a with
  | ind n ih =>
    cases a with
    | nil =>
      rw [List.nil_append, meanings_of_blank hb, meanings_nil]
    | cons c cs =>
      rw [List.length_cons] at h
      rw [List.cons_append] at hs ⊢
      cases hc : Lexer.isGap c with
      | true =>
        rw [Lexer.pieces_gap hc] at hs
        rw [meanings_gap hc, meanings_gap hc, ih _ (by omega) hs rfl]
      | false =>
        rw [Lexer.pieces_cons hc] at hs
        obtain ⟨hpiece, hrest⟩ := List.forall_mem_cons.1 hs
        have happend := Lexer.munch_append c (cs ++ blanks)
        rw [meanings_cons hc, meanings_cons hc]
        have hkept (more : List Char) (hcs : cs = (Lexer.munch c (cs ++ blanks)).2.1 ++ more)
            (hmore : (Lexer.munch c (cs ++ blanks)).2.2 = more ++ blanks) :
            Lexer.munch c cs = ((Lexer.munch c (cs ++ blanks)).1,
                (Lexer.munch c (cs ++ blanks)).2.1, more) ∧
              meanings (Lexer.munch c (cs ++ blanks)).2.2 = meanings more := by
          have hmunch := Lexer.munch_meets hc (Lexer.meets_front ⟨blanks, hmore.symm⟩)
          rw [← hcs] at hmunch
          have hlen := congrArg List.length hcs
          rw [List.length_append] at hlen
          rw [hmore] at hrest ⊢
          exact ⟨hmunch, ih _ (by omega) hrest rfl⟩
        obtain ⟨more, hcs, hmore⟩ | ⟨more, htaken, hblanks⟩ := List.append_eq_append_iff.1 happend
        · obtain ⟨hmunch, hrest'⟩ := hkept more hcs hmore
          rw [hmunch, hrest']
        · obtain rfl | ⟨w, b, rfl⟩ := List.eq_nil_or_concat more
          · obtain ⟨hmunch, hrest'⟩ := hkept [] (by rw [htaken]; simp) hblanks.symm
            rw [hmunch, hrest']
          · rw [List.concat_eq_append] at htaken hblanks
            rw [hblanks] at hb
            obtain ⟨hw, hleft⟩ := List.forall_mem_append.1 hb
            have hnone := meanings_of_blank hleft
            obtain hstray | ⟨hcomment, hmunch⟩ := (Lexer.takes_munch hc).ends_blank hw htaken
            · exact absurd hstray hpiece
            · rw [hnone, hcomment, hmunch]
              dsimp only
              rw [meanings_nil]
              rfl

theorem meanings_trimEnd {offset : Nat} {cs : List Char}
    (hs : ∀ f ∈ Lexer.pieces offset cs, f.piece ≠ .stray) :
    meanings (Text.trimEnd cs) = meanings cs := by
  obtain ⟨blanks, hcs, hb⟩ := Text.exists_trimEnd cs
  rw [hcs] at hs
  have := meanings_of_append_blank hb hs
  rw [← hcs] at this
  exact this.symm

theorem no_strays_after_blanks {offset : Nat} {blanks cs : List Char}
    (hb : ∀ c ∈ blanks, Text.isBlank c = true)
    (hs : ∀ f ∈ Lexer.pieces offset (blanks ++ cs), f.piece ≠ .stray) :
    ∃ start, ∀ f ∈ Lexer.pieces start cs, f.piece ≠ .stray := by
  induction blanks generalizing offset with
  | nil => exact ⟨offset, hs⟩
  | cons c blanks ih =>
    obtain ⟨hc, hblanks⟩ := List.forall_mem_cons.1 hb
    rw [List.cons_append] at hs
    cases hg : Lexer.isGap c with
    | true =>
      rw [Lexer.pieces_gap hg] at hs
      exact ih hblanks hs
    | false =>
      rw [Lexer.pieces_cons hg, Lexer.munch_blank hc hg] at hs
      exact absurd rfl (hs _ List.mem_cons_self)

/-- Trimming a text without stray pieces leaves what its tokens say. -/
theorem meanings_trim {offset : Nat} {cs : List Char}
    (hs : ∀ f ∈ Lexer.pieces offset cs, f.piece ≠ .stray) :
    meanings (Text.trim cs) = meanings cs := by
  rw [← List.takeWhile_append_dropWhile (p := Text.isBlank) (l := cs)] at hs
  obtain ⟨start, hstart⟩ := no_strays_after_blanks (fun c hc => List.mem_takeWhile_imp hc) hs
  have hfront := meanings_trimStart cs []
  rw [List.append_nil, List.append_nil] at hfront
  exact (meanings_trimEnd hstart).trans hfront

namespace Outline

theorem LetsBound.congr {ts us : List Lexeme} (h : ts.map Lexeme.meaning = us.map Lexeme.meaning)
    (hl : LetsBound ts) : LetsBound us := by
  induction ts generalizing us with
  | nil =>
    rw [List.map_eq_nil_iff.1 h.symm]
    trivial
  | cons t ts ih =>
    cases us with
    | nil => cases h
    | cons u us =>
      obtain ⟨hm, hrest⟩ := List.cons.inj h
      have hnext : ahead? ts = ahead? us := by
        have := congrArg (fun m => m.head?.map Prod.fst) hrest
        rw [List.head?_map, List.head?_map, Option.map_map, Option.map_map] at this
        exact this
      refine ⟨fun hu => ?_, ih hrest hl.2⟩
      rw [← hnext]
      exact hl.1 ((congrArg Prod.fst hm).trans hu)

theorem letNames_congr {ts us : List Lexeme} (h : ts.map Lexeme.meaning = us.map Lexeme.meaning) :
    letNames ts = letNames us := by
  have hnames (ts : List Lexeme) : letNames ts =
      ((ts.map Lexeme.meaning).zip (ts.map Lexeme.meaning).tail).filterMap fun p =>
        if p.1.1 = .kwLet ∧ p.2.1 = .ident then some p.2.2 else none := by
    rw [letNames, ← List.map_tail, List.zip_map, List.filterMap_map]
    congr 1
    funext p
    change (if p.1.token = .kwLet ∧ p.2.token = .ident then some p.2.text else none) =
      if p.1.token = .kwLet ∧ p.2.token = .ident then
        some (if p.2.token = .comment then "" else p.2.text) else none
    by_cases hl : p.1.token = .kwLet ∧ p.2.token = .ident
    · rw [if_pos hl, if_pos hl, if_neg (by rw [hl.2]; decide)]
    · rw [if_neg hl, if_neg hl]
  rw [hnames, hnames us, h]

theorem letNames_newline {a b : List Char} (ha : LetsBound (lex a).tokens)
    (hb : LetsBound (lex b).tokens) :
    LetsBound (lex (a ++ '\n' :: b)).tokens ∧
      letNames (lex (a ++ '\n' :: b)).tokens =
        letNames (lex a).tokens ++ letNames (lex b).tokens := by
  have hshift := map_meaning_shift (Text.byteLength a + 1) (lex b).tokens
  rw [tokens_lex_newline, letNames_append ha, letNames_congr hshift]
  exact ⟨ha.append (hb.congr hshift.symm), rfl⟩

end Outline
end ScriptSession
