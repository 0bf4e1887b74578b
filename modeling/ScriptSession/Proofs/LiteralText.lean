import ScriptSession.Proofs.ExportName
import ScriptSession.Proofs.Meaning

namespace ScriptSession

theorem Lexer.isBlank_of_isWordPart {c : Char} (h : isWordPart c = true) :
    Text.isBlank c = false := by
  apply Bool.eq_false_iff.2
  intro hb
  rw [isWordPart_of_isBlank hb] at h
  cases h

theorem IsIdentifier.isWordPart {s : String} (h : IsIdentifier s) :
    ∀ c ∈ s.toList, Lexer.isWordPart c = true := by
  obtain ⟨c, cs, hs, hc, hcs, -⟩ := h
  have hpart : Lexer.isWordPart c = true := by
    simp only [Lexer.isWordStart, Lexer.isWordPart, Char.isAlphanum, Bool.or_eq_true] at hc ⊢
    exact hc.imp_left .inl
  rw [hs]
  exact List.forall_mem_cons.2 ⟨hpart, hcs⟩

theorem IsIdentifier.isTrimmed {s : String} (h : IsIdentifier s) : Text.IsTrimmed s.toList :=
  Text.isTrimmed_of_word fun c hc => Lexer.isBlank_of_isWordPart (h.isWordPart c hc)

theorem IsIdentifier.notMem {s : String} (h : IsIdentifier s) {c : Char}
    (hc : Lexer.isWordPart c = false) : c ∉ s.toList := fun hm =>
  Bool.eq_false_iff.1 hc (h.isWordPart c hm)

theorem isDigit_of_mem_numeral {n : Nat} {c : Char} (h : c ∈ (numeral n).toList) : c.isDigit := by
  rw [numeral, String.toList_ofList] at h
  exact Text.isDigit_of_mem_toDigits h

theorem newline_quoted (s : String) : '\n' ∉ (quoted s).toList := by
  rw [quoted, String.toList_ofList, List.mem_cons, List.mem_append, List.mem_flatMap]
  rintro (h | ⟨c, -, h⟩ | h)
  · cases h
  · obtain ⟨d, hc, hd, -⟩ | ⟨hc, hplain⟩ := Lexer.escapedChar_cases c
    · rw [hc] at h
      simp only [List.mem_cons, List.not_mem_nil, or_false] at h
      obtain h | h := h
      · cases h
      · exact hd h.symm
    · rw [hc] at h
      exact hplain (.inr (.inr (.inl (List.mem_singleton.1 h).symm)))
  · cases List.mem_singleton.1 h

theorem isTrimmed_quoted (s : String) : Text.IsTrimmed (quoted s).toList := by
  rw [quoted, String.toList_ofList]
  constructor
  · rintro c ⟨⟩
    rfl
  · intro c hc
    rw [← List.cons_append, List.getLast?_concat] at hc
    cases hc
    rfl

namespace Literal

def print (v : Literal) : String :=
  String.ofList (v.words.flatMap fun w => w.2.toList)

theorem toList_print (v : Literal) : v.print.toList = v.words.flatMap fun w => w.2.toList :=
  String.toList_ofList

theorem print_line (v : Literal) :
    v.print.toList ≠ [] ∧ Text.IsTrimmed v.print.toList ∧ '\n' ∉ v.print.toList := by
  have hword (cs : List Char) (hne : cs ≠ []) (h : ∀ c ∈ cs, Text.isBlank c = false) :
      cs ≠ [] ∧ Text.IsTrimmed cs ∧ '\n' ∉ cs :=
    ⟨hne, Text.isTrimmed_of_word h, fun hm => absurd (h _ hm) (by decide)⟩
  have hnumeral (n : Nat) : (numeral n).toList ≠ [] ∧
      ∀ c ∈ (numeral n).toList, Text.isBlank c = false := by
    refine ⟨?_, fun c hc => Text.isBlank_of_isDigit (isDigit_of_mem_numeral hc)⟩
    rw [numeral, String.toList_ofList]
    exact Nat.toDigits_ne_nil
  rw [toList_print]
  cases v with
  | int n =>
    obtain ⟨hne, hdigits⟩ := hnumeral n.toInt.natAbs
    rw [words]
    split
    · apply hword
      · exact List.cons_ne_nil _ _
      · simpa using ⟨rfl, hdigits⟩
    · rw [List.flatMap_singleton]
      exact hword _ hne hdigits
  | str s =>
    rw [words, List.flatMap_singleton]
    refine ⟨?_, isTrimmed_quoted s, newline_quoted s⟩
    rw [quoted, String.toList_ofList]
    exact List.cons_ne_nil _ _
  | bool b =>
    cases b <;> exact hword _ (by decide) (by simp [words, Text.isBlank])

end Literal

namespace Lexer

theorem pieces_minus (offset : Nat) (rest : List Char) :
    pieces offset ('-' :: rest) = ⟨.token .minus, ['-'], offset⟩ :: pieces (offset + 1) rest :=
  pieces_cons rfl offset rest

/-- The pieces of a literal are its words, although a minus sign stands close to its numeral. -/
theorem pieces_literal (v : Literal) :
    (pieces 0 v.print.toList).map (fun f => (f.piece, f.chars)) =
      v.words.map fun w => (.token w.1, w.2.toList) := by
  have hreadable := readable_literal v
  rw [Literal.toList_print]
  have hone {w : Token × String} (hw : Readable w) :
      (pieces 0 ([w].flatMap fun w => w.2.toList)).map (fun f => (f.piece, f.chars)) =
        [w].map fun w => (.token w.1, w.2.toList) := by
    rw [List.flatMap_singleton, pieces_readable hw]
    rfl
  cases v with
  | int n =>
    rw [Literal.words] at hreadable ⊢
    split at hreadable
    next hn =>
      obtain ⟨-, hnumeral⟩ := List.forall_mem_cons.1 hreadable
      rw [if_pos hn, List.flatMap_cons, List.flatMap_singleton]
      have hpieces := pieces_minus 0 (numeral n.toInt.natAbs).toList
      rw [pieces_readable (List.forall_mem_singleton.1 hnumeral)] at hpieces
      exact congrArg (List.map fun f => (f.piece, f.chars)) hpieces
    next hn =>
      rw [if_neg hn]
      exact hone (List.forall_mem_singleton.1 hreadable)
  | str s => exact hone (List.forall_mem_singleton.1 hreadable)
  | bool b =>
    cases b <;> exact hone (List.forall_mem_singleton.1 hreadable)

end Lexer

theorem ModuleFile.literal?_print (v : Literal) : literal? v.print.toList = some v.value := by
  obtain ⟨hstrays, htokens⟩ := lex_of_pieces (Lexer.pieces_literal v)
  rw [literal?]
  simp only [hstrays, ne_eq, not_true_eq_false, if_false]
  cases v with
  | int n =>
    rw [Literal.words] at htokens
    split at htokens
    next hn =>
      obtain ⟨t, rest, hts, ht, hrest⟩ := List.map_eq_cons_iff.1 htokens
      obtain ⟨u, rfl, hu⟩ := List.map_eq_singleton_iff.1 hrest
      obtain ⟨hminus, -⟩ := Prod.mk.inj ht
      obtain ⟨hint, htext⟩ := Prod.mk.inj hu
      rw [hts]
      dsimp only
      rw [if_pos ⟨hminus, hint⟩, htext, ofNegatedDigits?_numeral hn]
      rfl
    next hn =>
      obtain ⟨t, hts, ht⟩ := List.map_eq_singleton_iff.1 htokens
      obtain ⟨hint, htext⟩ := Prod.mk.inj ht
      rw [hts]
      dsimp only
      rw [hint, htext]
      dsimp only
      rw [ofDigits?_numeral (Int.not_lt.1 hn)]
      rfl
  | str s =>
    obtain ⟨t, hts, ht⟩ := List.map_eq_singleton_iff.1 htokens
    obtain ⟨hstr, htext⟩ := Prod.mk.inj ht
    rw [hts]
    dsimp only
    rw [hstr, htext]
    dsimp only
    rw [unescape_quoted]
    rfl
  | bool b =>
    cases b with
    | true | false =>
      obtain ⟨t, hts, ht⟩ := List.map_eq_singleton_iff.1 htokens
      obtain ⟨hbool, -⟩ := Prod.mk.inj ht
      rw [hts]
      dsimp only
      rw [hbool]
      rfl

end ScriptSession
