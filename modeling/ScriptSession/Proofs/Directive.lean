import Mathlib.Data.Option.Basic
import ScriptSession.Directive
import ScriptSession.Proofs.Rows
import ScriptSession.Proofs.Text

namespace ScriptSession

theorem meanings_semi (cs : List Char) : meanings (';' :: cs) = (.semi, ";") :: meanings cs :=
  meanings_of_munch rfl rfl

theorem meanings_comment {cs : List Char} (h : '\n' ∉ cs) :
    meanings ('/' :: '/' :: cs) = [(.comment, "")] := by
  have hrest : ('/' :: cs).dropWhile (· ≠ '\n') = [] :=
    List.dropWhile_eq_nil_iff.2 fun c hc => decide_eq_true fun hn : c = '\n' =>
      (List.mem_cons.1 hc).elim (fun he => nomatch hn.symm.trans he) fun hm => h (hn ▸ hm)
  have hmunch : meanings ('/' :: '/' :: cs) =
      (.comment, "") :: meanings (('/' :: cs).dropWhile (· ≠ '\n')) := meanings_of_munch rfl rfl
  rw [hmunch, hrest, meanings_nil]

theorem meanings_quoted {value : List Char}
    (h : ∀ c ∈ value, c ≠ '"' ∧ c ≠ '\\' ∧ c ≠ '\n' ∧ c ≠ '\r') (rest : List Char) :
    ∃ text, meanings ('"' :: (value ++ '"' :: rest)) = (.str, text) :: meanings rest := by
  have hbody : IsBody value := .of_plain fun c hc => by simpa only [not_or] using h c hc
  exact ⟨_, meanings_of_munch rfl (Lexer.takeQuote_body hbody rest)⟩

theorem meanings_marker {c : Char} (hc : Text.isBlank c = true) (rest : List Char) :
    meanings ('#' :: 'r' :: c :: rest) = (.directive, "#r") :: meanings (c :: rest) := by
  have ha : ¬ c.isAlpha = true := by
    rw [Lexer.isAlpha_of_isBlank hc]
    exact Bool.false_ne_true
  have htake : ('r' :: c :: rest).takeWhile Char.isAlpha = ['r'] := by
    rw [List.takeWhile_cons_of_pos rfl, List.takeWhile_cons_of_neg ha]
  have hdrop : ('r' :: c :: rest).dropWhile Char.isAlpha = c :: rest := by
    rw [List.dropWhile_cons_of_pos rfl, List.dropWhile_cons_of_neg ha]
  have hhash : Lexer.takeHash ('r' :: c :: rest) = (.token .directive, ['r'], c :: rest) := by
    rw [Lexer.takeHash, if_neg (by rw [htake]; decide), Lexer.spanning, htake, hdrop]
  exact meanings_of_munch rfl hhash

namespace Directive

/-- What may follow the value of a directive binds nothing. -/
theorem no_let_in_tail {tail blanks : List Char} (h : isTail tail = true)
    (hb : ∀ c ∈ blanks, Text.isBlank c = true) (hn : '\n' ∉ tail ++ blanks) :
    ∀ m ∈ meanings (tail ++ blanks), m.1 ≠ .kwLet := by
  -- a comment, or nothing, and then blanks
  have hlast (x w : List Char) (hx : x = [] ∨ ['/', '/'].isPrefixOf x = true)
      (hw : ∀ c ∈ w, Text.isBlank c = true) (hnx : '\n' ∉ x ++ w) :
      ∀ m ∈ meanings (x ++ w), m.1 ≠ .kwLet := by
    obtain rfl | hx := hx
    · rw [List.nil_append, meanings_of_blank hw]
      nofun
    · obtain ⟨y, rfl⟩ := List.isPrefixOf_iff_prefix.1 hx
      rw [List.append_assoc]
      have hy : '\n' ∉ y ++ w := fun hm => hnx (by
        rw [List.append_assoc]
        exact List.mem_append_right _ hm)
      rw [List.cons_append, List.cons_append, List.nil_append, meanings_comment hy]
      exact List.forall_mem_singleton.2 nofun
  obtain ⟨w, hw, hwb⟩ := Text.exists_trimEnd (Text.trimStart tail)
  have hsub : '\n' ∉ Text.trim tail ++ (w ++ blanks) := by
    have := Text.not_mem_trimStart_append hn
    rwa [hw, List.append_assoc] at this
  have hwb' : ∀ c ∈ w ++ blanks, Text.isBlank c = true := List.forall_mem_append.2 ⟨hwb, hb⟩
  rw [← meanings_trimStart, hw, List.append_assoc]
  simp only [isTail, Bool.or_eq_true, decide_eq_true_eq] at h
  split at h
  next rest hrest =>
    have hsemi := Text.eq_of_afterLead hrest
    change ∀ m ∈ meanings (Text.trim tail ++ (w ++ blanks)), m.1 ≠ .kwLet
    rw [hsemi, List.append_assoc, List.singleton_append] at hsub ⊢
    rw [meanings_semi, ← meanings_trimStart]
    refine List.forall_mem_cons.2 ⟨nofun, hlast _ _ h hwb' ?_⟩
    exact Text.not_mem_trimStart_append fun hm => hsub (List.mem_cons_of_mem _ hm)
  next => exact hlast _ _ h hwb' hsub

theorem no_let_in_line {line blanks : List Char} {value : String} (h : valueOf? line = some value)
    (hclean : ∀ c ∈ value.toList, c ≠ '\\' ∧ c ≠ '\r') (hb : ∀ c ∈ blanks, Text.isBlank c = true)
    (hn : '\n' ∉ line ++ blanks) : ∀ m ∈ meanings (line ++ blanks), m.1 ≠ .kwLet := by
  obtain ⟨rest, hmarker, h⟩ := Option.bind_eq_some_iff.1 h
  obtain ⟨_, hstarts, h⟩ := Option.bind_eq_some_iff.1 h
  obtain ⟨rest', hquote, h⟩ := Option.bind_eq_some_iff.1 h
  obtain ⟨⟨body, tail⟩, hcut, h⟩ := Option.bind_eq_some_iff.1 h
  obtain ⟨_, htail, h⟩ := Option.bind_eq_some_iff.1 h
  rw [Option.guard_eq_some'] at hstarts htail
  cases h
  rw [String.toList_ofList] at hclean
  have hmarker := Text.eq_of_afterLead hmarker
  have hquote := Text.eq_of_afterLead hquote
  obtain ⟨rfl, hbody⟩ := Text.eq_of_cutFirst hcut
  obtain ⟨c, rest, rfl, hc⟩ : ∃ c cs, rest = c :: cs ∧ Text.isBlank c = true := by
    cases rest with
    | nil => cases hstarts
    | cons c cs => exact ⟨c, cs, rfl, hstarts⟩
  have hn := Text.not_mem_trimStart_append hn
  rw [← meanings_trimStart, hmarker]
  rw [hmarker] at hn
  simp only [List.cons_append, List.nil_append] at hn ⊢
  rw [meanings_marker hc]
  have hrest : '\n' ∉ c :: rest ++ blanks := fun hm =>
    hn (List.mem_cons_of_mem _ (List.mem_cons_of_mem _ hm))
  have hn := Text.not_mem_trimStart_append hrest
  rw [← List.cons_append, ← meanings_trimStart, hquote]
  rw [hquote] at hn
  simp only [List.cons_append, List.nil_append, List.append_assoc] at hn ⊢
  simp only [List.mem_cons, List.mem_append, not_or] at hn
  have hplain : ∀ d ∈ body, d ≠ '"' ∧ d ≠ '\\' ∧ d ≠ '\n' ∧ d ≠ '\r' := fun d hd =>
    ⟨fun hq => hbody (hq ▸ hd), (hclean d hd).1, fun hl => hn.2.1 (hl ▸ hd), (hclean d hd).2⟩
  obtain ⟨text, hquoted⟩ := meanings_quoted hplain (tail ++ blanks)
  rw [hquoted]
  refine List.forall_mem_cons.2 ⟨nofun, List.forall_mem_cons.2 ⟨nofun, ?_⟩⟩
  exact no_let_in_tail htail hb fun hm => (List.mem_append.1 hm).elim hn.2.2.2.1 hn.2.2.2.2

theorem mem_scan_iff {text : String} {d : Directive} :
    d ∈ scan text ↔ ∃ line, (Text.lines text.toList)[d.line]? = some line ∧
      valueOf? line = some d.value := by
  unfold scan
  rw [List.mem_filterMap]
  constructor
  · rintro ⟨⟨i, line⟩, hm, hd⟩
    obtain ⟨k, rfl, hline⟩ := Text.mem_numbered_iff.1 hm
    obtain ⟨value, hvalue, rfl⟩ := Option.map_eq_some_iff.1 hd
    rw [Nat.zero_add]
    exact ⟨line, hline, hvalue⟩
  · rintro ⟨line, hline, hvalue⟩
    refine ⟨(d.line, line), Text.mem_numbered_iff.2 ⟨d.line, (Nat.zero_add _).symm, hline⟩, ?_⟩
    exact Option.map_eq_some_iff.2 ⟨d.value, hvalue, rfl⟩

theorem toList_blank (text : String) (lines : List Nat) :
    (blank text lines).toList = Text.joinWith ['\n'] ((Text.numbered 0 (Text.rows text.toList)).map
      fun row => if row.1 ∈ lines then [] else row.2) := by
  unfold blank
  simp only [String.toList_ofList, Std.HashSet.mem_ofList, List.contains_iff_mem]

theorem blank_nil (text : String) : blank text [] = text := by
  rw [← String.toList_inj, toList_blank]
  simp only [List.not_mem_nil, if_false]
  have hrows : (Text.numbered 0 (Text.rows text.toList)).map (·.2) = Text.rows text.toList :=
    List.map_snd_zip (by simp)
  rw [hrows, Text.joinWith_rows]

open Outline in
/-- The rows that are emptied for the directives of a text bind nothing. -/
theorem emptied_rows {text : String}
    (hclean : ∀ d ∈ scan text, ∀ c ∈ d.value.toList, c ≠ '\\' ∧ c ≠ '\r') :
    ∃ kept, (blank text ((scan text).map (·.line))).toList = Text.joinWith ['\n'] kept ∧
      List.Forall₂ Emptied (Text.rows text.toList) kept := by
  have hempty (i : Nat) (row : List Char) (hi : i ∈ (scan text).map (·.line))
      (hrow : (Text.rows text.toList)[i]? = some row) : Emptied row [] := by
    obtain ⟨d, hd, rfl⟩ := List.mem_map.1 hi
    have hvalue := hclean d hd
    obtain ⟨line, hk, hv⟩ := mem_scan_iff.1 hd
    obtain ⟨row', hrow', hline⟩ := Text.row_of_line hk
    cases hrow.symm.trans hrow'
    have hn := Text.not_mem_of_mem_rows (List.mem_of_getElem? hrow)
    obtain ⟨blanks, rfl, hb⟩ : ∃ blanks, row = line ++ blanks ∧
        ∀ c ∈ blanks, Text.isBlank c = true := by
      obtain rfl | rfl := hline
      · exact ⟨[], (List.append_nil _).symm, nofun⟩
      · exact ⟨['\r'], rfl, List.forall_mem_singleton.2 rfl⟩
    refine .inr ⟨rfl, fun t ht => ?_⟩
    exact no_let_in_line hv hvalue hb hn t.meaning (List.mem_map_of_mem ht)
  refine ⟨_, toList_blank text _, Text.forall₂_numbered 0 _ ?_⟩
  rintro ⟨i, row⟩ hrow
  obtain ⟨k, rfl, hk⟩ := Text.mem_numbered_iff.1 hrow
  rw [Nat.zero_add]
  dsimp only
  split
  next hi => exact hempty k row hi hk
  next => exact .inl rfl

theorem letNames_blank {text code : String}
    (hclean : ∀ d ∈ scan text, ∀ c ∈ d.value.toList, c ≠ '\\' ∧ c ≠ '\r')
    (hcode : code = blank text ((scan text).map (·.line)))
    (hlines : Outline.LetsOnOneLine code.toList)
    (hb : Outline.LetsBound (significant (lex code.toList).tokens)) :
    Outline.LetsBound (lex text.toList).tokens ∧ Outline.letNames (lex text.toList).tokens =
      Outline.letNames (significant (lex code.toList).tokens) := by
  subst hcode
  obtain ⟨kept, hkept, hrows⟩ := emptied_rows hclean
  rw [hkept] at hlines hb ⊢
  have := Outline.letNames_rows hrows (fun row hrow => Text.not_mem_of_mem_rows hrow) hlines hb
  rwa [Text.joinWith_rows] at this

end Directive

/-- Where every `let` of a text stands on the line of its name, comments make no difference to what
the text binds. -/
theorem Outline.letNames_significant {cs : List Char} (hlines : LetsOnOneLine cs)
    (hb : LetsBound (significant (lex cs).tokens)) :
    LetsBound (lex cs).tokens ∧
      letNames (lex cs).tokens = letNames (significant (lex cs).tokens) := by
  have hrows := letNames_rows (List.forall₂_same.2 fun row _ => .inl rfl)
    fun row (hrow : row ∈ Text.rows cs) => Text.not_mem_of_mem_rows hrow
  rw [Text.joinWith_rows] at hrows
  exact hrows hlines hb

end ScriptSession
