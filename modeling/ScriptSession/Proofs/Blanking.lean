import ScriptSession.Proofs.Blame
import ScriptSession.Proofs.Directive
import ScriptSession.Proofs.Trim

namespace ScriptSession

namespace Text

theorem rows_induction {motive : List Char → Prop} (row : ∀ row, '\n' ∉ row → motive row)
    (newline : ∀ row rest, '\n' ∉ row → motive rest → motive (row ++ '\n' :: rest))
    (cs : List Char) : motive cs := by
  induction h : cs.length using Nat.strongRecOn generalizing cs with
  | ind n ih =>
    by_cases hmem : '\n' ∈ cs
    · obtain ⟨first, rest, rfl, hfirst⟩ := List.eq_append_cons_of_mem hmem
      rw [List.length_append, List.length_cons] at h
      exact newline first rest hfirst (ih rest.length (by omega) rest rfl)
    · exact row cs hmem

theorem rows_append_newline (a b : List Char) : rows (a ++ '\n' :: b) = rows a ++ rows b :=
  List.splitOn_append_cons_self a b

theorem rows_row {row : List Char} (h : '\n' ∉ row) : rows row = [row] :=
  List.splitOn_eq_singleton h

theorem rows_newline {row : List Char} (h : '\n' ∉ row) (rest : List Char) :
    rows (row ++ '\n' :: rest) = row :: rows rest := by
  rw [rows_append_newline, rows_row h, List.singleton_append]

theorem count_newline {row : List Char} (h : '\n' ∉ row) (rest : List Char) :
    (row ++ '\n' :: rest).count '\n' = rest.count '\n' + 1 := by
  rw [List.count_append, List.count_eq_zero.2 h, List.count_cons_self, Nat.zero_add]

theorem length_rows (cs : List Char) : (rows cs).length = cs.count '\n' + 1 := by
  induction cs using rows_induction with
  | row row h =>
    rw [rows_row h, List.count_eq_zero.2 h]
    rfl
  | newline row rest h ih => rw [rows_newline h, count_newline h, List.length_cons, ih]

theorem rows_joinWith {rs : List (List Char)} (h : ∀ row ∈ rs, '\n' ∉ row) (hne : rs ≠ []) :
    rows (joinWith ['\n'] rs) = rs :=
  List.splitOn_intercalate '\n' h hne

/-- A line is a row that a line feed closes, or else the last row if it is not empty. -/
theorem getElem?_lines_eq_some_iff {cs line : List Char} {i : Nat} :
    (lines cs)[i]? = some line ↔ ∃ row, (rows cs)[i]? = some row ∧
      (i < cs.count '\n' ∧ line = closeRow row ∨ i = cs.count '\n' ∧ row ≠ [] ∧ line = row) := by
  induction cs using rows_induction generalizing i with
  | row row h =>
    rw [lines_row h, rows_row h, List.count_eq_zero.2 h]
    cases i with
    | zero => by_cases hrow : row = [] <;> simp [hrow, eq_comm]
    | succ i => by_cases hrow : row = [] <;> simp [hrow]
  | newline row rest h ih =>
    rw [lines_newline h, rows_newline h, count_newline h]
    cases i with
    | zero => simp [eq_comm]
    | succ i => simp [ih]

/-- Whether a row starts after a text. -/
def OpensRow (cs : List Char) : Prop :=
  cs = [] ∨ ∃ before, cs = before ++ ['\n']

theorem OpensRow.newline {front : List Char} (h : OpensRow front) (first : List Char) :
    OpensRow (first ++ '\n' :: front) := by
  obtain rfl | ⟨before, rfl⟩ := h
  · exact .inr ⟨first, rfl⟩
  · exact .inr ⟨first ++ '\n' :: before, by rw [List.append_assoc, List.cons_append]⟩

theorem exists_row {cs row : List Char} {i : Nat} (h : (rows cs)[i]? = some row) :
    ∃ front back, cs = front ++ (row ++ back) ∧ OpensRow front ∧ front.count '\n' = i ∧
      back.head? = if i < cs.count '\n' then some '\n' else none := by
  induction cs using rows_induction generalizing i with
  | row whole hrow =>
    rw [rows_row hrow, List.getElem?_singleton, Option.ite_none_right_eq_some] at h
    obtain ⟨rfl, ⟨⟩⟩ := h
    refine ⟨[], [], (List.append_nil _).symm, .inl rfl, rfl, ?_⟩
    rw [List.count_eq_zero.2 hrow]
    rfl
  | newline first rest hfirst ih =>
    rw [rows_newline hfirst] at h
    rw [count_newline hfirst]
    cases i with
    | zero =>
      cases h
      exact ⟨[], '\n' :: rest, rfl, .inl rfl, rfl, rfl⟩
    | succ i =>
      obtain ⟨front, back, rfl, hfront, rfl, hback⟩ := ih h
      refine ⟨first ++ '\n' :: front, back, ?_, hfront.newline first,
        count_newline hfirst front, ?_⟩
      · rw [List.append_assoc, List.cons_append]
      · simpa only [Nat.add_lt_add_iff_right] using hback

theorem exists_lastRow (cs : List Char) :
    ∃ front row, cs = front ++ row ∧ OpensRow front ∧ '\n' ∉ row := by
  induction cs using rows_induction with
  | row row h => exact ⟨[], row, rfl, .inl rfl, h⟩
  | newline first rest _ ih =>
    obtain ⟨front, row, rfl, hfront, hrow⟩ := ih
    refine ⟨first ++ '\n' :: front, row, ?_, hfront.newline first, hrow⟩
    rw [List.append_assoc, List.cons_append]

theorem OpensRow.getElem?_rows {front : List Char} (h : OpensRow front) (rest : List Char) :
    (rows (front ++ rest))[front.count '\n']? = some (rest.takeWhile (· ≠ '\n')) := by
  have hfirst : (rows rest)[0]? = some (rest.takeWhile (· ≠ '\n')) := by
    rw [← List.head?_eq_getElem?, rows, head?_splitOn]
  obtain rfl | ⟨before, rfl⟩ := h
  · exact hfirst
  · have hlength : (before ++ ['\n']).count '\n' = (rows before).length := by
      rw [length_rows, List.count_append]
      rfl
    rw [List.append_assoc, List.singleton_append, rows_append_newline, hlength,
      List.getElem?_append_right (Nat.le_refl _), Nat.sub_self, hfirst]

end Text

namespace Position

theorem foldl_advance_row {row : List Char} (h : '\n' ∉ row) (p : Position) :
    row.foldl advance p = ⟨p.line, p.column + row.length⟩ := by
  induction row generalizing p with
  | nil => rfl
  | cons c row ih =>
    rw [List.mem_cons, not_or] at h
    rw [List.foldl_cons, advance, if_neg (Ne.symm h.1), ih h.2, List.length_cons,
      Nat.add_assoc, Nat.add_comm 1]

theorem ofOffset_byteLength (front back : List Char) :
    ofOffset (front ++ back) (Text.byteLength front) = front.foldl advance first := by
  have hstay (p : Position) : walk p back 0 = p := by
    cases back with
    | nil => rfl
    | cons c back => rw [walk, if_neg (Nat.not_le.2 c.utf8Size_pos)]
  have hwalk := walk_append first front back 0
  rwa [Nat.add_zero, hstay] at hwalk

/-- The place of a character is told by its row and by what stands before it there. -/
theorem ofOffset_row {front row : List Char} (hfront : Text.OpensRow front) (hrow : '\n' ∉ row)
    (rest : List Char) :
    ofOffset (front ++ (row ++ rest)) (Text.byteLength (front ++ row)) =
      ⟨front.count '\n' + 1, row.length + 1⟩ := by
  have hstart : front.foldl advance first = ⟨front.count '\n' + 1, 1⟩ := by
    obtain rfl | ⟨before, rfl⟩ := hfront
    · rfl
    · rw [List.foldl_append, List.foldl_cons, List.foldl_nil, advance, if_pos rfl,
        line_foldl_advance, List.count_append, first, Nat.add_comm 1]
      rfl
  rw [← List.append_assoc, ofOffset_byteLength, List.foldl_append, hstart, foldl_advance_row hrow,
    Nat.add_comm row.length]

end Position

namespace Directive

variable {text : String} {lines : List Nat}

theorem rows_blank (text : String) (lines : List Nat) :
    Text.rows (blank text lines).toList = (Text.numbered 0 (Text.rows text.toList)).map
      fun row => if row.1 ∈ lines then [] else row.2 := by
  rw [toList_blank]
  apply Text.rows_joinWith
  · refine List.forall_mem_map.2 fun row hrow => ?_
    split
    · exact List.not_mem_nil
    · obtain ⟨k, -, hk⟩ := Text.mem_numbered_iff.1 hrow
      exact Text.not_mem_of_mem_rows (List.mem_of_getElem? hk)
  · apply List.ne_nil_of_length_pos
    rw [List.length_map, Text.length_numbered, Text.length_rows]
    exact Nat.succ_pos _

theorem getElem?_rows_blank (text : String) (lines : List Nat) (i : Nat) :
    (Text.rows (blank text lines).toList)[i]? =
      (Text.rows text.toList)[i]?.map fun row => if i ∈ lines then [] else row := by
  rw [rows_blank, List.getElem?_map, Text.getElem?_numbered, Option.map_map, Nat.zero_add]
  rfl

theorem count_blank (text : String) (lines : List Nat) :
    (blank text lines).toList.count '\n' = text.toList.count '\n' := by
  have hrows := congrArg List.length (rows_blank text lines)
  rw [Text.length_rows, List.length_map, Text.length_numbered, Text.length_rows] at hrows
  exact Nat.add_right_cancel hrows

theorem scan_blank (text : String) : scan (blank text ((scan text).map (·.line))) = [] := by
  refine List.eq_nil_iff_forall_not_mem.2 fun d hd => ?_
  obtain ⟨line, hline, hvalue⟩ := mem_scan_iff.1 hd
  obtain ⟨row, hrow, hcase⟩ := Text.getElem?_lines_eq_some_iff.1 hline
  rw [getElem?_rows_blank] at hrow
  obtain ⟨row', hrow', rfl⟩ := Option.map_eq_some_iff.1 hrow
  rw [count_blank] at hcase
  by_cases hd : d.line ∈ (scan text).map (·.line)
  · rw [if_pos hd] at hcase
    obtain ⟨-, rfl⟩ | ⟨-, hne, -⟩ := hcase
    · cases hvalue
    · exact hne rfl
  · -- the line would be a directive of the whole text
    rw [if_neg hd] at hcase
    have hline' := Text.getElem?_lines_eq_some_iff.2 ⟨row', hrow', hcase⟩
    exact hd (List.mem_map_of_mem (mem_scan_iff.2 ⟨line, hline', hvalue⟩))

theorem exists_row_of_blank {before after : List Char}
    (hcode : (blank text lines).toList = before ++ after) :
    ∃ front pre row, before = front ++ pre ∧ Text.OpensRow front ∧ '\n' ∉ pre ∧
      before.count '\n' = front.count '\n' ∧
      (Text.rows text.toList)[front.count '\n']? = some row ∧
      (if before.count '\n' ∈ lines then [] else row) = pre ++ after.takeWhile (· ≠ '\n') := by
  obtain ⟨front, pre, rfl, hfront, hpre⟩ := Text.exists_lastRow before
  have hcount : (front ++ pre).count '\n' = front.count '\n' := by
    rw [List.count_append, List.count_eq_zero.2 hpre, Nat.add_zero]
  have hrow := hfront.getElem?_rows (pre ++ after)
  rw [← List.append_assoc, ← hcode, getElem?_rows_blank,
    List.takeWhile_append_of_pos (Text.decide_ne_of_not_mem hpre)] at hrow
  obtain ⟨row, hrow, hkept⟩ := Option.map_eq_some_iff.1 hrow
  exact ⟨front, pre, row, rfl, hfront, hpre, hcount, hrow, hcount ▸ hkept⟩

theorem exists_place {before after : List Char}
    (hcode : (blank text lines).toList = before ++ after) (hline : before.count '\n' ∉ lines) :
    ∃ before' after', text.toList = before' ++ after' ∧ after'.head? = after.head? ∧
      before'.count '\n' = before.count '\n' ∧
      Position.ofOffset text.toList (Text.byteLength before') =
        Position.ofOffset (blank text lines).toList (Text.byteLength before) := by
  obtain ⟨front, pre, row, rfl, hfront, hpre, hcount, hrow, hkept⟩ := exists_row_of_blank hcode
  have htotal : text.toList.count '\n' = front.count '\n' + after.count '\n' := by
    rw [← count_blank text lines, hcode, List.count_append, hcount]
  rw [if_neg hline] at hkept
  rw [List.append_assoc] at hcode
  obtain ⟨front', back, htext, hfront', hnumber, hback⟩ := Text.exists_row hrow
  rw [hkept, List.append_assoc] at htext
  refine ⟨front' ++ pre, after.takeWhile (· ≠ '\n') ++ back, ?_, ?_, ?_, ?_⟩
  · rw [htext, List.append_assoc]
  · rw [htotal] at hback
    cases after with
    | nil => simpa using hback
    | cons c after =>
      by_cases hc : c = '\n'
      · rw [List.takeWhile_cons_of_neg (by simp [hc]), List.nil_append, hback, hc,
          List.count_cons_self, if_pos (by omega)]
        rfl
      · rw [List.takeWhile_cons_of_pos (by simp [hc])]
        rfl
  · rw [hcount, ← hnumber, List.count_append, List.count_eq_zero.2 hpre, Nat.add_zero]
  · rw [hcode, htext, Position.ofOffset_row hfront hpre, Position.ofOffset_row hfront' hpre,
      hnumber]

theorem line_of_character {before after : List Char} {c : Char} (hc : c ≠ '\n')
    (hcode : (blank text lines).toList = before ++ c :: after) : before.count '\n' ∉ lines := by
  intro hline
  obtain ⟨front, pre, row, -, -, -, -, -, hkept⟩ := exists_row_of_blank hcode
  rw [if_pos hline, List.takeWhile_cons_of_pos (by simp [hc])] at hkept
  exact List.append_ne_nil_of_right_ne_nil _ (List.cons_ne_nil _ _) hkept.symm

end Directive

/-- Whether a place of a text is that before a character, or the end of the text if none is
given. -/
def Position.Marks (p : Position) (cs : List Char) (c : Option Char) : Prop :=
  ∃ before after, cs = before ++ after ∧ after.head? = c ∧
    p = ofOffset cs (Text.byteLength before)

theorem Position.marks_end (cs : List Char) :
    (ofOffset cs (Text.byteLength cs)).Marks cs none :=
  ⟨cs, [], (List.append_nil cs).symm, rfl, rfl⟩

theorem Directive.marks_of_standsAt {text : String} {lines : List Nat} {p : Position}
    {offset : Nat} (hp : p = .ofOffset (blank text lines).toList offset)
    (h : Text.StandsAt (blank text lines).toList offset) :
    ∃ c, c ≠ '\n' ∧ p.Marks (blank text lines).toList (some c) ∧
      p.Marks text.toList (some c) := by
  obtain ⟨before, c, after, hcode, hc, rfl⟩ := h
  obtain ⟨before', after', htext, hhead, -, hplace⟩ :=
    exists_place hcode (line_of_character hc hcode)
  exact ⟨c, hc, ⟨before, c :: after, hcode, rfl, hp⟩,
    ⟨before', after', htext, hhead, hp.trans hplace.symm⟩⟩

/-- The end of a text has the same place where its last line is emptied, unless it is. -/
theorem Directive.marks_end_of_blank {text : String} {lines : List Nat}
    (hline : text.toList.count '\n' ∉ lines) :
    Position.Marks (.ofOffset (blank text lines).toList (Text.byteLength (blank text lines).toList))
      text.toList none := by
  rw [← count_blank text lines] at hline
  obtain ⟨before', after', htext, hhead, -, hplace⟩ :=
    exists_place (List.append_nil _).symm hline
  exact ⟨before', after', htext, hhead, hplace.symm⟩

/-- What is left of a text without the lines of its directives has the same number of line feeds, an
empty row for each directive and all other rows, and no directives. A place in a row that is kept is
that of the same character in the whole text. So a diagnostic about it is found at the same
character there, unless it is about modules that conflict or is at the end, and so is every
fault. -/
theorem blanking_keeps_places (text : String) :
    let lines := (Directive.scan text).map (·.line)
    let code := Directive.blank text lines
    code.toList.count '\n' = text.toList.count '\n' ∧
    (∀ i, (Text.rows code.toList)[i]? =
      (Text.rows text.toList)[i]?.map fun row => if i ∈ lines then [] else row) ∧
    Directive.scan code = [] ∧
    (∀ before after, code.toList = before ++ after → before.count '\n' ∉ lines →
      ∃ before' after', text.toList = before' ++ after' ∧ after'.head? = after.head? ∧
        before'.count '\n' = before.count '\n' ∧
        Position.ofOffset text.toList (Text.byteLength before') =
          Position.ofOffset code.toList (Text.byteLength before)) ∧
    ∀ files options prior cancelled,
      (∀ e, Engine.run files code options prior cancelled = .error (.compile e) →
        ∀ d ∈ e.diagnostics, (∃ path loaded, d = ⟨.first, .conflict path loaded⟩) ∨
          (∃ c, c ≠ '\n' ∧ d.position.Marks code.toList (some c) ∧
            d.position.Marks text.toList (some c)) ∨
          d.position.Marks code.toList none ∧
            (text.toList.count '\n' ∉ lines → d.position.Marks text.toList none)) ∧
      ∀ state printed, Engine.run files code options prior cancelled = .ok (state, printed) →
        ∀ fault ∈ state.fault, ∃ c, c ≠ '\n' ∧ fault.position.Marks code.toList (some c) ∧
          fault.position.Marks text.toList (some c) := by
  intro lines code
  refine ⟨Directive.count_blank text lines, Directive.getElem?_rows_blank text lines,
    Directive.scan_blank text, fun before after hcode hline => Directive.exists_place hcode hline,
    fun files options prior cancelled => ⟨fun e herror d hd => ?_, ?_⟩⟩
  · obtain hconflict | ⟨offset, hplace, hend | hstands⟩ := Engine.located_of_run herror hd
    · exact .inl hconflict
    · rw [hplace, hend]
      refine .inr (.inr ⟨Position.marks_end code.toList, fun hline => ?_⟩)
      exact Directive.marks_end_of_blank hline
    · exact .inr (.inl (Directive.marks_of_standsAt hplace hstands))
  · intro state printed hrun fault hfault
    obtain ⟨offset, hplace, hstands⟩ := Engine.located_of_fault hrun hfault
    exact Directive.marks_of_standsAt hplace hstands

/-- Directives on the first and the last line of a text, the first with a letter of two bytes and a
carriage return: the letter between them is the fifth on its line in the whole text, as in what is
left. -/
theorem place_between_directives :
    let text := "#r \"ä\"\r\nlet ä\n #r \"b\"; // c"
    (Directive.scan text).map (·.line) = [0, 2] ∧ Directive.blank text [0, 2] = "\nlet ä\n" ∧
      ∃ before after, text.toList = before ++ after ∧ after.head? = some 'ä' ∧
        before.count '\n' = 1 ∧
        Position.ofOffset text.toList (Text.byteLength before) = ⟨2, 5⟩ := by
  intro text
  have hlines : (Directive.scan text).map (·.line) = [0, 2] := by decide +kernel
  have hcode : (Directive.blank text [0, 2]).toList = "\nlet ".toList ++ "ä\n".toList := by
    rw [Directive.toList_blank]
    decide +kernel
  refine ⟨hlines, String.toList_inj.1 hcode, ?_⟩
  obtain ⟨-, -, -, hplaces, -⟩ := blanking_keeps_places text
  rw [hlines] at hplaces
  obtain ⟨before, after, htext, hhead, hcount, hplace⟩ := hplaces _ _ hcode (by decide)
  rw [hcode] at hplace
  exact ⟨before, after, htext, hhead, hcount, hplace⟩

end ScriptSession
