import ScriptSession.Proofs.Text

namespace ScriptSession.Text

def IsTrimmed (cs : List Char) : Prop :=
  (∀ c ∈ cs.head?, isBlank c = false) ∧ ∀ c ∈ cs.getLast?, isBlank c = false

instance (cs : List Char) : Decidable (IsTrimmed cs) :=
  decidable_of_iff ((cs.head?.all fun c => !isBlank c) = true ∧
      (cs.getLast?.all fun c => !isBlank c) = true) <| by
    simp only [IsTrimmed, Option.all_eq_true, Bool.not_eq_eq_eq_not, Bool.not_true, Option.mem_def]

theorem head_dropWhile {c : Char} {cs : List Char} (h : c ∈ (cs.dropWhile isBlank).head?) :
    isBlank c = false := by
  have hnot := List.head?_dropWhile_not isBlank cs
  rw [Option.mem_def.1 h] at hnot
  simpa using hnot

theorem dropWhile_of_head {cs : List Char} (h : ∀ c ∈ cs.head?, isBlank c = false) :
    cs.dropWhile isBlank = cs := by
  cases cs with
  | nil => rfl
  | cons c cs => rw [List.dropWhile_cons_of_neg (by simp [h c rfl])]

theorem isTrimmed_trim (cs : List Char) : IsTrimmed (trim cs) := by
  constructor
  · intro c hc
    obtain ⟨blanks, hcs, -⟩ := exists_trimEnd (trimStart cs)
    have hstart : c ∈ (trimStart cs).head? := by
      rw [hcs, List.head?_append]
      exact Option.or_eq_some_iff.2 (.inl hc)
    exact head_dropWhile hstart
  · intro c hc
    rw [trim, trimEnd, List.getLast?_reverse] at hc
    exact head_dropWhile hc

theorem isTrimmed_of_word {cs : List Char} (h : ∀ c ∈ cs, isBlank c = false) : IsTrimmed cs :=
  ⟨fun c hc => h c (List.mem_of_head? hc), fun c hc => h c (List.mem_of_getLast? hc)⟩

theorem IsTrimmed.trim_eq {cs : List Char} (h : IsTrimmed cs) : trim cs = cs := by
  have hlast : ∀ c ∈ cs.reverse.head?, isBlank c = false := by
    rw [List.head?_reverse]
    exact h.2
  rw [trim, trimStart, dropWhile_of_head h.1, trimEnd, dropWhile_of_head hlast,
    List.reverse_reverse]

/-- A text that starts where one that is trimmed starts, and ends where another one ends. -/
theorem IsTrimmed.append {front mid back : List Char} (hf : IsTrimmed front) (hb : IsTrimmed back)
    (hfront : front ≠ []) (hback : back ≠ []) : IsTrimmed (front ++ (mid ++ back)) := by
  rw [IsTrimmed, List.head?_append_of_ne_nil _ hfront, ← List.append_assoc,
    List.getLast?_append_of_ne_nil _ hback]
  exact ⟨hf.1, hb.2⟩

theorem trimStart_append {cs : List Char} (h : ∃ c ∈ cs, isBlank c = false) (rest : List Char) :
    trimStart (cs ++ rest) = trimStart cs ++ rest := by
  obtain ⟨c, hc, hb⟩ := h
  have hne : ¬ (cs.dropWhile isBlank).isEmpty := by
    rw [List.isEmpty_iff, List.dropWhile_eq_nil_iff]
    intro hall
    rw [hall c hc] at hb
    cases hb
  rw [trimStart, List.dropWhile_append, if_neg hne, trimStart]

theorem trimEnd_append_of_blank {back : List Char} (h : ∀ c ∈ back, isBlank c = true)
    (cs : List Char) : trimEnd (cs ++ back) = trimEnd cs := by
  rw [trimEnd, List.reverse_append,
    List.dropWhile_append_of_pos fun c hc => h c (List.mem_reverse.1 hc), trimEnd]

theorem trim_of_blanks {front back : List Char} (hf : ∀ c ∈ front, isBlank c = true)
    (hb : ∀ c ∈ back, isBlank c = true) (cs : List Char) :
    trim (front ++ (cs ++ back)) = trim cs := by
  have hstart : trimStart (front ++ (cs ++ back)) = trimStart (cs ++ back) :=
    List.dropWhile_append_of_pos hf
  rw [trim, hstart]
  by_cases h : ∃ c ∈ cs, isBlank c = false
  · rw [trimStart_append h, trimEnd_append_of_blank hb, trim]
  · have hcs : ∀ c ∈ cs, isBlank c = true := fun c hc =>
      Bool.not_eq_false _ ▸ fun hc' => h ⟨c, hc, hc'⟩
    rw [trim, trimStart, trimStart, List.dropWhile_append_of_pos hcs,
      List.dropWhile_eq_nil_iff.2 hb, List.dropWhile_eq_nil_iff.2 hcs]

theorem trim_space (cs : List Char) : trim (' ' :: cs) = trim cs := by
  rw [trim, trimStart, List.dropWhile_cons_of_pos (by decide), ← trimStart, ← trim]

/-- Whether a line holds a text and blanks around it. -/
def Pads (line core : List Char) : Prop :=
  IsTrimmed core ∧ ∃ left right, line = left ++ (core ++ right) ∧
    (∀ c ∈ left, isBlank c = true) ∧ ∀ c ∈ right, isBlank c = true

theorem pads_iff {line core : List Char} : Pads line core ↔ trim line = core := by
  constructor
  · rintro ⟨hcore, left, right, rfl, hleft, hright⟩
    rw [trim_of_blanks hleft hright, hcore.trim_eq]
  · rintro rfl
    obtain ⟨right, hright, hblank⟩ := exists_trimEnd (trimStart line)
    refine ⟨isTrimmed_trim line, line.takeWhile isBlank, right, ?_, ?_, hblank⟩
    · rw [trim, ← hright, trimStart, List.takeWhile_append_dropWhile]
    · exact fun c hc => List.mem_takeWhile_imp hc

theorem trimStart_sep {sep : Char} (hsep : isBlank sep = false) (before after : List Char) :
    trimStart (before ++ sep :: after) = trimStart before ++ sep :: after := by
  by_cases h : ∃ c ∈ before, isBlank c = false
  · exact trimStart_append h _
  · have hblank : ∀ c ∈ before, isBlank c = true := fun c hc =>
      Bool.not_eq_false _ ▸ fun hc' => h ⟨c, hc, hc'⟩
    rw [trimStart, trimStart, List.dropWhile_append_of_pos hblank,
      List.dropWhile_eq_nil_iff.2 hblank, List.dropWhile_cons_of_neg (by simp [hsep])]
    rfl

theorem trimEnd_sep {sep : Char} (hsep : isBlank sep = false) (before after : List Char) :
    trimEnd (before ++ sep :: after) = before ++ sep :: trimEnd after := by
  have h := trimStart_sep hsep after.reverse before.reverse
  rw [trimStart, trimStart] at h
  rw [trimEnd, trimEnd, List.reverse_append, List.reverse_cons, List.append_assoc,
    List.singleton_append, h, List.reverse_append, List.reverse_cons, List.reverse_reverse,
    List.append_assoc, List.singleton_append]

theorem trim_trimStart (cs : List Char) : trim (trimStart cs) = trim cs := by
  have hblank : ∀ c ∈ cs.takeWhile isBlank, isBlank c = true := fun c hc =>
    List.mem_takeWhile_imp hc
  have h := trim_of_blanks hblank (List.forall_mem_nil _) (trimStart cs)
  rw [List.append_nil, trimStart, List.takeWhile_append_dropWhile] at h
  exact h.symm

theorem trim_trimEnd (cs : List Char) : trim (trimEnd cs) = trim cs := by
  obtain ⟨right, hright, hblank⟩ := exists_trimEnd cs
  have h := trim_of_blanks (List.forall_mem_nil _) hblank (trimEnd cs)
  rw [List.nil_append, ← hright] at h
  exact h.symm

theorem head?_trim {cs : List Char} (h : trim cs ≠ []) :
    (trimStart cs).head? = (trim cs).head? := by
  obtain ⟨right, hright, -⟩ := exists_trimEnd (trimStart cs)
  have hhead : (trim cs ++ right).head? = (trim cs).head? := List.head?_append_of_ne_nil _ h
  rwa [trim, ← hright] at hhead

theorem Pads.notMem {line core : List Char} (h : Pads line core) {c : Char}
    (hc : isBlank c = false) (hcore : c ∉ core) : c ∉ line := by
  obtain ⟨-, left, right, rfl, hleft, hright⟩ := h
  rw [List.mem_append, List.mem_append]
  rintro (hm | hm | hm)
  · cases hc.symm.trans (hleft c hm)
  · exact hcore hm
  · cases hc.symm.trans (hright c hm)

theorem trim_closeRow (row : List Char) : trim (closeRow row) = trim row := by
  obtain h | h := eq_closeRow row
  · rw [← h]
  · have hcr : ∀ c ∈ ['\r'], isBlank c = true := List.forall_mem_singleton.2 (by decide)
    have := trim_of_blanks (List.forall_mem_nil _) hcr (closeRow row)
    rw [List.nil_append, ← h] at this
    exact this.symm

/-- Blanks at the end of a text do not decide whether it starts with a word. -/
theorem isPrefixOf_trimEnd {lead : List Char} (h : IsTrimmed lead) (cs : List Char) :
    lead.isPrefixOf (trimEnd cs) = lead.isPrefixOf cs := by
  obtain ⟨blanks, hcs, hb⟩ := exists_trimEnd cs
  rw [Bool.eq_iff_iff, List.isPrefixOf_iff_prefix, List.isPrefixOf_iff_prefix]
  refine ⟨fun hp => hp.trans ⟨blanks, hcs.symm⟩, fun ⟨rest, hrest⟩ => ?_⟩
  rw [hcs] at hrest
  obtain ⟨more, hmore, -⟩ | ⟨more, hlead, hblanks⟩ := List.append_eq_append_iff.1 hrest
  · exact ⟨more, hmore.symm⟩
  · obtain rfl | ⟨front, c, rfl⟩ := List.eq_nil_or_concat more
    · exact ⟨[], by rw [hlead, List.append_nil, List.append_nil]⟩
    · -- the word would end in one of the blanks
      have hblank : isBlank c = true := hb c (by simp [hblanks])
      have hlast : isBlank c = false := h.2 c (by simp [hlead])
      cases hblank.symm.trans hlast

theorem lines_newline {row : List Char} (h : '\n' ∉ row) (rest : List Char) :
    lines (row ++ '\n' :: rest) = closeRow row :: lines rest := by
  have hrows : rows (row ++ '\n' :: rest) = row :: rows rest := by
    rw [rows, List.splitOn_append_cons_self, List.splitOn_eq_singleton h]
    rfl
  have hne : rows rest ≠ [] := List.splitOn_ne_nil _ _
  rw [lines, hrows, List.dropLast_cons_of_ne_nil hne, List.getLast?_cons_of_ne_nil hne]
  rfl

theorem lines_row {row : List Char} (h : '\n' ∉ row) :
    lines row = if row = [] then [] else [row] := by
  have hrows : rows row = [row] := List.splitOn_eq_singleton h
  rw [lines, hrows]
  by_cases hr : row = [] <;> simp [hr]

/-- What stands before the first line feed of a text is its first line, up to blanks. -/
theorem lines_cases (cs : List Char) :
    cs = [] ∧ lines cs = [] ∨
      ∃ first rest, lines cs = first :: rest ∧ trim first = trim (cs.takeWhile (· ≠ '\n')) := by
  by_cases h : '\n' ∈ cs
  · obtain ⟨row, rest, rfl, hrow⟩ := List.eq_append_cons_of_mem h
    refine .inr ⟨_, _, lines_newline hrow rest, ?_⟩
    rw [trim_closeRow, takeWhile_ne_append hrow]
  · by_cases hnil : cs = []
    · exact .inl ⟨hnil, by rw [hnil]; rfl⟩
    · exact .inr ⟨cs, [], by rw [lines_row h, if_neg hnil], by rw [takeWhile_ne_self h]⟩

end ScriptSession.Text
