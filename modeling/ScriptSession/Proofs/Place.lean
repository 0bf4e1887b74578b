import ScriptSession.Proofs.Blanking

namespace ScriptSession

namespace Text

/-- Whether an offset lies between two characters of a text or at one of its ends. -/
def IsBoundary (cs : List Char) (offset : Nat) : Prop :=
  ∃ front back, cs = front ++ back ∧ byteLength front = offset

theorem isBoundary_byteLength (front back : List Char) :
    IsBoundary (front ++ back) (byteLength front) :=
  ⟨front, back, rfl, rfl⟩

theorem IsBoundary.le_byteLength {cs : List Char} {offset : Nat} (h : IsBoundary cs offset) :
    offset ≤ byteLength cs := by
  obtain ⟨front, back, rfl, rfl⟩ := h
  rw [byteLength_append]
  exact Nat.le_add_right _ _

theorem IsBoundary.exists_between {cs : List Char} {a b : Nat} (ha : IsBoundary cs a)
    (hb : IsBoundary cs b) (h : a < b) :
    ∃ front mid back, cs = front ++ (mid ++ back) ∧ mid ≠ [] ∧ byteLength front = a ∧
      byteLength (front ++ mid) = b := by
  obtain ⟨first, rest, rfl, rfl⟩ := ha
  obtain ⟨second, rest', hsplit, rfl⟩ := hb
  obtain ⟨mid, rfl, rfl⟩ | ⟨mid, rfl, rfl⟩ := List.append_eq_append_iff.1 hsplit
  · refine ⟨first, mid, rest', rfl, ?_, rfl, rfl⟩
    rintro rfl
    rw [List.append_nil] at h
    exact Nat.lt_irrefl _ h
  · rw [byteLength_append] at h
    omega

end Text

namespace Position

def Before (p q : Position) : Prop :=
  p.line < q.line ∨ p.line = q.line ∧ p.column < q.column

instance (p q : Position) : Decidable (p.Before q) :=
  inferInstanceAs (Decidable (_ ∨ _))

theorem Before.trans {p q r : Position} (h : p.Before q) (h' : q.Before r) : p.Before r := by
  unfold Before at *
  omega

theorem not_before_self (p : Position) : ¬ p.Before p := by
  unfold Before
  omega

theorem before_advance (p : Position) (c : Char) : p.Before (p.advance c) := by
  unfold advance
  split
  · exact .inl (Nat.lt_succ_self _)
  · exact .inr ⟨rfl, Nat.lt_succ_self _⟩

theorem before_foldl_advance (p : Position) {cs : List Char} (h : cs ≠ []) :
    p.Before (cs.foldl advance p) := by
  induction cs generalizing p with
  | nil => exact absurd rfl h
  | cons c cs ih =>
    cases cs with
    | nil => exact p.before_advance c
    | cons d cs => exact (p.before_advance c).trans (ih _ (List.cons_ne_nil d cs))

theorem before_ofOffset {cs : List Char} {a b : Nat} (ha : Text.IsBoundary cs a)
    (hb : Text.IsBoundary cs b) (h : a < b) : (ofOffset cs a).Before (ofOffset cs b) := by
  obtain ⟨front, mid, back, rfl, hne, rfl, rfl⟩ := ha.exists_between hb h
  rw [ofOffset_byteLength, ← List.append_assoc, ofOffset_byteLength, List.foldl_append]
  exact before_foldl_advance _ hne

/-- Whether a place is one of a text: next to a character of one of its rows, or at the end of
the row. -/
def LiesIn (cs : List Char) (p : Position) : Prop :=
  1 ≤ p.line ∧ 1 ≤ p.column ∧ ∃ row, (Text.rows cs)[p.line - 1]? = some row ∧
    p.column ≤ row.length + 1

theorem liesIn_ofOffset {cs : List Char} {offset : Nat} (h : Text.IsBoundary cs offset) :
    (ofOffset cs offset).LiesIn cs := by
  obtain ⟨front, back, rfl, rfl⟩ := h
  obtain ⟨before, row, rfl, hbefore, hrow⟩ := Text.exists_lastRow front
  have hat := hbefore.getElem?_rows (row ++ back)
  rw [List.takeWhile_append_of_pos (Text.decide_ne_of_not_mem hrow)] at hat
  rw [List.append_assoc, ofOffset_row hbefore hrow]
  refine ⟨Nat.succ_pos _, Nat.succ_pos _, _, hat, ?_⟩
  rw [List.length_append]
  exact Nat.succ_le_succ (Nat.le_add_right _ _)

/-- The character at a place of a text: in a row that is not the last one, a line feed stands behind
all others. -/
def charAt? (cs : List Char) (p : Position) : Option Char := do
  let row ← (Text.rows cs)[p.line - 1]?
  let closed := if p.line < (Text.rows cs).length then row ++ ['\n'] else row
  closed[p.column - 1]?

/-- What is found at the place of a boundary is the character behind it, if there is one. -/
theorem charAt?_ofOffset (front back : List Char) :
    charAt? (front ++ back) (ofOffset (front ++ back) (Text.byteLength front)) = back.head? := by
  obtain ⟨before, row, rfl, hbefore, hrow⟩ := Text.exists_lastRow front
  have hat := hbefore.getElem?_rows (row ++ back)
  have hlength : (Text.rows (before ++ (row ++ back))).length =
      before.count '\n' + back.count '\n' + 1 := by
    rw [Text.length_rows, List.count_append, List.count_append, List.count_eq_zero.2 hrow,
      Nat.zero_add]
  rw [List.append_assoc, ofOffset_row hbefore hrow, charAt?]
  simp only [Nat.add_sub_cancel, hat, hlength, Option.bind_eq_bind, Option.bind_some,
    List.takeWhile_append_of_pos (Text.decide_ne_of_not_mem hrow)]
  cases back with
  | nil => simp
  | cons c back =>
    by_cases hc : c = '\n'
    · subst hc
      simp
    · rw [List.takeWhile_cons_of_pos (by simpa using hc)]
      split <;> simp

end Position

/-- A place tells its offset: of two boundaries the later one has the later place, so that no two
have the same one, and the character at the place of a boundary is the one that stands behind it. -/
theorem place_tells_offset (cs : List Char) :
    (∀ a b, Text.IsBoundary cs a → Text.IsBoundary cs b → a < b →
      (Position.ofOffset cs a).Before (Position.ofOffset cs b)) ∧
    (∀ a b, Text.IsBoundary cs a → Text.IsBoundary cs b →
      Position.ofOffset cs a = Position.ofOffset cs b → a = b) ∧
    ∀ front back, cs = front ++ back →
      Position.charAt? cs (Position.ofOffset cs (Text.byteLength front)) = back.head? := by
  refine ⟨fun a b => Position.before_ofOffset, fun a b ha hb hsame => ?_, ?_⟩
  · obtain hlt | heq | hlt := Nat.lt_trichotomy a b
    · have hbefore := Position.before_ofOffset ha hb hlt
      exact absurd (hsame ▸ hbefore) (Position.not_before_self _)
    · exact heq
    · have hbefore := Position.before_ofOffset hb ha hlt
      exact absurd (hsame ▸ hbefore) (Position.not_before_self _)
  · rintro front back rfl
    exact Position.charAt?_ofOffset front back

/-- The end of a line, the empty line after it, and what has the place of the latter. -/
theorem places_around_empty_line :
    let cs := "é\n\nxy".toList
    (Text.IsBoundary cs 2 ∧ Text.IsBoundary cs 3) ∧
      (Position.ofOffset cs 2).Before (Position.ofOffset cs 3) ∧
      (∀ offset, Text.IsBoundary cs offset → Position.ofOffset cs offset = ⟨2, 1⟩ → offset = 3) ∧
      Position.charAt? cs ⟨2, 1⟩ = some '\n' := by
  intro cs
  obtain ⟨hbefore, hunique, hchar⟩ := place_tells_offset cs
  have hend : Text.IsBoundary cs 2 := ⟨['é'], "\n\nxy".toList, by decide +kernel, by decide⟩
  have hempty : Text.IsBoundary cs 3 := ⟨['é', '\n'], "\nxy".toList, by decide +kernel, by decide⟩
  have hplace : Position.ofOffset cs 3 = ⟨2, 1⟩ := by decide +kernel
  refine ⟨⟨hend, hempty⟩, hbefore 2 3 hend hempty (by decide), fun offset hoffset hsame => ?_, ?_⟩
  · exact hunique offset 3 hoffset hempty (hsame.trans hplace.symm)
  · rw [← hplace]
    exact hchar ['é', '\n'] "\nxy".toList (by decide +kernel)

end ScriptSession
