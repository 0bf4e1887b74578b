import ScriptSession.Position

namespace ScriptSession

namespace Text

@[simp] theorem byteLength_nil : byteLength [] = 0 := rfl

theorem byteLength_cons (c : Char) (cs : List Char) :
    byteLength (c :: cs) = c.utf8Size + byteLength cs := by
  have h (n : Nat) (cs : List Char) :
      cs.foldl (fun n c => n + c.utf8Size) n = n + cs.foldl (fun n c => n + c.utf8Size) 0 := by
    induction cs generalizing n with
    | nil => rfl
    | cons c cs ih => rw [List.foldl_cons, List.foldl_cons, ih, ih (0 + c.utf8Size)]; omega
  rw [byteLength, List.foldl_cons, h, Nat.zero_add, byteLength]

theorem byteLength_append (a b : List Char) :
    byteLength (a ++ b) = byteLength a + byteLength b := by
  induction a with
  | nil => simp
  | cons c cs ih => rw [List.cons_append, byteLength_cons, byteLength_cons, ih, Nat.add_assoc]

theorem takeBytesOnto_eq (taken : List Char) (n : Nat) (cs : List Char) :
    takeBytesOnto taken n cs = (takeBytes n cs).reverse ++ taken := by
  have h (taken : List Char) : takeBytesOnto taken n cs = takeBytesOnto [] n cs ++ taken := by
    induction cs generalizing n taken with
    | nil => rfl
    | cons c cs ih =>
      rw [takeBytesOnto, takeBytesOnto]
      split
      · rw [ih _ (c :: taken), ih _ [c], List.append_assoc, List.singleton_append]
      · rfl
  rw [h, takeBytes, List.reverse_reverse]

theorem takeBytes_cons (n : Nat) (c : Char) (cs : List Char) :
    takeBytes n (c :: cs) =
      if c.utf8Size ≤ n then c :: takeBytes (n - c.utf8Size) cs else [] := by
  rw [takeBytes, takeBytesOnto]
  split
  · rw [takeBytesOnto_eq, List.reverse_append, List.reverse_reverse]
    rfl
  · rfl

/-- A text is cut after the only prefix that fits while the character after it does not. -/
theorem takeBytes_eq_iff {n : Nat} {cs front : List Char} :
    takeBytes n cs = front ↔ ∃ back, cs = front ++ back ∧ byteLength front ≤ n ∧
      ∀ c ∈ back.head?, n < byteLength front + c.utf8Size := by
  induction cs generalizing n front with
  | nil =>
    constructor
    · rintro rfl
      exact ⟨[], rfl, Nat.zero_le n, nofun⟩
    · rintro ⟨back, hsplit, -⟩
      exact (List.append_eq_nil_iff.1 hsplit.symm).1.symm
  | cons c cs ih =>
    rw [takeBytes_cons]
    constructor
    · rintro rfl
      split
      next hfits =>
        obtain ⟨back, hsplit, hle, hnext⟩ := ih.1 rfl
        refine ⟨back, congrArg (c :: ·) hsplit, ?_, fun d hd => ?_⟩
        · rw [byteLength_cons]
          omega
        · have := hnext d hd
          rw [byteLength_cons]
          omega
      next hfits =>
        refine ⟨c :: cs, rfl, Nat.zero_le n, fun d hd => ?_⟩
        cases hd
        rw [byteLength_nil]
        omega
    · rintro ⟨back, hsplit, hle, hnext⟩
      cases front with
      | nil =>
        rw [List.nil_append] at hsplit
        have := hnext c (by rw [← hsplit]; exact rfl)
        rw [byteLength_nil] at this
        exact if_neg (by omega)
      | cons d front =>
        obtain ⟨rfl, hrest⟩ := List.cons.inj hsplit
        rw [byteLength_cons] at hle hnext
        rw [if_pos (by omega), ih.2 ⟨back, hrest, by omega, fun e he => ?_⟩]
        have := hnext e he
        omega

theorem takeBytes_append (a b : List Char) : takeBytes (byteLength a) (a ++ b) = a :=
  takeBytes_eq_iff.2
    ⟨b, rfl, Nat.le_refl _, fun c _ => Nat.lt_add_of_pos_right c.utf8Size_pos⟩

end Text

namespace Position

theorem walk_append (p : Position) (a b : List Char) (offset : Nat) :
    walk p (a ++ b) (Text.byteLength a + offset) = walk (a.foldl advance p) b offset := by
  induction a generalizing p with
  | nil => rw [Text.byteLength_nil, Nat.zero_add]; rfl
  | cons c cs ih =>
    rw [List.cons_append, walk, Text.byteLength_cons, if_pos (by omega), List.foldl_cons, ← ih]
    congr 1
    omega

def down (lines : Nat) (p : Position) : Position :=
  ⟨p.line + lines, p.column⟩

theorem advance_down (lines : Nat) (p : Position) (c : Char) :
    (p.down lines).advance c = (p.advance c).down lines := by
  unfold advance down
  split
  · simp only [Nat.add_right_comm]
  · rfl

theorem walk_down (lines : Nat) (p : Position) (cs : List Char) (offset : Nat) :
    walk (p.down lines) cs offset = (walk p cs offset).down lines := by
  induction cs generalizing p offset with
  | nil => rfl
  | cons c cs ih =>
    rw [walk, walk, advance_down, ih]
    split <;> rfl

theorem line_foldl_advance (p : Position) (cs : List Char) :
    (cs.foldl advance p).line = p.line + cs.count '\n' := by
  induction cs generalizing p with
  | nil => rfl
  | cons c cs ih =>
    rw [List.foldl_cons, ih, List.count_cons, advance]
    split
    next h => simp [h]; omega
    next h => simp [h]

/-- A text on the lines after another one: its places are as many lines further down. -/
theorem ofOffset_newline (a b : List Char) (offset : Nat) :
    ofOffset (a ++ '\n' :: b) (Text.byteLength a + 1 + offset) =
      (ofOffset b offset).down (a.count '\n' + 1) := by
  have hlen : Text.byteLength a + 1 + offset = Text.byteLength (a ++ ['\n']) + offset := by
    rw [Text.byteLength_append]
    rfl
  rw [ofOffset, List.append_cons, hlen, walk_append, List.foldl_append, List.foldl_cons,
    List.foldl_nil, advance, if_pos rfl, line_foldl_advance, ofOffset, ← walk_down]
  congr 1

theorem le_line_walk (p : Position) (cs : List Char) (offset : Nat) :
    p.line ≤ (walk p cs offset).line := by
  induction cs generalizing p offset with
  | nil => exact Nat.le_refl _
  | cons c cs ih =>
    rw [walk]
    split
    · refine Nat.le_trans ?_ (ih _ _)
      unfold advance
      split
      · exact Nat.le_succ _
      · exact Nat.le_refl _
    · exact Nat.le_refl _

theorem line_walk_append_le (p : Position) {a : List Char} {offset : Nat}
    (h : offset ≤ Text.byteLength a) (b : List Char) :
    (walk p (a ++ b) offset).line ≤ p.line + a.count '\n' := by
  induction a generalizing p offset with
  | nil =>
    rw [Text.byteLength_nil, Nat.le_zero] at h
    rw [h, List.nil_append]
    cases b with
    | nil => exact Nat.le_add_right _ _
    | cons c b =>
      rw [walk, if_neg (Nat.not_le.2 c.utf8Size_pos)]
      exact Nat.le_add_right _ _
  | cons c cs ih =>
    rw [Text.byteLength_cons] at h
    rw [List.cons_append, walk]
    split
    · refine Nat.le_trans (ih _ (by omega)) ?_
      rw [List.count_cons, advance]
      split
      next hc => simp [hc]; omega
      next hc => simp [hc]
    · exact Nat.le_add_right _ _

end Position
end ScriptSession
