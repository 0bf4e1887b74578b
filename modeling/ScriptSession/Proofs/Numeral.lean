import ScriptSession.Text.Blank
import ScriptSession.Word

namespace ScriptSession.Text

theorem isBlank_of_isDigit {c : Char} (h : c.isDigit) : isBlank c = false := by
  have hrange : 48 ≤ c.toNat ∧ c.toNat ≤ 57 := by
    simpa [Char.isDigit, UInt32.le_iff_toNat_le] using h
  simp only [isBlank, Bool.or_eq_false_iff, Bool.and_eq_false_iff, decide_eq_false_iff_not,
    beq_eq_false_iff_ne]
  omega

theorem isDigit_of_mem_toDigits {n : Nat} {c : Char} (h : c ∈ Nat.toDigits 10 n) : c.isDigit :=
  Nat.isDigit_of_mem_toDigits (by decide) (by decide) h

theorem readDigits?_toDigits (n : Nat) : readDigits? (Nat.toDigits 10 n) = some n := by
  have hdigits : (Nat.toDigits 10 n).all Char.isDigit = true :=
    List.all_eq_true.2 fun d hd => Nat.isDigit_of_mem_toDigits (by decide) (by decide) hd
  have hvalue : digitsValue (Nat.toDigits 10 n) = n :=
    Nat.ofDigitChars_toDigits (by decide) (by decide)
  rw [readDigits?, if_pos ⟨Nat.toDigits_ne_nil, hdigits⟩, hvalue]

theorem readNatural?_toDigits {bound n : Nat} (h : n < bound) :
    readNatural? bound (Nat.toDigits 10 n) = some n := by
  have hsign (rest : List Char) : Nat.toDigits 10 n ≠ '+' :: rest := by
    intro he
    have hdigit := isDigit_of_mem_toDigits (he ▸ List.mem_cons_self : '+' ∈ Nat.toDigits 10 n)
    cases hdigit
  unfold readNatural?
  split
  next rest he => exact absurd he (hsign rest)
  next =>
    dsimp only
    rw [readDigits?_toDigits, Option.filter_some, if_pos (decide_eq_true h)]

theorem word_of_readNatural? {bound n : Nat} {cs : List Char}
    (h : readNatural? bound cs = some n) : cs ≠ [] ∧ ∀ c ∈ cs, isBlank c = false := by
  have hdigits {ds : List Char} (hd : (readDigits? ds).filter (· < bound) = some n) :
      ds ≠ [] ∧ ∀ c ∈ ds, isBlank c = false := by
    have hread := (Option.filter_eq_some_iff.1 hd).1
    unfold readDigits? at hread
    split at hread
    next hall => exact ⟨hall.1, fun c hc => isBlank_of_isDigit (List.all_eq_true.1 hall.2 c hc)⟩
    next => cases hread
  unfold readNatural? at h
  split at h
  next rest =>
    exact ⟨List.cons_ne_nil _ _, List.forall_mem_cons.2 ⟨by decide, (hdigits h).2⟩⟩
  next => exact hdigits h

end ScriptSession.Text

namespace ScriptSession.Word

theorem ofInt?_eq_some_iff {n : Int} {w : Word} : ofInt? n = some w ↔ w.toInt = n := by
  have hmin : Int64.minValue.toInt = -2 ^ 63 := rfl
  have hmax : Int64.maxValue.toInt = 2 ^ 63 - 1 := rfl
  constructor
  · intro h
    rw [ofInt?, hmin, hmax] at h
    split at h
    next hn =>
      cases h
      exact Int64.toInt_ofInt_of_le hn.1 (by omega)
    · cases h
  · rintro rfl
    rw [ofInt?, if_pos ⟨w.minValue_le_toInt, w.toInt_le⟩, Int64.ofInt_toInt]

theorem exists_ofInt?_iff {n : Int} :
    (∃ w, ofInt? n = some w) ↔ -9223372036854775808 ≤ n ∧ n ≤ 9223372036854775807 := by
  constructor
  · rintro ⟨w, h⟩
    have hw := ofInt?_eq_some_iff.1 h
    have hge := w.le_toInt
    have hlt := w.toInt_lt
    omega
  · rintro ⟨hge, hle⟩
    refine ⟨Int64.ofInt n, ofInt?_eq_some_iff.2 ?_⟩
    exact Int64.toInt_ofInt_of_le (by omega) (by omega)

theorem exists_ofDigits?_iff {digits : String} :
    (∃ n, ofDigits? digits = some n) ↔
      ∃ v, Text.readDigits? digits.toList = some v ∧ v ≤ 9223372036854775807 := by
  simp only [ofDigits?, Option.bind_eq_some_iff]
  rw [exists_comm]
  refine exists_congr fun v => ?_
  rw [exists_and_left, exists_ofInt?_iff]
  exact and_congr_right fun _ => by omega

/-- After a minus sign the numeral may be greater by one. -/
theorem exists_ofNegatedDigits?_iff {digits : String} :
    (∃ n, ofNegatedDigits? digits = some n) ↔
      ∃ v, Text.readDigits? digits.toList = some v ∧ v ≤ 9223372036854775808 := by
  simp only [ofNegatedDigits?, Option.bind_eq_some_iff]
  rw [exists_comm]
  refine exists_congr fun v => ?_
  rw [exists_and_left, exists_ofInt?_iff]
  exact and_congr_right fun _ => by omega

end ScriptSession.Word
