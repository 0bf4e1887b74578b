import Mathlib.Data.Option.Basic
import ScriptSession.Proofs.Header
import ScriptSession.Proofs.Numeral

namespace ScriptSession.Identity

theorem word_of_isVersion {cs : List Char} (h : isVersion cs = true) :
    cs ≠ [] ∧ ∀ c ∈ cs, Text.isBlank c = false := by
  constructor
  · rintro rfl
    cases h
  · intro c hc
    obtain rfl | ⟨part, hpart, hc⟩ := Text.mem_splitOn '.' hc
    · decide
    · obtain ⟨n, hn⟩ := Option.isSome_iff_exists.1 (List.all_eq_true.1 h part hpart)
      exact (Text.word_of_readNatural? hn).2 c hc

def body (line : List Char) : List Char :=
  match Text.afterLead keyword.toList (Text.trim line) with
  | some rest => Text.trimStart rest
  | none => Text.trim line

theorem parse?_eq_some_iff {line : List Char} {i : Identity} :
    parse? line = some i ↔ ∃ name rest, Text.cutFirst ',' (body line) = some (name, rest) ∧
      (Text.trim name ≠ [] ∧ ¬ (Text.trim name).any Text.isBlank) ∧
        ∃ version, Text.trim rest = "Version=".toList ++ version ∧
          isVersion (Text.trim version) = true ∧
            ⟨String.ofList (Text.trim name), String.ofList (Text.trim version)⟩ = i := by
  change (Text.cutFirst ',' (body line) >>= _) = some i ↔ _
  simp only [bind, Option.bind_eq_some_iff, Text.afterLead_eq_some_iff, Option.guard_eq_some',
    Prod.exists, pure, Option.some.injEq, exists_const]

/-- What identities are read: a name that is one word without a comma, and a version. -/
structure IsReadable (i : Identity) : Prop where
  name_ne : i.name.toList ≠ []
  word : ∀ c ∈ i.name.toList, Text.isBlank c = false
  comma : ',' ∉ i.name.toList
  version : isVersion i.version.toList = true

theorem isReadable_of_parse? {line : List Char} {i : Identity} (h : parse? line = some i) :
    i.IsReadable := by
  obtain ⟨name, rest, hcut, ⟨hne, hword⟩, version, -, hversion, rfl⟩ := parse?_eq_some_iff.1 h
  obtain ⟨-, hcomma⟩ := Text.eq_of_cutFirst hcut
  constructor
  · rwa [String.toList_ofList]
  · intro c hc
    rw [String.toList_ofList] at hc
    exact Bool.eq_false_iff.2 fun hb => hword (List.any_eq_true.2 ⟨c, hc, hb⟩)
  · rw [String.toList_ofList]
    exact fun hc => hcomma (Text.mem_of_mem_trim hc)
  · rwa [String.toList_ofList]

namespace IsReadable

variable {i : Identity}

theorem toList_headerLine (i : Identity) :
    i.headerLine.toList = keyword.toList ++
      ' ' :: (i.name.toList ++ ',' :: (" Version=".toList ++ i.version.toList)) := by
  have hsplit : i.headerLine = keyword ++ " " ++ (i.name ++ ", Version=" ++ i.version) := rfl
  rw [hsplit]
  simp

theorem newline (h : i.IsReadable) : '\n' ∉ i.headerLine.toList := by
  intro hm
  rw [toList_headerLine] at hm
  have hname : '\n' ∉ i.name.toList := fun hc => absurd (h.word _ hc) (by decide)
  have hversion : '\n' ∉ i.version.toList := fun hc =>
    absurd ((word_of_isVersion h.version).2 _ hc) (by decide)
  simp [keyword, hname, hversion] at hm

theorem trim_headerLine (h : i.IsReadable) :
    Text.trim i.headerLine.toList = i.headerLine.toList := by
  obtain ⟨hne, hversion⟩ := word_of_isVersion h.version
  have hends : i.headerLine.toList = keyword.toList ++
      (' ' :: (i.name.toList ++ ',' :: " Version=".toList) ++ i.version.toList) := by
    rw [toList_headerLine]
    simp
  rw [hends]
  apply Text.IsTrimmed.trim_eq
  apply isTrimmed_keyword.append
  · exact Text.isTrimmed_of_word hversion
  · decide
  · exact hne

theorem body_headerLine (h : i.IsReadable) :
    body i.headerLine.toList =
      i.name.toList ++ ',' :: (" Version=".toList ++ i.version.toList) := by
  have hhead : ∀ c ∈ (i.name.toList ++ ',' :: (" Version=".toList ++ i.version.toList)).head?,
      Text.isBlank c = false := by
    rw [List.head?_append_of_ne_nil _ h.name_ne]
    exact fun c hc => h.word c (List.mem_of_head? hc)
  rw [body, h.trim_headerLine, Text.afterLead_eq_some_iff.2 (toList_headerLine i)]
  dsimp only
  rw [Text.trimStart, List.dropWhile_cons_of_pos (by decide), Text.dropWhile_of_head hhead]

theorem ofHeader?_headerLine (h : i.IsReadable) : ofHeader? i.headerLine.toList = some i := by
  obtain ⟨hne, hword⟩ := word_of_isVersion h.version
  have hname : Text.trim i.name.toList = i.name.toList := Text.trim_eq_self h.word
  have hversion : Text.trim i.version.toList = i.version.toList := Text.trim_eq_self hword
  have hrest : Text.trim (" Version=".toList ++ i.version.toList) =
      "Version=".toList ++ i.version.toList := by
    have hlabel : Text.IsTrimmed "Version=".toList := by decide
    have hends : Text.IsTrimmed ("Version=".toList ++ ([] ++ i.version.toList)) :=
      hlabel.append (Text.isTrimmed_of_word hword) (by decide) hne
    exact (Text.trim_space _).trans hends.trim_eq
  have hprefix : keyword.toList.isPrefixOf i.headerLine.toList = true :=
    List.isPrefixOf_iff_prefix.2 ⟨_, (toList_headerLine i).symm⟩
  rw [ofHeader?_eq, h.trim_headerLine, if_pos hprefix]
  apply parse?_eq_some_iff.2
  refine ⟨_, _, h.body_headerLine ▸ Text.cutFirst_append h.comma _, ?_, _, hrest, ?_, ?_⟩
  · rw [hname]
    refine ⟨h.name_ne, fun hany => ?_⟩
    obtain ⟨c, hc, hb⟩ := List.any_eq_true.1 hany
    cases hb.symm.trans (h.word c hc)
  · rw [hversion]
    exact h.version
  · rw [hname, hversion, String.ofList_toList, String.ofList_toList]

end IsReadable

end ScriptSession.Identity
