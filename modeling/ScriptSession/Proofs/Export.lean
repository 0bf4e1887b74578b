import Mathlib.Data.Option.Basic
import ScriptSession.Proofs.Header

namespace ScriptSession.ModuleFile

/-- `Lists lines entries`: the lines list the exports `entries`, from the top down; a line that says
nothing lists none. -/
inductive Lists : List (List Char) → List (String × Value) → Prop
  | nil : Lists [] []
  | silent {line : List Char} {lines : List (List Char)} {entries : List (String × Value)} :
      isSilent (Text.trim line) = true → Lists lines entries → Lists (line :: lines) entries
  | entry {line : List Char} {lines : List (List Char)} {e : String × Value}
      {entries : List (String × Value)} :
      isSilent (Text.trim line) = false → export? (Text.trim line) = some e →
      Lists lines entries → Lists (line :: lines) (e :: entries)

/-- Reading lines succeeds exactly if they list some exports, of which the later ones win. -/
theorem readExports_eq_ok_iff {path : Path} {start : Nat} {lines : List (List Char)}
    {found found' : Std.ExtTreeMap String Value} :
    readExports path found (Text.numbered start lines) = .ok found' ↔
      ∃ entries, Lists lines entries ∧ found' = found.insertMany entries := by
  induction lines generalizing start found with
  | nil =>
    constructor
    · intro h
      cases h
      exact ⟨[], .nil, Std.ExtTreeMap.insertMany_nil.symm⟩
    · rintro ⟨_, ⟨⟩, rfl⟩
      rw [Std.ExtTreeMap.insertMany_nil]
      rfl
  | cons line lines ih =>
    have hstep : Text.numbered start (line :: lines) =
        (start, line) :: Text.numbered (start + 1) lines := rfl
    rw [hstep, readExports]
    cases hs : isSilent (Text.trim line) with
    | true =>
      rw [if_pos rfl, ih]
      refine exists_congr fun entries => and_congr_left' ⟨.silent hs, fun h => ?_⟩
      cases h with
      | silent _ h => exact h
      | entry hs' _ _ => cases hs.symm.trans hs'
    | false =>
      rw [if_neg Bool.false_ne_true]
      cases he : export? (Text.trim line) with
      | none =>
        refine ⟨nofun, ?_⟩
        rintro ⟨_, h, -⟩
        cases h with
        | silent hs' _ => cases hs.symm.trans hs'
        | entry _ he' _ => cases he.symm.trans he'
      | some e =>
        dsimp only
        rw [ih]
        constructor
        · rintro ⟨entries, h, rfl⟩
          exact ⟨e :: entries, .entry hs he h, Std.ExtTreeMap.insertMany_cons.symm⟩
        · rintro ⟨_, h, rfl⟩
          cases h with
          | silent hs' _ => cases hs.symm.trans hs'
          | entry _ he' h =>
            cases he.symm.trans he'
            exact ⟨_, h, Std.ExtTreeMap.insertMany_cons⟩

/-- A text is read as a module exactly if its header holds the identity and the lines below it list
the exports. -/
theorem parse_eq_ok_iff {path : Path} {text : List Char} {m : Module} :
    parse path text = .ok m ↔
      Identity.ofHeader? (text.takeWhile (· ≠ '\n')) = some m.identity ∧ m.path = path ∧
        ∃ entries, Lists (Text.lines text).tail entries ∧
          m.exports = Std.ExtTreeMap.ofList entries := by
  have hread (exports : Std.ExtTreeMap String Value) :
      readExports path ∅ (Text.numbered 2 (Text.lines text).tail) = .ok exports ↔
        ∃ entries, Lists (Text.lines text).tail entries ∧
          exports = Std.ExtTreeMap.ofList entries := by
    simp only [Std.ExtTreeMap.ofList_eq_insertMany_empty, readExports_eq_ok_iff]
  rw [parse_eq, ← hread]
  cases Identity.ofHeader? (text.takeWhile (· ≠ '\n')) with
  | none => exact ⟨nofun, fun h => nomatch h.1⟩
  | some i =>
    dsimp only
    rw [Except.map_eq_ok_iff]
    constructor
    · rintro ⟨exports, hexports, rfl⟩
      exact ⟨rfl, rfl, hexports⟩
    · obtain ⟨identity, path', exports⟩ := m
      rintro ⟨hi, rfl, hexports⟩
      cases hi
      exact ⟨exports, hexports, rfl⟩

theorem export?_eq_some_iff {line : List Char} {key : String} {v : Value} :
    export? line = some (key, v) ↔ ∃ rest, line = "export".toList ++ rest ∧
      Text.startsBlank rest = true ∧ ∃ name value, Text.cutFirst '=' rest = some (name, value) ∧
        isName (Text.trim name) = true ∧ literal? (Text.trim value) = some v ∧
          String.ofList (Text.trim name) = key := by
  unfold export?
  simp only [bind, Option.bind_eq_some_iff, Text.afterLead_eq_some_iff,
    Option.guard_eq_some', Prod.exists, pure, Option.some.injEq, Prod.mk.injEq,
    exists_and_left, exists_const, exists_eq_right_right]

theorem Lists.exists_line {lines : List (List Char)} {entries : List (String × Value)}
    (h : Lists lines entries) {e : String × Value} (he : e ∈ entries) :
    ∃ line ∈ lines, export? (Text.trim line) = some e := by
  induction h with
  | nil => cases he
  | silent _ _ ih =>
    obtain ⟨line, hline, hexport⟩ := ih he
    exact ⟨line, List.mem_cons_of_mem _ hline, hexport⟩
  | entry _ hexport _ ih =>
    obtain rfl | he := List.mem_cons.1 he
    · exact ⟨_, List.mem_cons_self, hexport⟩
    · obtain ⟨line, hline, hexport⟩ := ih he
      exact ⟨line, List.mem_cons_of_mem _ hline, hexport⟩

theorem name_of_parse {path : Path} {text : List Char} {m : Module} (h : parse path text = .ok m)
    {key : String} (hkey : key ∈ m.exports) :
    Text.IsTrimmed key.toList ∧ isName key.toList = true := by
  obtain ⟨-, -, entries, hlists, hexports⟩ := parse_eq_ok_iff.1 h
  rw [hexports, Std.ExtTreeMap.mem_ofList, List.contains_iff_mem, List.mem_map] at hkey
  obtain ⟨⟨key', v⟩, hmem, rfl⟩ := hkey
  obtain ⟨line, -, hexport⟩ := hlists.exists_line hmem
  obtain ⟨rest, -, -, name, value, -, hname, -, rfl⟩ := export?_eq_some_iff.1 hexport
  dsimp only
  rw [String.toList_ofList]
  exact ⟨Text.isTrimmed_trim name, hname⟩

end ScriptSession.ModuleFile
