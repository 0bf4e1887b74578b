import ScriptSession.Module.File
import ScriptSession.Proofs.Encoding
import ScriptSession.Proofs.Outcome
import ScriptSession.Proofs.Trim

namespace ScriptSession

namespace FileTree

variable {t : FileTree} {p : Path} {text : String}

theorem readBytes_of_readText (h : t.readText p = .ok text) :
    t.readBytes p = .ok text.toByteArray := by
  obtain ⟨bytes, hbytes, h⟩ := Except.bind_eq_ok_iff.1 h
  split at h
  next found hfound =>
    cases h
    rw [hbytes, eq_toByteArray_of_fromUTF8? hfound]
  next => cases h

theorem readFirstLine_of_readText (h : t.readText p = .ok text) :
    t.readFirstLine p = .ok (String.ofList (text.toList.takeWhile (· ≠ '\n'))) := by
  have hline := fromUTF8?_encoded (text.toList.takeWhile (· ≠ '\n'))
  rw [← takeWhile_encoded, ← toList_utf8] at hline
  apply Except.bind_eq_ok_iff.2
  refine ⟨_, readBytes_of_readText h, ?_⟩
  rw [hline]
  rfl

end FileTree

namespace Identity

theorem isTrimmed_keyword : Text.IsTrimmed keyword.toList := by
  decide

theorem ofHeader?_eq (line : List Char) :
    ofHeader? line =
      if keyword.toList.isPrefixOf (Text.trim line) then parse? line else none := by
  rw [Text.trim, Text.isPrefixOf_trimEnd isTrimmed_keyword, ofHeader?]

/-- Blanks around a line do not change what identity it holds. -/
theorem ofHeader?_congr {line line' : List Char} (h : Text.trim line = Text.trim line') :
    ofHeader? line = ofHeader? line' := by
  rw [ofHeader?_eq, ofHeader?_eq, parse?, parse?, h]

theorem read?_of_readText {files : FileTree} {p : Path} {text : String}
    (h : files.readText p = .ok text) :
    read? files p = ofHeader? (text.toList.takeWhile (· ≠ '\n')) := by
  rw [read?, FileTree.readFirstLine_of_readText h]
  dsimp only
  rw [String.toList_ofList]

end Identity

namespace ModuleFile

theorem parse_eq (path : Path) (text : List Char) :
    parse path text =
      match Identity.ofHeader? (text.takeWhile (· ≠ '\n')) with
      | none => .error (.missingHeader path)
      | some i => (readExports path ∅ (Text.numbered 2 (Text.lines text).tail)).map
          fun exports => ⟨i, path, exports⟩ := by
  unfold parse
  obtain ⟨rfl, hlines⟩ | ⟨first, rest, hlines, htrim⟩ := Text.lines_cases text
  · rw [hlines]
    rfl
  · rw [hlines, ← Identity.ofHeader?_congr htrim]
    dsimp only [List.tail_cons]
    cases Identity.ofHeader? first with
    | none => rfl
    | some i =>
      dsimp only
      cases readExports path ∅ (Text.numbered 2 rest) <;> rfl

theorem identity_of_parse {path : Path} {text : List Char} {m : Module}
    (h : parse path text = .ok m) :
    Identity.ofHeader? (text.takeWhile (· ≠ '\n')) = some m.identity := by
  rw [parse_eq] at h
  split at h
  · cases h
  next i hi =>
    obtain ⟨exports, -, rfl⟩ := Except.map_eq_ok_iff.1 h
    exact hi

theorem readExports_ne_missingHeader {path q : Path} {found : Std.ExtTreeMap String Value}
    {lines : List (Nat × List Char)} :
    readExports path found lines ≠ .error (.missingHeader q) := by
  fun_induction readExports path found lines with
  | case1 => exact nofun
  | case2 _ _ _ _ _ _ ih => exact ih
  | case3 _ _ _ _ _ _ _ _ _ ih => exact ih
  | case4 => exact nofun

theorem parse_eq_missingHeader_iff {path q : Path} {text : List Char} :
    parse path text = .error (.missingHeader q) ↔
      path = q ∧ Identity.ofHeader? (text.takeWhile (· ≠ '\n')) = none := by
  rw [parse_eq]
  cases Identity.ofHeader? (text.takeWhile (· ≠ '\n')) with
  | none => simp
  | some i =>
    dsimp only
    refine ⟨fun h => ?_, fun h => nomatch h.2⟩
    cases hread : readExports path ∅ (Text.numbered 2 (Text.lines text).tail) with
    | ok exports =>
      rw [hread] at h
      cases h
    | error e =>
      rw [hread] at h
      cases h
      exact absurd hread readExports_ne_missingHeader

/-- Both readers of a module file see the same header: the one that loads the module, and the one
that looks at the first line alone. -/
theorem header_readers_agree (files : FileTree) (p : Path) :
    (∀ m, load files p = .ok m → Identity.read? files p = some m.identity) ∧
    (Identity.read? files p = none →
      (∃ cause, load files p = .error (.unreadable p cause)) ∨
        load files p = .error (.missingHeader p)) ∧
    ∀ q, load files p = .error (.missingHeader q) → Identity.read? files p = none := by
  unfold load
  cases hread : files.readText p with
  | error cause => exact ⟨nofun, fun _ => .inl ⟨cause, rfl⟩, nofun⟩
  | ok text =>
    dsimp only
    rw [Identity.read?_of_readText hread]
    refine ⟨fun m hm => identity_of_parse hm, fun hnone => .inr ?_, fun q hq => ?_⟩
    · exact parse_eq_missingHeader_iff.2 ⟨rfl, hnone⟩
    · exact (parse_eq_missingHeader_iff.1 hq).2

/-- The header of `b.dll` is read although what follows it is no text. -/
theorem headers_of_three_files :
    let file (name : String) (bytes : ByteArray) : Location × Node := ([name], .file bytes)
    let files : FileTree := ⟨[], [file "a.dll" "kmod A, Version=1.0\r\nexport x = 1".toUTF8,
      file "b.dll" ("kmod B, Version=1.0\n".toUTF8.push 255), file "c.dll" "export x = 1".toUTF8]⟩
    (∃ m, load files ⟨"a.dll"⟩ = .ok m ∧ m.identity = ⟨"A", "1.0"⟩ ∧
      Identity.read? files ⟨"a.dll"⟩ = some m.identity) ∧
    ((∃ e, load files ⟨"b.dll"⟩ = .error e) ∧
      Identity.read? files ⟨"b.dll"⟩ = some ⟨"B", "1.0"⟩) ∧
    load files ⟨"c.dll"⟩ = .error (.missingHeader ⟨"c.dll"⟩) ∧
      Identity.read? files ⟨"c.dll"⟩ = none := by
  intro file files
  have hruns : (load files ⟨"a.dll"⟩).map (·.identity) = .ok ⟨"A", "1.0"⟩ ∧
      (load files ⟨"b.dll"⟩).map (·.identity) = .error (.unreadable ⟨"b.dll"⟩ .notText) ∧
      (load files ⟨"c.dll"⟩).map (·.identity) = .error (.missingHeader ⟨"c.dll"⟩) := by
    decide +kernel
  have hheader : Identity.read? files ⟨"b.dll"⟩ = some ⟨"B", "1.0"⟩ := by decide +kernel
  obtain ⟨ha, hb, hc⟩ := hruns
  obtain ⟨m, hm, hidentity⟩ := Except.map_eq_ok_iff.1 ha
  have hmissing := Except.map_eq_error_iff.1 hc
  exact ⟨⟨m, hm, hidentity, (header_readers_agree files _).1 m hm⟩,
    ⟨⟨_, Except.map_eq_error_iff.1 hb⟩, hheader⟩, hmissing,
    (header_readers_agree files _).2.2 _ hmissing⟩

end ModuleFile
end ScriptSession
