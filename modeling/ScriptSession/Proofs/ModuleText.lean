import ScriptSession.Proofs.Identity
import ScriptSession.Proofs.LiteralText

namespace ScriptSession.ModuleFile

def exportLine (name : String) (v : Literal) : String :=
  s!"export {name} = {v.print}"

theorem toList_exportLine (name : String) (v : Literal) :
    (exportLine name v).toList =
      "export".toList ++ (' ' :: (name.toList ++ [' ']) ++ '=' :: ' ' :: v.print.toList) := by
  have hsplit : exportLine name v = "export " ++ name ++ " = " ++ v.print := rfl
  rw [hsplit]
  simp

theorem isTrimmed_exportLine (name : String) (v : Literal) :
    Text.IsTrimmed (exportLine name v).toList := by
  obtain ⟨hne, htrimmed, -⟩ := v.print_line
  have hlead : Text.IsTrimmed "export".toList := by decide
  have hends : (exportLine name v).toList =
      "export".toList ++ ((' ' :: (name.toList ++ " = ".toList)) ++ v.print.toList) := by
    rw [toList_exportLine]
    simp
  rw [hends]
  exact hlead.append htrimmed (List.cons_ne_nil _ _) hne

theorem newline_exportLine {name : String} (h : IsIdentifier name) (v : Literal) :
    '\n' ∉ (exportLine name v).toList := by
  have hname : '\n' ∉ name.toList := h.notMem (by decide)
  obtain ⟨-, -, hprint⟩ := v.print_line
  rw [toList_exportLine]
  simp [hname, hprint]

theorem export?_exportLine {name : String} (h : IsIdentifier name) (v : Literal) :
    export? (exportLine name v).toList = some (name, v.value) := by
  have hbefore : '=' ∉ ' ' :: (name.toList ++ [' ']) := by
    have hname : '=' ∉ name.toList := h.notMem (by decide)
    simp [hname]
  have hspace : ∀ c ∈ [' '], Text.isBlank c = true := List.forall_mem_singleton.2 rfl
  have hname : Text.trim (' ' :: (name.toList ++ [' '])) = name.toList :=
    (Text.trim_of_blanks hspace hspace name.toList).trans h.isTrimmed.trim_eq
  have hvalue : Text.trim (' ' :: v.print.toList) = v.print.toList := by
    rw [Text.trim_space, v.print_line.2.1.trim_eq]
  apply export?_eq_some_iff.2
  refine ⟨_, toList_exportLine name v, rfl, _, _, Text.cutFirst_append hbefore _, ?_, ?_, ?_⟩
  · rw [hname, isName, lex_identifier h]
    rfl
  · rw [hvalue, literal?_print]
  · rw [hname, String.ofList_toList]

/-- Whether a line says nothing: it holds blanks, and behind them nothing or a remark. -/
def IsRemark (line : String) : Prop :=
  '\n' ∉ line.toList ∧ ∃ indent rest, line.toList = indent ++ rest ∧
    (∀ c ∈ indent, Text.isBlank c = true) ∧ (rest = [] ∨ "//".toList <+: rest)

theorem IsRemark.isSilent {line : String} (h : IsRemark line) :
    isSilent (Text.trim line.toList) = true := by
  obtain ⟨-, indent, rest, hline, hindent, hrest⟩ := h
  have hblanks := Text.trim_of_blanks hindent (List.forall_mem_nil _) rest
  rw [List.append_nil] at hblanks
  rw [hline, hblanks, ModuleFile.isSilent, Bool.or_eq_true]
  obtain rfl | ⟨remark, rfl⟩ := hrest
  · exact .inl rfl
  · right
    have hslashes : Text.IsTrimmed "//".toList := by decide
    have hstart : Text.trimStart ("//".toList ++ remark) = "//".toList ++ remark :=
      Text.dropWhile_of_head (by rintro c ⟨⟩; rfl)
    rw [Text.trim, hstart, Text.isPrefixOf_trimEnd hslashes, List.isPrefixOf_iff_prefix]
    exact List.prefix_append _ _

theorem not_isSilent_exportLine (name : String) (v : Literal) :
    isSilent (exportLine name v).toList = false := by
  rw [toList_exportLine]
  rfl

/-- A line below the header: one that says nothing, or one that lists an export. -/
inductive Row
  | remark (line : String) (h : IsRemark line)
  | entry (name : String) (v : Literal)

namespace Row

def text : Row → String
  | remark line _ => line
  | entry name v => exportLine name v

def entry? : Row → Option (String × Literal)
  | remark _ _ => none
  | entry name v => some (name, v)

end Row

def listed (rows : List Row) : List (String × Value) :=
  (rows.filterMap Row.entry?).map fun e => (e.1, e.2.value)

theorem Row.newline {r : Row} (h : ∀ e ∈ r.entry?, IsIdentifier e.1) : '\n' ∉ r.text.toList := by
  cases r with
  | remark line hline => exact hline.1
  | entry name v => exact newline_exportLine (h _ rfl) v

theorem Lists.row {r : Row} (hr : ∀ e ∈ r.entry?, IsIdentifier e.1) {line : List Char}
    (hline : Text.trim line = Text.trim r.text.toList) {lines : List (List Char)} {rows : List Row}
    (h : Lists lines (listed rows)) : Lists (line :: lines) (listed (r :: rows)) := by
  cases r with
  | remark text htext =>
    apply Lists.silent _ h
    rw [hline]
    exact htext.isSilent
  | entry name v =>
    have htrim : Text.trim line = (exportLine name v).toList :=
      hline.trans (isTrimmed_exportLine name v).trim_eq
    apply Lists.entry _ _ h
    · rw [htrim, not_isSilent_exportLine]
    · rw [htrim, export?_exportLine (hr _ rfl)]

/-- The text of a module file: its header line, and a line for each row. -/
def written (ending : String) (i : Identity) (rows : List Row) : String :=
  ending.intercalate (i.headerLine :: rows.map Row.text)

/-- Whether lines end in this text: a line feed, perhaps with a carriage return before it. -/
def IsEnding (ending : String) : Prop :=
  ending = "\n" ∨ ending = "\r\n"

/-- Below its first row a text has the lines of the other rows. -/
theorem IsEnding.first_row {ending : String} (h : IsEnding ending) {row : String}
    (hrow : '\n' ∉ row.toList) (rest : List String) :
    let text := (ending.intercalate (row :: rest)).toList
    Text.trim (text.takeWhile (· ≠ '\n')) = Text.trim row.toList ∧
      (Text.lines text).tail = Text.lines (ending.intercalate rest).toList := by
  intro text
  obtain ⟨blanks, hending, hblanks, hnewline⟩ : ∃ blanks, ending.toList = blanks ++ ['\n'] ∧
      (∀ c ∈ blanks, Text.isBlank c = true) ∧ '\n' ∉ blanks := by
    obtain rfl | rfl := h
    · exact ⟨[], rfl, List.forall_mem_nil _, List.not_mem_nil⟩
    · exact ⟨['\r'], rfl, List.forall_mem_singleton.2 rfl, by decide⟩
  cases rest with
  | nil =>
    have htext : text = row.toList := congrArg String.toList String.intercalate_singleton
    rw [htext, Text.takeWhile_ne_self hrow, Text.lines_row hrow]
    refine ⟨rfl, ?_⟩
    split <;> rfl
  | cons next rest =>
    have htext : text =
        (row.toList ++ blanks) ++ '\n' :: (ending.intercalate (next :: rest)).toList := by
      simp [text, String.toList_intercalate, hending]
    have hclosed : '\n' ∉ row.toList ++ blanks := by
      simp [hrow, hnewline]
    rw [htext, Text.lines_newline hclosed, Text.takeWhile_ne_append hclosed]
    exact ⟨Text.trim_of_blanks (List.forall_mem_nil _) hblanks row.toList, rfl⟩

theorem lists_rows {ending : String} (h : IsEnding ending) {rows : List Row}
    (hnames : ∀ r ∈ rows, ∀ e ∈ r.entry?, IsIdentifier e.1) :
    Lists (Text.lines (ending.intercalate (rows.map Row.text)).toList) (listed rows) := by
  induction rows with
  | nil => exact .nil
  | cons r rows ih =>
    obtain ⟨hr, hrows⟩ := List.forall_mem_cons.1 hnames
    obtain ⟨hfirst, htail⟩ := h.first_row (Row.newline hr) (rows.map Row.text)
    have hlists := ih hrows
    rw [← htail] at hlists
    rw [List.map_cons]
    obtain ⟨hnil, hlines⟩ | ⟨first, rest, hlines, htrim⟩ :=
      Text.lines_cases (ending.intercalate (r.text :: rows.map Row.text)).toList
    · -- nothing is left of the text, so the row is no entry
      rw [hlines] at hlists ⊢
      cases r with
      | remark => exact hlists
      | entry name v =>
        rw [hnil, Row.text, (isTrimmed_exportLine name v).trim_eq, toList_exportLine] at hfirst
        cases hfirst
    · rw [hlines] at hlists ⊢
      exact .row hr (htrim.trans hfirst) hlists

theorem ofList_of_perm {α : Type} {t : Std.ExtTreeMap String α} {l : List (String × α)}
    (h : l.Perm t.toList) : Std.ExtTreeMap.ofList l = t := by
  have hkeys : l.Pairwise fun a b => ¬ compare a.1 b.1 = .eq :=
    h.symm.pairwise Std.ExtTreeMap.distinct_keys_toList fun hab hba =>
      hab (Std.OrientedCmp.eq_symm hba)
  apply Std.ExtTreeMap.ext_getElem?
  intro key
  cases hkey : t[key]? with
  | some v =>
    apply Std.ExtTreeMap.getElem?_ofList_of_mem Std.ReflCmp.compare_self hkeys
    exact h.mem_iff.2 (Std.ExtTreeMap.mem_toList_iff_getElem?_eq_some.2 hkey)
  | none =>
    apply Std.ExtTreeMap.getElem?_ofList_of_contains_eq_false
    rw [Bool.eq_false_iff, ne_eq, List.contains_iff_mem, List.mem_map]
    rintro ⟨⟨key', v⟩, hmem, rfl⟩
    cases (Std.ExtTreeMap.mem_toList_iff_getElem?_eq_some.1 (h.mem_iff.1 hmem)).symm.trans hkey

/-- A module file that is written for an identity and its exports, line by line in any order, with
blank lines and remarks between them, is read back as that identity and those exports. -/
theorem written_module_is_read_back (path : Path) {i : Identity}
    (hi : ∃ line, Identity.parse? line = some i) {exports : Std.ExtTreeMap String Literal}
    (hnames : ∀ name ∈ exports, IsIdentifier name) {rows : List Row}
    (hrows : (rows.filterMap Row.entry?).Perm exports.toList) {ending : String}
    (hending : IsEnding ending) :
    parse path (written ending i rows).toList =
      .ok ⟨i, path, exports.map fun _ v => Literal.value v⟩ := by
  obtain ⟨line, hline⟩ := hi
  have hreadable := Identity.isReadable_of_parse? hline
  have hentries : ∀ r ∈ rows, ∀ e ∈ r.entry?, IsIdentifier e.1 := by
    intro r hr e he
    have hmem : e ∈ exports.toList := hrows.mem_iff.1 (List.mem_filterMap.2 ⟨r, hr, he⟩)
    apply hnames
    rw [Std.ExtTreeMap.mem_iff_isSome_getElem?,
      Std.ExtTreeMap.mem_toList_iff_getElem?_eq_some.1 hmem]
    rfl
  have hlisted : Std.ExtTreeMap.ofList (listed rows) =
      exports.map fun _ v => Literal.value v := by
    apply ofList_of_perm
    rw [Std.ExtTreeMap.toList_map]
    exact hrows.map fun e => (e.1, e.2.value)
  obtain ⟨hfirst, htail⟩ := hending.first_row hreadable.newline (rows.map Row.text)
  apply parse_eq_ok_iff.2
  refine ⟨?_, rfl, listed rows, ?_, hlisted.symm⟩
  · rw [written, Identity.ofHeader?_congr hfirst, hreadable.ofHeader?_headerLine]
  · rw [written, htail]
    exact lists_rows hending hentries

/-- Exports named like the words that lines start with, a string of all that is escaped, and the
least integer. -/
theorem module_of_awkward_exports :
    let i : Identity := ⟨"Kiln.Text", "1.+2"⟩
    let text := "\"=\\ // \n\r"
    let entries : List (String × Literal) :=
      [("export", .str text), ("kmod", .int (-9223372036854775808)), ("x_1", .bool true)]
    ∃ rows : List Row, rows.map Row.entry? =
        [none, some ("x_1", .bool true), none, some ("kmod", .int (-9223372036854775808)),
          some ("export", .str text)] ∧
      parse ⟨"a.dll"⟩ (written "\r\n" i rows).toList =
        .ok ⟨i, ⟨"a.dll"⟩, (Std.ExtTreeMap.ofList entries).map fun _ v => Literal.value v⟩ := by
  intro i text entries
  have hblank : IsRemark "\t" :=
    ⟨by decide, ['\t'], [], rfl, List.forall_mem_singleton.2 rfl, .inl rfl⟩
  have hremark : IsRemark " // export y = 1" :=
    ⟨by decide, [' '], "// export y = 1".toList, rfl, List.forall_mem_singleton.2 rfl,
      .inr (List.isPrefixOf_iff_prefix.1 (by decide))⟩
  have hi : Identity.parse? "Kiln.Text,Version=1.+2".toList = some i := by decide +kernel
  have hnames : ∀ name ∈ Std.ExtTreeMap.ofList entries, IsIdentifier name := by
    intro name hname
    rw [Std.ExtTreeMap.mem_ofList, List.contains_iff_mem] at hname
    simp only [entries, List.map_cons, List.map_nil, List.mem_cons, List.not_mem_nil,
      or_false] at hname
    obtain rfl | rfl | rfl := hname
    all_goals exact ⟨_, _, rfl, rfl, List.all_eq_true.1 (by decide), by decide⟩
  refine ⟨[.remark "\t" hblank, .entry "x_1" (.bool true), .remark " // export y = 1" hremark,
    .entry "kmod" (.int (-9223372036854775808)), .entry "export" (.str text)], rfl, ?_⟩
  apply written_module_is_read_back ⟨"a.dll"⟩ ⟨_, hi⟩ hnames _ (.inr rfl)
  have hsorted : (Std.ExtTreeMap.ofList entries).toList = entries := by decide +kernel
  rw [hsorted]
  exact entries.reverse_perm

end ScriptSession.ModuleFile
