import ScriptSession.CommandLine
import ScriptSession.Proofs.Encoding
import ScriptSession.Proofs.Run

namespace ScriptSession.CommandLine

theorem decodeLines_cases (rows : List (List UInt8)) :
    ∃ unread, rows = (decodeLines rows).1.map (encoded ·.toList) ++ unread ∧
      (unread.head?.bind (String.fromUTF8? ·.toByteArray)) = none ∧
      ((decodeLines rows).2 = true ↔ unread ≠ []) := by
  induction rows with
  | nil => exact ⟨[], rfl, rfl, iff_of_false nofun nofun⟩
  | cons row rest ih =>
    rw [decodeLines]
    cases hline : String.fromUTF8? row.toByteArray with
    | none => exact ⟨row :: rest, rfl, hline, iff_of_true rfl nofun⟩
    | some line =>
      obtain ⟨unread, hrest, hhead, hbroken⟩ := ih
      have hrow : row = encoded line.toList := by
        rw [← toList_utf8, ← eq_toByteArray_of_fromUTF8? hline, toList_toByteArray]
      refine ⟨unread, ?_, hhead, hbroken⟩
      dsimp only
      rw [List.map_cons, List.cons_append, ← hrest, ← hrow]

theorem decodeLines_encoded (rows : List (List Char)) :
    decodeLines (rows.map encoded) = (rows.map String.ofList, false) := by
  induction rows with
  | nil => rfl
  | cons row rest ih =>
    rw [List.map_cons, decodeLines, fromUTF8?_encoded]
    dsimp only
    rw [ih, List.map_cons]

theorem close_encoded (row : List Char) :
    (if (encoded row).getLast? = some 13 then (encoded row).dropLast else encoded row) =
      encoded (Text.closeRow row) := by
  rw [Text.closeRow]
  cases htail : Text.beforeTail ['\r'] row with
  | none =>
    have hlast : row.getLast? ≠ some '\r' := by
      intro hlast
      obtain ⟨front, hfront⟩ := List.getLast?_eq_some_iff.1 hlast
      exact Text.beforeTail_eq_none_iff.1 htail ⟨front, hfront.symm⟩
    rw [if_neg (mt (getLast?_encoded row).1 hlast), Option.getD_none]
  | some front =>
    rw [Text.beforeTail_eq_some_iff.1 htail,
      if_pos ((getLast?_encoded _).2 List.getLast?_concat), encoded_append, Option.getD_some]
    exact List.dropLast_concat

theorem inputRows_utf8 (text : String) :
    inputRows text.toByteArray = (Text.lines text.toList).map encoded := by
  have hclose : (Text.rows text.toList).dropLast.map (encoded ∘ Text.closeRow) =
      ((Text.rows text.toList).dropLast.map encoded).map fun row =>
        if row.getLast? = some 13 then row.dropLast else row := by
    rw [List.map_map]
    exact List.map_congr_left fun row _ => (close_encoded row).symm
  have hempty : ((fun bytes : List UInt8 => decide (bytes ≠ [])) ∘ encoded) =
      fun row : List Char => decide (row ≠ []) :=
    funext fun row => decide_eq_decide.2 (not_congr encoded_eq_nil_iff)
  rw [inputRows, toList_utf8, splitOn_encoded, Text.lines, List.map_append, List.map_map, hclose,
    ← List.map_dropLast, List.getLast?_map, Option.filter_map, hempty, Option.toList_map]

/-- The lines of one submission: those that go on with the next, without their backslashes, and
the one that ends it. -/
structure Entry where
  continued : List String
  last : String
  ends : ¬ ['\\'] <:+ last.toList

def goingOn (text : String) : String :=
  text ++ "\\"

namespace Entry

def lines (e : Entry) : List String :=
  e.continued.map goingOn ++ [e.last]

def text (e : Entry) : String :=
  "\n".intercalate (e.continued ++ [e.last])

end Entry

/-- Whether the last of the lines goes on is told by what they leave unfinished. -/
theorem unfinished_iff (entries : List Entry) (unfinished : List String) :
    unfinished ≠ [] ↔
      ∃ line ∈ (entries.flatMap Entry.lines ++ unfinished.map goingOn).getLast?,
        ['\\'] <:+ line.toList := by
  obtain rfl | ⟨front, text, rfl⟩ := List.eq_nil_or_concat unfinished
  · apply iff_of_false (not_not_intro rfl)
    rintro ⟨line, hline, hends⟩
    rw [List.map_nil, List.append_nil] at hline
    obtain rfl | ⟨before, e, rfl⟩ := List.eq_nil_or_concat entries
    · cases hline
    · rw [List.concat_eq_append, List.flatMap_append, List.flatMap_singleton, Entry.lines,
        ← List.append_assoc, List.getLast?_concat] at hline
      cases hline
      exact e.ends hends
  · rw [List.concat_eq_append, List.map_append, List.map_singleton, ← List.append_assoc,
      List.getLast?_concat]
    apply iff_of_true (List.append_ne_nil_of_right_ne_nil _ (List.cons_ne_nil _ _))
    refine ⟨_, rfl, text.toList, ?_⟩
    rw [goingOn, String.toList_append]
    rfl

/-- A buffer holds lines that go on if a text put behind it is joined to them. -/
def Pending (buffer : String) (continued : List String) : Prop :=
  ∀ next, buffer ++ next = "\n".intercalate (continued ++ [next])

theorem pending_nothing : Pending "" [] := by
  intro next
  rw [List.nil_append, String.intercalate_singleton, String.empty_append]

theorem Pending.push {buffer : String} {continued : List String} (h : Pending buffer continued)
    (text : String) : Pending (buffer ++ text ++ "\n") (continued ++ [text]) := by
  intro next
  have hjoin := String.intercalate_append_of_ne_nil (s := "\n")
    (List.append_ne_nil_of_right_ne_nil continued (List.cons_ne_nil text []))
    (List.cons_ne_nil next [])
  rw [h, hjoin, String.intercalate_singleton]

/-- The lines that are read are grouped into submissions, the first of which takes in what the
buffer holds, and into what the buffer holds in the end. -/
theorem submissions_cases {buffer : String} {continued : List String}
    (h : Pending buffer continued) (lines : List String) :
    ∃ (entries : List Entry) (unfinished : List String),
      continued.map goingOn ++ lines = entries.flatMap Entry.lines ++ unfinished.map goingOn ∧
      submissions buffer lines = entries.map Entry.text := by
  induction lines generalizing buffer continued with
  | nil =>
    refine ⟨[], continued, ?_, rfl⟩
    rw [List.append_nil, List.flatMap_nil, List.nil_append]
  | cons line rest ih =>
    rw [submissions]
    cases htail : Text.beforeTail ['\\'] line.toList with
    | some front =>
      have hline : line = goingOn (String.ofList front) := by
        rw [goingOn, ← String.ofList_toList (s := line), Text.beforeTail_eq_some_iff.1 htail,
          String.ofList_append]
      obtain ⟨entries, unfinished, hlines, htexts⟩ := ih (h.push (String.ofList front))
      refine ⟨entries, unfinished, ?_, htexts⟩
      rw [← hlines, List.map_append, List.map_singleton, List.append_assoc, List.singleton_append,
        hline]
    | none =>
      obtain ⟨entries, unfinished, hlines, htexts⟩ := ih pending_nothing
      let entry : Entry := ⟨continued, line, Text.beforeTail_eq_none_iff.1 htail⟩
      refine ⟨entry :: entries, unfinished, ?_, ?_⟩
      · rw [List.flatMap_cons, List.append_assoc, ← hlines, Entry.lines, List.append_assoc]
        rfl
      · rw [htexts, h line]
        rfl

def Progress.evaluate (tools : Tools) (p : Progress) (text : String) : Progress :=
  let ((result, printed), session, files) := p.session.evaluate ⟨p.files, tools⟩ text .never
  { session, files, transcript := report (p.transcript.out printed) result }

theorem submit_eq (tools : Tools) (p : Progress) (text : String) :
    submit tools p text = if !isBlankText text then p.evaluate tools text else p := by
  rw [submit]
  cases isBlankText text <;> rfl

theorem foldl_submit (tools : Tools) (p : Progress) (texts : List String) :
    texts.foldl (submit tools) p =
      (texts.filter (!isBlankText ·)).foldl (Progress.evaluate tools) p := by
  rw [List.foldl_filter]
  congr
  funext p text
  exact submit_eq tools p text

/-- Of any input the lines before the first row that is no text are read, of a text all its lines.
They are grouped, in order and without a gap, into submissions and what is left of an unfinished
one, which is there exactly if the last line goes on. Each submission that is not blank is evaluated
once and in order, before the program ends; an unfinished one is dropped. -/
theorem input_is_evaluated_but_for_an_unfinished_end (host : Host) (s : Session)
    (input : ByteArray) :
    ∃ (entries : List Entry) (unfinished : List String) (unread : List (List UInt8)),
      let lines := entries.flatMap Entry.lines ++ unfinished.map goingOn
      inputRows input = lines.map (encoded ·.toList) ++ unread ∧
      (unread.head?.bind (String.fromUTF8? ·.toByteArray)) = none ∧
      (∀ text, String.fromUTF8? input = some text →
        lines = (Text.lines text.toList).map String.ofList ∧ unread = []) ∧
      (unfinished ≠ [] ↔ ∃ line ∈ lines.getLast?, ['\\'] <:+ line.toList) ∧
      runInput host s input =
        let p := ((entries.map Entry.text).filter (!isBlankText ·)).foldl
          (Progress.evaluate host.tools) { session := s, files := host.files }
        (if unread = [] then p.transcript
          else (p.transcript.err s!"error: {ReadError.notText.message}").exit 1, p.files) := by
  obtain ⟨unread, hrows, hunread, hbroken⟩ := decodeLines_cases (inputRows input)
  obtain ⟨entries, unfinished, hlines, htexts⟩ :=
    submissions_cases pending_nothing (decodeLines (inputRows input)).1
  refine ⟨entries, unfinished, unread, ?_, hunread, fun text htext => ?_,
    unfinished_iff entries unfinished, ?_⟩
  · rw [← hlines]
    exact hrows
  · rw [eq_toByteArray_of_fromUTF8? htext, inputRows_utf8, decodeLines_encoded] at hlines hbroken
    exact ⟨hlines.symm, not_not.1 (mt hbroken.2 Bool.false_ne_true)⟩
  · rw [← foldl_submit, ← htexts, runInput]
    dsimp only
    by_cases hnil : unread = []
    · rw [if_neg (mt hbroken.1 (not_not_intro hnil)), if_pos hnil]
    · rw [if_pos (hbroken.2 hnil), if_neg hnil]

/-- A number on a line that goes on and has none after it: it is not evaluated. -/
theorem unfinished_end_is_dropped :
    let config : SessionConfig := { searchPaths := ⟨[⟨"/s"⟩], none⟩ }
    ∃ s files, Session.start .small config = (.ok s, files) ∧
      decodeLines (inputRows "1\\".toUTF8) = (["1\\"], false) ∧
      submissions "" ["1\\"] = [] ∧
      (runInput .small s "1\\".toUTF8).1 = {} ∧
      (runInput .small s "1".toUTF8).1 = { stdout := "1\n" } := by
  intro config
  have hruns : ((Session.start .small config).1.toOption.map fun s =>
      ((runInput .small s "1\\".toUTF8).1, (runInput .small s "1".toUTF8).1)) =
        some ({}, { stdout := "1\n" }) := by
    decide +kernel
  rcases hstart : Session.start .small config with ⟨_ | s, files⟩
  · rw [hstart] at hruns
    cases hruns
  · rw [hstart] at hruns
    obtain ⟨hdropped, hevaluated⟩ := Prod.mk.inj (Option.some.inj hruns)
    exact ⟨s, files, rfl, by decide +kernel, by decide +kernel, hdropped, hevaluated⟩

end ScriptSession.CommandLine
