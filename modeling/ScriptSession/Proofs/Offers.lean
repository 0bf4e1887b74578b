import Mathlib.Data.List.DropRight
import ScriptSession.Proofs.Completion
import ScriptSession.Proofs.Offset

namespace ScriptSession

theorem ModuleTable.isWithin_iff {scope name : String} : isWithin scope name = true ↔
    name.toList = scope.toList ∨ ∃ rest, name.toList = scope.toList ++ '.' :: rest := by
  unfold isWithin
  cases hlead : Text.afterLead scope.toList name.toList with
  | none =>
    have hnot (rest : List Char) : name.toList ≠ scope.toList ++ rest := fun h => by
      rw [Text.afterLead_eq_some_iff.2 h] at hlead
      cases hlead
    refine ⟨nofun, ?_⟩
    rintro (h | ⟨rest, h⟩)
    · exact absurd (h.trans (List.append_nil _).symm) (hnot [])
    · exact absurd h (hnot _)
  | some rest =>
    have h := Text.eq_of_afterLead hlead
    cases rest with
    | nil => simp [h]
    | cons c rest => simp [h]

namespace Completion

/-- Whether a word is the longest run of word characters that ends at the caret, which falls back
to the start of a character that it is inside of. -/
def WordAt (cs : List Char) (caret : Nat) (word : List Char) : Prop :=
  ∃ front back, cs = front ++ word ++ back ∧
    (Text.byteLength (front ++ word) ≤ caret ∧
      ∀ c ∈ back.head?, caret < Text.byteLength (front ++ word) + c.utf8Size) ∧
    (∀ c ∈ word, isWordChar c = true) ∧ ∀ c ∈ front.getLast?, isWordChar c = false

theorem wordBefore_eq_iff {cs word : List Char} : wordBefore cs = word ↔
    ∃ front, cs = front ++ word ∧ (∀ c ∈ word, isWordChar c = true) ∧
      ∀ c ∈ front.getLast?, isWordChar c = false := by
  constructor
  · rintro rfl
    refine ⟨cs.rdropWhile isWordChar, List.rdropWhile_append_rtakeWhile.symm,
      fun c hc => List.mem_rtakeWhile_imp hc, fun c hc => ?_⟩
    obtain ⟨hne, rfl⟩ := List.mem_getLast?_eq_getLast hc
    exact Bool.not_eq_true _ ▸ List.rdropWhile_last_not isWordChar cs hne
  · rintro ⟨front, rfl, hword, hfront⟩
    have hstop : front.reverse.takeWhile isWordChar = [] := by
      rw [← List.head?_reverse] at hfront
      cases hrev : front.reverse with
      | nil => rfl
      | cons c rest =>
        rw [List.takeWhile_cons_of_neg]
        rw [hrev] at hfront
        exact Bool.not_eq_true _ ▸ hfront c rfl
    rw [wordBefore, List.reverse_append, List.takeWhile_append_of_pos, hstop, List.append_nil,
      List.reverse_reverse]
    exact fun c hc => hword c (List.mem_reverse.1 hc)

theorem wordAt_iff {cs : List Char} {caret : Nat} {word : List Char} :
    WordAt cs caret word ↔ word = wordBefore (Text.takeBytes caret cs) := by
  rw [eq_comm, wordBefore_eq_iff]
  constructor
  · rintro ⟨front, back, hsplit, hcaret, hword, hfront⟩
    exact ⟨front, Text.takeBytes_eq_iff.2 ⟨back, hsplit, hcaret⟩, hword, hfront⟩
  · rintro ⟨front, htake, hword, hfront⟩
    obtain ⟨back, hsplit, hcaret⟩ := Text.takeBytes_eq_iff.1 htake
    exact ⟨front, back, hsplit, hcaret, hword, hfront⟩

/-- Where labels come from, and the kind of the items that they get. -/
structure Source where
  kind : CompletionKind
  offers : String → Prop

/-- What a plain word can stand for in a document. -/
def plainSources (d : Document) : List Source :=
  let modules := d.project.modules
  [⟨.keyword, (· ∈ Token.keywords)⟩,
    ⟨.builtin, (· ∈ Builtin.names)⟩,
    ⟨.binding, fun s => s ∈ Outline.bindings d.committedText ∨
      d.committed = false ∧ s ∈ Outline.bindings d.text⟩,
    ⟨.module, fun s => ∃ m ∈ modules.toList, (m.name.toList.splitOn '.').head? = some s.toList⟩,
    ⟨.exported, fun s => ∃ scope, (scope ∈ d.project.imports ∨
        d.committed = false ∧ scope ∈ Outline.imports d.text) ∧
      ∃ m ∈ modules.toList, ModuleTable.isWithin scope m.name = true ∧ s ∈ m.exports⟩]

/-- What a word can stand for after a qualifier and a dot. -/
def qualifiedSources (modules : ModuleTable) (qualifier : String) : List Source :=
  [⟨.exported, fun s => ∃ m, modules.get? qualifier = some m ∧ s ∈ m.exports⟩,
    ⟨.module, fun s => '.' ∉ s.toList ∧ modules.isNamespace (qualifier ++ "." ++ s) = true⟩]

/-- Whether items are what some sources, the first one first, have for a word: in the order of the
labels, one for each label that some source offers and that starts with the word, and of the kind of
the first source that offers it. -/
structure Serves (lead : List Char) (sources : List Source) (items : List CompletionItem) :
    Prop where
  sorted : items.Pairwise (·.label < ·.label)
  labels : ∀ s, (∃ i ∈ items, i.label = s) ↔ lead <+: s.toList ∧ ∃ src ∈ sources, src.offers s
  kinds : ∀ i ∈ items, ∃ before src after, sources = before ++ src :: after ∧
    src.kind = i.kind ∧ src.offers i.label ∧ ∀ src' ∈ before, ¬ src'.offers i.label

/-- Whether items are the offers of a source. -/
structure Source.Gives (src : Source) (items : List CompletionItem) : Prop where
  kind : ∀ i ∈ items, i.kind = src.kind
  labels : ∀ s, src.offers s ↔ ∃ i ∈ items, i.label = s

section
variable {kind : CompletionKind} {offers : String → Prop}

theorem Source.gives_map {names : List String} (h : ∀ s, offers s ↔ s ∈ names) :
    Source.Gives ⟨kind, offers⟩ (names.map (⟨·, kind, none⟩)) where
  kind i hi := by
    obtain ⟨name, -, rfl⟩ := List.mem_map.1 hi
    rfl
  labels s := by simp [h]

theorem exists_label_exportItems {m : Module} {s : String} :
    (∃ i ∈ exportItems m, i.label = s) ↔ s ∈ m.exports := by
  rw [← Std.ExtTreeMap.isSome_getElem?_iff_mem, Option.isSome_iff_exists]
  simp [exportItems, Std.ExtTreeMap.mem_toList_iff_getElem?_eq_some]

theorem Source.gives_exports {modules : List Module}
    (h : ∀ s, offers s ↔ ∃ m ∈ modules, s ∈ m.exports) :
    Source.Gives ⟨.exported, offers⟩ (modules.flatMap exportItems) where
  kind i hi := by
    obtain ⟨m, -, hi⟩ := List.mem_flatMap.1 hi
    obtain ⟨entry, -, rfl⟩ := List.mem_map.1 hi
    rfl
  labels s := by
    simp only [h, List.mem_flatMap, ← exists_label_exportItems]
    constructor
    · rintro ⟨m, hm, i, hi, hl⟩
      exact ⟨i, ⟨m, hm, hi⟩, hl⟩
    · rintro ⟨i, ⟨m, hm, hi⟩, hl⟩
      exact ⟨m, hm, i, hi, hl⟩

end

section
variable {sources : List Source} {blocks : List (List CompletionItem)}

theorem Source.Gives.labels_flatten (h : List.Forall₂ Source.Gives sources blocks) (s : String) :
    (∃ src ∈ sources, src.offers s) ↔ ∃ i ∈ blocks.flatten, i.label = s := by
  induction h with
  | nil => simp
  | cons hgives _ ih =>
    simp only [List.mem_cons, List.flatten_cons, List.mem_append, or_and_right, exists_or,
      exists_eq_left, ih, hgives.labels]

theorem Source.Gives.first (h : List.Forall₂ Source.Gives sources blocks) {i : CompletionItem}
    (hi : blocks.flatten.find? (·.label = i.label) = some i) :
    ∃ before src after, sources = before ++ src :: after ∧ src.kind = i.kind ∧
      src.offers i.label ∧ ∀ src' ∈ before, ¬ src'.offers i.label := by
  induction h with
  | nil => cases hi
  | @cons src block sources blocks hgives _ ih =>
    rw [List.flatten_cons, List.find?_append, Option.or_eq_some_iff] at hi
    obtain hfound | ⟨hnone, hi⟩ := hi
    · have hmem := List.mem_of_find?_eq_some hfound
      exact ⟨[], src, sources, rfl, (hgives.kind i hmem).symm, (hgives.labels _).2 ⟨i, hmem, rfl⟩,
        nofun⟩
    · have hsrc : ¬ src.offers i.label := fun hoffers => by
        obtain ⟨j, hj, hl⟩ := (hgives.labels _).1 hoffers
        exact List.find?_eq_none.1 hnone j hj (decide_eq_true hl)
      obtain ⟨before, first, after, rfl, hkind, hoffers, hbefore⟩ := ih hi
      exact ⟨src :: before, first, after, rfl, hkind, hoffers,
        List.forall_mem_cons.2 ⟨hsrc, hbefore⟩⟩

theorem serves_collect (lead : List Char) (h : List.Forall₂ Source.Gives sources blocks) :
    Serves lead sources (collect lead blocks.flatten) where
  sorted := collect_sorted lead _
  labels s := by
    rw [Source.Gives.labels_flatten h]
    constructor
    · rintro ⟨i, hi, rfl⟩
      exact ⟨(mem_collect_iff.1 hi).1, i, mem_of_mem_collect hi, rfl⟩
    · rintro ⟨hl, i, hi, rfl⟩
      exact exists_mem_collect hi hl
  kinds i hi := Source.Gives.first h (mem_collect_iff.1 hi).2

end

theorem mem_eraseReps {α : Type} [BEq α] [LawfulBEq α] {x : α} {xs : List α} :
    x ∈ xs.eraseReps ↔ x ∈ xs := by
  have hloop (first : α) (rest done : List α) :
      x ∈ List.eraseRepsBy.loop (· == ·) first rest done ↔ x = first ∨ x ∈ rest ∨ x ∈ done := by
    induction rest generalizing first done with
    | nil => simp [List.eraseRepsBy.loop, or_comm]
    | cons next rest ih =>
      unfold List.eraseRepsBy.loop
      split
      next hsame =>
        cases beq_iff_eq.1 hsame
        rw [ih, List.mem_cons]
        tauto
      next =>
        rw [ih, List.mem_cons, List.mem_cons]
        tauto
  cases xs with
  | nil => rfl
  | cons first rest =>
    have hfirst := hloop first rest []
    rwa [or_iff_left List.not_mem_nil, ← List.mem_cons] at hfirst

theorem mem_childSegments_none {modules : ModuleTable} {s : String} :
    s ∈ childSegments modules none ↔
      ∃ m ∈ modules.toList, (m.name.toList.splitOn '.').head? = some s.toList := by
  simp only [childSegments, mem_eraseReps, List.mem_filterMap, Text.head?_splitOn]
  refine exists_congr fun m => and_congr_right fun _ => ?_
  change some (String.ofList _) = some s ↔ _
  rw [Option.some_inj, Option.some_inj, ← String.toList_inj, String.toList_ofList]

theorem isNamespace_iff {modules : ModuleTable} {scope s : String} :
    modules.isNamespace (scope ++ "." ++ s) = true ↔ ∃ m ∈ modules.toList, ∃ rest,
      m.name.toList = (scope.toList ++ ['.']) ++ rest ∧
        (rest = s.toList ∨ ∃ below, rest = s.toList ++ '.' :: below) := by
  have hdot : (scope ++ "." ++ s).toList = (scope.toList ++ ['.']) ++ s.toList := by
    rw [String.toList_append, String.toList_append]
    rfl
  rw [ModuleTable.isNamespace, List.any_eq_true]
  apply exists_congr
  intro m
  apply and_congr_right
  intro _
  rw [ModuleTable.isWithin_iff, hdot]
  constructor
  · rintro (h | ⟨below, h⟩)
    · exact ⟨_, h, .inl rfl⟩
    · exact ⟨_, h.trans (List.append_assoc _ _ _), .inr ⟨below, rfl⟩⟩
  · rintro ⟨_, h, rfl | ⟨below, rfl⟩⟩
    · exact .inl h
    · exact .inr ⟨below, h.trans (List.append_assoc _ _ _).symm⟩

theorem mem_childSegments_some {modules : ModuleTable} {scope s : String} :
    s ∈ childSegments modules (some scope) ↔
      '.' ∉ s.toList ∧ modules.isNamespace (scope ++ "." ++ s) = true := by
  have hsegment (m : Module) : (do
      let rest ← Text.afterLead (scope.toList ++ ['.']) m.name.toList
      return String.ofList (rest.takeWhile (· ≠ '.'))) = some s ↔
      ∃ rest, m.name.toList = (scope.toList ++ ['.']) ++ rest ∧
        '.' ∉ s.toList ∧ (rest = s.toList ∨ ∃ below, rest = s.toList ++ '.' :: below) := by
    rw [Option.bind_eq_bind, Option.bind_eq_some_iff]
    apply exists_congr
    intro rest
    rw [Text.afterLead_eq_some_iff, ← Text.takeWhile_ne_eq_iff, Option.pure_def, Option.some_inj,
      ← String.toList_inj, String.toList_ofList]
  rw [childSegments, mem_eraseReps, List.mem_filterMap, isNamespace_iff]
  constructor
  · rintro ⟨m, hm, hseg⟩
    obtain ⟨rest, hname, hs, hrest⟩ := (hsegment m).1 hseg
    exact ⟨hs, m, hm, rest, hname, hrest⟩
  · rintro ⟨hs, m, hm, rest, hname, hrest⟩
    exact ⟨m, hm, (hsegment m).2 ⟨rest, hname, hs, hrest⟩⟩

theorem mem_importedBy_iff {modules : ModuleTable} {scope : String} {m : Module} :
    m ∈ modules.importedBy scope ↔ m ∈ modules.toList ∧ ModuleTable.isWithin scope m.name = true :=
  List.mem_filter

theorem mem_namesInScope {d : Document} {s : String} :
    (s ∈ (namesInScope d).1 ↔ s ∈ Outline.bindings d.committedText ∨
      d.committed = false ∧ s ∈ Outline.bindings d.text) ∧
    (s ∈ (namesInScope d).2 ↔ s ∈ d.project.imports ∨
      d.committed = false ∧ s ∈ Outline.imports d.text) := by
  unfold namesInScope
  cases d.committed <;> simp [Names.sorted]

theorem serves_plain (d : Document) (lead : List Char) :
    Serves lead (plainSources d) (collect lead (plainOffers d)) := by
  have hoffers : plainOffers d = [Token.keywords.map (⟨·, .keyword, none⟩),
      Builtin.names.map (⟨·, .builtin, none⟩), (namesInScope d).1.map (⟨·, .binding, none⟩),
      (childSegments d.project.modules none).map (⟨·, .module, none⟩),
      ((namesInScope d).2.flatMap d.project.modules.importedBy).flatMap exportItems].flatten := by
    simp only [plainOffers, List.flatten_cons, List.flatten_nil, List.append_nil, List.append_assoc]
  rw [hoffers]
  refine serves_collect lead (.cons (Source.gives_map fun s => Iff.rfl)
    (.cons (Source.gives_map fun s => Iff.rfl) (.cons (Source.gives_map fun s => ?_)
      (.cons (Source.gives_map fun s => mem_childSegments_none.symm)
        (.cons (Source.gives_exports fun s => ?_) .nil)))))
  · exact mem_namesInScope.1.symm
  · simp only [List.mem_flatMap, mem_importedBy_iff, mem_namesInScope.2]
    constructor
    · rintro ⟨scope, hscope, m, hm, hwithin, hs⟩
      exact ⟨m, ⟨scope, hscope, hm, hwithin⟩, hs⟩
    · rintro ⟨m, ⟨scope, hscope, hm, hwithin⟩, hs⟩
      exact ⟨scope, hscope, m, hm, hwithin, hs⟩

theorem serves_qualified (modules : ModuleTable) (qualifier : String) (lead : List Char) :
    Serves lead (qualifiedSources modules qualifier)
      (collect lead (qualifiedOffers modules qualifier)) := by
  have hoffers : qualifiedOffers modules qualifier =
      [(modules.get? qualifier).toList.flatMap exportItems,
        (childSegments modules (some qualifier)).map (⟨·, .module, none⟩)].flatten := by
    simp only [qualifiedOffers, List.flatten_cons, List.flatten_nil, List.append_nil]
  rw [hoffers]
  refine serves_collect lead (.cons (Source.gives_exports fun s => ?_)
    (.cons (Source.gives_map fun s => mem_childSegments_some.symm) .nil))
  simp only [Option.mem_toList]

end Completion

/-- Completion offers what is in scope at the word before the caret: for a plain word every keyword,
builtin, binding, first segment of a module name and export of an imported module that starts with
it, and for a word with a dot the exports of the module that the last dot follows and the modules
and namespaces right below it. -/
theorem completion_offers_what_is_in_scope (d : Document) (caret : Nat) :
    ∃ word, (∀ other, Completion.WordAt d.text.toList caret other ↔ other = word) ∧
      ('.' ∉ word →
        Completion.Serves word (Completion.plainSources d) (complete d caret)) ∧
      ∀ qualifier lead, word = qualifier ++ '.' :: lead → '.' ∉ lead →
        Completion.Serves lead
          (Completion.qualifiedSources d.project.modules (String.ofList qualifier))
          (complete d caret) := by
  refine ⟨_, fun _ => Completion.wordAt_iff, ?_, ?_⟩
  · intro hword
    unfold complete
    dsimp only
    rw [Text.cutLast_eq_none hword]
    exact Completion.serves_plain d _
  · intro qualifier lead hword hlead
    unfold complete
    dsimp only
    rw [hword, Text.cutLast_append qualifier hlead]
    exact Completion.serves_qualified _ _ lead

/-- The caret is inside the last character, so the word is the `le` in front of it: a builtin and a
keyword fit it, a name of the session and one of the candidate. -/
theorem offers_before_split_character :
    let d : Document := ⟨⟨0, .empty, ∅, .empty, "let lent = 1"⟩, [], "let lend = 2; leé", false⟩
    ∀ s, (∃ i ∈ complete d 17, i.label = s) ↔ s ∈ ["len", "lend", "lent", "let"] := by
  intro d s
  obtain ⟨word, hword, hplain, -⟩ := completion_offers_what_is_in_scope d 17
  have hle : "le".toList = word := by
    apply (hword _).1
    refine ⟨"let lend = 2; ".toList, ['é'], by decide +kernel, ⟨by decide +kernel, ?_⟩, ?_, ?_⟩
    · rintro c ⟨⟩
      decide +kernel
    · exact List.all_eq_true.1 (by decide +kernel)
    · intro c hc
      have hlast : "let lend = 2; ".toList.getLast? = some ' ' := by decide +kernel
      cases hlast.symm.trans hc
      decide
  subst hle
  have hsession : Outline.bindings d.committedText = ["lent"] := by decide +kernel
  have hcandidate : Outline.bindings d.text = ["lend"] := by decide +kernel
  have hmodules : d.project.modules.toList = [] := by rfl
  have hsources : (∃ src ∈ Completion.plainSources d, src.offers s) ↔
      s ∈ Token.keywords ++ Builtin.names ++ ["lent", "lend"] := by
    simp [Completion.plainSources, hsession, hcandidate, hmodules, d]
  rw [(hplain (by decide)).labels s, hsources]
  constructor
  · rintro ⟨hl, hs⟩
    have hfits : ∀ s ∈ Token.keywords ++ Builtin.names ++ ["lent", "lend"],
        "le".toList <+: s.toList → s ∈ ["len", "lend", "lent", "let"] := by decide +kernel
    exact hfits s hs hl
  · intro hs
    have hall : ∀ s ∈ ["len", "lend", "lent", "let"], "le".toList <+: s.toList ∧
        s ∈ Token.keywords ++ Builtin.names ++ ["lent", "lend"] := by decide +kernel
    exact hall s hs

end ScriptSession
