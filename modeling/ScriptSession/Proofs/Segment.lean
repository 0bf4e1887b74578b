import ScriptSession.Proofs.Admission
import ScriptSession.Proofs.Offers

namespace ScriptSession

/-- The segments of a dotted name, of which there is one at least. -/
def segmentsOf (name : String) : List String :=
  (name.toList.splitOn '.').map String.ofList

theorem segmentsOf_ne_nil (name : String) : segmentsOf name ≠ [] :=
  fun h => List.splitOn_ne_nil '.' name.toList (List.map_eq_nil_iff.1 h)

theorem notMem_of_mem_segmentsOf {name s : String} (h : s ∈ segmentsOf name) : '.' ∉ s.toList := by
  obtain ⟨part, hpart, rfl⟩ := List.mem_map.1 h
  rw [String.toList_ofList]
  exact Text.not_mem_of_mem_splitOn hpart

theorem segmentsOf_of_notMem {s : String} (h : '.' ∉ s.toList) : segmentsOf s = [s] := by
  rw [segmentsOf, List.splitOn_eq_singleton h, List.map_singleton, String.ofList_toList]

theorem segmentsOf_append (a b : String) :
    segmentsOf (a ++ "." ++ b) = segmentsOf a ++ segmentsOf b := by
  have htext : (a ++ "." ++ b).toList = a.toList ++ '.' :: b.toList := by
    rw [String.toList_append, String.toList_append, List.append_assoc]
    rfl
  rw [segmentsOf, htext, List.splitOn_append_cons_self, List.map_append, segmentsOf, segmentsOf]

theorem dotted_append {front back : List String} (hf : front ≠ []) (hb : back ≠ []) :
    dotted (front ++ back) = dotted front ++ "." ++ dotted back :=
  String.intercalate_append_of_ne_nil hf hb

theorem dotted_segmentsOf (name : String) : dotted (segmentsOf name) = name := by
  have hmap : (segmentsOf name).map String.toList = name.toList.splitOn '.' := by
    rw [segmentsOf, List.map_map]
    exact (List.map_congr_left fun _ _ => String.toList_ofList).trans (List.map_id _)
  rw [← String.toList_inj, dotted, String.toList_intercalate, hmap]
  exact List.intercalate_splitOn '.'

theorem segmentsOf_dotted {parts : List String} (hne : parts ≠ [])
    (h : ∀ s ∈ parts, '.' ∉ s.toList) : segmentsOf (dotted parts) = parts := by
  induction parts with
  | nil => exact absurd rfl hne
  | cons s parts ih =>
    obtain ⟨hs, hparts⟩ := List.forall_mem_cons.1 h
    cases parts with
    | nil => rw [dotted, String.intercalate_singleton, segmentsOf_of_notMem hs]
    | cons t parts =>
      have hnext := List.cons_ne_nil t parts
      rw [← List.singleton_append, dotted_append (List.cons_ne_nil s []) hnext, segmentsOf_append,
        ih hnext hparts, dotted, String.intercalate_singleton, segmentsOf_of_notMem hs]

/-- A name lies within another one where its segments go on from those of the other. -/
theorem ModuleTable.isWithin_iff_segments {scope name : String} :
    isWithin scope name = true ↔ segmentsOf scope <+: segmentsOf name := by
  rw [isWithin_iff]
  constructor
  · rintro (hsame | ⟨rest, hrest⟩)
    · rw [String.toList_inj.1 hsame]
    · have hname : name = scope ++ "." ++ String.ofList rest := by
        rw [← String.toList_inj, hrest, String.toList_append, String.toList_ofList,
          String.toList_append, List.append_assoc]
        rfl
      rw [hname, segmentsOf_append]
      exact List.prefix_append _ _
  · rintro ⟨below, hbelow⟩
    rw [← dotted_segmentsOf name, ← hbelow]
    by_cases hnil : below = []
    · rw [hnil, List.append_nil, dotted_segmentsOf]
      exact .inl rfl
    · refine .inr ⟨(dotted below).toList, ?_⟩
      rw [dotted_append (segmentsOf_ne_nil scope) hnil, dotted_segmentsOf, String.toList_append,
        String.toList_append, List.append_assoc]
      rfl

namespace ModuleTable

variable {modules : ModuleTable}

theorem importedBy_eq (modules : ModuleTable) (scope : String) :
    modules.importedBy scope = modules.toList.filter (segmentsOf scope <+: segmentsOf ·.name) := by
  refine List.filter_congr fun m _ => ?_
  rw [Bool.eq_iff_iff, isWithin_iff_segments, decide_eq_true_iff]

theorem isNamespace_iff_segments {name : String} :
    modules.isNamespace name = true ↔
      ∃ m ∈ modules.toList, segmentsOf name <+: segmentsOf m.name := by
  simp only [isNamespace, List.any_eq_true, isWithin_iff_segments]

theorem isNamespace_of_prefix {outer inner : String} (h : segmentsOf outer <+: segmentsOf inner)
    (hinner : modules.isNamespace inner = true) : modules.isNamespace outer = true := by
  obtain ⟨m, hm, hwithin⟩ := isNamespace_iff_segments.1 hinner
  exact isNamespace_iff_segments.2 ⟨m, hm, h.trans hwithin⟩

end ModuleTable

theorem Completion.mem_childSegments_none_iff {modules : ModuleTable} {s : String}
    (h : '.' ∉ s.toList) :
    s ∈ childSegments modules none ↔ modules.isNamespace s = true := by
  rw [mem_childSegments_none, ModuleTable.isNamespace_iff_segments, segmentsOf_of_notMem h]
  refine exists_congr fun m => and_congr_right fun _ => ?_
  have hfirst : [s] <+: segmentsOf m.name ↔ (segmentsOf m.name).head? = some s := by
    rw [List.cons_prefix_iff, List.head?_eq_some_iff]
    simp only [List.nil_prefix, and_true]
  rw [hfirst, segmentsOf, List.head?_map, Option.map_eq_some_iff]
  constructor
  · intro hhead
    exact ⟨_, hhead, String.ofList_toList⟩
  · rintro ⟨part, hhead, rfl⟩
    rwa [String.toList_ofList]

/-- Imports, namespaces and what is offered below them go by the segments of names: an import brings
in the modules whose segments start with its own, dropping segments at the end leaves a namespace,
and the segments next to a namespace, or at the front, are those that lead to one. -/
theorem names_match_by_segments (modules : ModuleTable) :
    (∀ scope, modules.importedBy scope =
      modules.toList.filter (segmentsOf scope <+: segmentsOf ·.name)) ∧
    (∀ name kept, modules.isNamespace name = true →
      modules.isNamespace (dotted ((segmentsOf name).take (kept + 1))) = true) ∧
    (∀ scope s, '.' ∉ s.toList → (s ∈ Completion.childSegments modules (some scope) ↔
      modules.isNamespace (scope ++ "." ++ s) = true)) ∧
    ∀ s, '.' ∉ s.toList →
      (s ∈ Completion.childSegments modules none ↔ modules.isNamespace s = true) := by
  refine ⟨modules.importedBy_eq, fun name kept h => ?_, fun scope s hs => ?_,
    fun s hs => Completion.mem_childSegments_none_iff hs⟩
  · have hne : (segmentsOf name).take (kept + 1) ≠ [] := by
      rw [Ne, List.take_eq_nil_iff]
      exact not_or.2 ⟨Nat.succ_ne_zero kept, segmentsOf_ne_nil name⟩
    have hdots : ∀ s ∈ (segmentsOf name).take (kept + 1), '.' ∉ s.toList :=
      fun s hs => notMem_of_mem_segmentsOf (List.mem_of_mem_take hs)
    apply ModuleTable.isNamespace_of_prefix _ h
    rw [segmentsOf_dotted hne hdots]
    exact List.take_prefix _ _
  · rw [Completion.mem_childSegments_some]
    exact and_iff_right hs

/-- A dash sorts before a dot, so that `A-b` parts the modules below `A` from the one called `A`. -/
theorem segments_around_dash :
    let file (name text : String) : Location × Node := ([name], .file text.toUTF8)
    let files : FileTree := ⟨[], [file "a.dll" "kmod A, Version=1",
      file "b.dll" "kmod A-b, Version=1", file "c.dll" "kmod A.c.d, Version=1"]⟩
    let t := ModuleTable.empty.after [⟨files, ⟨"c.dll"⟩⟩, ⟨files, ⟨"a.dll"⟩⟩, ⟨files, ⟨"b.dll"⟩⟩]
    t.isNamespace "A.c.d" = true ∧ t.isNamespace "A.c" = true ∧
      Completion.childSegments t none = ["A", "A-b", "A"] ∧
      "c" ∈ Completion.childSegments t (some "A") ∧
      (t.importedBy "A").map (·.name) = ["A", "A.c.d"] := by
  intro file files t
  obtain ⟨himports, hclosed, hbelow, -⟩ := names_match_by_segments t
  have hname : t.isNamespace "A.c.d" = true := by decide +kernel
  have habove : t.isNamespace "A.c" = true := hclosed "A.c.d" 1 hname
  refine ⟨hname, habove, by decide +kernel, (hbelow "A" "c" (by decide)).2 habove, ?_⟩
  rw [himports]
  decide +kernel

end ScriptSession
