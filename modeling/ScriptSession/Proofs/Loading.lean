import ScriptSession.Proofs.Outcome
import ScriptSession.Script.Engine

namespace ScriptSession

theorem ModuleFile.path_load {files : FileTree} {p : Path} {m : Module}
    (h : load files p = .ok m) : m.path = p := by
  unfold load at h
  split at h
  · unfold parse at h
    split at h
    · cases h
    · split at h
      · cases h
      · obtain ⟨exports, -, h⟩ := Except.bind_eq_ok_iff.1 h
        cases h
        rfl
  · cases h

namespace ModuleTable

theorem mem_toList_iff {t : ModuleTable} {m : Module} :
    m ∈ t.toList ↔ ∃ name : String, t.modules[name]? = some m := by
  unfold toList
  rw [List.mem_map]
  constructor
  · rintro ⟨⟨name, m'⟩, hmem, rfl⟩
    exact ⟨name, Std.ExtTreeMap.mem_toList_iff_getElem?_eq_some.1 hmem⟩
  · rintro ⟨name, hname⟩
    exact ⟨(name, m), Std.ExtTreeMap.mem_toList_iff_getElem?_eq_some.2 hname, rfl⟩

theorem knowsPath_index (t : ModuleTable) (m : Module) (p : Path) :
    (t.index m).knowsPath p = (p.components == m.path.components || t.knowsPath p) := by
  simp only [knowsPath, originOf?, index, List.lookup_cons]
  split
  next h => rw [h]; rfl
  next h => rw [h]; rfl

/-- What a table knows after it was offered a path and did not refuse it. -/
theorem knowsPath_load {files : FileTree} {t t' : ModuleTable} {p : Path} {a : Admission}
    (h : t.load files p = .ok (a, t')) (ha : ∀ i, a ≠ .conflict i) :
    t'.knowsPath p ∧ ∀ q, t.knowsPath q → t'.knowsPath q := by
  unfold load at h
  split at h
  next hp =>
    cases h
    exact ⟨hp, fun q hq => hq⟩
  · obtain ⟨m, hm, hacc⟩ := Except.map_eq_ok_iff.1 h
    have hindex (u : ModuleTable) (hu : u.origins = (t.index m).origins) :
        u.knowsPath p ∧ ∀ q, t.knowsPath q → u.knowsPath q := by
      have hk (q : Path) :
          u.knowsPath q = (q.components == m.path.components || t.knowsPath q) := by
        rw [← knowsPath_index, knowsPath, knowsPath, originOf?, originOf?, hu]
      refine ⟨?_, fun q hq => by rw [hk, hq, Bool.or_true]⟩
      rw [hk, ModuleFile.path_load hm, BEq.rfl, Bool.true_or]
    unfold accept at hacc
    split at hacc
    · split at hacc
      · cases hacc
        exact hindex _ rfl
      next held _ _ =>
        cases hacc
        exact absurd rfl (ha held.identity)
    · cases hacc
      exact hindex _ rfl

end ModuleTable

namespace Engine

theorem knowsPath_loadReferences {files : FileTree} {t t' : ModuleTable} {paths : List Path}
    (h : loadReferences files t paths = .ok t') :
    (∀ p ∈ paths, t'.knowsPath p) ∧ ∀ q, t.knowsPath q → t'.knowsPath q := by
  induction paths generalizing t with
  | nil =>
    cases h
    exact ⟨nofun, fun q hq => hq⟩
  | cons p rest ih =>
    rw [loadReferences] at h
    split at h
    · cases h
    · cases h
    next a u hnot hload =>
      obtain ⟨hrest, hmono⟩ := ih h
      obtain ⟨hp, hmono'⟩ := ModuleTable.knowsPath_load hload fun i hi => by
        exact hnot i hi
      exact ⟨List.forall_mem_cons.2 ⟨hmono p hp, hrest⟩, fun q hq => hmono q (hmono' q hq)⟩

theorem loadReferences_of_knowsPath {files : FileTree} {t : ModuleTable} {paths : List Path}
    (h : ∀ p ∈ paths, t.knowsPath p) : loadReferences files t paths = .ok t := by
  induction paths with
  | nil => rfl
  | cons p rest ih =>
    obtain ⟨hp, hrest⟩ := List.forall_mem_cons.1 h
    rw [loadReferences, ModuleTable.load, if_pos hp]
    exact ih hrest

theorem loadReferences_idem {files : FileTree} {t t' : ModuleTable} {paths : List Path}
    (h : loadReferences files t paths = .ok t') : loadReferences files t' paths = .ok t' :=
  loadReferences_of_knowsPath (knowsPath_loadReferences h).1

end Engine

namespace Names

theorem contains_extend (s : Names) (names : List String) (name : String) :
    name ∈ s.extend names ↔ name ∈ s ∨ name ∈ names := by
  induction names generalizing s with
  | nil => simp [extend]
  | cons n names ih =>
    have hstep : s.extend (n :: names) = Names.extend (s.insert n) names := rfl
    rw [hstep, ih, Std.ExtTreeSet.mem_insert, List.mem_cons, Std.LawfulEqCmp.compare_eq_iff_eq,
      or_assoc, or_left_comm, eq_comm]

theorem extend_of_mem {s : Names} {names : List String} (h : ∀ name ∈ names, name ∈ s) :
    s.extend names = s := by
  apply Std.ExtTreeSet.ext_mem
  intro name
  rw [contains_extend]
  exact ⟨fun hn => hn.elim id (h name), .inl⟩

theorem mem_sorted {s : Names} {name : String} : name ∈ s.sorted ↔ name ∈ s :=
  Std.ExtTreeSet.mem_toList

end Names
end ScriptSession
