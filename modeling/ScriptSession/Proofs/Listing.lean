import ScriptSession.Proofs.Framework

namespace ScriptSession

namespace Component

theorem compare_eq (c d : Component) :
    compare c d = (compare c.rank d.rank).then (compare c.label d.label) :=
  rfl

instance : Std.TransOrd Component :=
  inferInstanceAs (Std.TransCmp (compareLex (compareOn rank) (compareOn label)))

instance : Std.LawfulEqOrd Component where
  eq_of_compare {c d} h := by
    rw [compare_eq, Ordering.then_eq_eq, Std.LawfulEqOrd.compare_eq_iff_eq,
      Std.LawfulEqOrd.compare_eq_iff_eq] at h
    cases c <;> cases d <;> simp_all [rank, label]

end Component

namespace Path

theorem pairwise_mergeSort (ps : List Path) :
    (ps.mergeSort le).Pairwise fun p q => p.le q = true := by
  have htrans (p q r : Path) (hpq : p.le q) (hqr : q.le r) : p.le r :=
    Std.TransOrd.isLE_trans hpq hqr
  have htotal (p q : Path) : (p.le q || q.le p) = true := by
    unfold le
    rw [Std.OrientedOrd.eq_swap (a := q.components)]
    cases compare p.components q.components <;> rfl
  exact List.pairwise_mergeSort htrans htotal ps

/-- Paths with components of their own are sorted in one way. -/
theorem mergeSort_perm {ps qs : List Path} (h : ps.Perm qs)
    (hinj : ∀ p ∈ ps, ∀ q ∈ ps, p.components = q.components → p = q) :
    ps.mergeSort le = qs.mergeSort le := by
  have hsorted := (List.mergeSort_perm ps le).trans (h.trans (List.mergeSort_perm qs le).symm)
  refine List.Perm.eq_of_pairwise ?_ (pairwise_mergeSort ps) (pairwise_mergeSort qs) hsorted
  intro p q hp hq hpq hqp
  have hp' : p ∈ ps := List.mem_mergeSort.1 hp
  have hq' : q ∈ ps := h.mem_iff.2 (List.mem_mergeSort.1 hq)
  exact hinj p hp' q hq'
    (Std.LawfulEqOrd.eq_of_compare (Std.OrientedCmp.isLE_antisymm hpq hqp))

end Path

theorem lookup_eq_some_iff_mem {α β : Type} [BEq α] [LawfulBEq α] {entries : List (α × β)}
    (h : (entries.map (·.1)).Nodup) {a : α} {b : β} :
    entries.lookup a = some b ↔ (a, b) ∈ entries := by
  rw [List.lookup_eq_some_iff]
  constructor
  · rintro ⟨front, rest, rfl, -⟩
    exact List.mem_append_right _ List.mem_cons_self
  · intro hm
    obtain ⟨front, rest, rfl⟩ := List.append_of_mem hm
    refine ⟨front, rest, rfl, fun e he => ?_⟩
    rw [List.map_append, List.map_cons] at h
    have hdisjoint := List.disjoint_of_nodup_append h
    exact bne_iff_ne.2 fun heq => hdisjoint (List.mem_map_of_mem he) (heq ▸ List.mem_cons_self)

namespace FileTree

/-- Whether every place of a tree holds one node, below names that paths can lead through. -/
structure WellFormed (t : FileTree) : Prop where
  nodup : (t.entries.map (·.1)).Nodup
  names : ∀ e ∈ t.entries, ∀ name ∈ e.1, Path.IsName name

/-- Whether two trees differ at most in the order in which directories list their entries. -/
structure Reorders (t t' : FileTree) : Prop where
  cwd : t.cwd = t'.cwd
  entries : t.entries.Perm t'.entries

variable {t t' : FileTree}

theorem Reorders.node? (h : t.Reorders t') (hw : t.WellFormed) : t.node? = t'.node? := by
  have hw' : (t'.entries.map (·.1)).Nodup := (h.entries.map _).nodup_iff.1 hw.nodup
  funext loc
  unfold FileTree.node?
  split
  · rfl
  · refine Option.ext fun n => ?_
    rw [lookup_eq_some_iff_mem hw.nodup, lookup_eq_some_iff_mem hw', h.entries.mem_iff]

theorem Reorders.locate (h : t.Reorders t') (hw : t.WellFormed) : t.locate = t'.locate := by
  have hfollow : t.follow = t'.follow := by
    funext loc part
    unfold follow isDirAt
    rw [h.node? hw]
  funext p
  simp only [FileTree.locate, hfollow, h.cwd]

theorem Reorders.find (h : t.Reorders t') (hw : t.WellFormed) : t.find = t'.find := by
  funext p
  simp only [FileTree.find, h.locate hw, h.node? hw]

theorem Reorders.isFile (h : t.Reorders t') (hw : t.WellFormed) : t.isFile = t'.isFile := by
  funext p
  simp only [FileTree.isFile, h.find hw]

theorem Reorders.isDir (h : t.Reorders t') (hw : t.WellFormed) : t.isDir = t'.isDir := by
  funext p
  simp only [FileTree.isDir, h.find hw]

theorem Reorders.read? (h : t.Reorders t') (hw : t.WellFormed) :
    Identity.read? t = Identity.read? t' := by
  funext p
  simp only [Identity.read?, readFirstLine, readBytes, h.find hw]

theorem Reorders.documentation? (h : t.Reorders t') (hw : t.WellFormed) :
    ModuleFile.documentation? t = ModuleFile.documentation? t' := by
  funext p
  simp only [ModuleFile.documentation?, h.isFile hw]

theorem Reorders.list_cases (h : t.Reorders t') (hw : t.WellFormed) (p : Path) :
    (∃ e, t.list p = .error e ∧ t'.list p = .error e) ∨
      ∃ children children', t.list p = .ok children ∧ t'.list p = .ok children' ∧
        children.Perm children' := by
  unfold FileTree.list isDirAt
  rw [h.locate hw, h.node? hw]
  cases t'.locate p with
  | error e => exact .inl ⟨e, rfl, rfl⟩
  | ok loc =>
    dsimp only [bind, Except.bind]
    split
    · exact .inr ⟨_, _, rfl, rfl, h.entries.filterMap _⟩
    · exact .inl ⟨_, rfl, rfl⟩

theorem WellFormed.isName_of_list (h : t.WellFormed) {p : Path} {children : List (String × Node)}
    (hlist : t.list p = .ok children) {name : String} {node : Node}
    (hchild : (name, node) ∈ children) : Path.IsName name := by
  obtain ⟨place, hentry, hname⟩ := exists_entry_of_list hlist hchild
  exact h.names _ hentry name hname

end FileTree

namespace Framework

variable {files files' : FileTree}

theorem versionNames_perm (h : files.Reorders files') (hw : files.WellFormed) (dir : Path) :
    (versionNames files dir).Perm (versionNames files' dir) := by
  unfold versionNames FileTree.listDirs
  obtain ⟨e, he, he'⟩ | ⟨children, children', hlist, hlist', hperm⟩ := h.list_cases hw dir
  · rw [he, he']
  · rw [hlist, hlist']
    exact hperm.filterMap _

theorem modulesIn_reorders (h : files.Reorders files') (hw : files.WellFormed) (dir : Path)
    (role : Role) : modulesIn files dir role = modulesIn files' dir role := by
  unfold modulesIn
  rw [h.read? hw, h.documentation? hw, h.isFile hw]
  obtain ⟨e, he, he'⟩ | ⟨children, children', hlist, hlist', hperm⟩ := h.list_cases hw dir
  · rw [he, he']
  · -- names are told apart by the last components of their paths, so the sort has no choice
    have hcandidates := ((hperm.map fun child => dir / child.1).filter fun p =>
      files'.isFile p && ModuleFile.hasExtension p)
    have hsort := Path.mergeSort_perm hcandidates ?_
    · rw [hlist, hlist']
      dsimp only [Except.mapError, bind, Except.bind]
      rw [hsort]
    · intro p hp q hq heq
      obtain ⟨⟨name, _⟩, hchild, rfl⟩ := List.mem_map.1 (List.mem_filter.1 hp).1
      obtain ⟨⟨name', _⟩, hchild', rfl⟩ := List.mem_map.1 (List.mem_filter.1 hq).1
      rw [Path.components_div dir (hw.isName_of_list hlist hchild),
        Path.components_div dir (hw.isName_of_list hlist hchild')] at heq
      obtain ⟨-, hlast⟩ := List.append_inj' heq rfl
      cases hlast
      rfl

end Framework
end ScriptSession
