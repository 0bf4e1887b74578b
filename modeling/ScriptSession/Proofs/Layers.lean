import ScriptSession.Proofs.Growth

namespace ScriptSession

namespace ReferenceService

/-- Adds a layer to some, unless one of them has its reference directory. -/
def addLayer (layers : List Layer) (layer : Layer) : List Layer :=
  if layer.referenceDir ∈ layers.map (·.referenceDir) then layers else layers ++ [layer]

/-- Of the layers of all frameworks, as they were loaded, the first with each reference
directory. -/
def layers (s : ReferenceService) : List Layer :=
  s.frameworks.flatten.foldl addLayer []

section AddLayer

variable {known rest : List Layer} {layer first : Layer}

theorem addLayer_of_mem (h : layer.referenceDir ∈ known.map (·.referenceDir)) :
    addLayer known layer = known :=
  if_pos h

theorem addLayer_of_notMem (h : layer.referenceDir ∉ known.map (·.referenceDir)) :
    addLayer known layer = known ++ [layer] :=
  if_neg h

/-- Of layers with one reference directory the first is taken. -/
theorem mem_foldl_addLayer_of_find? {dir : Key}
    (h : (known ++ rest).find? (·.referenceDir = dir) = some first) :
    first ∈ rest.foldl addLayer known := by
  induction rest generalizing known with
  | nil =>
    rw [List.append_nil] at h
    exact List.mem_of_find?_eq_some h
  | cons layer rest ih =>
    rw [List.foldl_cons]
    by_cases hknown : layer.referenceDir ∈ known.map (·.referenceDir)
    · rw [addLayer_of_mem hknown]
      apply ih
      rw [List.find?_append] at h ⊢
      cases hfound : known.find? (·.referenceDir = dir) with
      | some l =>
        rw [hfound] at h
        exact h
      | none =>
        rw [hfound, Option.none_or] at h
        rw [Option.none_or]
        obtain ⟨l, hl, hdir⟩ := List.mem_map.1 hknown
        have hother : ¬ layer.referenceDir = dir := by
          rw [← hdir]
          simpa using List.find?_eq_none.1 hfound l hl
        rwa [List.find?_cons_of_neg (by simpa using hother)] at h
    · rw [addLayer_of_notMem hknown]
      apply ih
      rwa [List.append_assoc]

end AddLayer

section Accumulates

theorem wellFormed_record (s : ReferenceService) (as : List Artifact)
    (h : s.execution.WellFormed) : (s.record as).2.execution.WellFormed := by
  induction as generalizing s with
  | nil => exact h
  | cons a as ih =>
    rw [record_cons]
    exact ih _ (h.insertNew a)

theorem accumulates_serve (s : ReferenceService) (c : ServiceCall) : s.Accumulates (s.serve c) := by
  obtain ⟨files, request⟩ := c
  cases request with
  | load framework paths =>
    obtain hserve | ⟨layers, -, hserve⟩ := s.serve_load files framework paths
    · rw [hserve]
      exact .refl s
    · rw [hserve]
      have h := s.accumulates_registers layers
      exact ⟨h.execution, h.analysis, h.executionOnlyDirs, fun hw =>
        ⟨(h.wellFormed hw).execution, (h.wellFormed hw).analysis⟩⟩
  | reconcile artifacts =>
    have hgrows := grows_reconcile files s artifacts
    have hexecution := execution_reconcile files s artifacts
    have hlayers := sameLayers_reconcile files s artifacts
    change s.Accumulates (s.reconcile files artifacts).2
    constructor
    · rw [hexecution]
    · exact hgrows.analysis
    · rw [hlayers.executionOnlyDirs]
    · intro hw
      refine ⟨?_, hgrows.wellFormed hw.analysis⟩
      rw [hexecution]
      exact hw.execution
  | record artifacts =>
    have hkeeps := keeps_record s artifacts
    have hlayers := sameLayers_record s artifacts
    change s.Accumulates (s.record artifacts).2
    constructor
    · exact s.execution_record artifacts
    · rw [hkeeps.2]
    · rw [hlayers.executionOnlyDirs]
    · intro hw
      refine ⟨s.wellFormed_record artifacts hw.execution, ?_⟩
      rw [hkeeps.2]
      exact hw.analysis
  | find shortName =>
    obtain ⟨n, hn⟩ := s.exists_counted_of_serve_find files shortName
    rw [hn]
    exact ⟨List.prefix_rfl, List.prefix_rfl, List.prefix_rfl, fun hw => ⟨hw.execution, hw.analysis⟩⟩

theorem accumulates_after (s : ReferenceService) (calls : List ServiceCall) :
    s.Accumulates (s.after calls) := by
  induction calls generalizing s with
  | nil => exact .refl s
  | cons c rest ih => exact (s.accumulates_serve c).trans (ih _)

end Accumulates

/-- Whether the directories and the index of a service are those of some layers, and it has all
that these bring. -/
structure Registered (s : ReferenceService) (layers : List Layer) : Prop where
  referenceDirs : s.referenceDirs = layers.map (·.referenceDir)
  executionOnlyDirs : s.executionOnlyDirs = layers.map (·.executionDir)
  index : s.index = layers.flatMap indexOf
  seeded : ∀ layer ∈ layers, s.Seeded layer
  wellFormed : s.WellFormed

section Registered

variable {s t : ReferenceService} {known layers : List Layer} {layer : Layer}

theorem registered_empty : empty.Registered [] :=
  ⟨rfl, rfl, rfl, List.forall_mem_nil _, wellFormed_empty⟩

theorem SameLayers.registered (h : s.SameLayers t) (ha : s.Accumulates t)
    (hs : s.Registered layers) : t.Registered layers := by
  constructor
  · rw [h.referenceDirs, hs.referenceDirs]
  · rw [h.executionOnlyDirs, hs.executionOnlyDirs]
  · rw [h.index, hs.index]
  · intro layer hlayer
    exact (hs.seeded layer hlayer).mono ha
  · exact ha.wellFormed hs.wellFormed

theorem Registered.register (h : s.Registered known) (hfiled : layer.Filed) :
    (s.register layer).Registered (addLayer known layer) := by
  by_cases hnew : layer.referenceDir ∈ s.referenceDirs
  · have hsame : s.register layer = s := if_pos hnew
    rw [h.referenceDirs] at hnew
    rw [hsame, addLayer_of_mem hnew]
    exact h
  · have hseeded := Seeded.register h.wellFormed hfiled hnew
    have hacc := s.accumulates_register layer
    have hadded : s.register layer = { s with
        referenceDirs := s.referenceDirs ++ [layer.referenceDir]
        executionOnlyDirs := s.executionOnlyDirs ++ [layer.executionDir]
        executionDirs := s.executionDirs ++ [layer.executionDir]
        index := s.index ++ indexOf layer
        analysis := s.analysis.extend layer.references.items
        execution := s.execution.extend layer.executables.items } := if_neg hnew
    rw [h.referenceDirs] at hnew
    rw [addLayer_of_notMem hnew]
    constructor
    · rw [hadded, List.map_append, ← h.referenceDirs]
      rfl
    · rw [hadded, List.map_append, ← h.executionOnlyDirs]
      rfl
    · rw [hadded, List.flatMap_append, ← h.index, List.flatMap_singleton]
    · intro l hl
      obtain hl | hl := List.mem_append.1 hl
      · exact (h.seeded l hl).mono hacc
      · rw [List.mem_singleton.1 hl]
        exact hseeded
    · exact hacc.wellFormed h.wellFormed

theorem Registered.registers (h : s.Registered known) (hfiled : ∀ layer ∈ layers, layer.Filed) :
    (layers.foldl ReferenceService.register s).Registered (layers.foldl addLayer known) := by
  induction layers generalizing s known with
  | nil => exact h
  | cons layer rest ih =>
    obtain ⟨hfirst, hrest⟩ := List.forall_mem_cons.1 hfiled
    exact ih (h.register hfirst) hrest

theorem layers_load (s : ReferenceService) (layers : List Layer) :
    ReferenceService.layers { layers.foldl register s with
      frameworks := (layers.foldl register s).frameworks ++ [layers] } =
    layers.foldl addLayer s.layers := by
  unfold ReferenceService.layers
  dsimp only
  rw [(s.grows_registers layers).frameworks, List.flatten_append, List.foldl_append,
    List.flatten_singleton]

theorem Registered.load (h : s.Registered s.layers) {files : FileTree}
    {request : FrameworkRequest} {paths : SearchPaths}
    (hload : s.loadFramework files request paths = .ok (layers, t)) :
    t.layers = layers.foldl addLayer s.layers ∧ t.Registered t.layers := by
  obtain ⟨hdiscover, rfl⟩ := loadFramework_eq_ok hload
  have hregistered := h.registers (Framework.filed_of_discover hdiscover)
  rw [layers_load]
  exact ⟨rfl, hregistered.referenceDirs, hregistered.executionOnlyDirs, hregistered.index,
    fun layer hlayer =>
      let hseeded := hregistered.seeded layer hlayer
      ⟨hseeded.execution, hseeded.analysis, hseeded.executionOnly⟩,
    ⟨hregistered.wellFormed.execution, hregistered.wellFormed.analysis⟩⟩

theorem frameworks_serve (s : ReferenceService) {c : ServiceCall} (h : ¬ c.loads) :
    (s.serve c).frameworks = s.frameworks := by
  obtain ⟨files, request⟩ := c
  cases request with
  | load => exact absurd rfl h
  | reconcile artifacts => exact (grows_reconcile files s artifacts).frameworks
  | record artifacts => exact (keeps_record s artifacts).1
  | find shortName =>
    obtain ⟨n, hn⟩ := s.exists_counted_of_serve_find files shortName
    rw [hn]
    rfl

theorem registered_serve (h : s.Registered s.layers) (c : ServiceCall) :
    (s.serve c).Registered (s.serve c).layers := by
  by_cases hc : c.loads
  · obtain ⟨files, request⟩ := c
    cases request with
    | load framework paths =>
      unfold serve
      dsimp only
      split
      next hload => exact (h.load hload).2
      next => exact h
    | reconcile | record | find => cases hc
  · have hlayers : (s.serve c).layers = s.layers := by
      unfold ReferenceService.layers
      rw [s.frameworks_serve hc]
    rw [hlayers]
    exact (s.sameLayers_serve hc).registered (s.accumulates_serve c) h

theorem Registered.after (h : s.Registered s.layers) (run : List ServiceCall) :
    (s.after run).Registered (s.after run).layers := by
  induction run generalizing s with
  | nil => exact h
  | cons c rest ih => exact ih (registered_serve h c)

/-- What a service knows of frameworks is what it took from its layers. -/
theorem registered_after (run : List ServiceCall) :
    (empty.after run).Registered (empty.after run).layers :=
  Registered.after registered_empty run

end Registered

end ReferenceService
end ScriptSession
