import ScriptSession.Proofs.Priority

namespace ScriptSession.ReferenceService

variable {s t : ReferenceService} {layers : List Layer} {layer : Layer} {files : FileTree}
  {request : FrameworkRequest} {paths : SearchPaths}

theorem find?_referenceDir (hs : s.Registered s.layers) (hlayer : layer ∈ layers)
    (hnew : layer.referenceDir ∉ s.referenceDirs) (hnodup : (layers.map (·.referenceDir)).Nodup) :
    (s.layers ++ layers).find? (·.referenceDir = layer.referenceDir) = some layer := by
  have hold : s.layers.find? (·.referenceDir = layer.referenceDir) = none := by
    rw [List.find?_eq_none]
    intro l hl hdir
    rw [hs.referenceDirs] at hnew
    exact hnew (List.mem_map.2 ⟨l, hl, of_decide_eq_true hdir⟩)
  rw [List.find?_append, hold, Option.none_or]
  exact Layer.leads_of_nodup hnodup layer hlayer

/-- Whether nothing stands for an artifact at a key but, perhaps, the artifact itself: no reference
directory holds it, and no registered layer has a counterpart of it. -/
structure Unmatched (s : ReferenceService) (files : FileTree) (k : Key) (a : Artifact) : Prop where
  reference : ∀ l ∈ s.layers, ¬ k.isUnder l.referenceDir
  counterpart : ∀ i l r, a.identity.or (Identity.read? files k.path) = some i →
    ¬ s.Counterpart k i l r

theorem Unmatched.classify {a : Artifact} {k : Key} (h : s.Unmatched files k a)
    (hs : s.Registered s.layers) (hk : k.Proper) (hlayer : layer.executionDir ∈ s.executionOnlyDirs)
    (hunder : k.isUnder layer.executionDir) : (s.classify files k a).1 = .dropped := by
  have hsettles := settles_classify files hs hk a
  generalize (s.classify files k a).1 = outcome at hsettles
  generalize (s.classify files k a).2 = probes at hsettles
  cases hsettles with
  | source hl hk => exact absurd hk (h.reference _ hl)
  | promoted _ hi hr => exact absurd hr (h.counterpart _ _ _ hi)
  | dropped => rfl
  | synthesized _ _ hexecution _ =>
    rw [hs.executionOnlyDirs] at hlayer
    obtain ⟨l, hl, hdir⟩ := List.mem_map.1 hlayer
    rw [← hdir] at hunder
    exact absurd hunder (hexecution l hl)

/-- A module in the execution directory of a seeded layer that nothing stands for is dropped for
good. -/
theorem Seeded.drops (h : s.Seeded layer) (hs : s.Registered s.layers) {a : Artifact} {p : Path}
    (hkey : a.key = some (.ofPath p)) (hunder : (Key.ofPath p).isUnder layer.executionDir)
    (hnew : ¬ s.Decided (.ofPath p)) (hunmatched : s.Unmatched files (.ofPath p) a) :
    let v := (s.reconcile files [a]).2
    (s.reconcile files [a]).1.items = [] ∧ v.analysis = s.analysis ∧
      ∀ (more : List ServiceCall) (b : Artifact), b.key = some (.ofPath p) →
        (v.after more).decision b = none := by
  intro v
  have hdropped : (s.classify files (.ofPath p) a).1 = .dropped :=
    hunmatched.classify hs (Key.proper_ofPath p) h.executionOnly hunder
  have hone := reconcile_of_new files hkey hnew
  rw [hdropped] at hone
  have hv : v.cache = s.cache ++ [(.ofPath p, .dropped)] := by
    change (s.reconcile files [a]).2.cache = _
    rw [hone]
  refine ⟨?_, ?_, fun more b hb => ?_⟩
  · rw [hone]
    rfl
  · change (s.reconcile files [a]).2.analysis = _
    rw [hone]
    rfl
  · have hdecided : v.Decided (.ofPath p) := by
      apply decided_iff.2
      exact ⟨(.ofPath p, .dropped), hv ▸ List.mem_append_right _ (List.mem_singleton_self _), rfl⟩
    have hfresh : s.cache.lookup (.ofPath p) = none := Option.not_isSome_iff_eq_none.1 hnew
    have hdecision : v.decision b = none := by
      rw [decision_of_key v hb, hv, List.lookup_append, hfresh, Option.none_or,
        List.lookup_cons_self]
      rfl
    -- what is decided once is decided alike after every later call
    rw [(v.upholds_after more).decision fun k hk => ?_, hdecision]
    cases hb.symm.trans hk
    exact hdecided

/-- Loading a framework seeds, of all layers that were loaded with the reference directory of one of
its layers, the first. That is the layer itself if its reference directory was not known. The first
one stays seeded, and a module in its execution directory that was not decided and that nothing
stands for is dropped for good. -/
theorem load_seeds_first_layers (run : List ServiceCall)
    (h : (empty.after run).loadFramework files request paths = .ok (layers, t)) :
    let s := empty.after run
    ∀ layer ∈ layers, ∃ first,
      (s.layers ++ layers).find? (·.referenceDir = layer.referenceDir) = some first ∧
      (layer.referenceDir ∉ s.referenceDirs → files.ProperNames → '/' ∉ request.name.toList →
        first = layer) ∧
      ∀ later : List ServiceCall,
        let u := t.after later
        u.Seeded first ∧
        ∀ (files' : FileTree) (a : Artifact) (p : Path), a.key = some (.ofPath p) →
          (Key.ofPath p).isUnder first.executionDir → ¬ u.Decided (.ofPath p) →
          u.Unmatched files' (.ofPath p) a →
          let v := (u.reconcile files' [a]).2
          (u.reconcile files' [a]).1.items = [] ∧ v.analysis = u.analysis ∧
          ∀ (more : List ServiceCall) (b : Artifact), b.key = some (.ofPath p) →
            (v.after more).decision b = none := by
  intro s layer hlayer
  have hs : s.Registered s.layers := registered_after run
  obtain ⟨hlayers, ht⟩ := hs.load h
  obtain ⟨hdiscover, -⟩ := loadFramework_eq_ok h
  have hsome : ((s.layers ++ layers).find? (·.referenceDir = layer.referenceDir)).isSome := by
    rw [List.find?_isSome]
    exact ⟨layer, List.mem_append_right _ hlayer, decide_eq_true rfl⟩
  obtain ⟨first, hfirst⟩ := Option.isSome_iff_exists.1 hsome
  refine ⟨first, hfirst, fun hnew hnames hname => ?_, fun later => ?_⟩
  · have hnodup := Framework.nodup_referenceDirs hnames hname hdiscover
    rw [find?_referenceDir hs hlayer hnew hnodup] at hfirst
    exact (Option.some.inj hfirst).symm
  · have hmem : first ∈ t.layers := by
      rw [hlayers]
      exact mem_foldl_addLayer_of_find? hfirst
    have hseeded : (t.after later).Seeded first :=
      (ht.seeded first hmem).mono (t.accumulates_after later)
    refine ⟨hseeded, fun files' a p hkey hunder hnew hunmatched => ?_⟩
    exact hseeded.drops (ht.after later) hkey hunder hnew hunmatched

/-- The layer of a base framework that is loaded into an empty service is seeded, and its execution
module, which nothing stands for, is dropped. -/
theorem seeding_of_base :
    let files := (Session.stocked "kmod B, Version=1.0").files
    let internal := Artifact.ofFile ⟨"/s/shared/Kiln.Core/1.0/b.dll"⟩ .executionOnly
    ∃ layers t, (empty.after []).loadFramework files .base ⟨[⟨"/s"⟩], none⟩ = .ok (layers, t) ∧
      layers.map (fun l => (l.references.size, l.executables.size)) = [(1, 1)] ∧
      (t.reconcile files [internal]).1.items = [] ∧ ∀ layer ∈ layers, t.Seeded layer := by
  intro files internal
  have hruns : ((empty.after []).loadFramework files .base ⟨[⟨"/s"⟩], none⟩).toOption.map
      (fun (layers, t) => (layers.map fun l => (l.references.size, l.executables.size),
        (t.reconcile files [internal]).1.items)) = some ([(1, 1)], []) := by decide +kernel
  rcases hload : (empty.after []).loadFramework files .base ⟨[⟨"/s"⟩], none⟩ with _ | ⟨layers, t⟩
  · rw [hload] at hruns
    cases hruns
  · rw [hload] at hruns
    obtain ⟨hlayers, hdropped⟩ := Prod.mk.inj (Option.some.inj hruns)
    refine ⟨layers, t, rfl, hlayers, hdropped, fun layer hlayer => ?_⟩
    obtain ⟨first, -, hself, hstays⟩ := load_seeds_first_layers [] hload layer hlayer
    have hfirst : first = layer := hself nofun (by decide +kernel) (by decide)
    rw [← hfirst]
    exact (hstays []).1

/-- A newer runtime that is found with the reference modules that are known is not seeded: execution
lacks its module, its directory is not for execution only, and the module is brought to analysis. -/
theorem load_misses_newer_runtime :
    let updated := { Host.small.files with
      entries := Host.small.files.entries ++
        [(["s", "shared", "Kiln.Core", "1.0.1"], Node.dir),
          (["s", "shared", "Kiln.Core", "1.0.1", "b.dll"], .file "kmod B, Version=1.0".toUTF8)] }
    let s := empty.after [⟨Host.small.files, .load .base ⟨[⟨"/s"⟩], none⟩⟩]
    let internal := Artifact.ofFile ⟨"/s/shared/Kiln.Core/1.0.1/b.dll"⟩ .executionOnly
    ∃ layer t, s.loadFramework updated .base ⟨[⟨"/s"⟩], none⟩ = .ok ([layer], t) ∧
      layer.executables.paths.map some = [internal.key] ∧ t.execution.items = [] ∧
      layer.executionDir ∉ t.executionOnlyDirs ∧ ¬ t.Seeded layer ∧
      (t.reconcile updated [internal]).1.items =
        [{ internal with role := .both, identity := some ⟨"B", "1.0"⟩ }] := by
  intro updated s internal
  have hruns : (s.loadFramework updated .base ⟨[⟨"/s"⟩], none⟩).toOption.map
      (fun (layers, t) => (layers.map fun l =>
        (l.executables.paths.map some, decide (l.executionDir ∈ t.executionOnlyDirs)),
        t.execution.items, (t.reconcile updated [internal]).1.items)) =
      some ([([internal.key], false)], [],
        [{ internal with role := .both, identity := some ⟨"B", "1.0"⟩ }]) := by decide +kernel
  rcases hload : s.loadFramework updated .base ⟨[⟨"/s"⟩], none⟩ with _ | ⟨layers, t⟩
  · rw [hload] at hruns
    cases hruns
  · rw [hload] at hruns
    obtain ⟨hlayers, hrest⟩ := Prod.mk.inj (Option.some.inj hruns)
    obtain ⟨hexecution, hfound⟩ := Prod.mk.inj hrest
    obtain ⟨layer, rfl, hlayer⟩ := List.map_eq_singleton_iff.1 hlayers
    obtain ⟨hmodules, hdir⟩ := Prod.mk.inj hlayer
    have hdir : layer.executionDir ∉ t.executionOnlyDirs := of_decide_eq_false hdir
    exact ⟨layer, t, rfl, hmodules, hexecution, hdir, fun hseeded => hdir hseeded.executionOnly,
      hfound⟩

end ScriptSession.ReferenceService
