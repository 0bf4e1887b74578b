import ScriptSession.Proofs.Isolation

namespace ScriptSession

def Artifact.Proper (a : Artifact) : Prop :=
  ∀ k, a.key = some k → k.Proper

theorem Artifact.proper_of_path {a : Artifact} {p : Path} (h : a.key = some (.ofPath p)) :
    a.Proper := by
  intro k hk
  cases h.symm.trans hk
  exact Key.proper_ofPath p

namespace ArtifactSet

def Proper (s : ArtifactSet) : Prop :=
  ∀ a ∈ s.items, a.Proper

theorem Proper.extend {s : ArtifactSet} (h : s.Proper) {as : List Artifact}
    (has : ∀ a ∈ as, a.Proper) : (s.extend as).Proper := by
  intro a ha
  exact (mem_of_mem_extend ha).elim (h a) (has a)

theorem Proper.insertNew {s : ArtifactSet} (h : s.Proper) {a : Artifact} (ha : a.Proper) :
    (s.insertNew a).2.Proper := by
  have hextend : (s.extend [a]).Proper := h.extend (List.forall_mem_singleton.2 ha)
  rwa [extend_cons] at hextend

end ArtifactSet

structure Layer.Proper (l : Layer) : Prop where
  references : l.references.Proper
  roles : ∀ a ∈ l.references.items, a.role = .analysisOnly
  executables : l.executables.Proper

theorem Framework.proper_of_mem_modulesIn {files : FileTree} {dir : Path} {role : Role}
    {modules : ArtifactSet} (h : modulesIn files dir role = .ok modules) : modules.Proper := by
  intro a ha
  obtain ⟨⟨p, hp⟩, -⟩ := exists_path_of_mem_modulesIn h ha
  exact Artifact.proper_of_path hp

theorem Framework.proper_of_discover {files : FileTree} {request : FrameworkRequest}
    {paths : SearchPaths} {layers : List Layer} (h : discover files request paths = .ok layers) :
    ∀ layer ∈ layers, layer.Proper := by
  intro layer hlayer
  obtain ⟨_, _, _, hmakes⟩ := exists_site_of_mem_discover h layer hlayer
  constructor
  · exact proper_of_mem_modulesIn hmakes.references
  · intro a ha
    exact (exists_path_of_mem_modulesIn hmakes.references ha).2
  · exact proper_of_mem_modulesIn hmakes.executables

def Artifact.StandsFor (a : Artifact) (keys : List (Option Key)) : Prop :=
  a.Proper ∧ (a.role = .analysisOnly ∨ a.key ∈ keys)

def Reconciled.StandsFor (r : Reconciled) (k : Key) : Prop :=
  ∀ a, r.artifact? = some a → a.StandsFor [some k]

namespace ReferenceService

def Decided (s : ReferenceService) (k : Key) : Prop :=
  (s.cache.lookup k).isSome

theorem decided_iff {s : ReferenceService} {k : Key} : s.Decided k ↔ ∃ e ∈ s.cache, k = e.1 := by
  unfold Decided
  rw [List.lookup_isSome_iff]
  simp only [beq_iff_eq]

theorem mem_cache_of_lookup {s : ReferenceService} {k : Key} {r : Reconciled}
    (h : s.cache.lookup k = some r) : (k, r) ∈ s.cache := by
  obtain ⟨before, behind, hcache, -⟩ := List.lookup_eq_some_iff.1 h
  rw [hcache]
  exact List.mem_append_right _ List.mem_cons_self

theorem mem_references_of_indexOf {layer : Layer} {r : IndexedReference} (h : r ∈ indexOf layer) :
    r.artifact ∈ layer.references.items := by
  obtain ⟨a, ha, hr⟩ := List.mem_filterMap.1 h
  obtain ⟨name, -, rfl⟩ := Option.map_eq_some_iff.1 hr
  exact ha

/-- Whether a service hands out proper artifacts only, and for a key only what may stand for it. -/
structure Sound (s : ReferenceService) : Prop where
  execution : s.execution.Proper
  index : ∀ r ∈ s.index, r.artifact.Proper ∧ r.artifact.role = .analysisOnly
  cache : ∀ e ∈ s.cache, e.2.StandsFor e.1

theorem sound_empty : empty.Sound :=
  ⟨List.forall_mem_nil _, List.forall_mem_nil _, List.forall_mem_nil _⟩

theorem Sound.counted {s : ReferenceService} (h : s.Sound) (n : Nat) : (s.counted n).Sound :=
  ⟨h.execution, h.index, h.cache⟩

section Framework

theorem Sound.register {s : ReferenceService} (h : s.Sound) {layer : Layer} (hl : layer.Proper) :
    (s.register layer).Sound := by
  have hindex : ∀ r ∈ indexOf layer, r.artifact.Proper ∧ r.artifact.role = .analysisOnly := by
    intro r hr
    have ha := mem_references_of_indexOf hr
    exact ⟨hl.references _ ha, hl.roles _ ha⟩
  unfold ReferenceService.register
  split
  · exact h
  · constructor
    · exact h.execution.extend hl.executables
    · exact List.forall_mem_append.2 ⟨h.index, hindex⟩
    · exact h.cache

theorem Sound.registers {s : ReferenceService} (h : s.Sound) {layers : List Layer}
    (hl : ∀ layer ∈ layers, layer.Proper) : (layers.foldl ReferenceService.register s).Sound := by
  induction layers generalizing s with
  | nil => exact h
  | cons layer rest ih =>
    obtain ⟨hfirst, hrest⟩ := List.forall_mem_cons.1 hl
    exact ih (h.register hfirst) hrest

theorem sound_of_loadFramework {files : FileTree} {request : FrameworkRequest}
    {paths : SearchPaths} {layers : List Layer} {s : ReferenceService}
    (h : empty.loadFramework files request paths = .ok (layers, s)) : s.Sound := by
  obtain ⟨_, hlayers, h⟩ := Except.bind_eq_ok_iff.1 h
  cases h
  have hsound := sound_empty.registers (Framework.proper_of_discover hlayers)
  exact ⟨hsound.execution, hsound.index, hsound.cache⟩

end Framework

variable {files : FileTree} {s t : ReferenceService}

theorem proper_of_searchDirs {stem : String} {dirs : List Key} {a : Artifact}
    (h : (searchDirs files stem dirs).1 = some a) : a.Proper := by
  fun_induction searchDirs files stem dirs with
  | case1 => cases h
  | case2 =>
    cases h
    exact Artifact.proper_of_path rfl
  | case3 _ _ _ _ _ _ hrest ih =>
    rw [hrest] at ih
    exact ih h

theorem Sound.findExecution (hs : s.Sound) {name : String} {a : Artifact}
    (h : s.findExecution files name = (some a, t)) : a.Proper := by
  unfold ReferenceService.findExecution at h
  dsimp only at h
  split at h
  next hknown =>
    cases h
    exact hs.execution a (List.mem_of_find?_eq_some hknown)
  · exact proper_of_searchDirs (Prod.mk.inj h).1

/-- Recording proper artifacts keeps a service sound, decides nothing and takes no probe. -/
theorem Sound.record (hs : s.Sound) {as : List Artifact} (has : ∀ a ∈ as, a.Proper) {new : Nat}
    (h : s.record as = (new, t)) : t.Sound ∧ t.cache = s.cache ∧ t.probes = s.probes := by
  unfold ReferenceService.record at h
  generalize 0 = count at h
  induction as generalizing count s with
  | nil =>
    cases h
    exact ⟨hs, rfl, rfl⟩
  | cons a as ih =>
    obtain ⟨ha, hrest⟩ := List.forall_mem_cons.1 has
    exact ih (s := (s.recordOne a).2) ⟨hs.execution.insertNew ha, hs.index, hs.cache⟩ hrest _ h

section Reconcile

theorem mem_of_best? {k : Key} {rs : List IndexedReference} {r : IndexedReference}
    (h : best? k rs = some r) : r ∈ rs := by
  have hchoice (a b : IndexedReference) : better k a b = a ∨ better k a b = b := by
    unfold better
    dsimp only
    split
    · exact .inl rfl
    · exact .inr rfl
  cases rs with
  | nil => cases h
  | cons r' rs =>
    cases h
    exact mem_foldl_of_choice hchoice r' rs

theorem exists_of_promotion? {k : Key} {identity : Option Identity} {a : Artifact}
    (h : s.promotion? k identity = some a) : ∃ r ∈ s.index, r.artifact = a := by
  obtain ⟨i, -, h⟩ := Option.bind_eq_some_iff.1 h
  obtain ⟨r, hr, rfl⟩ := Option.map_eq_some_iff.1 h
  have hcandidate := mem_of_best? hr
  unfold candidates at hcandidate
  split at hcandidate
  · exact ⟨r, (List.mem_filter.1 hcandidate).1, rfl⟩
  · cases hcandidate

def UnderReference (s : ReferenceService) (k : Key) : Prop :=
  ∃ dir ∈ s.referenceDirs, k.isUnder dir

def UnderExecution (s : ReferenceService) (k : Key) : Prop :=
  ∃ dir ∈ s.executionOnlyDirs, k.isUnder dir

/-- How an artifact with a key can be classified: it is a reference module itself, an indexed one
stands for it, it is an execution module that none stands for, or a new one is made for it. -/
inductive Classified (s : ReferenceService) (k : Key) (a : Artifact) : Reconciled → Prop
  | source : s.UnderReference k → Classified s k a (.analysis a)
  | promoted {r : IndexedReference} : ¬ s.UnderReference k → r ∈ s.index →
      Classified s k a (.analysis r.artifact)
  | dropped : ¬ s.UnderReference k → s.UnderExecution k → Classified s k a .dropped
  | synthesized (documentation : Option Path) (identity : Option Identity) :
      ¬ s.UnderReference k → ¬ s.UnderExecution k →
      Classified s k a (.analysis { key := some k, role := .both, documentation, identity })

theorem classified (files : FileTree) (s : ReferenceService) (k : Key) (a : Artifact) :
    s.Classified k a (s.classify files k a).1 := by
  unfold ReferenceService.classify
  split
  next hreference => exact .source (List.any_eq_true.1 hreference)
  next hreference =>
    have hreference : ¬ s.UnderReference k := fun h => hreference (List.any_eq_true.2 h)
    dsimp only
    split
    next hpromoted =>
      obtain ⟨r, hr, rfl⟩ := exists_of_promotion? hpromoted
      exact .promoted hreference hr
    · split
      next hexecution => exact .dropped hreference (List.any_eq_true.1 hexecution)
      next hexecution =>
        exact .synthesized _ _ hreference fun h => hexecution (List.any_eq_true.2 h)

theorem Sound.classify (hs : s.Sound) {a : Artifact} {k : Key} (ha : a.Proper)
    (hk : a.key = some k) : (s.classify files k a).1.StandsFor k := by
  intro b hb
  have hclassified := classified files s k a
  generalize (s.classify files k a).1 = outcome at hb hclassified
  cases hclassified with
  | source =>
    cases hb
    exact ⟨ha, .inr (List.mem_singleton.2 hk)⟩
  | promoted _ hr =>
    cases hb
    obtain ⟨hproper, hrole⟩ := hs.index _ hr
    exact ⟨hproper, .inl hrole⟩
  | dropped => cases hb
  | synthesized =>
    cases hb
    refine ⟨fun k' hk' => ?_, .inr (List.mem_singleton.2 rfl)⟩
    cases hk'
    exact ha k hk

/-- What reconciling artifacts with some keys does: the service stays sound, nothing that was
decided is forgotten, it is decided what stands for the keys, and what was found stands for them. -/
structure Reconciles (s t : ReferenceService) (keys : List (Option Key)) (found : List Artifact) :
    Prop where
  sound : t.Sound
  keeps : ∀ k, s.Decided k → t.Decided k
  decided : ∀ k, some k ∈ keys → t.Decided k
  stands : ∀ b ∈ found, b.StandsFor keys

theorem Reconciles.refl (hs : s.Sound) : s.Reconciles s [] [] :=
  ⟨hs, fun _ hd => hd, nofun, List.forall_mem_nil _⟩

theorem Reconciles.trans {u : ReferenceService} {keys later : List (Option Key)}
    {found more : List Artifact} (h : s.Reconciles t keys found) (h' : t.Reconciles u later more) :
    s.Reconciles u (keys ++ later) (found ++ more) := by
  constructor
  · exact h'.sound
  · intro k hd
    exact h'.keeps k (h.keeps k hd)
  · intro k hk
    obtain hfirst | hlater := List.mem_append.1 hk
    · exact h'.keeps k (h.decided k hfirst)
    · exact h'.decided k hlater
  · intro b hb
    obtain hfirst | hlater := List.mem_append.1 hb
    · exact (h.stands b hfirst).imp_right (Or.imp_right (List.mem_append_left later))
    · exact (h'.stands b hlater).imp_right (Or.imp_right (List.mem_append_right keys))

theorem Sound.reconcileOne (hs : s.Sound) {a : Artifact} (ha : a.Proper)
    {outcome : Option Artifact} (h : s.reconcileOne files a = (outcome, t)) :
    s.Reconciles t [a.key] outcome.toList := by
  cases hk : a.key with
  | none =>
    rw [reconcileOne_of_anonymous files s hk] at h
    cases h
    constructor
    · exact hs
    · exact fun k hd => hd
    · intro k hmem
      cases List.mem_singleton.1 hmem
    · exact List.forall_mem_singleton.2 ⟨ha, .inr (List.mem_singleton.2 hk)⟩
  | some k =>
    have hfound {r : Reconciled} (hr : r.StandsFor k) :
        ∀ b ∈ r.artifact?.toList, b.StandsFor [some k] := by
      intro b hb
      exact hr b (Option.mem_toList.1 hb)
    cases hc : s.cache.lookup k with
    | some r =>
      rw [reconcileOne_of_cached files hk hc] at h
      cases h
      have hmem := mem_cache_of_lookup hc
      constructor
      · exact hs
      · exact fun k hd => hd
      · intro k' hmem'
        cases List.mem_singleton.1 hmem'
        exact decided_iff.2 ⟨_, hmem, rfl⟩
      · exact hfound (hs.cache _ hmem)
    | none =>
      rw [reconcileOne_of_new files hk hc] at h
      cases h
      have hstands : (s.classify files k a).1.StandsFor k := hs.classify ha hk
      constructor
      · exact ⟨hs.execution, hs.index,
          List.forall_mem_append.2 ⟨hs.cache, List.forall_mem_singleton.2 hstands⟩⟩
      · intro k' hd
        obtain ⟨e, he, hkey⟩ := decided_iff.1 hd
        exact decided_iff.2 ⟨e, List.mem_append_left _ he, hkey⟩
      · intro k' hmem
        cases List.mem_singleton.1 hmem
        exact decided_iff.2 ⟨_, List.mem_append_right _ (List.mem_singleton_self _), rfl⟩
      · exact hfound hstands

theorem Sound.reconcile (hs : s.Sound) {as : List Artifact} (has : ∀ a ∈ as, a.Proper)
    {result : ArtifactSet} (h : s.reconcile files as = (result, t)) :
    s.Reconciles t (as.map (·.key)) result.items := by
  induction as using List.reverseRecOn generalizing t result with
  | nil =>
    cases h
    exact .refl hs
  | append_singleton as a ih =>
    obtain ⟨hfront, ha⟩ := List.forall_mem_append.1 has
    rcases hbefore : s.reconcile files as with ⟨done, u⟩
    rcases hone : u.reconcileOne files a with ⟨outcome, v⟩
    rw [reconcile_snoc, hbefore, hone] at h
    cases h
    have hfirst := ih hfront hbefore
    have hlast := hfirst.sound.reconcileOne (ha a (List.mem_singleton_self a)) hone
    have hboth := hfirst.trans hlast
    rw [List.map_append]
    refine ⟨hboth.sound, hboth.keeps, hboth.decided, fun b hb => ?_⟩
    exact hboth.stands b (List.mem_append.2 (ArtifactSet.mem_of_mem_extend hb))

end Reconcile

end ReferenceService

section Resolve

theorem Package.proper_of_modules {files : FileTree} {dir : Path} {artifacts : List Artifact}
    (h : modules files dir = .ok artifacts) : ∀ a ∈ artifacts, a.Proper := by
  unfold modules at h
  dsimp only at h
  split at h
  · obtain ⟨found, hfound, rfl⟩ := Except.map_eq_ok_iff.1 h
    exact Framework.proper_of_mem_modulesIn hfound
  · cases h
    exact nofun

theorem Package.proper_of_visit {files : FileTree} {feed : Path} {names : List String}
    {closed : ∀ n ∈ mentioned files, n ∈ names} {seen : List String} {found : List Artifact}
    {pending : List { s : PackageSpec // s.id ∈ names }} {artifacts : List Artifact}
    (hfound : ∀ a ∈ found, a.Proper)
    (h : visit files feed names closed seen found pending = .ok artifacts) :
    ∀ a ∈ artifacts, a.Proper := by
  fun_induction visit files feed names closed seen found pending with
  | case1 =>
    cases h
    exact hfound
  | case2 _ _ _ _ _ _ ih => exact ih hfound h
  | case3 | case4 | case5 => cases h
  | case6 _ _ _ _ _ _ _ _ _ here hhere _ _ _ ih =>
    exact ih (List.forall_mem_append.2 ⟨hfound, proper_of_modules hhere⟩) h

theorem Build.proper_of_artifacts {files : FileTree} {dir : Path} {lines : List (List Char)}
    {found : List Artifact} (h : artifacts files dir lines = .ok found) :
    ∀ a ∈ found, a.Proper := by
  induction lines generalizing found with
  | nil =>
    cases h
    exact nofun
  | cons line rest ih =>
    unfold artifacts at h
    dsimp only at h
    split at h
    · obtain ⟨found', hrest, rfl⟩ := Except.map_eq_ok_iff.1 h
      exact List.forall_mem_cons.2 ⟨Artifact.proper_of_path rfl, ih hrest⟩
    · cases h

theorem Build.proper_of_resolve {host : Host} {command : List String} {cancelled : Bool}
    {project : Path} {found : List Artifact} {files : FileTree}
    (h : resolve host command cancelled project = (.ok found, files)) : ∀ a ∈ found, a.Proper := by
  unfold resolve at h
  split at h
  · split at h
    · cases h
    next output built hbuild =>
      exact proper_of_artifacts (Except.mapError_eq_ok_iff.1 (Prod.mk.inj h).1)
  · cases h

namespace Resolver

variable {host : Host} {settings : ResolverSettings} {s t : ReferenceService} {cancelled : Bool}
  {d : Directive} {found : List Artifact} {files : FileTree}

theorem proper_of_resolvePackage
    (h : resolvePackage files settings d cancelled = .ok found) : ∀ a ∈ found, a.Proper := by
  unfold resolvePackage at h
  dsimp only at h
  split at h
  · cases h
  · cases h
  · split at h
    · cases h
    · exact Package.proper_of_visit (List.forall_mem_nil _) (Except.mapError_eq_ok_iff.1 h)

theorem proper_of_resolveAssembly (hs : s.Sound)
    (h : resolveAssembly files settings s d = (.ok found, t)) : ∀ a ∈ found, a.Proper := by
  have hfile {p : Path} {e : ResolutionError} {u : ReferenceService}
      (h : (if files.isFile p then .ok [Artifact.read files p .executionOnly] else .error e, u) =
        ((.ok found, t) : Except ResolutionError (List Artifact) × ReferenceService)) :
      ∀ a ∈ found, a.Proper := by
    split at h
    · cases h
      exact List.forall_mem_singleton.2 (Artifact.proper_of_path rfl)
    · cases h
  unfold resolveAssembly at h
  dsimp only at h
  split at h
  · cases h
  · split at h
    · exact hfile h
    · split at h
      next hknown =>
        cases h
        exact List.forall_mem_singleton.2 (hs.findExecution hknown)
      · exact hfile h

theorem proper_of_resolve (hs : s.Sound)
    (h : resolve host settings s cancelled d = (.ok found, t, files)) : ∀ a ∈ found, a.Proper := by
  unfold resolve at h
  split at h
  · exact proper_of_resolvePackage (Prod.mk.inj h).1
  · rcases hp : resolveProject host settings d cancelled with ⟨result, files'⟩
    dsimp only at h
    rw [hp] at h
    cases h
    unfold resolveProject at hp
    exact Build.proper_of_resolve hp
  · rcases ha : resolveAssembly host.files settings s d with ⟨result, u⟩
    dsimp only at h
    rw [ha] at h
    obtain ⟨hresult, hrest⟩ := Prod.mk.inj h
    cases Except.mapError_eq_ok_iff.1 hresult
    exact proper_of_resolveAssembly hs ha

theorem sound_of_resolve (hs : s.Sound) {result : Except ResolveFailure (List Artifact)}
    (h : resolve host settings s cancelled d = (result, t, files)) : t.Sound := by
  obtain ⟨⟨m, rfl⟩, -⟩ := resolve_counted h
  exact hs.counted m

end Resolver

theorem Evaluator.proper_of_resolveAll {host : Host} {settings : ResolverSettings}
    {cancelled : Bool} {s t : ReferenceService} {references found : ArtifactSet}
    {directives : List Directive} {files : FileTree} (hs : s.Sound) (hr : references.Proper)
    (h : resolveAll host settings cancelled s references directives = (.ok found, t, files)) :
    found.Proper := by
  induction directives generalizing host s references with
  | nil =>
    cases h
    exact hr
  | cons d rest ih =>
    rcases hd : Resolver.resolve host settings s cancelled d with ⟨_ | artifacts, u, files'⟩
    · rw [resolveAll, hd] at h
      cases h
    · rw [resolveAll, hd] at h
      have hproper := hr.extend (Resolver.proper_of_resolve hs hd)
      exact ih (Resolver.sound_of_resolve hs hd) hproper h

theorem Session.proper_of_startReferences {host : Host} {settings : ResolverSettings}
    {s t : ReferenceService} {references found : ArtifactSet} {values : List String}
    {files : FileTree} (hs : s.Sound) (hr : references.Proper)
    (h : startReferences host settings s references values = (.ok (found, t), files)) :
    found.Proper ∧ t.Sound := by
  induction values generalizing host s references with
  | nil =>
    cases h
    exact ⟨hr, hs⟩
  | cons value rest ih =>
    rw [startReferences] at h
    split at h
    · cases h
    next resolved u files' hresolve =>
      have hresolved := Resolver.proper_of_resolve hs hresolve
      rcases hrecord : u.record resolved with ⟨new, v⟩
      rcases hreconcile : v.reconcile files' resolved with ⟨reconciled, w⟩
      obtain ⟨hv, -, -⟩ := (Resolver.sound_of_resolve hs hresolve).record hresolved hrecord
      have hreconciles := hv.reconcile hresolved hreconcile
      dsimp only at h
      rw [hrecord] at h
      dsimp only at h
      rw [hreconcile] at h
      have hproper := (hr.extend hresolved).extend fun b hb => (hreconciles.stands b hb).1
      exact ih hreconciles.sound hproper h

end Resolve
end ScriptSession
