import Mathlib.Data.List.ReduceOption
import ScriptSession.Proofs.Reconciliation

namespace ScriptSession

namespace ServiceCall

def loads (c : ServiceCall) : Bool :=
  match c.request with
  | .load .. => true
  | _ => false

def reconciles (c : ServiceCall) : Bool :=
  match c.request with
  | .reconcile _ => true
  | _ => false

end ServiceCall

/-- Where all artifacts that have keys serve analysis, a project passes over none of their files. -/
theorem AnalysisProject.analysisPaths_eq {s : ArtifactSet}
    (h : ∀ a ∈ s.items, ∀ k, a.key = some k → a.role.servesAnalysis) :
    analysisPaths s = s.paths.map Key.path := by
  unfold analysisPaths ArtifactSet.paths
  rw [List.filterMap_filter, List.map_filterMap]
  apply List.filterMap_congr
  intro a ha
  cases hk : a.key with
  | none => simp
  | some k => rw [if_pos (h a ha k hk)]

namespace ReferenceService

/-- Whether `t` has the layers of `s`: their directories and their indexed modules. -/
structure SameLayers (s t : ReferenceService) : Prop where
  referenceDirs : t.referenceDirs = s.referenceDirs
  executionOnlyDirs : t.executionOnlyDirs = s.executionOnlyDirs
  index : t.index = s.index

section SameLayers

variable {s t u : ReferenceService}

theorem SameLayers.refl (s : ReferenceService) : s.SameLayers s := ⟨rfl, rfl, rfl⟩

theorem SameLayers.trans (h : s.SameLayers t) (h' : t.SameLayers u) : s.SameLayers u :=
  ⟨h'.referenceDirs.trans h.referenceDirs, h'.executionOnlyDirs.trans h.executionOnlyDirs,
    h'.index.trans h.index⟩

theorem SameLayers.underReference (h : s.SameLayers t) : t.UnderReference = s.UnderReference := by
  unfold UnderReference
  rw [h.referenceDirs]

theorem SameLayers.underExecution (h : s.SameLayers t) : t.UnderExecution = s.UnderExecution := by
  unfold UnderExecution
  rw [h.executionOnlyDirs]

theorem sameLayers_reconcileOne (files : FileTree) (s : ReferenceService) (a : Artifact) :
    s.SameLayers (s.reconcileOne files a).2 := by
  apply reconcileOne_cases (motive := fun p => s.SameLayers p.2) files s a
  case anonymous => exact fun _ => .refl s
  case cached => exact fun _ _ _ _ => .refl s
  case fresh => exact fun _ _ _ => ⟨rfl, rfl, rfl⟩

theorem sameLayers_reconcile (files : FileTree) (s : ReferenceService) (as : List Artifact) :
    s.SameLayers (s.reconcile files as).2 := by
  induction as generalizing s with
  | nil => exact .refl s
  | cons a as ih =>
    rw [reconcile_cons]
    exact (sameLayers_reconcileOne files s a).trans (ih _)

theorem sameLayers_record (s : ReferenceService) (as : List Artifact) :
    s.SameLayers (s.record as).2 := by
  induction as generalizing s with
  | nil => exact .refl s
  | cons a as ih =>
    have hone : s.SameLayers (s.recordOne a).2 := ⟨rfl, rfl, rfl⟩
    rw [record_cons]
    exact hone.trans (ih _)

theorem sameLayers_serve (s : ReferenceService) {c : ServiceCall} (h : ¬ c.loads) :
    s.SameLayers (s.serve c) := by
  obtain ⟨files, request⟩ := c
  cases request with
  | load => exact absurd rfl h
  | reconcile artifacts => exact sameLayers_reconcile files s artifacts
  | record artifacts => exact sameLayers_record s artifacts
  | find shortName =>
    obtain ⟨n, hn⟩ := s.exists_counted_of_serve_find files shortName
    rw [hn]
    exact ⟨rfl, rfl, rfl⟩

theorem sameLayers_after (s : ReferenceService) {calls : List ServiceCall}
    (h : ∀ c ∈ calls, ¬ c.loads) : s.SameLayers (s.after calls) := by
  induction calls generalizing s with
  | nil => exact .refl s
  | cons c rest ih =>
    obtain ⟨hc, hrest⟩ := List.forall_mem_cons.1 h
    exact (sameLayers_serve s hc).trans (ih _ hrest)

end SameLayers

/-- Whether all that a service can bring to analysis has a property: its indexed modules, what it
decided, and what analysis has. -/
structure Offers (P : Artifact → Prop) (s : ReferenceService) : Prop where
  index : ∀ r ∈ s.index, P r.artifact
  cache : ∀ e ∈ s.cache, ∀ a, e.2.artifact? = some a → P a
  analysis : ∀ a ∈ s.analysis.items, P a

/-- Whether an artifact, and what may be made to stand for it, has a property. -/
structure Allows (s : ReferenceService) (P : Artifact → Prop) (a : Artifact) : Prop where
  anonymous : a.key = none → P a
  source : ∀ k, a.key = some k → s.UnderReference k → P a
  synthesized : ∀ k documentation identity, a.key = some k → ¬ s.UnderReference k →
    ¬ s.UnderExecution k → P { key := some k, role := .both, documentation, identity }

section Offers

variable {P Q : Artifact → Prop} {s t : ReferenceService}

theorem offers_empty (P : Artifact → Prop) : empty.Offers P :=
  ⟨List.forall_mem_nil _, List.forall_mem_nil _, List.forall_mem_nil _⟩

theorem Offers.mono (h : s.Offers P) (hPQ : ∀ a, P a → Q a) : s.Offers Q :=
  ⟨fun r hr => hPQ _ (h.index r hr), fun e he a ha => hPQ a (h.cache e he a ha),
    fun a ha => hPQ a (h.analysis a ha)⟩

theorem SameLayers.allows (h : s.SameLayers t) {a : Artifact} (ha : s.Allows P a) :
    t.Allows P a := by
  constructor
  · exact ha.anonymous
  · rw [h.underReference]
    exact ha.source
  · rw [h.underReference, h.underExecution]
    exact ha.synthesized

theorem Offers.register (h : s.Offers P) {layer : Layer}
    (hl : ∀ a ∈ layer.references.items, P a) : (s.register layer).Offers P := by
  unfold ReferenceService.register
  split
  · exact h
  · constructor
    · exact List.forall_mem_append.2
        ⟨h.index, fun r hr => hl r.artifact (mem_references_of_indexOf hr)⟩
    · exact h.cache
    · intro a ha
      exact (ArtifactSet.mem_of_mem_extend ha).elim (h.analysis a) (hl a)

theorem Offers.registers (h : s.Offers P) {layers : List Layer}
    (hl : ∀ layer ∈ layers, ∀ a ∈ layer.references.items, P a) :
    (layers.foldl ReferenceService.register s).Offers P := by
  induction layers generalizing s with
  | nil => exact h
  | cons layer rest ih =>
    obtain ⟨hfirst, hrest⟩ := List.forall_mem_cons.1 hl
    exact ih (h.register hfirst) hrest

theorem Offers.classify (h : s.Offers P) {a : Artifact} {k : Key} (hk : a.key = some k)
    (ha : s.Allows P a) (files : FileTree) {b : Artifact}
    (hb : (s.classify files k a).1.artifact? = some b) : P b := by
  have hclassified := classified files s k a
  generalize (s.classify files k a).1 = outcome at hb hclassified
  cases hclassified with
  | source hreference =>
    cases hb
    exact ha.source k hk hreference
  | promoted _ hr =>
    cases hb
    exact h.index _ hr
  | dropped => cases hb
  | synthesized documentation identity hreference hexecution =>
    cases hb
    exact ha.synthesized k documentation identity hk hreference hexecution

theorem Offers.reconcileOne (h : s.Offers P) {a : Artifact} (ha : s.Allows P a)
    (files : FileTree) :
    (s.reconcileOne files a).2.Offers P ∧ ∀ b, (s.reconcileOne files a).1 = some b → P b := by
  apply reconcileOne_cases (motive := fun p => p.2.Offers P ∧ ∀ b, p.1 = some b → P b) files s a
  case anonymous =>
    intro hk
    refine ⟨h, fun b hb => ?_⟩
    cases hb
    exact ha.anonymous hk
  case cached => exact fun k r _ hc => ⟨h, h.cache (k, r) (mem_cache_of_lookup hc)⟩
  case fresh =>
    intro k hk _
    have hfound (b : Artifact) (hb : (s.classify files k a).1.artifact? = some b) : P b :=
      h.classify hk ha files hb
    refine ⟨⟨h.index, ?_, ?_⟩, hfound⟩
    · exact List.forall_mem_append.2 ⟨h.cache, List.forall_mem_singleton.2 hfound⟩
    · intro b hb
      obtain hold | hnew := ArtifactSet.mem_of_mem_extend hb
      · exact h.analysis b hold
      · exact hfound b (Option.mem_toList.1 hnew)

theorem Offers.reconcile (h : s.Offers P) {as : List Artifact} (has : ∀ a ∈ as, s.Allows P a)
    (files : FileTree) :
    (s.reconcile files as).2.Offers P ∧ ∀ b ∈ (s.reconcile files as).1.items, P b := by
  -- By induction on the artifacts: each leaves the directories where they are, so that what the
  -- others allow is the same before and after it.
  have houtcomes : (s.reconcile files as).2.Offers P ∧ ∀ b, some b ∈ s.outcomes files as → P b := by
    induction as generalizing s with
    | nil => exact ⟨h, nofun⟩
    | cons a as ih =>
      obtain ⟨ha, hrest⟩ := List.forall_mem_cons.1 has
      obtain ⟨hnext, hfound⟩ := h.reconcileOne ha files
      have hsame := sameLayers_reconcileOne files s a
      obtain ⟨hlast, hlater⟩ := ih hnext fun b hb => hsame.allows (hrest b hb)
      rw [reconcile_cons]
      refine ⟨hlast, fun b hb => ?_⟩
      obtain he | hb := List.mem_cons.1 hb
      · exact hfound b he.symm
      · exact hlater b hb
  refine ⟨houtcomes.1, fun b hb => houtcomes.2 b ?_⟩
  rw [reconcile_eq] at hb
  obtain hnone | hb := ArtifactSet.mem_of_mem_extend hb
  · cases hnone
  · exact List.reduceOption_mem_iff.1 hb

theorem Offers.of_eq (h : s.Offers P) (hindex : t.index = s.index) (hcache : t.cache = s.cache)
    (hanalysis : t.analysis = s.analysis) : t.Offers P := by
  constructor
  · rw [hindex]
    exact h.index
  · rw [hcache]
    exact h.cache
  · rw [hanalysis]
    exact h.analysis

theorem Offers.serve (h : s.Offers P) {c : ServiceCall}
    (hload : ∀ framework paths layers, c.request = .load framework paths →
      Framework.discover c.files framework paths = .ok layers →
      ∀ layer ∈ layers, ∀ a ∈ layer.references.items, P a)
    (hreconcile : ∀ artifacts, c.request = .reconcile artifacts →
      ∀ a ∈ artifacts, s.Allows P a) : (s.serve c).Offers P := by
  obtain ⟨files, request⟩ := c
  cases request with
  | load framework paths =>
    obtain hserve | ⟨layers, hlayers, hserve⟩ := s.serve_load files framework paths
    · rw [hserve]
      exact h
    · rw [hserve]
      exact (h.registers (hload framework paths layers rfl hlayers)).of_eq rfl rfl rfl
  | reconcile artifacts => exact (h.reconcile (hreconcile artifacts rfl) files).1
  | record artifacts =>
    exact h.of_eq (sameLayers_record s artifacts).index (cache_record s artifacts)
      (keeps_record s artifacts).2
  | find shortName =>
    obtain ⟨n, hn⟩ := s.exists_counted_of_serve_find files shortName
    rw [hn]
    exact h.of_eq rfl rfl rfl

end Offers

/-- Whether a run brings an artifact to analysis: the service has it there in the end, or some call
of the run reconciled another artifact with it. -/
def Shows (run : List ServiceCall) (a : Artifact) : Prop :=
  a ∈ (empty.after run).analysis.items ∨
    ∃ before files artifacts later, run = before ++ ⟨files, .reconcile artifacts⟩ :: later ∧
      a ∈ ((empty.after before).reconcile files artifacts).1.items

section Admitted

variable {s t : ReferenceService} {run : List ServiceCall}

def Referenced (s : ReferenceService) (a : Artifact) : Prop :=
  ∀ k, a.key = some k → s.UnderReference k

/-- Whether an artifact that has a key lies under a reference directory, or under no execution
directory. -/
def Admits (s : ReferenceService) (a : Artifact) : Prop :=
  ∀ k, a.key = some k → s.UnderReference k ∨ ¬ s.UnderExecution k

theorem Referenced.admits {a : Artifact} (h : s.Referenced a) : s.Admits a :=
  fun k hk => .inl (h k hk)

theorem SameLayers.referenced (h : s.SameLayers t) : t.Referenced = s.Referenced := by
  unfold Referenced
  rw [h.underReference]

theorem SameLayers.admits (h : s.SameLayers t) : t.Admits = s.Admits := by
  unfold Admits
  rw [h.underReference, h.underExecution]

/-- An artifact that lies under execution directories alone is neither taken as it is nor made anew,
so that reconciling brings no such artifact to analysis. -/
theorem allows_admits (s : ReferenceService) (a : Artifact) : s.Allows s.Admits a := by
  constructor
  · intro hk k hk'
    cases hk.symm.trans hk'
  · intro k hk hreference k' hk'
    cases hk.symm.trans hk'
    exact .inl hreference
  · intro k _ _ _ _ hexecution k' hk'
    cases hk'
    exact .inr hexecution

theorem referenceDirs_registers (s : ReferenceService) (layers : List Layer) :
    (∀ dir ∈ s.referenceDirs, dir ∈ (layers.foldl register s).referenceDirs) ∧
      ∀ layer ∈ layers, layer.referenceDir ∈ (layers.foldl register s).referenceDirs := by
  induction layers generalizing s with
  | nil => exact ⟨fun _ hd => hd, nofun⟩
  | cons layer rest ih =>
    obtain ⟨hkept, hadded⟩ := ih (s.register layer)
    have hone : (∀ dir ∈ s.referenceDirs, dir ∈ (s.register layer).referenceDirs) ∧
        layer.referenceDir ∈ (s.register layer).referenceDirs := by
      unfold register
      split
      next hknown => exact ⟨fun _ hd => hd, hknown⟩
      next =>
        exact ⟨fun _ hd => List.mem_append_left _ hd,
          List.mem_append_right _ (List.mem_singleton_self _)⟩
    exact ⟨fun dir hd => hkept dir (hone.1 dir hd),
      List.forall_mem_cons.2 ⟨hkept _ hone.2, hadded⟩⟩

theorem Offers.load (h : s.Offers s.Referenced) {c : ServiceCall} (hc : c.loads)
    (hnames : c.files.ProperNames) : (s.serve c).Offers (s.serve c).Referenced := by
  obtain ⟨files, request⟩ := c
  cases request with
  | load framework paths =>
    obtain hserve | ⟨layers, hlayers, hserve⟩ := s.serve_load files framework paths
    · rw [hserve]
      exact h
    · rw [hserve]
      obtain ⟨hkept, hadded⟩ := s.referenceDirs_registers layers
      have hold : s.Offers (layers.foldl ReferenceService.register s).Referenced := by
        apply h.mono
        intro a ha k hk
        obtain ⟨dir, hdir, hunder⟩ := ha k hk
        exact ⟨dir, hkept dir hdir, hunder⟩
      have hnew : ∀ layer ∈ layers, ∀ a ∈ layer.references.items,
          (layers.foldl ReferenceService.register s).Referenced a := by
        intro layer hlayer a ha k hk
        exact ⟨layer.referenceDir, hadded layer hlayer,
          Framework.isUnder_of_mem_discover hnames hlayers layer hlayer ha hk⟩
      exact (hold.registers hnew).of_eq rfl rfl rfl
  | reconcile | record | find => cases hc

/-- Whether every framework of a run is loaded before anything is reconciled. -/
def LoadsFirst (run : List ServiceCall) : Prop :=
  run.Pairwise fun c d => c.reconciles → ¬ d.loads

instance (run : List ServiceCall) : Decidable (LoadsFirst run) :=
  inferInstanceAs (Decidable (run.Pairwise _))

/-- Where frameworks are loaded first, no implementation module is offered; and as long as nothing
was reconciled, nothing but reference modules is. -/
theorem offers_after (hfirst : LoadsFirst run)
    (hnames : ∀ c ∈ run, c.loads → c.files.ProperNames) :
    (empty.after run).Offers (empty.after run).Admits ∧
      ((∀ c ∈ run, ¬ c.reconciles) → (empty.after run).Offers (empty.after run).Referenced) := by
  induction run using List.reverseRecOn with
  | nil => exact ⟨offers_empty _, fun _ => offers_empty _⟩
  | append_singleton run c ih =>
    obtain ⟨hrun, -, hlast⟩ := List.pairwise_append.1 hfirst
    obtain ⟨hnamesRun, hnamesLast⟩ := List.forall_mem_append.1 hnames
    obtain ⟨hadmits, hreferenced⟩ := ih hrun hnamesRun
    have hstep : empty.after (run ++ [c]) = (empty.after run).serve c := after_append ..
    rw [hstep]
    by_cases hloads : c.loads
    -- An execution directory that is new may hold what was offered before, so that it matters that
    -- all of that lies under reference directories.
    · have hnone : ∀ d ∈ run, ¬ d.reconciles := by
        intro d hd hreconciles
        exact hlast d hd c (List.mem_singleton_self c) hreconciles hloads
      have hload := (hreferenced hnone).load hloads
        (hnamesLast c (List.mem_singleton_self c) hloads)
      exact ⟨hload.mono fun _ => Referenced.admits, fun _ => hload⟩
    · have hsame := sameLayers_serve (empty.after run) hloads
      have hnoload {framework : FrameworkRequest} {paths : SearchPaths}
          (hrequest : c.request = .load framework paths) : False := by
        apply hloads
        rw [ServiceCall.loads, hrequest]
      constructor
      · rw [hsame.admits]
        refine hadmits.serve (fun _ _ _ hrequest => (hnoload hrequest).elim) ?_
        exact fun _ _ a _ => allows_admits _ a
      · intro hnone
        obtain ⟨hnoneRun, hnoneLast⟩ := List.forall_mem_append.1 hnone
        rw [hsame.referenced]
        refine (hreferenced hnoneRun).serve (fun _ _ _ hrequest => (hnoload hrequest).elim) ?_
        intro artifacts hrequest
        refine absurd ?_ (hnoneLast c (List.mem_singleton_self c))
        rw [ServiceCall.reconciles, hrequest]

/-- Where all frameworks are loaded before anything is reconciled, no implementation module reaches
analysis: what has a key there lies under a reference directory, or under no execution directory.
Frameworks are found in trees whose names hold no separator, as no name on a disk does. -/
theorem implementations_stay_out_of_analysis (run : List ServiceCall) (hfirst : LoadsFirst run)
    (hnames : ∀ c ∈ run, c.loads → c.files.ProperNames) :
    ∀ a, Shows run a → (empty.after run).Admits a := by
  intro a ha
  obtain hheld | ⟨before, files, artifacts, later, rfl, hfound⟩ := ha
  · exact (offers_after hfirst hnames).1.analysis a hheld
  · obtain ⟨hbefore, hrest, -⟩ := List.pairwise_append.1 hfirst
    obtain ⟨hlater, -⟩ := List.pairwise_cons.1 hrest
    have hoffers := (offers_after hbefore fun c hc => hnames c (List.mem_append_left _ hc)).1
    have hadmitted : (empty.after before).Admits a :=
      (hoffers.reconcile (fun b _ => allows_admits _ b) files).2 a hfound
    have hnoload : ∀ c ∈ ⟨files, .reconcile artifacts⟩ :: later, ¬ ServiceCall.loads c :=
      List.forall_mem_cons.2 ⟨Bool.false_ne_true, fun d hd => hlater d hd rfl⟩
    rw [after_append, (sameLayers_after _ hnoload).admits]
    exact hadmitted

/-- A run with an execution module, which is dropped, and a module of its own. -/
theorem implementations_stay_out_of_small_run :
    let files := Host.small.files
    let internal := Artifact.ofFile ⟨"/s/shared/Kiln.Core/1.0/b.dll"⟩ .executionOnly
    let own := Artifact.ofFile ⟨"/own.dll"⟩ .executionOnly
    let run : List ServiceCall :=
      [⟨files, .load .base ⟨[⟨"/s"⟩], none⟩⟩, ⟨files, .record [internal]⟩,
        ⟨files, .reconcile [internal, own]⟩]
    LoadsFirst run ∧ (∀ c ∈ run, c.loads → c.files.ProperNames) ∧
      (empty.after run).UnderExecution (.ofPath ⟨"/s/shared/Kiln.Core/1.0/b.dll"⟩) ∧
      (empty.after run).analysis.paths.map Key.path =
        [⟨"/s/packs/Kiln.Core.Ref/1.0/ref/a.dll"⟩, ⟨"/own.dll"⟩] ∧
      ∀ a, Shows run a → (empty.after run).Admits a := by
  intro files internal own run
  have hfirst : LoadsFirst run := by decide
  have hnames : ∀ c ∈ run, c.loads → c.files.ProperNames := by decide
  have hruns : .ofPath ⟨"/s/shared/Kiln.Core/1.0"⟩ ∈ (empty.after run).executionOnlyDirs ∧
      (empty.after run).analysis.paths.map Key.path =
        [⟨"/s/packs/Kiln.Core.Ref/1.0/ref/a.dll"⟩, ⟨"/own.dll"⟩] := by decide +kernel
  have hunder : (empty.after run).UnderExecution (.ofPath ⟨"/s/shared/Kiln.Core/1.0/b.dll"⟩) :=
    ⟨_, hruns.1, by decide +kernel⟩
  exact ⟨hfirst, hnames, hunder, hruns.2,
    implementations_stay_out_of_analysis run hfirst hnames⟩

end Admitted

section Served

variable {s : ReferenceService} {run : List ServiceCall} {a : Artifact}

/-- Whether some call of a run reconciles an artifact that lies under a reference directory. -/
def Handed (run : List ServiceCall) (a : Artifact) : Prop :=
  ∃ before files artifacts later, run = before ++ ⟨files, .reconcile artifacts⟩ :: later ∧
    a ∈ artifacts ∧ ∃ k, a.key = some k ∧ (empty.after before).UnderReference k

/-- Whether an artifact that has a key serves analysis, or was handed to the run as it is. -/
def Served (run : List ServiceCall) (a : Artifact) : Prop :=
  ∀ k, a.key = some k → a.role.servesAnalysis ∨ Handed run a

theorem Served.append (h : Served run a) (more : List ServiceCall) : Served (run ++ more) a := by
  intro k hk
  obtain hserves | ⟨before, files, artifacts, later, rfl, hhanded⟩ := h k hk
  · exact .inl hserves
  · refine .inr ⟨before, files, artifacts, later ++ more, ?_, hhanded⟩
    rw [List.append_assoc, List.cons_append]

/-- What is decided for an artifact serves analysis, but where the artifact is taken as it is. -/
theorem allows_served (run : List ServiceCall) (files : FileTree) {artifacts : List Artifact}
    (ha : a ∈ artifacts) :
    (empty.after run).Allows (Served (run ++ [⟨files, .reconcile artifacts⟩])) a := by
  constructor
  · intro hk k hk'
    cases hk.symm.trans hk'
  · intro k hk hreference _ _
    exact .inr ⟨run, files, artifacts, [], rfl, ha, k, hk, hreference⟩
  · intro _ _ _ _ _ _ _ _
    exact .inl rfl

theorem offers_served (run : List ServiceCall) : (empty.after run).Offers (Served run) := by
  induction run using List.reverseRecOn with
  | nil => exact offers_empty _
  | append_singleton run c ih =>
    have hstep : empty.after (run ++ [c]) = (empty.after run).serve c := after_append ..
    have hbefore := ih.mono fun a (ha : Served run a) => ha.append [c]
    rw [hstep]
    apply hbefore.serve
    · intro framework paths layers _ hlayers layer hlayer a ha k _
      have hrole := (Framework.proper_of_discover hlayers layer hlayer).roles a ha
      exact .inl (by rw [hrole]; rfl)
    · intro artifacts hrequest a ha
      obtain ⟨files, request⟩ := c
      cases hrequest
      exact allows_served run files ha

theorem reconcileOne_of_underReference {k : Key} (files : FileTree) (hk : a.key = some k)
    (hreference : s.UnderReference k) (hd : ¬ s.Decided k) :
    (s.reconcileOne files a).1 = some a := by
  have hnew : s.cache.lookup k = none := Option.not_isSome_iff_eq_none.1 hd
  rw [reconcileOne_of_new files hk hnew, classify, if_pos (List.any_eq_true.2 hreference)]
  rfl

theorem Shows.served (h : Shows run a) : Served run a := by
  obtain hheld | ⟨before, files, artifacts, later, rfl, hfound⟩ := h
  · exact (offers_served run).analysis a hheld
  · have hoffers := (offers_served before).mono fun b (hb : Served before b) =>
      hb.append [⟨files, .reconcile artifacts⟩]
    have hallows (b : Artifact) (hb : b ∈ artifacts) := allows_served before files hb
    rw [List.append_cons]
    exact ((hoffers.reconcile hallows files).2 a hfound).append later

/-- The roles of analysis. What a run brings to analysis serves analysis, but for artifacts that
were handed to it from under a reference directory; these are taken with the role that they come
with. A project passes over no file of what a run brings to analysis, if those artifacts serve
analysis. -/
theorem analysis_is_served (run : List ServiceCall) :
    (∀ a, Shows run a → ∀ k, a.key = some k → a.role.servesAnalysis ∨ Handed run a) ∧
    (∀ a k files, a.key = some k → (empty.after run).UnderReference k →
      ¬ (empty.after run).Decided k → ((empty.after run).reconcile files [a]).1.items = [a]) ∧
    ∀ found : ArtifactSet, (∀ a ∈ found.items, Shows run a) →
      (∀ a ∈ found.items, Handed run a → a.role.servesAnalysis) →
      AnalysisProject.analysisPaths found = found.paths.map Key.path := by
  refine ⟨fun a ha => ha.served, ?_, ?_⟩
  · intro a k files hk hreference hd
    rw [reconcile_eq, ArtifactSet.items_ofList, outcomes,
      reconcileOne_of_underReference files hk hreference hd]
    rfl
  · intro found hshown hhanded
    apply AnalysisProject.analysisPaths_eq
    intro a ha k hk
    obtain hserves | hh := (hshown a ha).served k hk
    · exact hserves
    · exact hhanded a ha hh

/-- A module of a reference directory that is handed over as an execution module is chosen for
analysis with that role, and a project passes over its file. -/
theorem analysis_misses_handed_module :
    let files := Host.small.files
    let s := empty.after [⟨files, .load .base ⟨[⟨"/s"⟩], none⟩⟩]
    let handed := Artifact.ofFile ⟨"/s/packs/Kiln.Core.Ref/1.0/ref/b.dll"⟩ .executionOnly
    let found := s.reconcile files [handed]
    found.1.items = [handed] ∧ handed ∈ found.2.analysis.items ∧
      handed.role.servesAnalysis = false ∧ AnalysisProject.analysisPaths found.1 = [] := by
  decide +kernel

/-- A run that reconciles a module of its own, which is made anew, beside a reference module. -/
theorem served_of_synthesis :
    let files := Host.small.files
    let reference := Artifact.ofFile ⟨"/s/packs/Kiln.Core.Ref/1.0/ref/a.dll"⟩ .analysisOnly
    let own := Artifact.ofFile ⟨"/own.dll"⟩ .executionOnly
    let run : List ServiceCall :=
      [⟨files, .load .base ⟨[⟨"/s"⟩], none⟩⟩, ⟨files, .reconcile [reference, own]⟩]
    let found := (empty.after run).analysis
    (∀ a ∈ found.items, Shows run a) ∧ (∀ a ∈ found.items, a.role.servesAnalysis) ∧
      found.paths.map Key.path =
        [⟨"/s/packs/Kiln.Core.Ref/1.0/ref/a.dll"⟩, ⟨"/own.dll"⟩] ∧
      AnalysisProject.analysisPaths found = found.paths.map Key.path := by
  intro files reference own run found
  have hruns : (∀ a ∈ found.items, a.role.servesAnalysis) ∧ found.paths.map Key.path =
      [⟨"/s/packs/Kiln.Core.Ref/1.0/ref/a.dll"⟩, ⟨"/own.dll"⟩] := by decide +kernel
  have hshown : ∀ a ∈ found.items, Shows run a := fun a ha => .inl ha
  obtain ⟨-, -, hfilter⟩ := analysis_is_served run
  exact ⟨hshown, hruns.1, hruns.2, hfilter found hshown fun a ha _ => hruns.1 a ha⟩

end Served

end ReferenceService
end ScriptSession
