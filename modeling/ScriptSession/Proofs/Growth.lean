import ScriptSession.Proofs.Admission
import ScriptSession.Proofs.Continuation
import ScriptSession.Proofs.Mirror
import ScriptSession.Proofs.SessionView

namespace ScriptSession

namespace ModuleTable

theorem extends_load {files : FileTree} {t u : ModuleTable} {p : Path} {a : Admission}
    (h : t.load files p = .ok (a, u)) : t.Extends u := by
  have hoffer : t.offer ⟨files, p⟩ = (.ok a, u) := by
    unfold offer
    rw [h]
  have hextends := (t.offered ⟨files, p⟩).extends
  rwa [hoffer] at hextends

end ModuleTable

theorem Engine.extends_loadReferences {files : FileTree} {t u : ModuleTable} {paths : List Path}
    (h : loadReferences files t paths = .ok u) : t.Extends u := by
  induction paths generalizing t with
  | nil =>
    cases h
    exact .refl _
  | cons p rest ih =>
    rw [loadReferences] at h
    split at h
    · cases h
    · cases h
    next hload => exact (ModuleTable.extends_load hload).trans (ih h)

namespace AnalysisProject

theorem loadAll_cons (files : FileTree) (t : ModuleTable) (p : Path) (paths : List Path) :
    loadAll files t (p :: paths) = loadAll files (t.offer ⟨files, p⟩).2 paths := by
  unfold loadAll ModuleTable.offer
  rw [List.foldl_cons]
  cases t.load files p <;> rfl

theorem loadAll_eq (files : FileTree) (t : ModuleTable) (paths : List Path) :
    loadAll files t paths = t.after (paths.map (⟨files, ·⟩)) := by
  induction paths generalizing t with
  | nil => rfl
  | cons p rest ih =>
    rw [loadAll_cons, ih]
    rfl

theorem extends_modulesAfter (files : FileTree) (previous : AnalysisProject)
    (artifacts : ArtifactSet) :
    previous.modules.Extends (previous.modulesAfter files artifacts) := by
  unfold modulesAfter
  split
  · exact .refl _
  · rw [loadAll_eq]
    exact ModuleTable.extends_after _ _

end AnalysisProject

namespace ReferenceService

variable {s t : ReferenceService}

theorem execution_record (s : ReferenceService) (artifacts : List Artifact) :
    s.execution.items <+: (s.record artifacts).2.execution.items := by
  induction artifacts generalizing s with
  | nil => exact List.prefix_rfl
  | cons a as ih =>
    rw [record_cons]
    have hone : s.execution.items <+: (s.recordOne a).2.execution.items :=
      ArtifactSet.items_insertNew _ _
    exact hone.trans (ih _)

theorem execution_reconcile (files : FileTree) (s : ReferenceService) (artifacts : List Artifact) :
    (s.reconcile files artifacts).2.execution = s.execution := by
  induction artifacts generalizing s with
  | nil => rfl
  | cons a as ih =>
    rw [reconcile_cons, ih]
    apply reconcileOne_cases (motive := fun r => r.2.execution = s.execution) files s a
    case anonymous => exact fun _ => rfl
    case cached => exact fun _ _ _ _ => rfl
    case fresh => exact fun _ _ _ => rfl

/-- Nothing that a service is asked for after its frameworks takes an execution artifact from it. -/
theorem execution_serve (s : ReferenceService) {c : ServiceCall} (h : ¬ c.loads) :
    s.execution.items <+: (s.serve c).execution.items := by
  obtain ⟨files, request⟩ := c
  cases request with
  | load => exact absurd rfl h
  | reconcile artifacts =>
    change s.execution.items <+: (s.reconcile files artifacts).2.execution.items
    rw [execution_reconcile]
  | record artifacts => exact s.execution_record artifacts
  | find shortName =>
    obtain ⟨n, hn⟩ := s.exists_counted_of_serve_find files shortName
    rw [hn]
    exact List.prefix_rfl

theorem Reaches.execution (h : s.Reaches t) : s.execution.items <+: t.execution.items := by
  obtain ⟨calls, hcalls, rfl⟩ := h
  induction calls generalizing s with
  | nil => exact List.prefix_rfl
  | cons c rest ih =>
    obtain ⟨hc, hrest⟩ := List.forall_mem_cons.1 hcalls
    exact (s.execution_serve hc).trans (ih hrest)

end ReferenceService

namespace Evaluator

theorem items_resolveAll {host : Host} {settings : ResolverSettings} {cancelled : Bool}
    {s t : ReferenceService} {references found : ArtifactSet} {directives : List Directive}
    {files : FileTree}
    (h : resolveAll host settings cancelled s references directives = (.ok found, t, files)) :
    references.items <+: found.items := by
  induction directives generalizing host s references with
  | nil =>
    cases h
    exact List.prefix_rfl
  | cons d rest ih =>
    rw [resolveAll] at h
    split at h
    · exact (ArtifactSet.items_extend _ _).trans (ih h)
    · cases h

variable {host : Host} {e : Evaluator} {s t : ReferenceService} {link : Option Link} {text : String}
  {cancel : Cancellation} {p : Prepared} {files : FileTree} {args : List String}
  {result : EvaluationResult} {a : Advance}

theorem holds_prepare (h : e.prepare host s link text cancel = (.ok p, t, files)) :
    (∀ i ∈ e.imports link, i ∈ p.imports) ∧ (e.references link).items <+: p.references.items := by
  unfold prepare at h
  split at h
  · cases h
  · dsimp only at h
    rcases hr : resolveAll host e.settings cancel.atStart s (e.references link)
      (Directive.scan text) with ⟨(_ | _) | references, u, files'⟩
    all_goals
      rw [hr] at h
      cases h
    exact ⟨fun i hi => (Names.contains_extend _ _ _).2 (.inl hi), items_resolveAll hr⟩

/-- A submission that moves the chain on leaves what it started with, and the engine what was bound
and loaded before it. -/
theorem holds_complete (h : complete files p s link args cancel = (result, some a, t)) :
    a.link.imports = p.imports ∧ p.references.items <+: a.link.references.items ∧
      (∀ name ∈ (Engine.base (link.map (·.engine))).bindings, name ∈ a.link.engine.bindings) ∧
      (Engine.base (link.map (·.engine))).modules.Extends a.link.engine.modules := by
  obtain ⟨options, new, u, reconciled, -, hrun, -, -, hlink⟩ := exists_reconciled_of_complete h
  obtain ⟨-, modules, script, checked, hload, -, -, hexecute⟩ := Engine.run_eq_ok_iff.1 hrun
  obtain ⟨front, back, -, hnames, -⟩ := Engine.run_binds hrun
  refine ⟨?_, ?_, fun name hname => (hnames name).2 (.inl hname), ?_⟩
  · unfold complete at h
    dsimp only at h
    split at h
    · cases h
    · cases h
    · cases h
      rfl
  · rw [hlink]
    exact ArtifactSet.items_extend _ _
  · have hmodules : modules = a.link.engine.modules := congrArg (·.1.modules) hexecute
    rw [← hmodules]
    exact Engine.extends_loadReferences hload

end Evaluator

namespace Session

/-- The imports that the next submission starts from. -/
def imports (s : Session) : Names :=
  s.evaluator.imports s.link

def modules (s : Session) : ModuleTable :=
  (Engine.base (s.link.map (·.engine))).modules

/-- Whether `t` holds what `s` holds: the imports, references and bindings of the evaluation, the
two sets of the service, and the modules of engine and analysis. -/
structure GrowsTo (s t : Session) : Prop where
  imports : ∀ i ∈ s.imports, i ∈ t.imports
  references : s.references.items <+: t.references.items
  bindings : ∀ name ∈ s.bindings, name ∈ t.bindings
  execution : s.service.execution.items <+: t.service.execution.items
  analysis : s.service.analysis.items <+: t.service.analysis.items
  loaded : s.modules.Extends t.modules
  project : s.workspace.current.project.modules.Extends t.workspace.current.project.modules

section GrowsTo

variable {s t u : Session}

theorem GrowsTo.refl (s : Session) : s.GrowsTo s :=
  ⟨fun _ h => h, List.prefix_rfl, fun _ h => h, List.prefix_rfl, List.prefix_rfl, .refl _, .refl _⟩

theorem GrowsTo.trans (h : s.GrowsTo t) (h' : t.GrowsTo u) : s.GrowsTo u :=
  ⟨fun i hi => h'.imports i (h.imports i hi), h.references.trans h'.references,
    fun name hname => h'.bindings name (h.bindings name hname), h.execution.trans h'.execution,
    h.analysis.trans h'.analysis, h.loaded.trans h'.loaded, h.project.trans h'.project⟩

theorem growsTo_call (s : Session) (c : Call) : s.GrowsTo (s.call c).2 := by
  rcases hcall : s.evaluateWith c.host c.text c.args c.cancel with ⟨outcome, s', files⟩
  rw [call_eq hcall]
  cases hb : s.busy with
  | true =>
    unfold evaluateWith begin at hcall
    rw [if_pos hb] at hcall
    cases hcall
    exact .refl s
  | false =>
    have hexecution := (reaches_call hb c).execution
    have hanalysis := (call_step hb c).grows.analysis
    rw [call_eq hcall] at hexecution hanalysis
    obtain ⟨prepared, t, hp, hcases⟩ := evaluateWith_cases hb hcall
    obtain ⟨result, -, -, rfl⟩ | ⟨p, result, advance, u, rfl, hc, hcases⟩ := hcases
    · exact { GrowsTo.refl s with execution := hexecution, analysis := hanalysis }
    · obtain ⟨rfl, -, rfl⟩ | ⟨a, rfl, -, rfl⟩ := hcases
      · exact { GrowsTo.refl s with execution := hexecution, analysis := hanalysis }
      · obtain ⟨himports, hreferences⟩ := Evaluator.holds_prepare hp
        obtain ⟨hkept, hfound, hbindings, hmodules⟩ := Evaluator.holds_complete hc
        refine ⟨fun i hi => ?_, hreferences.trans hfound, hbindings, hexecution, hanalysis,
          hmodules, AnalysisProject.extends_modulesAfter _ _ _⟩
        change i ∈ a.link.imports
        rw [hkept]
        exact himports i hi

theorem growsTo_after (s : Session) (calls : List Call) : s.GrowsTo (s.after calls) := by
  induction calls generalizing s with
  | nil => exact .refl s
  | cons c rest ih => exact (s.growsTo_call c).trans (ih _)

theorem after_append (s : Session) (calls later : List Call) :
    s.after (calls ++ later) = (s.after calls).after later :=
  List.foldl_append ..

end GrowsTo

theorem items_startReferences {host : Host} {settings : ResolverSettings}
    {service service' : ReferenceService} {references references' : ArtifactSet}
    {values : List String} {files : FileTree}
    (h : startReferences host settings service references values =
      (.ok (references', service'), files)) : references.items <+: references'.items := by
  induction values generalizing host service references with
  | nil =>
    cases h
    exact List.prefix_rfl
  | cons value rest ih =>
    rw [startReferences] at h
    split at h
    · cases h
    next resolved service₁ files₁ _ =>
      exact ((ArtifactSet.items_extend _ _).trans (ArtifactSet.items_extend _ _)).trans (ih h)

variable {host : Host} {config : SessionConfig} {s : Session} {files : FileTree}

theorem executes_start (hstart : start host config = (.ok s, files)) :
    ∃ layers, Framework.discover host.files config.framework config.searchPaths = .ok layers ∧
      ∀ layer ∈ layers, layer.Leads layers →
        ∀ a ∈ layer.executables.items, ∃ b ∈ s.references.items, b.same a := by
  unfold start at hstart
  split at hstart
  · cases hstart
  next layers loaded hload =>
    dsimp only at hstart
    split at hstart
    · cases hstart
    next references service files' hrefs =>
      cases hstart
      obtain ⟨hdiscover, -, hseeded⟩ := ReferenceService.loadFramework_cases hload
      refine ⟨layers, hdiscover, fun layer hlayer hfirst a ha => ?_⟩
      obtain ⟨b, hb, hsame⟩ := (hseeded layer hlayer hfirst).execution a ha
      exact ⟨b, (items_startReferences hrefs).subset hb, hsame⟩

/-- A session holds after any run of calls what it held before it, whatever comes of the calls and
whatever files they find: the imports, references and bindings of the evaluation, the artifacts of
the service in their order, and every module of engine and analysis as it was first loaded. It
starts with the execution modules of every layer of its framework that is the first with its
reference directory. All layers are where the name of the framework holds no separator. -/
theorem session_only_grows (hstart : start host config = (.ok s, files)) (calls : List Call) :
    (∀ c, (s.after calls).GrowsTo ((s.after calls).call c).2) ∧
      (∀ later, (s.after calls).GrowsTo (s.after (calls ++ later))) ∧
      ∃ layers, Framework.discover host.files config.framework config.searchPaths = .ok layers ∧
        (∀ layer ∈ layers, layer.Leads layers →
          ∀ a ∈ layer.executables.items, ∃ b ∈ s.references.items, b.same a) ∧
        (host.files.ProperNames → '/' ∉ config.framework.name.toList →
          ∀ layer ∈ layers, layer.Leads layers) := by
  obtain ⟨layers, hdiscover, hexecutes⟩ := executes_start hstart
  refine ⟨(s.after calls).growsTo_call, fun later => ?_, layers, hdiscover, hexecutes,
    fun hfiles hname => Framework.leads_of_discover hfiles hname hdiscover⟩
  rw [after_append]
  exact growsTo_after _ later

/-- A module that was loaded is still there once its file is deleted, whether the later calls fail,
fault or succeed. -/
theorem growth_of_deleted_module :
    let config : SessionConfig := { searchPaths := ⟨[⟨"/s"⟩], none⟩ }
    let loading := stocked "kmod B, Version=1.0\nexport x = 1"
    let calls : List Call := [⟨loading, "let y = B.x;", [], .never⟩]
    let later : List Call := [⟨.small, "z", [], .never⟩, ⟨.small, "1 / 0;", [], .never⟩]
    ∃ s files m, start loading config = (.ok s, files) ∧
      (s.after calls).GrowsTo (s.after (calls ++ later)) ∧
      (s.after calls).modules.get? "B" = some m ∧
      (s.after (calls ++ later)).modules.get? "B" = some m ∧
      ∃ layers, Framework.discover loading.files config.framework config.searchPaths = .ok layers ∧
        ∀ layer ∈ layers, ∀ a ∈ layer.executables.items, ∃ b ∈ s.references.items, b.same a := by
  intro config loading calls later
  have hruns : ((start loading config).1.toOption.any fun s =>
      ((s.after calls).modules.get? "B").isSome) = true := by decide +kernel
  rcases hstart : start loading config with ⟨_ | s, files⟩
  · rw [hstart] at hruns
    cases hruns
  · rw [hstart] at hruns
    obtain ⟨m, hm⟩ := Option.isSome_iff_exists.1 hruns
    obtain ⟨-, hgrows, layers, hlayers, hexecutes, hleads⟩ := session_only_grows hstart calls
    refine ⟨s, files, m, rfl, hgrows later, hm, (hgrows later).loaded.modules "B" m hm, layers,
      hlayers, fun layer hlayer => ?_⟩
    exact hexecutes layer hlayer (hleads (by decide +kernel) (by decide) layer hlayer)

/-- A framework whose name leads to the reference directory of its base takes the place of the base,
whose execution module a session then starts without. -/
theorem start_misses_base_runtime :
    let stock := (stocked "kmod B, Version=1.0").files
    let host : Host := { Host.small with
      files := ⟨[], stock.entries ++ [(["s", "packs", "Kiln.Core"], .dir),
        (["s", "packs", "Kiln.Core", "1.0"], .dir)]⟩ }
    let config : SessionConfig :=
      { framework := ⟨"../packs/Kiln.Core", none⟩, searchPaths := ⟨[⟨"/s"⟩], none⟩ }
    host.files.ProperNames ∧ ∃ s files top base, start host config = (.ok s, files) ∧
      Framework.discover host.files config.framework config.searchPaths = .ok [top, base] ∧
      base.executables.paths = [⟨true, ["s", "shared", "Kiln.Core", "1.0", "b.dll"]⟩] ∧
      s.references.items = [] := by
  intro stock host config
  have hlayers : (Framework.discover host.files config.framework config.searchPaths).toOption.map
      (·.map (·.executables.paths)) = some
        [[], [⟨true, ["s", "shared", "Kiln.Core", "1.0", "b.dll"]⟩]] := by decide +kernel
  have hreferences : (start host config).1.toOption.map (·.references.items) = some [] := by
    decide +kernel
  obtain ⟨top, base, hdiscover, hbase⟩ := Framework.exists_base_of_map hlayers
  refine ⟨by decide +kernel, ?_⟩
  rcases hstart : start host config with ⟨_ | s, files⟩
  · rw [hstart] at hreferences
    cases hreferences
  · rw [hstart] at hreferences
    exact ⟨s, files, top, base, rfl, hdiscover, hbase, Option.some.inj hreferences⟩

end Session
end ScriptSession
