import ScriptSession.Proofs.AnalysisView

namespace ScriptSession

namespace ReferenceService

/-- Whether some calls lead from one service to another, none of which loads a framework. -/
def Reaches (s t : ReferenceService) : Prop :=
  ∃ calls : List ServiceCall, (∀ c ∈ calls, ¬ c.loads) ∧ t = s.after calls

section Reaches

variable {s t u : ReferenceService}

theorem Reaches.refl (s : ReferenceService) : s.Reaches s :=
  ⟨[], List.forall_mem_nil _, rfl⟩

theorem Reaches.trans (h : s.Reaches t) (h' : t.Reaches u) : s.Reaches u := by
  obtain ⟨calls, hcalls, rfl⟩ := h
  obtain ⟨later, hlater, rfl⟩ := h'
  exact ⟨calls ++ later, List.forall_mem_append.2 ⟨hcalls, hlater⟩, (after_append ..).symm⟩

theorem reaches_serve (s : ReferenceService) {c : ServiceCall} (h : ¬ c.loads) :
    s.Reaches (s.serve c) :=
  ⟨[c], List.forall_mem_singleton.2 h, rfl⟩

theorem reaches_findExecution (files : FileTree) (s : ReferenceService) (name : String) :
    s.Reaches (s.findExecution files name).2 :=
  s.reaches_serve (c := ⟨files, .find name⟩) Bool.false_ne_true

theorem reaches_record_reconcile (files : FileTree) (s : ReferenceService) (as : List Artifact) :
    s.Reaches ((s.record as).2.reconcile files as).2 :=
  (s.reaches_serve (c := ⟨files, .record as⟩) Bool.false_ne_true).trans
    (reaches_serve _ (c := ⟨files, .reconcile as⟩) Bool.false_ne_true)

end Reaches

/-- A framework that is loaded first, and then calls that load none, are a run with its frameworks
first. -/
theorem Reaches.exists_run {loaded t : ReferenceService} (h : loaded.Reaches t) {files : FileTree}
    {framework : FrameworkRequest} {paths : SearchPaths} {layers : List Layer}
    (hload : empty.loadFramework files framework paths = .ok (layers, loaded)) :
    ∃ run, LoadsFirst run ∧ (∀ c ∈ run, c.loads → c.files = files) ∧ t = empty.after run := by
  obtain ⟨calls, hcalls, rfl⟩ := h
  refine ⟨⟨files, .load framework paths⟩ :: calls, ?_, ?_, ?_⟩
  · refine List.pairwise_cons.2 ⟨fun d hd _ => hcalls d hd, ?_⟩
    exact List.pairwise_of_forall_mem_list fun c _ d hd _ => hcalls d hd
  · exact List.forall_mem_cons.2 ⟨fun _ => rfl, fun c hc hloads => absurd hloads (hcalls c hc)⟩
  · have hserve : empty.serve ⟨files, .load framework paths⟩ = loaded := by
      unfold serve
      dsimp only
      rw [hload]
    change loaded.after calls = (empty.serve ⟨files, .load framework paths⟩).after calls
    rw [hserve]

end ReferenceService

theorem Resolver.reaches_resolve (host : Host) (settings : ResolverSettings)
    (s : ReferenceService) (cancelled : Bool) (d : Directive) :
    s.Reaches (resolve host settings s cancelled d).2.1 := by
  unfold resolve
  cases owner d with
  | package | project => exact .refl s
  | assembly =>
    unfold resolveAssembly
    dsimp only
    split
    · exact .refl s
    · split
      · exact .refl s
      · have hfind := s.reaches_findExecution host.files (String.ofList (Text.trim d.value.toList))
        split
        next he =>
          rw [he] at hfind
          exact hfind
        next he =>
          rw [he] at hfind
          exact hfind

namespace Evaluator

theorem reaches_resolveAll (host : Host) (settings : ResolverSettings) (cancelled : Bool)
    (s : ReferenceService) (references : ArtifactSet) (directives : List Directive) :
    s.Reaches (resolveAll host settings cancelled s references directives).2.1 := by
  induction directives generalizing host s references with
  | nil => exact .refl s
  | cons d rest ih =>
    have hfirst := Resolver.reaches_resolve host settings s cancelled d
    rw [resolveAll]
    split
    next he =>
      rw [he] at hfirst
      exact hfirst.trans (ih _ _ _)
    next he =>
      rw [he] at hfirst
      exact hfirst

theorem reaches_prepare {host : Host} {e : Evaluator} {s t : ReferenceService} {link : Option Link}
    {text : String} {cancel : Cancellation} {prepared : Except EvaluationResult Prepared}
    {files : FileTree} (h : e.prepare host s link text cancel = (prepared, t, files)) :
    s.Reaches t := by
  unfold prepare at h
  split at h
  · cases h
    exact .refl s
  · have hall := reaches_resolveAll host e.settings cancel.atStart s (e.references link)
      (Directive.scan text)
    rcases hr : resolveAll host e.settings cancel.atStart s (e.references link)
      (Directive.scan text) with ⟨(_ | _) | references, u, files'⟩
    all_goals
      rw [hr] at hall
      dsimp only at h
      rw [hr] at h
      cases h
      exact hall

theorem reaches_complete {files : FileTree} {p : Prepared} {s t : ReferenceService}
    {link : Option Link} {args : List String} {cancel : Cancellation} {result : EvaluationResult}
    {advance : Option Advance} (h : complete files p s link args cancel = (result, advance, t)) :
    s.Reaches t := by
  unfold complete at h
  dsimp only at h
  split at h
  · cases h
    exact .refl s
  · cases h
    exact .refl s
  · cases h
    exact s.reaches_record_reconcile files _

end Evaluator

namespace Session

theorem reaches_startReferences {host : Host} {settings : ResolverSettings}
    {service service' : ReferenceService} {references references' : ArtifactSet}
    {values : List String} {files : FileTree}
    (h : startReferences host settings service references values =
      (.ok (references', service'), files)) : service.Reaches service' := by
  induction values generalizing host service references with
  | nil =>
    cases h
    exact .refl _
  | cons value rest ih =>
    have hresolve := Resolver.reaches_resolve host settings service false (.detached value)
    rw [startReferences] at h
    split at h
    · cases h
    next resolved service₁ files₁ he =>
      rw [he] at hresolve
      exact (hresolve.trans (service₁.reaches_record_reconcile files₁ resolved)).trans (ih h)

variable {host : Host} {config : SessionConfig} {s : Session} {files : FileTree}

theorem reaches_call (hb : s.busy = false) (c : Call) :
    s.service.Reaches (s.call c).2.service := by
  rcases hcall : s.evaluateWith c.host c.text c.args c.cancel with ⟨outcome, s', files'⟩
  rw [call_eq hcall]
  obtain ⟨prepared, t, hp, hcases⟩ := evaluateWith_cases hb hcall
  obtain ⟨result, -, -, rfl⟩ | ⟨p, result, advance, u, -, hc, hcases⟩ := hcases
  · exact Evaluator.reaches_prepare hp
  · have hboth := (Evaluator.reaches_prepare hp).trans (Evaluator.reaches_complete hc)
    obtain ⟨-, -, rfl⟩ | ⟨a, -, -, rfl⟩ := hcases
    · exact hboth
    · exact hboth

theorem reaches_after (hb : s.busy = false) (calls : List Call) :
    s.service.Reaches (s.after calls).service := by
  induction calls generalizing s with
  | nil => exact .refl _
  | cons c rest ih =>
    exact (reaches_call hb c).trans (ih ((call_step hb c).busy.trans hb))

theorem service_after (hstart : start host config = (.ok s, files)) (calls : List Call) :
    ∃ run, ReferenceService.LoadsFirst run ∧ (∀ c ∈ run, c.loads → c.files = host.files) ∧
      (s.after calls).service = ReferenceService.empty.after run := by
  unfold start at hstart
  split at hstart
  · cases hstart
  next layers loaded hload =>
    dsimp only at hstart
    split at hstart
    · cases hstart
    next references service files' hrefs =>
      cases hstart
      exact ((reaches_startReferences hrefs).trans (reaches_after rfl calls)).exists_run hload

/-- No document of a session has an implementation module among its artifacts. -/
theorem documents_hold_no_implementation (hstart : start host config = (.ok s, files))
    (hnames : host.files.ProperNames) (calls : List Call) :
    ∀ a ∈ (s.after calls).workspace.current.project.artifacts.items,
      (s.after calls).service.Admits a := by
  intro a ha
  obtain ⟨run, hfirst, hloads, hservice⟩ := service_after hstart calls
  rw [(linked_after hstart calls).artifacts, hservice] at ha
  rw [hservice]
  have hoffers := (ReferenceService.offers_after hfirst fun c hc hl => hloads c hc hl ▸ hnames).1
  exact hoffers.analysis a ha

end Session
end ScriptSession
