import ScriptSession.Proofs.Loading
import ScriptSession.Proofs.Provenance

namespace ScriptSession

namespace ModuleTable

/-- Whether a table knows the paths of its modules, and all of them are paths of keys. -/
def Keyed (t : ModuleTable) : Prop :=
  ∀ m ∈ t.toList, t.knowsPath m.path ∧ ∃ k : Key, k.Proper ∧ m.path = k.path

theorem keyed_empty : empty.Keyed := by
  intro m hm
  obtain ⟨name, hname⟩ := mem_toList_iff.1 hm
  cases Std.ExtTreeMap.getElem?_empty.symm.trans hname

theorem path_of_mem_load {files : FileTree} {t t' : ModuleTable} {p : Path} {a : Admission}
    (h : t.load files p = .ok (a, t')) {m : Module} (hm : m ∈ t'.toList) :
    m ∈ t.toList ∨ m.path = p := by
  unfold load at h
  split at h
  · cases h
    exact .inl hm
  · obtain ⟨new, hnew, haccept⟩ := Except.map_eq_ok_iff.1 h
    unfold accept at haccept
    split at haccept
    · split at haccept
      all_goals
        cases haccept
        exact .inl hm
    · cases haccept
      obtain ⟨name, hname⟩ := mem_toList_iff.1 hm
      rw [Std.ExtTreeMap.getElem?_insert] at hname
      split at hname
      · cases hname
        exact .inr (ModuleFile.path_load hnew)
      · exact .inl (mem_toList_iff.2 ⟨name, hname⟩)

theorem Keyed.load {files : FileTree} {t t' : ModuleTable} (h : t.Keyed) {k : Key} (hk : k.Proper)
    {a : Admission} (hload : t.load files k.path = .ok (a, t')) (ha : ∀ i, a ≠ .conflict i) :
    t'.Keyed := by
  obtain ⟨hknown, hmono⟩ := knowsPath_load hload ha
  intro m hm
  obtain hold | hnew := path_of_mem_load hload hm
  · obtain ⟨hpath, hkey⟩ := h m hold
    exact ⟨hmono _ hpath, hkey⟩
  · rw [hnew]
    exact ⟨hknown, k, hk, rfl⟩

end ModuleTable

theorem Engine.keyed_loadReferences {files : FileTree} {t t' : ModuleTable} {paths : List Path}
    (h : t.Keyed) (hpaths : ∀ p ∈ paths, ∃ k : Key, k.Proper ∧ p = k.path)
    (hload : loadReferences files t paths = .ok t') : t'.Keyed := by
  induction paths generalizing t with
  | nil =>
    cases hload
    exact h
  | cons p rest ih =>
    obtain ⟨⟨k, hk, rfl⟩, hrest⟩ := List.forall_mem_cons.1 hpaths
    rw [loadReferences] at hload
    split at hload
    · cases hload
    · cases hload
    next a u hnot hp =>
      have hkeyed : u.Keyed := h.load hk hp fun i hi => by
        exact hnot i hi
      exact ih hkeyed hrest hload

namespace Evaluator

theorem mem_enginePaths {references : ArtifactSet} {p : Path} : p ∈ enginePaths references ↔
    ∃ a ∈ references.items, a.role.servesExecution ∧ ∃ k, a.key = some k ∧ p = k.path := by
  unfold enginePaths
  rw [List.mem_filterMap]
  constructor
  · rintro ⟨a, ha, hp⟩
    obtain ⟨hmem, hrole⟩ := List.mem_filter.1 ha
    obtain ⟨k, hk, rfl⟩ := Option.map_eq_some_iff.1 hp
    exact ⟨a, hmem, hrole, k, hk, rfl⟩
  · rintro ⟨a, hmem, hrole, k, hk, rfl⟩
    exact ⟨a, List.mem_filter.2 ⟨hmem, hrole⟩, Option.map_eq_some_iff.2 ⟨k, hk, rfl⟩⟩

theorem keys_referenced (references : ArtifactSet) (state : EngineState) :
    (referenced references state).map (·.key) =
      state.referencedPaths.map fun p => some (Key.ofPath p) := by
  unfold referenced
  rw [List.map_map]
  apply List.map_congr_left
  intro p _
  dsimp only [Function.comp]
  cases hget : references.get? (Key.ofPath p) with
  | none => rfl
  | some a => exact ArtifactSet.key_of_get? hget

theorem mem_referencedPaths {state : EngineState} {p : Path} :
    p ∈ state.referencedPaths ↔ ∃ m ∈ state.modules.toList, m.path = p := by
  unfold EngineState.referencedPaths
  rw [(List.mergeSort_perm _ _).mem_iff, List.mem_map]

variable {references : ArtifactSet} {state : EngineState}

theorem mem_keys_referenced {key : Option Key} :
    key ∈ (referenced references state).map (·.key) ↔
      ∃ m ∈ state.modules.toList, key = some (.ofPath m.path) := by
  rw [keys_referenced, List.mem_map]
  constructor
  · rintro ⟨p, hp, rfl⟩
    obtain ⟨m, hm, rfl⟩ := mem_referencedPaths.1 hp
    exact ⟨m, hm, rfl⟩
  · rintro ⟨m, hm, rfl⟩
    exact ⟨m.path, mem_referencedPaths.2 ⟨m, hm, rfl⟩, rfl⟩

theorem proper_of_mem_referenced {a : Artifact} (h : a ∈ referenced references state) :
    a.Proper := by
  obtain ⟨m, -, hkey⟩ := mem_keys_referenced.1 (List.mem_map_of_mem h)
  exact Artifact.proper_of_path hkey

end Evaluator

/-- Whether a link of the chain can be gone on from without the disk: the modules of its references
are loaded, and it was decided what stands for them. -/
structure Link.Settled (service : ReferenceService) (l : Link) : Prop where
  references : l.references.Proper
  keyed : l.engine.modules.Keyed
  loaded : ∀ p ∈ Evaluator.enginePaths l.references, l.engine.modules.knowsPath p
  decided : ∀ m ∈ l.engine.modules.toList, service.Decided (.ofPath m.path)

namespace Evaluator

variable {files : FileTree} {p : Prepared} {s t : ReferenceService} {link : Option Link}
  {args : List String} {cancel : Cancellation} {result : EvaluationResult} {a : Advance}

/-- Where a submission moves the chain on, its modules are recorded and reconciled, and what was
found for them joins the references. -/
theorem exists_reconciled_of_complete
    (h : complete files p s link args cancel = (result, some a, t)) :
    ∃ options new u reconciled, options.references = enginePaths p.references ∧
      Engine.run files p.code options (link.map (·.engine)) cancel.atEngine =
        .ok (a.link.engine, a.printed) ∧
      s.record (referenced p.references a.link.engine) = (new, u) ∧
      u.reconcile files (referenced p.references a.link.engine) = (reconciled, t) ∧
      a.link.references = p.references.extend reconciled.items := by
  unfold complete at h
  dsimp only at h
  split at h
  · cases h
  · cases h
  next hrun =>
    cases h
    exact ⟨_, _, _, _, rfl, hrun, rfl, rfl, rfl⟩

theorem knowsPath_of_reconciled {references : ArtifactSet} {state : EngineState}
    {found : List Artifact} (hkeyed : state.modules.Keyed)
    (h : s.Reconciles t ((referenced references state).map (·.key)) found) {b : Artifact}
    (hb : b ∈ found) (hrole : b.role.servesExecution) {k : Key} (hk : b.key = some k) :
    state.modules.knowsPath k.path := by
  obtain hanalysis | hkey := (h.stands b hb).2
  · rw [hanalysis] at hrole
    cases hrole
  · obtain ⟨m, hm, hkey⟩ := mem_keys_referenced.1 hkey
    obtain ⟨hknown, k', hk', hpath⟩ := hkeyed m hm
    rw [hpath, Key.ofPath_path hk', hk] at hkey
    cases hkey
    rwa [hpath] at hknown

theorem settled_complete (hs : s.Sound) (hreferences : p.references.Proper)
    (hkeyed : (Engine.base (link.map (·.engine))).modules.Keyed)
    (h : complete files p s link args cancel = (result, some a, t)) :
    t.Sound ∧ a.link.Settled t := by
  obtain ⟨options, new, u, reconciled, hoptions, hrun, hrecord, hreconcile, hlink⟩ :=
    exists_reconciled_of_complete h
  have hused : ∀ b ∈ referenced p.references a.link.engine, b.Proper := by
    intro b hb
    exact proper_of_mem_referenced hb
  obtain ⟨hu, -, -⟩ := hs.record hused hrecord
  have hreconciles := hu.reconcile hused hreconcile
  obtain ⟨-, modules, script, checked, hload, -, -, hexecute⟩ := Engine.run_eq_ok_iff.1 hrun
  have hmodules : modules = a.link.engine.modules := congrArg (·.1.modules) hexecute
  rw [hmodules, hoptions] at hload
  have hpaths : ∀ q ∈ enginePaths p.references, ∃ k : Key, k.Proper ∧ q = k.path := by
    intro q hq
    obtain ⟨b, hb, -, k, hk, rfl⟩ := mem_enginePaths.1 hq
    exact ⟨k, hreferences b hb k hk, rfl⟩
  have hkeyed' : a.link.engine.modules.Keyed := Engine.keyed_loadReferences hkeyed hpaths hload
  refine ⟨hreconciles.sound, ?_, hkeyed', ?_, ?_⟩
  · rw [hlink]
    exact hreferences.extend fun b hb => (hreconciles.stands b hb).1
  · intro q hq
    rw [hlink] at hq
    obtain ⟨b, hb, hrole, k, hk, rfl⟩ := mem_enginePaths.1 hq
    -- it was loaded by this run, or stands for a module that is loaded
    obtain hold | hnew := ArtifactSet.mem_of_mem_extend hb
    · have hpath := mem_enginePaths.2 ⟨b, hold, hrole, k, hk, rfl⟩
      exact (Engine.knowsPath_loadReferences hload).1 _ hpath
    · exact knowsPath_of_reconciled hkeyed' hreconciles hnew hrole hk
  · intro m hm
    exact hreconciles.decided _ (mem_keys_referenced.2 ⟨m, hm, rfl⟩)

theorem proper_of_prepare {e : Evaluator} {host : Host} {text : String} (hs : s.Sound)
    (hreferences : (e.references link).Proper)
    (h : e.prepare host s link text cancel = (.ok p, t, files)) : p.references.Proper := by
  unfold prepare at h
  split at h
  · cases h
  · dsimp only at h
    rcases hr : resolveAll host e.settings cancel.atStart s (e.references link)
      (Directive.scan text) with ⟨(_ | _) | references, u, files'⟩
    all_goals
      rw [hr] at h
      cases h
    exact proper_of_resolveAll hs hreferences hr

end Evaluator

namespace Session

/-- Whether a session hands out proper artifacts, and has a settled link once it has moved on. -/
structure Settled (s : Session) : Prop where
  service : s.service.Sound
  initial : s.evaluator.initialReferences.Proper
  link : ∀ l, s.link = some l → l.Settled s.service

variable {host : Host} {config : SessionConfig} {s s' : Session} {files : FileTree}

theorem settled_of_start (h : start host config = (.ok s, files)) : s.Settled := by
  unfold start at h
  split at h
  · cases h
  next layers loaded hload =>
    dsimp only at h
    split at h
    · cases h
    next references service files' hrefs =>
      cases h
      have hloaded := ReferenceService.sound_of_loadFramework hload
      obtain ⟨hproper, hsound⟩ := proper_of_startReferences hloaded hloaded.execution hrefs
      refine ⟨hsound, hproper, fun l hl => ?_⟩
      cases hl

theorem Settled.references (h : s.Settled) : (s.evaluator.references s.link).Proper := by
  unfold Evaluator.references
  cases hlink : s.link with
  | none => exact h.initial
  | some l => exact (h.link l hlink).references

theorem Settled.keyed (h : s.Settled) :
    (Engine.base (s.link.map (·.engine))).modules.Keyed := by
  cases hlink : s.link with
  | none => exact ModuleTable.keyed_empty
  | some l => exact (h.link l hlink).keyed

theorem Settled.counted (h : s.Settled) (n : Nat) : (s.counted n).Settled := by
  refine ⟨h.service.counted n, h.initial, fun l hl => ?_⟩
  have hlink := h.link l hl
  exact ⟨hlink.references, hlink.keyed, hlink.loaded, hlink.decided⟩

theorem Settled.evaluateWith (h : s.Settled) (hb : s.busy = false) {text : String}
    {args : List String} {cancel : Cancellation} {outcome : EvaluationResult × String}
    (hcall : s.evaluateWith host text args cancel = (outcome, s', files)) : s'.Settled := by
  obtain ⟨prepared, t, hp, hcases⟩ := evaluateWith_cases hb hcall
  obtain ⟨⟨n, rfl⟩, -⟩ := Evaluator.prepare_counted hp
  obtain ⟨result, -, -, rfl⟩ | ⟨p, result, advance, u, rfl, hc, hcases⟩ := hcases
  · exact h.counted n
  · obtain ⟨rfl, -, rfl⟩ | ⟨a, rfl, -, rfl⟩ := hcases
    · obtain ⟨-, -, rfl⟩ | ⟨a, _, ha, -⟩ := Evaluator.complete_cases hc
      · exact h.counted n
      · cases ha
    · have hreferences := Evaluator.proper_of_prepare h.service h.references hp
      obtain ⟨hsound, hlink⟩ :=
        Evaluator.settled_complete (h.service.counted n) hreferences h.keyed hc
      refine ⟨hsound, h.initial, fun l hl => ?_⟩
      cases hl
      exact hlink

theorem Settled.after (h : s.Settled) (hb : s.busy = false) (calls : List Call) :
    (s.after calls).Settled := by
  induction calls generalizing s with
  | nil => exact h
  | cons c rest ih =>
    rcases hcall : s.evaluateWith c.host c.text c.args c.cancel with ⟨outcome, s', files⟩
    have hbusy : (s.call c).2.busy = false := (call_step hb c).busy.trans hb
    have hafter : s.after (c :: rest) = (s.call c).2.after rest := rfl
    rw [hafter]
    rw [call_eq hcall] at hbusy ⊢
    exact ih (h.evaluateWith hb hcall) hbusy

theorem exists_link_after (hstart : start host config = (.ok s, files)) {calls : List Call}
    (hmoved : ∃ result ∈ s.results calls, result.advances = true) :
    ∃ l, (s.after calls).link = some l := by
  have hcount : 0 < (s.results calls).countP (·.advances) := List.countP_pos_iff.2 hmoved
  have hgeneration := (linked_after hstart calls).evaluation
  cases hlink : (s.after calls).link with
  | none =>
    rw [hlink] at hgeneration
    exact absurd hgeneration (Nat.ne_of_lt hcount)
  | some l => exact ⟨l, rfl⟩

end Session

/-- Where all references are known to the prior state, a submission does not depend on the files. -/
theorem Engine.run_of_knowsPath {text : String} {options : Options} {prior : Option EngineState}
    {cancelled : Bool} (h : ∀ p ∈ options.references, (base prior).modules.knowsPath p)
    (files files' : FileTree) :
    run files text options prior cancelled = run files' text options prior cancelled := by
  have hload (files : FileTree) : loadReferences files (prior.getD .initial).modules
      options.references = .ok (base prior).modules := loadReferences_of_knowsPath h
  unfold run
  dsimp only
  rw [hload, hload]

theorem Engine.modules_of_knowsPath {files : FileTree} {text : String} {options : Options}
    {prior : Option EngineState} {cancelled : Bool} {state : EngineState} {printed : String}
    (h : ∀ p ∈ options.references, (base prior).modules.knowsPath p)
    (hrun : run files text options prior cancelled = .ok (state, printed)) :
    state.modules = (base prior).modules := by
  obtain ⟨-, modules, script, checked, hload, -, -, hexecute⟩ := run_eq_ok_iff.1 hrun
  rw [loadReferences_of_knowsPath h] at hload
  cases hload
  exact (congrArg (·.1.modules) hexecute).symm

theorem ReferenceService.reconcile_of_decided {s : ReferenceService} {as : List Artifact}
    (h : ∀ k, some k ∈ as.map (·.key) → s.Decided k) :
    ∃ result, ∀ files, s.reconcile files as = (result, s) := by
  have hone (a : Artifact) (ha : ∀ k, a.key = some k → s.Decided k) :
      ∃ outcome, ∀ files, s.reconcileOne files a = (outcome, s) := by
    cases hk : a.key with
    | none => exact ⟨some a, fun files => reconcileOne_of_anonymous files s hk⟩
    | some k =>
      obtain ⟨r, hr⟩ := Option.isSome_iff_exists.1 (ha k hk)
      exact ⟨r.artifact?, fun files => reconcileOne_of_cached files hk hr⟩
  induction as using List.reverseRecOn with
  | nil => exact ⟨.empty, fun files => rfl⟩
  | append_singleton as a ih =>
    rw [List.map_append] at h
    obtain ⟨done, hdone⟩ := ih fun k hk => h k (List.mem_append_left _ hk)
    obtain ⟨outcome, houtcome⟩ := hone a fun k hk =>
      h k (List.mem_append_right _ (List.mem_singleton.2 hk.symm))
    refine ⟨done.extend outcome.toList, fun files => ?_⟩
    rw [reconcile_snoc, hdone, houtcome]

namespace Evaluator

variable {s : ReferenceService}

theorem prepare_of_scan (e : Evaluator) (s : ReferenceService) (link : Option Link)
    (cancel : Cancellation) {text : String} (htext : Directive.scan text = []) :
    ∃ prepared, (∀ p, prepared = .ok p → p.references = e.references link) ∧
      ∀ host, e.prepare host s link text cancel = (prepared, s, host.files) := by
  unfold prepare
  rw [htext]
  by_cases hstart : cancel.atStart = true
  · simp only [if_pos hstart]
    exact ⟨.error .cancelled, nofun, fun host => rfl⟩
  · simp only [if_neg hstart]
    refine ⟨_, fun p hp => ?_, fun host => rfl⟩
    cases hp
    rfl

theorem complete_of_settled (hs : s.Sound) {l : Link} (hl : l.Settled s) {p : Prepared}
    (hp : p.references = l.references) (args : List String) (cancel : Cancellation)
    (files files' : FileTree) :
    complete files p s (some l) args cancel = complete files' p s (some l) args cancel ∧
      (complete files p s (some l) args cancel).2.2.probes = s.probes := by
  have hknown : ∀ q ∈ enginePaths p.references, l.engine.modules.knowsPath q := by
    rw [hp]
    exact hl.loaded
  unfold complete
  dsimp only
  rw [Engine.run_of_knowsPath hknown files files']
  split
  · exact ⟨rfl, rfl⟩
  · exact ⟨rfl, rfl⟩
  next state printed hrun =>
    have hmodules : state.modules = l.engine.modules := Engine.modules_of_knowsPath hknown hrun
    rcases hrecord : s.record (referenced p.references state) with ⟨new, u⟩
    obtain ⟨-, hcache, hprobes⟩ := hs.record (fun b hb => proper_of_mem_referenced hb) hrecord
    have hdecided : ∀ k, some k ∈ (referenced p.references state).map (·.key) → u.Decided k := by
      intro k hk
      obtain ⟨m, hm, hkey⟩ := mem_keys_referenced.1 hk
      rw [hmodules] at hm
      cases hkey
      unfold ReferenceService.Decided
      rw [hcache]
      exact hl.decided m hm
    obtain ⟨reconciled, hreconcile⟩ := ReferenceService.reconcile_of_decided hdecided
    dsimp only
    rw [hreconcile, hreconcile]
    exact ⟨rfl, hprobes⟩

end Evaluator

namespace Session

variable {host : Host} {config : SessionConfig} {s : Session} {files : FileTree}

section Call

variable {text : String} {args : List String} {cancel : Cancellation} {h₁ h₂ : Host}
  {outcome₁ outcome₂ : EvaluationResult × String} {next₁ next₂ : Session} {files₁ files₂ : FileTree}

/-- From a settled link a text without directives is evaluated to the same on any two hosts. -/
theorem evaluateWith_of_settled (h : s.Settled) (hb : s.busy = false) {l : Link}
    (hl : s.link = some l) (htext : Directive.scan text = [])
    (hcall₁ : s.evaluateWith h₁ text args cancel = (outcome₁, next₁, files₁))
    (hcall₂ : s.evaluateWith h₂ text args cancel = (outcome₂, next₂, files₂)) :
    outcome₁ = outcome₂ ∧ next₁ = { next₂ with workspace := next₁.workspace } ∧
      next₁.service.probes = s.service.probes ∧ files₁ = h₁.files := by
  obtain ⟨prepared, hreferences, hprepare⟩ :=
    Evaluator.prepare_of_scan s.evaluator s.service s.link cancel htext
  obtain ⟨prepared₁, t₁, hp₁, hcases₁⟩ := evaluateWith_cases hb hcall₁
  obtain ⟨prepared₂, t₂, hp₂, hcases₂⟩ := evaluateWith_cases hb hcall₂
  cases (hprepare h₁).symm.trans hp₁
  cases (hprepare h₂).symm.trans hp₂
  -- taken up alike, both calls end there or both go on to the engine
  obtain ⟨result₁, hr₁, rfl, rfl⟩ | ⟨p₁, result₁, advance₁, u₁, hr₁, hc₁, hnext₁⟩ := hcases₁
  all_goals
    obtain ⟨result₂, hr₂, rfl, rfl⟩ | ⟨p₂, result₂, advance₂, u₂, hr₂, hc₂, hnext₂⟩ := hcases₂
    all_goals cases hr₁.symm.trans hr₂
  · exact ⟨rfl, rfl, rfl, rfl⟩
  · have hp : p₁.references = l.references := by
      rw [hreferences p₁ hr₁, hl]
      rfl
    obtain ⟨hsame, hprobes⟩ :=
      Evaluator.complete_of_settled h.service (h.link l hl) hp args cancel h₁.files h₂.files
    rw [hl] at hc₁ hc₂
    rw [hc₁] at hprobes
    cases hc₁.symm.trans (hsame.trans hc₂)
    obtain ⟨rfl, rfl, rfl⟩ | ⟨a₁, rfl, rfl, rfl⟩ := hnext₁
    all_goals obtain ⟨ha, rfl, rfl⟩ | ⟨a₂, ha, rfl, rfl⟩ := hnext₂
    all_goals cases ha
    · exact ⟨rfl, rfl, hprobes, rfl⟩
    · exact ⟨rfl, rfl, hprobes, rfl⟩

end Call

/-- A session that has moved on holds all that the next submissions need: the modules of its
references are loaded, and for each it was decided what stands for it. So a text without directives
is evaluated without the disk: to the same result, with the same output and the same session after
it up to the analysis document, whatever files there are. It takes no probe and changes no file. -/
theorem continuation_ignores_disk (hstart : start host config = (.ok s, files)) (calls : List Call)
    (hmoved : ∃ result ∈ s.results calls, result.advances = true) {text : String}
    (htext : Directive.scan text = []) (args : List String) (cancel : Cancellation) :
    (∃ l, (s.after calls).link = some l ∧ l.Settled (s.after calls).service) ∧
      ∀ h₁ h₂ : Host,
        let (outcome₁, next₁, files₁) := (s.after calls).evaluateWith h₁ text args cancel
        let (outcome₂, next₂, _) := (s.after calls).evaluateWith h₂ text args cancel
        outcome₁ = outcome₂ ∧ next₁ = { next₂ with workspace := next₁.workspace } ∧
          next₁.service.probes = (s.after calls).service.probes ∧ files₁ = h₁.files := by
  have hidle : (s.after calls).busy = false := busy_after hstart calls
  have hfirst : s.busy = false := busy_after hstart []
  have hsettled : (s.after calls).Settled := (settled_of_start hstart).after hfirst calls
  obtain ⟨l, hl⟩ := exists_link_after hstart hmoved
  refine ⟨⟨l, hl, hsettled.link l hl⟩, ?_⟩
  intro h₁ h₂
  exact evaluateWith_of_settled hsettled hidle hl htext rfl rfl

def stocked (text : String) : Host where
  files := { Host.small.files with
    entries := Host.small.files.entries ++
      [(["s", "shared", "Kiln.Core", "1.0", "b.dll"], .file text.toUTF8)] }
  tools _ _ _ := .error .notFound

/-- A session goes on where the module that it loaded is deleted, or another stands in its place. -/
theorem continuation_of_deleted_module :
    let config : SessionConfig := { searchPaths := ⟨[⟨"/s"⟩], none⟩ }
    let loading := stocked "kmod B, Version=1.0\nexport x = 1"
    let rewritten := stocked "kmod B, Version=2.0\nexport x = true"
    let calls : List Call := [⟨loading, "let y = B.x;", [], .never⟩]
    ∃ s files, start loading config = (.ok s, files) ∧
      ((s.after calls).evaluateWith .small "y + B.x" [] .never).1.1.advances = true ∧
      ((s.after calls).evaluateWith rewritten "y + B.x" [] .never).1 =
        ((s.after calls).evaluateWith .small "y + B.x" [] .never).1 := by
  intro config loading rewritten calls
  have hruns : ((start loading config).1.toOption.map fun s =>
      ((s.results calls).any (·.advances),
        ((s.after calls).evaluateWith .small "y + B.x" [] .never).1.1.advances)) =
      some (true, true) := by decide +kernel
  rcases hstart : start loading config with ⟨_ | s, files⟩
  · rw [hstart] at hruns
    cases hruns
  · rw [hstart] at hruns
    obtain ⟨hmoved, hsecond⟩ := Prod.mk.inj (Option.some.inj hruns)
    have hscan : Directive.scan "y + B.x" = [] := by decide +kernel
    obtain ⟨-, hsame⟩ := continuation_ignores_disk hstart calls (List.any_eq_true.1 hmoved) hscan []
      .never
    exact ⟨s, files, rfl, hsecond, (hsame rewritten .small).1⟩

end Session
end ScriptSession
