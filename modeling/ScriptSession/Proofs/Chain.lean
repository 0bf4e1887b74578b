import Mathlib.Data.List.Nodup
import ScriptSession.Proofs.Framework
import ScriptSession.Proofs.Run
import ScriptSession.Proofs.Submission

namespace ScriptSession

theorem Engine.run_generation {files : FileTree} {text : String} {options : Options}
    {prior : Option EngineState} {cancelled : Bool} {state : EngineState} {printed : String}
    (h : run files text options prior cancelled = .ok (state, printed)) :
    state.generation = (prior.map (·.generation)).getD 0 + 1 := by
  obtain ⟨-, modules, script, checked, -, -, -, he⟩ := run_eq_ok_iff.1 h
  have hprior : (base prior).generation = (prior.map (·.generation)).getD 0 := by
    cases prior <;> rfl
  rw [← hprior]
  exact (congrArg (fun r : EngineState × String => r.1.generation) he).symm

namespace Session

/-- Whether the parts of a session agree once `n` submissions were folded in, where `configured`
are the imports that it started with. -/
structure Linked (configured : Names) (n : Nat) (s : Session) : Prop where
  evaluation : (s.link.map (·.generation)).getD 0 = n
  engine : (s.link.map (·.engine.generation)).getD 0 = n
  ancestors : s.workspace.current.earlier.length = n
  text : s.workspace.current.text = s.workspace.current.committedText
  imports : s.workspace.current.project.imports = (s.link.map (·.imports)).getD configured
  artifacts : s.workspace.current.project.artifacts = s.service.analysis
  ids : ∀ p ∈ s.workspace.current.chain, p.id < s.workspace.nextId
  distinct : (s.workspace.current.chain.map (·.id)).Nodup

theorem chain_commit (files : FileTree) (w : Workspace) (text : String) (artifacts : ArtifactSet)
    (imports : Names) : (w.commit files text artifacts imports).current.chain =
      w.current.chain ++ [(w.commit files text artifacts imports).current.project] := by
  unfold Document.chain
  rw [List.reverse_cons]
  rfl

theorem linked_fresh (files : FileTree) (config : SessionConfig) (settings : ResolverSettings)
    (references : ArtifactSet) (service : ReferenceService) :
    (fresh files config settings references service).Linked (Names.extend ∅ config.imports) 0 := by
  refine ⟨rfl, rfl, rfl, rfl, rfl, rfl, ?_, List.nodup_singleton _⟩
  exact List.forall_mem_singleton.2 (Nat.zero_lt_one)

theorem Linked.step {configured : Names} {n : Nat} {s s' : Session} {c : Call}
    {result : EvaluationResult} (h : s.Linked configured n) (hstep : Step s c result s') :
    s'.Linked configured (n + result.advances.toNat) := by
  cases hstep with
  | stays hresult hkeeps =>
    rw [hresult]
    exact ⟨h.evaluation, h.engine, h.ancestors, h.text, h.imports, h.artifacts.trans hkeeps.2.symm,
      h.ids, h.distinct⟩
  | @moves files service link options printed hresult _ hrun hgeneration =>
    rw [hresult]
    have hbelow : ∀ id ∈ s.workspace.current.chain.map (·.id), id < s.workspace.nextId :=
      List.forall_mem_map.2 h.ids
    constructor
    · exact hgeneration.trans (congrArg (· + 1) h.evaluation)
    · have hengine := Engine.run_generation hrun
      rw [Option.map_map] at hengine
      exact hengine.trans (congrArg (· + 1) h.engine)
    · exact congrArg (· + 1) h.ancestors
    · dsimp only
      rw [Document.committedText_commit, ← h.text]
      rfl
    · rfl
    · rfl
    · dsimp only
      rw [chain_commit, List.forall_mem_append]
      refine ⟨fun p hp => Nat.lt_succ_of_lt (h.ids p hp), ?_⟩
      exact List.forall_mem_singleton.2 (Nat.lt_succ_self _)
    · dsimp only
      rw [chain_commit, List.map_append, List.nodup_append]
      refine ⟨h.distinct, List.nodup_singleton _, fun id hid next hnext => ?_⟩
      cases List.mem_singleton.1 hnext
      exact Nat.ne_of_lt (hbelow id hid)

variable {host : Host} {config : SessionConfig} {s : Session} {files : FileTree}

/-- After any run of calls the parts of a session agree on how many submissions were folded in. -/
theorem linked_after (hstart : start host config = (.ok s, files)) (calls : List Call) :
    (s.after calls).Linked (Names.extend ∅ config.imports)
      ((s.results calls).countP (·.advances)) := by
  obtain ⟨_, _, settings, references, service, -, -, rfl⟩ := start_cases hstart
  have hrun := run_induction (motive := Linked (Names.extend ∅ config.imports)) (fun _ => True)
    (fun n s c result s' _ h hstep => h.step hstep) 0 calls rfl (fun _ _ => trivial)
    (linked_fresh files config settings references service)
  rwa [Nat.zero_add] at hrun

theorem Step.grows {s s' : Session} {c : Call} {result : EvaluationResult}
    (h : Step s c result s') : s.service.Grows s'.service := by
  cases h with
  | stays _ hkeeps => exact hkeeps.grows
  | moves _ hgrows => exact hgrows

theorem framework_after (hstart : start host config = (.ok s, files)) (calls : List Call) :
    ∃ layers, Framework.discover host.files config.framework config.searchPaths = .ok layers ∧
      (s.after calls).service.frameworks = [layers] ∧
      ∀ layer ∈ layers, layer.Leads layers →
        ∀ a ∈ layer.references.items, (s.after calls).service.Serves a := by
  obtain ⟨layers, loaded, settings, references, service, hload, hgrows, rfl⟩ := start_cases hstart
  obtain ⟨hdiscover, hframeworks, hseeded⟩ := ReferenceService.loadFramework_cases hload
  have hrun : loaded.Grows
      ((fresh files config settings references service).after calls).service :=
    run_induction (motive := fun _ s => loaded.Grows s.service) (fun _ => True)
      (fun n s c result s' _ h hstep => h.trans hstep.grows) 0 calls rfl (fun _ _ => trivial)
      hgrows
  refine ⟨layers, hdiscover, hrun.frameworks.trans hframeworks, fun layer hlayer hfirst a ha => ?_⟩
  exact hrun.serves ((hseeded layer hlayer hfirst).analysis a ha)

/-- After any run of calls, evaluation, engine and document have taken in exactly the submissions
that succeeded or faulted, the document is the text of its projects with the imports of the last
submission and the artifacts of the service, and no two projects share an id. Its artifacts have
the reference modules of every layer of the framework that is the first with its reference
directory. All layers are where the name of the framework holds no separator. -/
theorem chain_follows_calls (hstart : start host config = (.ok s, files)) (calls : List Call) :
    let s' := s.after calls
    s'.Linked (Names.extend ∅ config.imports) ((s.results calls).countP (·.advances)) ∧
      ∃ layers, Framework.discover host.files config.framework config.searchPaths = .ok layers ∧
        s'.service.frameworks = [layers] ∧
        (∀ layer ∈ layers, layer.Leads layers → ∀ a ∈ layer.references.items,
          ∃ b ∈ s'.workspace.current.project.artifacts.items, b.same a) ∧
        (host.files.ProperNames → '/' ∉ config.framework.name.toList →
          ∀ layer ∈ layers, layer.Leads layers) := by
  intro s'
  have hlinked := linked_after hstart calls
  obtain ⟨layers, hdiscover, hframeworks, hserves⟩ := framework_after hstart calls
  refine ⟨hlinked, layers, hdiscover, hframeworks, fun layer hlayer hfirst a ha => ?_,
    fun hfiles hname => Framework.leads_of_discover hfiles hname hdiscover⟩
  rw [hlinked.artifacts]
  exact hserves layer hlayer hfirst a ha

/-- A call that binds a name, one that does not compile and one that faults. -/
theorem chain_of_binding_and_fault :
    let config : SessionConfig := { searchPaths := ⟨[⟨"/s"⟩], none⟩ }
    let calls : List Call :=
      [⟨.small, "let x = 1;", [], .never⟩, ⟨.small, "y", [], .never⟩,
        ⟨.small, "let y = 2;\n1 / 0;", [], .never⟩]
    ∃ s files, start .small config = (.ok s, files) ∧
      (s.after calls).Linked (Names.extend ∅ config.imports)
        ((s.results calls).countP (·.advances)) ∧
      ∃ layers, (s.after calls).service.frameworks = [layers] ∧
        ∀ layer ∈ layers, ∀ a ∈ layer.references.items,
          ∃ b ∈ (s.after calls).workspace.current.project.artifacts.items, b.same a := by
  intro config calls
  have hok : (start .small config).1.isOk := by decide +kernel
  rcases hstart : start .small config with ⟨_ | s, files⟩
  · rw [hstart] at hok
    cases hok
  · obtain ⟨hlinked, layers, -, hframeworks, hserves, hleads⟩ := chain_follows_calls hstart calls
    refine ⟨s, files, rfl, hlinked, layers, hframeworks, fun layer hlayer => ?_⟩
    exact hserves layer hlayer (hleads (by decide +kernel) (by decide) layer hlayer)

/-- Seen from `/w`, a framework that is found above it has the reference directory of its base,
whose reference module the document lacks. -/
theorem chain_misses_base_reference :
    let outer := [["w"], ["s"], ["s", "packs"], ["s", "packs", "Kiln.Core"],
      ["s", "packs", "Kiln.Core", "1.0"], ["s", "packs", "Kiln.Core.Ref"],
      ["s", "packs", "Kiln.Core.Ref", "1.0"], ["s", "packs", "Kiln.Core.Ref", "1.0", "ref"]]
    let inner := Host.small.files.entries.map fun (place, node) => ("w" :: place, node)
    let host : Host := { Host.small with files := ⟨["w"], outer.map (·, .dir) ++ inner⟩ }
    let config : SessionConfig :=
      { framework := ⟨"../../../s/packs/Kiln.Core", none⟩, searchPaths := ⟨[⟨"s"⟩], none⟩ }
    host.files.ProperNames ∧ ∃ s files top base, start host config = (.ok s, files) ∧
      Framework.discover host.files config.framework config.searchPaths = .ok [top, base] ∧
      base.references.paths = [⟨false, ["s", "packs", "Kiln.Core.Ref", "1.0", "ref", "a.dll"]⟩] ∧
      (s.after []).workspace.current.project.artifacts.items = [] := by
  intro outer inner host config
  have hlayers : (Framework.discover host.files config.framework config.searchPaths).toOption.map
      (·.map (·.references.paths)) = some
        [[], [⟨false, ["s", "packs", "Kiln.Core.Ref", "1.0", "ref", "a.dll"]⟩]] := by
    decide +kernel
  have hartifacts : (start host config).1.toOption.map
      (·.workspace.current.project.artifacts.items) = some [] := by decide +kernel
  obtain ⟨top, base, hdiscover, hbase⟩ := Framework.exists_base_of_map hlayers
  refine ⟨by decide +kernel, ?_⟩
  rcases hstart : start host config with ⟨_ | s, files⟩
  · rw [hstart] at hartifacts
    cases hartifacts
  · rw [hstart] at hartifacts
    exact ⟨s, files, top, base, rfl, hdiscover, hbase, Option.some.inj hartifacts⟩

end Session
end ScriptSession
