import ScriptSession.Proofs.Service
import ScriptSession.Session.Basic

namespace ScriptSession

/-- A call of evaluation with the host that it finds. -/
structure Call where
  host : Host
  text : String
  args : List String
  cancel : Cancellation

/-- A host with no programs, and with no files but those of a base framework below `/s`, which has
one reference module. -/
def Host.small : Host where
  files :=
    { cwd := []
      entries := [
        ["s"], ["s", "shared"], ["s", "shared", "Kiln.Core"], ["s", "shared", "Kiln.Core", "1.0"],
        ["s", "packs"], ["s", "packs", "Kiln.Core.Ref"], ["s", "packs", "Kiln.Core.Ref", "1.0"],
        ["s", "packs", "Kiln.Core.Ref", "1.0", "ref"]].map (·, .dir) ++
        [(["s", "packs", "Kiln.Core.Ref", "1.0", "ref", "a.dll"],
          .file "kmod A, Version=1.0".toUTF8)] }
  tools _ _ _ := .error .notFound

/-- What the engine reads of a call: the text with its directives blanked. -/
def Call.code (c : Call) : String :=
  Directive.blank c.text ((Directive.scan c.text).map (·.line))

def EvaluationResult.advances : EvaluationResult → Bool
  | success _ | error (.runtime _) => true
  | _ => false

/-- The text that a submission commits, given the code that ran: all of it, or after a fault what
stood before the statement that faulted. -/
def committedOf (text code : String) (state : EngineState) : String :=
  match state.fault with
  | none => text
  | some _ => String.ofList (Text.trim (Text.takeBytes state.executedLength code.toList))

theorem Document.committedText_commit (files : FileTree) (w : Workspace) (text : String)
    (artifacts : ArtifactSet) (imports : Names) :
    (w.commit files text artifacts imports).current.committedText =
      appendSegment w.current.committedText text := by
  unfold committedText chain Workspace.commit
  rw [List.reverse_cons, List.map_append, List.foldl_append]
  rfl

namespace Evaluator

/-- A call that ends before the engine moves nothing on; any other reaches the engine with its
text. -/
theorem prepare_cases {host : Host} {e : Evaluator} {s service : ReferenceService}
    {link : Option Link} {text : String} {cancel : Cancellation} {files : FileTree}
    {prepared : Except EvaluationResult Prepared}
    (h : e.prepare host s link text cancel = (prepared, service, files)) :
    (∃ result, prepared = .error result ∧ result.advances = false) ∨
      ∃ p, prepared = .ok p ∧ p.text = text ∧
        p.code = Directive.blank text ((Directive.scan text).map (·.line)) := by
  unfold prepare at h
  split at h
  · cases h
    exact .inl ⟨_, rfl, rfl⟩
  · dsimp only at h
    split at h
    · cases h
      exact .inl ⟨_, rfl, rfl⟩
    · cases h
      exact .inl ⟨_, rfl, rfl⟩
    · cases h
      exact .inr ⟨_, rfl, rfl, rfl⟩

theorem complete_cases {files : FileTree} {p : Prepared} {s service : ReferenceService}
    {link : Option Link} {args : List String} {cancel : Cancellation} {result : EvaluationResult}
    {advance : Option Advance}
    (h : complete files p s link args cancel = (result, advance, service)) :
    (advance = none ∧ result.advances = false ∧ service = s) ∨
      ∃ a options, advance = some a ∧ result.advances = true ∧ s.Grows service ∧
        Engine.run files p.code options (link.map (·.engine)) cancel.atEngine =
          .ok (a.link.engine, a.printed) ∧
        a.link.generation = (link.map (·.generation)).getD 0 + 1 ∧
        a.commit.text = committedOf p.text p.code a.link.engine ∧
        a.commit.artifacts = service.analysis ∧ a.commit.imports = a.link.imports := by
  unfold complete at h
  dsimp only at h
  split at h
  · cases h
    exact .inl ⟨rfl, rfl, rfl⟩
  · cases h
    refine .inl ⟨rfl, ?_, rfl⟩
    split <;> rfl
  next state printed hrun =>
    cases h
    refine .inr ⟨_, _, rfl, ?_, ?_, hrun, rfl, ?_, ?_, ?_⟩
    · unfold resultOf
      split <;> rfl
    · exact (s.keeps_record _).grows.trans (ReferenceService.grows_reconcile ..)
    · unfold commitOf committedOf
      cases state.fault <;> rfl
    · unfold commitOf
      cases state.fault <;> rfl
    · unfold commitOf
      cases state.fault <;> rfl

end Evaluator

namespace Session

def call (s : Session) (c : Call) : EvaluationResult × Session :=
  let (outcome, s', _) := s.evaluateWith c.host c.text c.args c.cancel
  (outcome.1, s')

theorem call_eq {s s' : Session} {c : Call} {outcome : EvaluationResult × String}
    {files : FileTree}
    (h : s.evaluateWith c.host c.text c.args c.cancel = (outcome, s', files)) :
    s.call c = (outcome.1, s') := by
  unfold call
  rw [h]

def after (s : Session) (calls : List Call) : Session :=
  calls.foldl (fun s c => (s.call c).2) s

def results : Session → List Call → List EvaluationResult
  | _, [] => []
  | s, c :: rest => (s.call c).1 :: (s.call c).2.results rest

/-- How a call can end: it stays, or it moves the chain and the document on. -/
inductive Step (s : Session) (c : Call) : EvaluationResult → Session → Prop
  | stays {result : EvaluationResult} {service : ReferenceService} : result.advances = false →
      s.service.Keeps service → Step s c result { s with service }
  | moves {result : EvaluationResult} {files : FileTree} {service : ReferenceService} {link : Link}
      {options : Options} {printed : String} : result.advances = true → s.service.Grows service →
      Engine.run files c.code options (s.link.map (·.engine)) c.cancel.atEngine =
        .ok (link.engine, printed) →
      link.generation = (s.link.map (·.generation)).getD 0 + 1 →
      Step s c result { s with
        service
        workspace := s.workspace.commit files (committedOf c.text c.code link.engine)
          service.analysis link.imports
        link := some link }

theorem call_step {s : Session} (hb : s.busy = false) (c : Call) :
    Step s c (s.call c).1 (s.call c).2 := by
  obtain ⟨evaluator, args, service, workspace, link, busy, completions, highlights⟩ := s
  cases hb
  have hkeeps := Evaluator.keeps_prepare c.host evaluator service link c.text c.cancel
  rcases hp : evaluator.prepare c.host service link c.text c.cancel with ⟨prepared, service', files⟩
  rw [hp] at hkeeps
  change service.Keeps service' at hkeeps
  obtain ⟨result, rfl, hresult⟩ | ⟨p, rfl, htext, hcode⟩ := Evaluator.prepare_cases hp
  · simp only [call, evaluateWith, begin, hp, Bool.false_eq_true, if_false]
    exact .stays hresult hkeeps
  · rcases hc : Evaluator.complete files p service' link c.args c.cancel with
      ⟨result, advance, service''⟩
    simp only [call, evaluateWith, begin, hp, Bool.false_eq_true, if_false, finish, hc]
    obtain ⟨rfl, hresult, rfl⟩ |
      ⟨a, options, rfl, hresult, hgrows, hrun, hgeneration, hcommit, hartifacts, himports⟩ :=
      Evaluator.complete_cases hc
    · exact .stays hresult hkeeps
    · dsimp only
      rw [hcommit, hartifacts, himports, htext, hcode]
      rw [hcode] at hrun
      exact .moves hresult (hkeeps.grows.trans hgrows) hrun hgeneration

theorem Step.busy {s s' : Session} {c : Call} {result : EvaluationResult} (h : Step s c result s') :
    s'.busy = s.busy := by
  cases h <;> rfl

/-- What holds at first and is kept by every step holds after a run; `n` counts the calls that moved
the chain on. -/
theorem run_induction {motive : Nat → Session → Prop} (allowed : Call → Prop)
    (step : ∀ n s c result s', allowed c → motive n s → Step s c result s' →
      motive (n + result.advances.toNat) s')
    (n : Nat) {s : Session} (calls : List Call) (hb : s.busy = false)
    (hcalls : ∀ c ∈ calls, allowed c) (h : motive n s) :
    motive (n + (s.results calls).countP (·.advances)) (s.after calls) := by
  induction calls generalizing n s with
  | nil => exact h
  | cons c rest ih =>
    obtain ⟨hc, hrest⟩ := List.forall_mem_cons.1 hcalls
    have hstep := call_step hb c
    have hnext := ih _ (hstep.busy.trans hb) hrest (step n s c _ _ hc h hstep)
    have hcount : (s.results (c :: rest)).countP (·.advances) =
        (s.call c).1.advances.toNat + ((s.call c).2.results rest).countP (·.advances) := by
      rw [results, List.countP_cons, Nat.add_comm]
      cases (s.call c).1.advances <;> rfl
    rw [hcount, ← Nat.add_assoc]
    exact hnext

theorem grows_startReferences {host : Host} {settings : ResolverSettings}
    {service service' : ReferenceService} {references references' : ArtifactSet}
    {values : List String} {files : FileTree}
    (h : startReferences host settings service references values =
      (.ok (references', service'), files)) : service.Grows service' := by
  induction values generalizing host service references with
  | nil =>
    cases h
    exact (ReferenceService.Keeps.refl _).grows
  | cons value rest ih =>
    have hkeeps := Resolver.keeps_resolve host settings service false (.detached value)
    rw [startReferences] at h
    split at h
    · cases h
    next resolved service₁ files₁ hresolve =>
      rw [hresolve] at hkeeps
      exact (hkeeps.trans (service₁.keeps_record resolved)).grows.trans
        ((ReferenceService.grows_reconcile ..).trans (ih h))

theorem start_cases {host : Host} {config : SessionConfig} {s : Session} {files : FileTree}
    (h : start host config = (.ok s, files)) :
    ∃ layers loaded settings references service,
      ReferenceService.empty.loadFramework host.files config.framework config.searchPaths =
        .ok (layers, loaded) ∧
      loaded.Grows service ∧ s = fresh files config settings references service := by
  unfold start at h
  split at h
  · cases h
  next layers loaded hload =>
    dsimp only at h
    split at h
    · cases h
    next references service files' hrefs =>
      cases h
      refine ⟨layers, loaded, _, references, service, hload, grows_startReferences hrefs, rfl⟩

end Session
end ScriptSession
