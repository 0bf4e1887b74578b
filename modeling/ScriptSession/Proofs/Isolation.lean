import ScriptSession.Proofs.Chain

namespace ScriptSession

namespace ReferenceService

def counted (n : Nat) (s : ReferenceService) : ReferenceService :=
  { s with probes := s.probes + n }

theorem counted_counted (m n : Nat) (s : ReferenceService) :
    (s.counted m).counted n = s.counted (m + n) := by
  simp only [counted, Nat.add_assoc]

section Reconcile

variable (files : FileTree) {s : ReferenceService} {a : Artifact} {k : Key}

theorem reconcileOne_of_anonymous (s : ReferenceService) (hk : a.key = none) :
    s.reconcileOne files a = (some a, s) := by
  rw [reconcileOne, hk]

theorem reconcileOne_of_cached {outcome : Reconciled} (hk : a.key = some k)
    (hc : s.cache.lookup k = some outcome) :
    s.reconcileOne files a = (outcome.artifact?, s) := by
  rw [reconcileOne, hk]
  dsimp only
  rw [reconcileKey, hc]

theorem reconcileOne_of_new (hk : a.key = some k) (hc : s.cache.lookup k = none) :
    s.reconcileOne files a = ((s.classify files k a).1.artifact?,
      { s with
        probes := s.probes + (s.classify files k a).2
        cache := s.cache ++ [(k, (s.classify files k a).1)]
        analysis := s.analysis.extend (s.classify files k a).1.artifact?.toList }) := by
  rw [reconcileOne, hk]
  dsimp only
  rw [reconcileKey, hc]

theorem reconcileOne_cases {motive : Option Artifact × ReferenceService → Prop}
    (s : ReferenceService) (a : Artifact) (anonymous : a.key = none → motive (some a, s))
    (cached : ∀ k r, a.key = some k → s.cache.lookup k = some r → motive (r.artifact?, s))
    (fresh : ∀ k, a.key = some k → s.cache.lookup k = none →
      motive ((s.classify files k a).1.artifact?,
        { s with
          probes := s.probes + (s.classify files k a).2
          cache := s.cache ++ [(k, (s.classify files k a).1)]
          analysis := s.analysis.extend (s.classify files k a).1.artifact?.toList })) :
    motive (s.reconcileOne files a) := by
  cases hk : a.key with
  | none =>
    rw [reconcileOne_of_anonymous files s hk]
    exact anonymous hk
  | some k =>
    cases hc : s.cache.lookup k with
    | some r =>
      rw [reconcileOne_of_cached files hk hc]
      exact cached k r hk hc
    | none =>
      rw [reconcileOne_of_new files hk hc]
      exact fresh k hk hc

theorem reconcile_snoc (s : ReferenceService) (as : List Artifact) (a : Artifact) :
    s.reconcile files (as ++ [a]) =
      ((s.reconcile files as).1.extend ((s.reconcile files as).2.reconcileOne files a).1.toList,
        ((s.reconcile files as).2.reconcileOne files a).2) := by
  unfold reconcile
  rw [List.foldl_append]
  rfl

end Reconcile

section Commute

variable {files : FileTree} {s t : ReferenceService} (n : Nat)

theorem findExecution_counted {name : String} {found : Option Artifact}
    (h : s.findExecution files name = (found, t)) :
    (s.counted n).findExecution files name = (found, t.counted n) := by
  have hsame : (s.counted n).execution = s.execution := rfl
  unfold findExecution at h ⊢
  dsimp only at h ⊢
  rw [hsame]
  split at h
  · cases h
    rfl
  · cases h
    simp only [counted, Nat.add_right_comm]

theorem exists_counted_of_findExecution {name : String} {found : Option Artifact}
    (h : s.findExecution files name = (found, t)) : ∃ m, t = s.counted m := by
  unfold findExecution at h
  dsimp only at h
  split at h
  · cases h
    exact ⟨0, rfl⟩
  · cases h
    exact ⟨_, rfl⟩

theorem record_counted {artifacts : List Artifact} {new : Nat}
    (h : s.record artifacts = (new, t)) : (s.counted n).record artifacts = (new, t.counted n) := by
  unfold record at h ⊢
  generalize 0 = count at h ⊢
  induction artifacts generalizing count s with
  | nil =>
    cases h
    rfl
  | cons a as ih => exact ih _ h

theorem reconcileOne_counted {a : Artifact} {outcome : Option Artifact}
    (h : s.reconcileOne files a = (outcome, t)) :
    (s.counted n).reconcileOne files a = (outcome, t.counted n) := by
  cases hk : a.key with
  | none =>
    rw [reconcileOne_of_anonymous files s hk] at h
    rw [reconcileOne_of_anonymous files _ hk]
    cases h
    rfl
  | some k =>
    cases hc : s.cache.lookup k with
    | some found =>
      rw [reconcileOne_of_cached files hk hc] at h
      rw [reconcileOne_of_cached files hk (show (s.counted n).cache.lookup k = some found from hc)]
      cases h
      rfl
    | none =>
      rw [reconcileOne_of_new files hk hc] at h
      rw [reconcileOne_of_new files hk (show (s.counted n).cache.lookup k = none from hc)]
      cases h
      simp only [counted, Nat.add_right_comm]
      rfl

theorem reconcile_counted {artifacts : List Artifact} {reconciled : ArtifactSet}
    (h : s.reconcile files artifacts = (reconciled, t)) :
    (s.counted n).reconcile files artifacts = (reconciled, t.counted n) := by
  unfold reconcile at h ⊢
  generalize ArtifactSet.empty = result at h ⊢
  induction artifacts generalizing result s with
  | nil =>
    cases h
    rfl
  | cons a as ih =>
    rcases ha : s.reconcileOne files a with ⟨outcome, u⟩
    rw [List.foldl_cons] at h ⊢
    dsimp only at h ⊢
    rw [ha] at h
    rw [reconcileOne_counted n ha]
    exact ih _ h

end Commute

end ReferenceService

namespace Resolver

theorem resolveAssembly_counted {files : FileTree} {settings : ResolverSettings}
    {s t : ReferenceService} {d : Directive} {result : Except ResolutionError (List Artifact)}
    (h : resolveAssembly files settings s d = (result, t)) :
    (∃ m, t = s.counted m) ∧
      ∀ n, resolveAssembly files settings (s.counted n) d = (result, t.counted n) := by
  unfold resolveAssembly at h ⊢
  dsimp only at h ⊢
  generalize String.ofList (Text.trim d.value.toList) = value at h ⊢
  by_cases hempty : value = ""
  · simp only [if_pos hempty] at h ⊢
    cases h
    exact ⟨⟨0, rfl⟩, fun n => rfl⟩
  simp only [if_neg hempty] at h ⊢
  by_cases hpath : looksLikePath value = true
  · simp only [if_pos hpath] at h ⊢
    cases h
    exact ⟨⟨0, rfl⟩, fun n => rfl⟩
  simp only [if_neg hpath] at h ⊢
  rcases hf : s.findExecution files value with ⟨_ | known, u⟩
  all_goals
    rw [hf] at h
    cases h
    refine ⟨ReferenceService.exists_counted_of_findExecution hf, fun n => ?_⟩
    rw [ReferenceService.findExecution_counted n hf]

variable {host : Host} {settings : ResolverSettings} {s t : ReferenceService} {cancelled : Bool}
  {d : Directive} {result : Except ResolveFailure (List Artifact)} {files : FileTree}

/-- What is resolved does not depend on the probes counted before, and only adds to them. -/
theorem resolve_counted (h : resolve host settings s cancelled d = (result, t, files)) :
    (∃ m, t = s.counted m) ∧
      ∀ n, resolve host settings (s.counted n) cancelled d = (result, t.counted n, files) := by
  unfold resolve at h ⊢
  cases ho : owner d with
  | package | project =>
    rw [ho] at h
    obtain ⟨rfl, hrest⟩ := Prod.mk.inj h
    obtain ⟨rfl, rfl⟩ := Prod.mk.inj hrest
    exact ⟨⟨0, rfl⟩, fun n => rfl⟩
  | assembly =>
    rw [ho] at h
    rcases ha : resolveAssembly host.files settings s d with ⟨found, u⟩
    obtain ⟨hcount, hsame⟩ := resolveAssembly_counted ha
    dsimp only at h ⊢
    rw [ha] at h
    cases h
    refine ⟨hcount, fun n => ?_⟩
    rw [hsame]

theorem files_resolve (h : resolve host settings s cancelled d = (result, t, files))
    (hbuild : owner d ≠ .project) : files = host.files := by
  unfold resolve at h
  cases ho : owner d with
  | package | assembly =>
    rw [ho] at h
    exact (Prod.mk.inj (Prod.mk.inj h).2).2.symm
  | project => exact absurd ho hbuild

end Resolver

namespace Evaluator

variable {host : Host} {s t : ReferenceService} {files : FileTree}

section Resolve

variable {settings : ResolverSettings} {cancelled : Bool} {references : ArtifactSet}
  {directives : List Directive} {result : Except ResolveFailure ArtifactSet}

theorem resolveAll_counted
    (h : resolveAll host settings cancelled s references directives = (result, t, files)) :
    (∃ m, t = s.counted m) ∧ ∀ n,
      resolveAll host settings cancelled (s.counted n) references directives =
        (result, t.counted n, files) := by
  induction directives generalizing host s references with
  | nil =>
    cases h
    exact ⟨⟨0, rfl⟩, fun n => rfl⟩
  | cons d rest ih =>
    rcases hd : Resolver.resolve host settings s cancelled d with ⟨_ | artifacts, u, files'⟩
    · obtain ⟨hcount, hsame⟩ := Resolver.resolve_counted hd
      rw [resolveAll, hd] at h
      cases h
      refine ⟨hcount, fun n => ?_⟩
      rw [resolveAll, hsame]
    · obtain ⟨⟨m, rfl⟩, hsame⟩ := Resolver.resolve_counted hd
      rw [resolveAll, hd] at h
      obtain ⟨⟨m', rfl⟩, hrest⟩ := ih h
      refine ⟨⟨m + m', ReferenceService.counted_counted m m' s⟩, fun n => ?_⟩
      rw [resolveAll, hsame]
      exact hrest n

theorem files_resolveAll
    (h : resolveAll host settings cancelled s references directives = (result, t, files))
    (hbuild : ∀ d ∈ directives, Resolver.owner d ≠ .project) : files = host.files := by
  induction directives generalizing s references with
  | nil =>
    cases h
    rfl
  | cons d rest ih =>
    obtain ⟨hd, hrest⟩ := List.forall_mem_cons.1 hbuild
    rcases hr : Resolver.resolve host settings s cancelled d with ⟨_ | artifacts, u, files'⟩
    · rw [resolveAll, hr] at h
      cases h
      exact Resolver.files_resolve hr hd
    · have hsame : files' = host.files := Resolver.files_resolve hr hd
      subst hsame
      rw [resolveAll, hr] at h
      exact ih h hrest

end Resolve

variable {e : Evaluator} {link : Option Link} {text : String} {cancel : Cancellation}

theorem prepare_counted {prepared : Except EvaluationResult Prepared}
    (h : e.prepare host s link text cancel = (prepared, t, files)) :
    (∃ m, t = s.counted m) ∧
      ∀ n, e.prepare host (s.counted n) link text cancel = (prepared, t.counted n, files) := by
  unfold prepare at h ⊢
  by_cases hstart : cancel.atStart = true
  · simp only [if_pos hstart] at h ⊢
    cases h
    exact ⟨⟨0, rfl⟩, fun n => rfl⟩
  simp only [if_neg hstart] at h ⊢
  rcases hr : resolveAll host e.settings cancel.atStart s (e.references link)
    (Directive.scan text) with ⟨(_ | _) | references, u, files'⟩
  all_goals
    obtain ⟨hcount, hsame⟩ := resolveAll_counted hr
    rw [hr] at h
    cases h
    refine ⟨hcount, fun n => ?_⟩
    rw [hsame]

theorem files_prepare {prepared : Except EvaluationResult Prepared}
    (h : e.prepare host s link text cancel = (prepared, t, files))
    (hbuild : cancel.atStart = true ∨ ∀ d ∈ Directive.scan text, Resolver.owner d ≠ .project) :
    files = host.files := by
  unfold prepare at h
  split at h
  · cases h
    rfl
  next hstart =>
    have hnone := hbuild.resolve_left hstart
    dsimp only at h
    rcases hr : resolveAll host e.settings cancel.atStart s (e.references link)
      (Directive.scan text) with ⟨(_ | _) | references, u, files'⟩
    all_goals
      rw [hr] at h
      cases h
      exact files_resolveAll hr hnone

theorem complete_counted {p : Prepared} {args : List String} {result : EvaluationResult}
    {advance : Option Advance} (n : Nat)
    (h : complete files p s link args cancel = (result, advance, t)) :
    complete files p (s.counted n) link args cancel = (result, advance, t.counted n) := by
  unfold complete at h ⊢
  dsimp only at h ⊢
  split at h
  · cases h
    rfl
  · cases h
    rfl
  next state printed _ =>
    rcases hrecord : s.record (referenced p.references state) with ⟨new, u⟩
    rcases hreconcile : u.reconcile files (referenced p.references state) with ⟨reconciled, v⟩
    rw [hrecord] at h
    rw [ReferenceService.record_counted n hrecord]
    dsimp only at h ⊢
    rw [hreconcile] at h
    rw [ReferenceService.reconcile_counted n hreconcile]
    cases h
    rfl

end Evaluator

namespace Session

def outcomes : Session → List Call → List (EvaluationResult × String)
  | _, [] => []
  | s, c :: rest =>
    let (outcome, s', _) := s.evaluateWith c.host c.text c.args c.cancel
    outcome :: s'.outcomes rest

def counted (n : Nat) (s : Session) : Session :=
  { s with service := s.service.counted n }

section Step

variable {s s' : Session} {host : Host} {text : String} {args : List String}
  {cancel : Cancellation} {outcome : EvaluationResult × String} {files : FileTree}

theorem evaluateWith_counted (n : Nat)
    (h : s.evaluateWith host text args cancel = (outcome, s', files)) :
    (s.counted n).evaluateWith host text args cancel = (outcome, s'.counted n, files) := by
  unfold evaluateWith begin at h ⊢
  by_cases hb : s.busy = true
  · rw [if_pos hb] at h
    rw [if_pos (show (s.counted n).busy = true from hb)]
    cases h
    rfl
  · rw [if_neg hb] at h
    rw [if_neg (show ¬ (s.counted n).busy = true from hb)]
    rcases hp : s.evaluator.prepare host s.service s.link text cancel with ⟨_ | p, t, files'⟩
    · have hprepare : (s.counted n).evaluator.prepare host (s.counted n).service
          (s.counted n).link text cancel = _ := (Evaluator.prepare_counted hp).2 n
      rw [hp] at h
      rw [hprepare]
      cases h
      rfl
    · have hprepare : (s.counted n).evaluator.prepare host (s.counted n).service
          (s.counted n).link text cancel = _ := (Evaluator.prepare_counted hp).2 n
      rw [hp] at h
      rw [hprepare]
      dsimp only at h ⊢
      rcases hc : Evaluator.complete files' p t s.link args cancel with
        ⟨result, _ | advance, u⟩
      all_goals
        have hcomplete : Evaluator.complete files' p (t.counted n) (s.counted n).link args cancel =
          _ := Evaluator.complete_counted n hc
        unfold finish at h ⊢
        dsimp only at h ⊢
        rw [hc] at h
        rw [hcomplete]
        cases h
        rfl

theorem evaluateWith_cases (hb : s.busy = false)
    (h : s.evaluateWith host text args cancel = (outcome, s', files)) :
    ∃ prepared t, s.evaluator.prepare host s.service s.link text cancel = (prepared, t, files) ∧
      ((∃ result, prepared = .error result ∧ outcome = (result, "") ∧
          s' = { s with service := t }) ∨
        ∃ p result advance u, prepared = .ok p ∧
          Evaluator.complete files p t s.link args cancel = (result, advance, u) ∧
          ((advance = none ∧ outcome = (result, "") ∧ s' = { s with service := u }) ∨
            ∃ a, advance = some a ∧ outcome = (result, a.printed) ∧
              s' = { s with
                service := u
                workspace := s.workspace.commit files a.commit.text a.commit.artifacts
                  a.commit.imports
                link := some a.link })) := by
  obtain ⟨evaluator, initial, service, workspace, link, busy, completions, highlights⟩ := s
  cases hb
  unfold evaluateWith begin at h
  simp only [Bool.false_eq_true, if_false] at h
  rcases hp : evaluator.prepare host service link text cancel with ⟨_ | p, t, files'⟩
  · rw [hp] at h
    cases h
    exact ⟨_, t, rfl, .inl ⟨_, rfl, rfl, rfl⟩⟩
  · rw [hp] at h
    dsimp only at h
    rcases hc : Evaluator.complete files' p t link args cancel with ⟨result, _ | a, u⟩
    all_goals
      unfold finish at h
      dsimp only at h
      rw [hc] at h
      cases h
    · exact ⟨_, t, rfl, .inr ⟨p, result, none, u, rfl, hc, .inl ⟨rfl, rfl, rfl⟩⟩⟩
    · exact ⟨_, t, rfl, .inr ⟨p, result, some a, u, rfl, hc, .inr ⟨a, rfl, rfl, rfl⟩⟩⟩

/-- A call that does not move the chain on prints nothing and changes nothing but the number of
probes. -/
theorem evaluateWith_of_stays (hb : s.busy = false)
    (h : s.evaluateWith host text args cancel = (outcome, s', files))
    (hstays : outcome.1.advances = false) : outcome.2 = "" ∧ ∃ n, s' = s.counted n := by
  obtain ⟨prepared, t, hp, hcases⟩ := evaluateWith_cases hb h
  obtain ⟨⟨n, rfl⟩, -⟩ := Evaluator.prepare_counted hp
  obtain ⟨result, -, rfl, rfl⟩ | ⟨p, result, advance, u, -, hc, hcases⟩ := hcases
  · exact ⟨rfl, n, rfl⟩
  · obtain ⟨rfl, -, rfl⟩ | ⟨a, _, rfl, hmoves, -⟩ := Evaluator.complete_cases hc
    · obtain ⟨-, rfl, rfl⟩ | ⟨a, ha, -⟩ := hcases
      · exact ⟨rfl, n, rfl⟩
      · cases ha
    · obtain ⟨ha, -⟩ | ⟨a', -, rfl, -⟩ := hcases
      · cases ha
      · rw [hmoves] at hstays
        cases hstays

theorem files_evaluateWith (hb : s.busy = false)
    (h : s.evaluateWith host text args cancel = (outcome, s', files))
    (hbuild : cancel.atStart = true ∨ ∀ d ∈ Directive.scan text, Resolver.owner d ≠ .project) :
    files = host.files := by
  obtain ⟨prepared, t, hp, -⟩ := evaluateWith_cases hb h
  exact Evaluator.files_prepare hp hbuild

end Step

theorem outcomes_counted (n : Nat) (s : Session) (calls : List Call) :
    (s.counted n).outcomes calls = s.outcomes calls := by
  induction calls generalizing s with
  | nil => rfl
  | cons c rest ih =>
    rcases hc : s.evaluateWith c.host c.text c.args c.cancel with ⟨outcome, s', files⟩
    rw [outcomes, outcomes, evaluateWith_counted n hc, hc]
    exact congrArg (outcome :: ·) (ih s')

variable {host : Host} {config : SessionConfig} {s : Session} {files : FileTree}

theorem busy_after (hstart : start host config = (.ok s, files)) (calls : List Call) :
    (s.after calls).busy = false := by
  obtain ⟨_, _, settings, references, service, -, -, rfl⟩ := start_cases hstart
  exact run_induction (motive := fun _ s => s.busy = false) (fun _ => True)
    (fun n s c result s' _ h hstep => hstep.busy.trans h) 0 calls rfl (fun _ _ => trivial) rfl

/-- A call that neither succeeds nor faults prints nothing and leaves everything as it was but the
number of probes, which may grow. The files are as its builds left them, and as they were where it
starts none; later calls that find the same files and programs give what they would have given
without it. -/
theorem failed_call_leaves_session (hstart : start host config = (.ok s, files))
    (calls : List Call) (c : Call) {outcome : EvaluationResult × String} {s' : Session}
    {files' : FileTree}
    (hcall : (s.after calls).evaluateWith c.host c.text c.args c.cancel = (outcome, s', files'))
    (hfails : outcome.1.advances = false) :
    outcome.2 = "" ∧
      (∃ probes, (s.after calls).service.probes ≤ probes ∧
        s' = { s.after calls with service := { (s.after calls).service with probes } }) ∧
      ((c.cancel.atStart = true ∨ ∀ d ∈ Directive.scan c.text, Resolver.owner d ≠ .project) →
        files' = c.host.files) ∧
      ∀ later, s'.outcomes later = (s.after calls).outcomes later := by
  have hidle : (s.after calls).busy = false := busy_after hstart calls
  obtain ⟨hprinted, n, rfl⟩ := evaluateWith_of_stays hidle hcall hfails
  refine ⟨hprinted, ⟨(s.after calls).service.probes + n, Nat.le_add_right _ _, rfl⟩, ?_, ?_⟩
  · intro hbuild
    exact files_evaluateWith hidle hcall hbuild
  · intro later
    exact outcomes_counted n (s.after calls) later

/-- A small host with a project `p.kproj`, whose build prints nothing and writes the module
`L.dll`. -/
def building : Host where
  files := { Host.small.files with
    entries := Host.small.files.entries ++ [(["p.kproj"], .file "x".toUTF8)] }
  tools files _ _ :=
    .ok ⟨.code 0, .empty, .empty, files.store ["L.dll"] "kmod L, Version=1.0".toUTF8⟩

/-- A call that fails at its second directive, after the build of its first one. -/
def failing : Call :=
  ⟨building, "#r \"p.kproj\"\n#r \"M\"", [], .never⟩

theorem isolation_of_failed_directive :
    let config : SessionConfig := { searchPaths := ⟨[⟨"/s"⟩], none⟩ }
    let calls : List Call := [⟨building, "let x = 1;", [], .never⟩]
    ∃ s files outcome s' files', start building config = (.ok s, files) ∧
      (s.after calls).evaluateWith failing.host failing.text failing.args failing.cancel =
        (outcome, s', files') ∧
      outcome.1.advances = false ∧ outcome.2 = "" ∧
      (∃ probes, (s.after calls).service.probes ≤ probes ∧
        s' = { s.after calls with service := { (s.after calls).service with probes } }) ∧
      ∀ later, s'.outcomes later = (s.after calls).outcomes later := by
  intro config calls
  have hfails : ((start building config).1.toOption.map fun s =>
      ((s.after calls).evaluateWith failing.host failing.text failing.args
        failing.cancel).1.1.advances) = some false := by decide +kernel
  rcases hstart : start building config with ⟨_ | s, files⟩
  · rw [hstart] at hfails
    cases hfails
  · rw [hstart] at hfails
    rcases hcall : (s.after calls).evaluateWith failing.host failing.text failing.args
      failing.cancel with ⟨outcome, s', files'⟩
    have hstays : outcome.1.advances = false := by
      have hresult := Option.some.inj hfails
      dsimp only at hresult
      rw [hcall] at hresult
      exact hresult
    obtain ⟨hprinted, hsame, -, hlater⟩ := failed_call_leaves_session hstart calls failing hcall
      hstays
    exact ⟨s, files, outcome, s', files', rfl, hcall, hstays, hprinted, hsame, hlater⟩

/-- What a build of a failed call wrote is found by the next call, which fails without it. -/
theorem build_outlives_failed_call :
    let config : SessionConfig := { searchPaths := ⟨[⟨"/s"⟩], none⟩ }
    let later := "#r \"L.dll\""
    ∃ s files outcome s' files', start building config = (.ok s, files) ∧
      s.evaluateWith failing.host failing.text failing.args failing.cancel =
        (outcome, s', files') ∧
      outcome.1.advances = false ∧
      (s'.evaluateWith (building.withFiles files') later [] .never).1.1.advances = true ∧
      (s.evaluateWith (building.withFiles files) later [] .never).1.1.advances = false := by
  intro config later
  have hruns : ((start building config).1.toOption.map fun s =>
      let (outcome, s', files') :=
        s.evaluateWith failing.host failing.text failing.args failing.cancel
      (outcome.1.advances,
        (s'.evaluateWith (building.withFiles files') later [] .never).1.1.advances,
        (s.evaluateWith (building.withFiles (start building config).2) later []
          .never).1.1.advances)) = some (false, true, false) := by decide +kernel
  rcases hstart : start building config with ⟨_ | s, files⟩
  · rw [hstart] at hruns
    cases hruns
  · rcases hcall : s.evaluateWith failing.host failing.text failing.args failing.cancel with
      ⟨outcome, s', files'⟩
    rw [hstart] at hruns
    have hresults := Option.some.inj hruns
    dsimp only at hresults
    rw [hcall, Prod.mk.injEq, Prod.mk.injEq] at hresults
    exact ⟨s, files, outcome, s', files', rfl, hcall, hresults⟩

end Session
end ScriptSession
