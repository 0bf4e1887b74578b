import ScriptSession.Proofs.Evaluation
import ScriptSession.Proofs.Lexing
import ScriptSession.Proofs.Reading
import ScriptSession.Proofs.Submission

namespace ScriptSession

/-- Runs a statement where no step of it needs a fallback. -/
def runStmt? (resolutions : Resolutions) (args : List String) (bindings : Bindings) (s : Stmt) :
    Option (Effect (Value × Bindings)) :=
  let frame : Frame := ⟨resolutions, args, bindings⟩
  match s.kind with
  | .bind name value =>
    Effect.andThen? (eval? frame value) fun v => some (.pure (.unit, bindings.insert name v))
  | .use _ => some (.pure (.unit, bindings))
  | .expr value => Effect.andThen? (eval? frame value) fun v => some (.pure (v, bindings))

/-- Runs statements in order until one faults, where none of them needs a fallback. -/
def runStmts? (resolutions : Resolutions) (args : List String) :
    Progress → Script → Option (Progress × Option Fault)
  | p, [] => some (p, none)
  | p, s :: rest =>
    (runStmt? resolutions args p.bindings s).bind fun step =>
      let printed := p.printed ++ step.printed
      match step.result with
      | .ok (value, bindings) =>
        runStmts? resolutions args ⟨bindings, some value, p.completed + 1, printed⟩ rest
      | .error fault => some ({ p with printed }, some fault)

/-- A run over two scripts in a row goes on with the second where the first did not fault. -/
theorem runStmts_append (resolutions : Resolutions) (args : List String) (p : Progress)
    (front back : Script) :
    runStmts resolutions args p (front ++ back) =
      match runStmts resolutions args p front with
      | (q, none) => runStmts resolutions args q back
      | (q, some fault) => (q, some fault) := by
  induction front generalizing p with
  | nil => rfl
  | cons s rest ih =>
    rw [List.cons_append, runStmts, runStmts]
    cases (runStmt resolutions args p.bindings s).result with
    | ok r => exact ih _
    | error fault => rfl

/-- The names of a scope have the types of the values that a run has bound them to, and the last
statement has the type of its value. -/
structure Checking.Tracks (c : Checking) (p : Progress) : Prop where
  types : c.scope.bindings = p.bindings.types
  last : c.finalTy = p.last.map Value.ty

namespace Checking

variable {c : Checking} {p : Progress} {resolutions : Resolutions}

theorem Tracks.sound (h : c.Tracks p) : c.scope.Sound :=
  Scope.sound_of_types h.types

theorem Tracks.fits {args : List String} {s : Stmt} (h : c.Tracks p)
    (hk : ∀ q ∈ c.scope.resolvedIn s, resolutions[q.1]? = some q.2) {e : Expr}
    (he : s.kind.value? = some e) : Frame.Fits ⟨resolutions, args, p.bindings⟩ c.scope e :=
  ⟨h.types, fun q hq => hk q (by rw [Scope.resolvedIn, he]; exact hq)⟩

/-- Every part of the expression of the next statement has a type, needs no fallback and gives a
value of its type. -/
theorem Tracks.part_sound {s : Stmt} (h : c.Tracks p) (args : List String)
    (hk : ∀ q ∈ c.scope.resolvedIn s, resolutions[q.1]? = some q.2)
    (hs : (c.step s).findings.toList = []) {e a : Expr} (he : s.kind.value? = some e)
    (ha : a.Part e) :
    ∃ t, (c.scope.infer a).ty = some t ∧
      eval? ⟨resolutions, args, p.bindings⟩ a = some (eval ⟨resolutions, args, p.bindings⟩ a) ∧
      (eval ⟨resolutions, args, p.bindings⟩ a).Gives (·.ty = t) := by
  have hf := Scope.findings_part ha ((step_sound hs).2.1 e he)
  obtain ⟨t, ht⟩ := Option.isSome_iff_exists.1 (Scope.isSome_ty_infer h.sound hf)
  exact ⟨t, ht, eval_sound ((h.fits hk he).part ha) ht⟩

theorem Tracks.step {s : Stmt} (h : c.Tracks p) (args : List String)
    (hk : ∀ q ∈ c.scope.resolvedIn s, resolutions[q.1]? = some q.2)
    (hs : (c.step s).findings.toList = []) :
    runStmt? resolutions args p.bindings s = some (runStmt resolutions args p.bindings s) ∧
      (runStmt resolutions args p.bindings s).Gives fun r => ∀ completed printed,
        (c.step s).Tracks ⟨r.2, some r.1, completed, printed⟩ := by
  have hpart (e : Expr) (he : s.kind.value? = some e) :=
    h.part_sound args hk hs he (.self e)
  unfold runStmt? runStmt Checking.step
  cases hkind : s.kind with
  | bind name value =>
    obtain ⟨t, ht, hev, hv⟩ := hpart value (by rw [hkind]; rfl)
    simp only [hev, ht]
    refine ⟨Effect.andThen?_some fun v _ => rfl, hv.bind fun v hv => Effect.gives_pure ?_⟩
    intro completed printed
    exact ⟨by rw [Bindings.types_insert, hv, h.types], rfl⟩
  | use path =>
    refine ⟨rfl, Effect.gives_pure fun completed printed => ?_⟩
    dsimp only
    split
    · exact ⟨h.types, rfl⟩
    · exact ⟨h.types, rfl⟩
  | expr value =>
    obtain ⟨t, ht, hev, hv⟩ := hpart value (by rw [hkind]; rfl)
    simp only [hev, ht]
    refine ⟨Effect.andThen?_some fun v _ => rfl, hv.bind fun v hv => Effect.gives_pure ?_⟩
    intro completed printed
    exact ⟨h.types, by rw [Option.map_some, hv]; rfl⟩

/-- A run of statements in which nothing is wrong needs no fallback, and where it ends without a
fault names have values of their types. -/
theorem Tracks.run {script : Script} (h : c.Tracks p) (args : List String)
    (hk : ∀ q ∈ c.resolvedFrom script, resolutions[q.1]? = some q.2)
    (hs : (script.foldl Checking.step c).findings.toList = []) :
    runStmts? resolutions args p script = some (runStmts resolutions args p script) ∧
      ∀ q, runStmts resolutions args p script = (q, none) →
        (script.foldl Checking.step c).Tracks q := by
  induction script generalizing c p with
  | nil =>
    refine ⟨rfl, fun q hq => ?_⟩
    cases hq
    exact h
  | cons s rest ih =>
    rw [resolvedFrom] at hk
    have hstep : (c.step s).findings.toList = [] := clean_of_foldl (c := c.step s) hs
    obtain ⟨hrun, hgives⟩ := h.step args (fun q hq => hk q (List.mem_append_left _ hq)) hstep
    rw [runStmts?, runStmts, hrun, Option.bind_some, List.foldl_cons]
    cases hr : (runStmt resolutions args p.bindings s).result with
    | ok r => exact ih (hgives r hr _ _) (fun q hq => hk q (List.mem_append_right _ hq)) hs
    | error fault => exact ⟨rfl, fun q hq => by cases hq⟩

theorem tracks_start {scope : Scope} {bindings : Bindings} (h : scope.bindings = bindings.types) :
    (start scope).Tracks ⟨bindings, none, 0, ""⟩ :=
  ⟨h, rfl⟩

theorem isSome_finalTy {script : Script} (h : script ≠ []) :
    (script.foldl Checking.step c).finalTy.isSome := by
  obtain ⟨front, s, rfl⟩ := (List.eq_nil_or_concat script).resolve_left h
  rw [List.concat_eq_append, List.foldl_append, List.foldl_cons, List.foldl_nil]
  unfold Checking.step
  cases s.kind with
  | use path => dsimp only; split <;> rfl
  | _ => rfl

end Checking

theorem nodup_pathStarts {text : String} {script : Script} (h : parse text = .ok script) :
    script.pathStarts.Nodup := by
  have hstarts : (starts (lex text.toList).tokens).Nodup := by
    rw [starts, List.Nodup, List.pairwise_map]
    exact (starts_tokens_lex text.toList).imp Nat.ne_of_lt
  refine hstarts.sublist ((parse_eq_ok_iff.1 h).2.pathStarts_sublist.trans ?_)
  exact List.filter_sublist.map _

theorem resolutions_kept {text : String} {script : Script} {scope : Scope} {checked : Checked}
    (hparse : parse text = .ok script) (hcheck : check scope script = .ok checked) :
    ∀ q ∈ (Checking.start scope).resolvedFrom script, checked.resolutions[q.1]? = some q.2 := by
  intro q hq
  rw [(check_eq_ok_iff.1 hcheck).2]
  exact getElem?_resolutions (nodup_pathStarts hparse) hq

theorem EngineState.returnValue_eq_some {state : EngineState} {v : Value}
    (h : state.returnValue = some v) :
    state.finalValue = some v ∧ ∃ s, state.finalStatement = some s ∧ s.ty ≠ .unit := by
  unfold returnValue at h
  split at h
  next hshow =>
    obtain ⟨s, hs, hproduces⟩ := (Option.any_eq_true _ _).1 hshow
    rw [FinalStatement.producesValue, Bool.and_eq_true, decide_eq_true_eq] at hproduces
    exact ⟨h, s, hs, hproduces.2⟩
  · cases h

theorem Engine.typed_execute {text : String} {script : Script} {modules : ModuleTable}
    {imports : List String} {checked : Checked} {prior : EngineState}
    (hparse : parse text = .ok script)
    (hcheck : check ⟨modules, imports, prior.bindings.types⟩ script = .ok checked)
    (source : List Char) (args : List String) (names : Names) :
    let state := (execute source script checked args prior modules names).1
    (state.fault = none → script ≠ [] →
      ∃ v s, state.finalValue = some v ∧ state.finalStatement = some s ∧ v.ty = s.ty) ∧
    state.returnValue ≠ some .unit := by
  have hrun := ((Checking.tracks_start rfl).run args
    (resolutions_kept hparse hcheck) (check_eq_ok_iff.1 hcheck).1).2
  have hty : checked.finalTy = (script.foldl Checking.step
      (.start ⟨modules, imports, prior.bindings.types⟩)).finalTy := by
    rw [(check_eq_ok_iff.1 hcheck).2]
  rcases hp : runStmts checked.resolutions args ⟨prior.bindings, none, 0, ""⟩ script with
    ⟨p, _ | fault⟩
  · have hlast := hty.trans (hrun p hp).last
    simp only [execute, hp]
    refine ⟨fun _ hne => ?_, fun hunit => ?_⟩
    · obtain ⟨t, ht⟩ := Option.isSome_iff_exists.1 (hty ▸ Checking.isSome_finalTy hne)
      obtain ⟨v, hv, rfl⟩ := Option.map_eq_some_iff.1 (hlast.symm.trans ht)
      refine ⟨v, ⟨v.ty, (script.getLast hne).terminated⟩, hv, ?_, rfl⟩
      simp only [List.getLast?_eq_some_getLast hne, ht, Option.bind_some, Option.map_some]
    · obtain ⟨hv, s, hs, hne⟩ := EngineState.returnValue_eq_some hunit
      obtain ⟨_, _, hs⟩ := Option.bind_eq_some_iff.1 hs
      obtain ⟨t, ht, rfl⟩ := Option.map_eq_some_iff.1 hs
      change p.last = some .unit at hv
      rw [hlast, hv] at ht
      cases ht
      exact hne rfl
  · simp only [execute, hp]
    exact ⟨nofun, fun hunit => nomatch (EngineState.returnValue_eq_some hunit).1⟩

/-- What a submission leaves behind is typed: without a fault it holds a value of the type of its
last statement, and the value that says nothing is never returned. -/
theorem Engine.typed_run {files : FileTree} {text : String} {script : Script} {options : Options}
    {prior : Option EngineState} {cancelled : Bool} {state : EngineState} {printed : String}
    (hparse : parse text = .ok script)
    (hrun : run files text options prior cancelled = .ok (state, printed)) :
    (state.fault = none → script ≠ [] →
      ∃ v s, state.finalValue = some v ∧ state.finalStatement = some s ∧ v.ty = s.ty) ∧
    state.returnValue ≠ some .unit := by
  obtain ⟨-, modules, script', checked, -, hs, hc, he⟩ := run_eq_ok_iff.1 hrun
  cases hparse.symm.trans hs
  have := typed_execute hs hc text.toList options.args (startImports options prior)
  rwa [he] at this

/-- A parsed and checked script runs without a fallback; after every statement names have values of
the types that were recorded for them, and every part of the next expression has a type that its
value is of. A submission of the text that ends without a fault holds a value of the type of its
last statement, and none returns the value that says nothing. -/
theorem checked_script_is_type_sound {text : String} {script : Script} {modules : ModuleTable}
    {imports : List String} {bindings : Bindings} {checked : Checked} {args : List String}
    (hparse : parse text = .ok script)
    (hcheck : check ⟨modules, imports, bindings.types⟩ script = .ok checked) :
    let run := runStmts checked.resolutions args ⟨bindings, none, 0, ""⟩
    runStmts? checked.resolutions args ⟨bindings, none, 0, ""⟩ script = some (run script) ∧
    (∀ front back p, script = front ++ back → run front = (p, none) →
      let scope := (front.foldl Checking.step (.start ⟨modules, imports, bindings.types⟩)).scope
      (∀ name : String, scope.bindings[name]? = p.bindings[name]?.map fun v => some v.ty) ∧
      ∀ s ∈ back.head?, ∀ e, s.kind.value? = some e → ∀ a, Expr.Part a e →
        ∃ t, (scope.infer a).ty = some t ∧
          (eval ⟨checked.resolutions, args, p.bindings⟩ a).Gives (·.ty = t)) ∧
    ∀ files options prior cancelled state printed,
      Engine.run files text options prior cancelled = .ok (state, printed) →
      (state.fault = none → script ≠ [] →
        ∃ v s, state.finalValue = some v ∧ state.finalStatement = some s ∧ v.ty = s.ty) ∧
      state.returnValue ≠ some .unit := by
  have hkept := resolutions_kept hparse hcheck
  have hclean := (check_eq_ok_iff.1 hcheck).1
  have hstart :
      Checking.Tracks (.start ⟨modules, imports, bindings.types⟩) ⟨bindings, none, 0, ""⟩ :=
    Checking.tracks_start rfl
  refine ⟨(hstart.run args hkept hclean).1, ?_, fun files options prior cancelled state printed =>
    Engine.typed_run hparse⟩
  rintro front back p rfl hp
  rw [Checking.resolvedFrom_append] at hkept
  rw [List.foldl_append] at hclean
  have htracks := (hstart.run args (fun q hq => hkept q (List.mem_append_left _ hq))
    (Checking.clean_of_foldl hclean)).2 p hp
  refine ⟨fun name => by rw [htracks.types, Bindings.getElem?_types], ?_⟩
  intro s hs e he a ha
  cases back with
  | nil => cases hs
  | cons s' back =>
    cases hs
    rw [List.foldl_cons] at hclean
    have hstep := Checking.clean_of_foldl hclean
    obtain ⟨t, ht, -, hv⟩ := htracks.part_sound args
      (fun q hq => hkept q (List.mem_append_right _ (List.mem_append_left _ hq))) hstep he ha
    exact ⟨t, ht, hv⟩

/-- A script that binds a number and then adds to it. -/
theorem type_sound_of_binding_and_sum :
    let script : Script :=
      [⟨.bind "x" (.literal ⟨8, 9⟩ (.int 1)), ⟨0, 9⟩, true⟩,
        ⟨.expr (.binary ⟨11, 16⟩ .add (.path ⟨11, 12⟩ ["x"]) (.literal ⟨15, 16⟩ (.int 2))),
          ⟨11, 16⟩, false⟩]
    let resolutions : Resolutions := (∅ : Resolutions).insert 11 (.binding "x")
    parse "let x = 1; x + 2" = .ok script ∧
    check ⟨.empty, [], Bindings.types ∅⟩ script = .ok ⟨some .int, resolutions, []⟩ ∧
    runStmts? resolutions [] ⟨∅, none, 0, ""⟩ script =
      some (runStmts resolutions [] ⟨∅, none, 0, ""⟩ script) := by
  intro script resolutions
  have hparse : parse "let x = 1; x + 2" = .ok script := by decide +kernel
  have hcheck :
      check ⟨.empty, [], Bindings.types ∅⟩ script = .ok ⟨some .int, resolutions, []⟩ := rfl
  exact ⟨hparse, hcheck, (checked_script_is_type_sound hparse hcheck).1⟩

end ScriptSession
