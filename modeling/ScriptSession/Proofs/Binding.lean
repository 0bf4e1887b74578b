import ScriptSession.Proofs.Directive
import ScriptSession.Proofs.Evaluation
import ScriptSession.Proofs.Submission

namespace ScriptSession

theorem runStmt_binds (resolutions : Resolutions) (args : List String) (bindings : Bindings)
    (s : Stmt) : (runStmt resolutions args bindings s).Gives fun r =>
      ∀ name, name ∈ r.2 ↔ name ∈ bindings ∨ s.kind.bound? = some name := by
  have hany (e : Expr) : (eval ⟨resolutions, args, bindings⟩ e).Gives fun _ => True :=
    fun _ _ => trivial
  unfold runStmt
  cases s.kind with
  | bind name value =>
    refine (hany value).bind fun v _ => Effect.gives_pure fun other => ?_
    rw [Std.ExtTreeMap.mem_insert, Std.LawfulEqCmp.compare_eq_iff_eq, or_comm]
    simp only [StmtKind.bound?, Option.some.injEq]
  | use path => exact Effect.gives_pure fun other => by simp [StmtKind.bound?]
  | expr value =>
    exact (hany value).bind fun v _ => Effect.gives_pure fun other => by simp [StmtKind.bound?]

theorem runStmts_binds {resolutions : Resolutions} {args : List String} {p q : Progress}
    {script : Script} (h : runStmts resolutions args p script = (q, none)) :
    q.completed = p.completed + script.length ∧
      ∀ name, name ∈ q.bindings ↔ name ∈ p.bindings ∨ name ∈ Script.boundNames script := by
  induction script generalizing p with
  | nil =>
    cases h
    exact ⟨rfl, by simp [Script.boundNames]⟩
  | cons s rest ih =>
    have hs := runStmt_binds resolutions args p.bindings s
    rw [runStmts] at h
    cases hr : (runStmt resolutions args p.bindings s).result with
    | error fault =>
      simp only [hr] at h
      cases h
    | ok r =>
      simp only [hr] at h
      obtain ⟨hcompleted, hnames⟩ := ih h
      refine ⟨?_, fun name => ?_⟩
      · rw [hcompleted, List.length_cons, Nat.add_assoc, Nat.add_comm 1]
      · rw [hnames, hs r hr, or_assoc, Script.boundNames_cons, List.mem_append,
          Option.mem_toList]

/-- A run that goes on from `p` completes the statements in `done`, which lead to `q`, and faults in
the statement after them. -/
structure Stops (resolutions : Resolutions) (args : List String) (p : Progress) (done : Script)
    (s : Stmt) (q : Progress) (fault : Fault) : Prop where
  completes : runStmts resolutions args p done = (q, none)
  faults : (runStmt resolutions args q.bindings s).result = .error fault

/-- A run that faults does so in one of its statements, and adds to what those before it did only
what that statement printed. -/
theorem stops_of_runStmts {resolutions : Resolutions} {args : List String} {p r : Progress}
    {script : Script} {fault : Fault} (h : runStmts resolutions args p script = (r, some fault)) :
    ∃ done s more q, script = done ++ s :: more ∧ Stops resolutions args p done s q fault ∧
      r = { q with printed := q.printed ++ (runStmt resolutions args q.bindings s).printed } := by
  induction script generalizing p with
  | nil => cases h
  | cons s rest ih =>
    rw [runStmts] at h
    cases hr : (runStmt resolutions args p.bindings s).result with
    | error f =>
      simp only [hr] at h
      cases h
      exact ⟨[], s, rest, p, rfl, ⟨rfl, hr⟩, rfl⟩
    | ok v =>
      simp only [hr] at h
      obtain ⟨done, t, more, q, rfl, hstops, he⟩ := ih h
      refine ⟨s :: done, t, more, q, rfl, ⟨?_, hstops.faults⟩, he⟩
      rw [runStmts, hr]
      exact hstops.completes

theorem Outline.LetsBound.ne_of_getLast? {ts : List Lexeme} (h : LetsBound ts) {t : Lexeme}
    (ht : t ∈ ts.getLast?) : t.token ≠ .kwLet := by
  obtain ⟨front, rfl⟩ := List.getLast?_eq_some_iff.1 ht
  intro hl
  cases h.right.1 hl

namespace Engine

theorem executedLength_of_stops {source : List Char} {resolutions : Resolutions}
    {args : List String} {bindings : Bindings} {done more : Script} {s : Stmt} {p q : Progress}
    {fault : Fault} (h : Stops resolutions args ⟨bindings, none, 0, ""⟩ done s q fault)
    (hp : p.completed = q.completed) :
    executedLength source (done ++ s :: more) p (some fault) = s.span.start := by
  have hcompleted : q.completed = done.length :=
    (runStmts_binds h.completes).1.trans (Nat.zero_add _)
  have hat : (done ++ s :: more)[done.length]? = some s := by simp
  simp only [executedLength, hp, hcompleted, hat, Option.map_some, Option.getD_some]

theorem run_binds {files : FileTree} {text : String} {options : Options}
    {prior : Option EngineState} {cancelled : Bool} {state : EngineState} {printed : String}
    (h : run files text options prior cancelled = .ok (state, printed)) :
    ∃ front back, parse text = .ok (front ++ back) ∧
      (∀ name, name ∈ state.bindings ↔
        name ∈ (base prior).bindings ∨ name ∈ Script.boundNames front) ∧
      (state.fault = none → back = []) ∧
      (state.fault ≠ none → ∃ s rest, back = s :: rest ∧ state.executedLength = s.span.start) := by
  obtain ⟨-, modules, script, checked, -, hparse, -, he⟩ := run_eq_ok_iff.1 h
  rcases hp : runStmts checked.resolutions options.args ⟨(base prior).bindings, none, 0, ""⟩ script
    with ⟨p, _ | fault⟩
  · simp only [execute, hp] at he
    cases he
    refine ⟨script, [], by rw [List.append_nil, hparse], (runStmts_binds hp).2, fun _ => rfl, ?_⟩
    exact fun hsome => absurd rfl hsome
  · obtain ⟨done, s, more, q, rfl, hstops, rfl⟩ := stops_of_runStmts hp
    simp only [execute, hp] at he
    cases he
    refine ⟨done, s :: more, hparse, (runStmts_binds hstops.completes).2, nofun, fun _ => ?_⟩
    exact ⟨s, more, rfl, executedLength_of_stops hstops rfl⟩

end Engine

namespace Outline

theorem letNames_significant_of_letsBound {ts : List Lexeme} (h : LetsBound ts) :
    letNames (significant ts) = letNames ts := by
  induction ts with
  | nil => rfl
  | cons t ts ih =>
    by_cases hc : t.token = .comment
    · rw [significant_comment hc, letNames_cons (by rw [hc]; nofun), ih h.2]
    · by_cases ht : t.token = .kwLet
      · obtain ⟨n, ts, rfl⟩ : ∃ n us, ts = n :: us :=
          List.exists_cons_of_ne_nil fun hnil => by
            rw [hnil] at h
            cases h.1 ht
        have hn : n.token = .ident := Option.some.inj (h.1 ht)
        have hrest := ih h.2
        rw [significant_cons (by rw [hn]; nofun)] at hrest
        rw [significant_cons hc, significant_cons (by rw [hn]; nofun), letNames_let ht hn,
          letNames_let ht hn, hrest]
      · rw [significant_cons hc, letNames_cons ht, letNames_cons ht, ih h.2]

end Outline

theorem readsScript_cut {text : String} {front rest : Script} {s : Stmt}
    (hparse : parse text = .ok (front ++ s :: rest)) :
    let cut := Text.takeBytes s.span.start text.toList
    Text.byteLength cut = s.span.start ∧ cut <+: text.toList ∧ (lex cut).strays = [] ∧
      (lex cut).tokens <+: (lex text.toList).tokens ∧
      ReadsScript front (significant (lex cut).tokens) := by
  obtain ⟨hstrays, hreads⟩ := parse_eq_ok_iff.1 hparse
  obtain ⟨before, after, htokens, hstart, hfront⟩ := hreads.before
  obtain ⟨t, after, rfl⟩ : ∃ t ts, after = t :: ts := by
    cases after with
    | nil => cases hstart
    | cons t ts => exact ⟨t, ts, rfl⟩
  rw [← Option.some.inj hstart]
  obtain ⟨hlength, hcut, hbefore, hleft, hpieces⟩ := significant_takeBytes htokens
  exact ⟨hlength, hcut, strays_lex_of_prefix hstrays hpieces, hleft, hbefore.symm ▸ hfront⟩

/-- What stands in front of a statement binds the names of the statements before it, also where the
blanks around it are trimmed. -/
theorem letNames_cut {text : String} {front rest : Script} {s : Stmt}
    (hparse : parse text = .ok (front ++ s :: rest)) (hlines : Outline.LetsOnOneLine text.toList) :
    let cut := Text.trim (Text.takeBytes s.span.start text.toList)
    Outline.LetsBound (lex cut).tokens ∧
      Outline.letNames (lex cut).tokens = Script.boundNames front := by
  have hreads := (parse_eq_ok_iff.1 hparse).2
  obtain ⟨hall, -⟩ := Outline.letNames_significant hlines hreads.letNames_eq.1
  obtain ⟨-, -, hstrays, ⟨after, hleft⟩, hfront⟩ := readsScript_cut hparse
  obtain ⟨hbefore, hnames⟩ := hfront.letNames_eq
  have hbound : Outline.LetsBound (lex (Text.takeBytes s.span.start text.toList)).tokens := by
    rw [← hleft] at hall
    refine hall.left fun u hu hl _ => ?_
    obtain ⟨vs, hvs⟩ := List.getLast?_eq_some_iff.1 hu
    rw [hvs, significant, List.filter_append, List.filter_cons_of_pos (by simp [hl])] at hbefore
    exact hbefore.ne_of_getLast? List.getLast?_concat hl
  have hmeaning := (meanings_trim (Lexer.piece_ne_stray hstrays)).symm
  refine ⟨hbound.congr hmeaning, ?_⟩
  rw [← Outline.letNames_congr hmeaning, ← Outline.letNames_significant_of_letsBound hbound, hnames]

end ScriptSession
