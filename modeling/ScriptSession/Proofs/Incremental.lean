import ScriptSession.Proofs.Loading
import ScriptSession.Proofs.Shift
/-!
One submission after another against both at once. The scope in which the second text is checked on
its own is the one that checking the first text leaves, so that the two texts, joined by a line
feed, do what they do one after the other.
-/
namespace ScriptSession

/-- Two texts with a line feed between them are read as the one script and the other, where a
semicolon ends the first. -/
theorem parse_newline {text next : String} {script more : Script} (h : parse text = .ok script)
    (hterminated : ∀ s ∈ script.getLast?, s.terminated) (hnext : parse next = .ok more) :
    parse (text ++ "\n" ++ next) =
      .ok (script ++ more.map (Stmt.shift (Text.byteLength text.toList + 1))) := by
  obtain ⟨hstrays, hreads⟩ := parse_eq_ok_iff.1 h
  obtain ⟨hstrays', hreads'⟩ := parse_eq_ok_iff.1 hnext
  have htext : (text ++ "\n" ++ next).toList = text.toList ++ '\n' :: next.toList := by
    rw [String.toList_append, String.toList_append, List.append_assoc]
    rfl
  rw [parse_eq_ok_iff, htext, strays_lex_newline, hstrays, hstrays', significant_newline]
  exact ⟨rfl, hreads.append hterminated (hreads'.shift _)⟩

namespace Checking

theorem modules_foldl (c : Checking) (script : Script) :
    (script.foldl step c).scope.modules = c.scope.modules := by
  induction script generalizing c with
  | nil => rfl
  | cons s rest ih =>
    rw [List.foldl_cons, ih]
    unfold step
    cases s.kind with
    | use path => dsimp only; split <;> rfl
    | _ => rfl

theorem imports_foldl {c : Checking} {script : Script}
    (h : ∀ s ∈ script, ∀ path, s.kind = .use path → dotted path ∈ c.scope.imports) :
    (script.foldl step c).scope.imports = c.scope.imports := by
  induction script generalizing c with
  | nil => rfl
  | cons s rest ih =>
    obtain ⟨hs, hrest⟩ := List.forall_mem_cons.1 h
    have hstep : (c.step s).scope.imports = c.scope.imports := by
      unfold step
      cases hk : s.kind with
      | use path =>
        dsimp only
        split
        · rw [if_pos (hs path hk)]
        · rfl
      | _ => rfl
    rw [List.foldl_cons, ih (by rw [hstep]; exact hrest), hstep]

end Checking

namespace Engine

/-- Checking a script that imports nothing new leaves the scope that the next submission starts in,
where the run has not faulted. -/
theorem scope_after {script : Script} {modules : ModuleTable} {names : Names} {bindings : Bindings}
    {p : Progress} {c : Checking}
    (hc : c = script.foldl Checking.step (.start (startScope modules names bindings)))
    (huse : ∀ s ∈ script, ∀ path, s.kind = .use path → dotted path ∈ names)
    (htracks : c.Tracks p) : c.scope = startScope modules names p.bindings := by
  have hmodules : c.scope.modules = modules := hc ▸ Checking.modules_foldl _ script
  have himports : c.scope.imports = names.sorted := hc ▸ Checking.imports_foldl
    (c := .start (startScope modules names bindings)) fun s hs path hp =>
      Names.mem_sorted.2 (huse s hs path hp)
  have hbindings := htracks.types
  obtain ⟨⟨m, i, b⟩, _, _, _⟩ := c
  cases hmodules
  cases himports
  cases hbindings
  rfl

theorem run_without_fault {files : FileTree} {text : String} {script : Script} {options : Options}
    {prior : Option EngineState} {state : EngineState} {printed : String}
    (hparse : parse text = .ok script)
    (huse : ∀ s ∈ script, ∀ path, s.kind = .use path → dotted path ∈ startImports options prior)
    (hrun : run files text options prior false = .ok (state, printed))
    (hfault : state.fault = none) :
    ∃ modules checked p,
      loadReferences files (base prior).modules options.references = .ok modules ∧
      check (startScope modules (startImports options prior) (base prior).bindings) script =
        .ok checked ∧
      runStmts checked.resolutions options.args ⟨(base prior).bindings, none, 0, ""⟩ script =
        (p, none) ∧
      state.bindings = p.bindings ∧ state.modules = modules ∧
      state.imports = startImports options prior ∧ printed = p.printed := by
  obtain ⟨-, modules, script', checked, hm, hs, hc, he⟩ := run_eq_ok_iff.1 hrun
  cases hparse.symm.trans hs
  have himports : checked.imports = (startImports options prior).sorted := by
    rw [(check_eq_ok_iff.1 hc).2]
    exact Checking.imports_foldl fun s hs path hp => Names.mem_sorted.2 (huse s hs path hp)
  rcases hp : runStmts checked.resolutions options.args ⟨(base prior).bindings, none, 0, ""⟩ script
    with ⟨p, _ | fault⟩
  · simp only [execute, hp] at he
    cases he
    refine ⟨modules, checked, p, hm, hc, hp, rfl, rfl, ?_, rfl⟩
    rw [himports]
    exact Names.extend_of_mem fun name hn => Names.mem_sorted.1 hn
  · simp only [execute, hp] at he
    cases he
    cases hfault

end Engine

def RuntimeFault.down (lines : Nat) (f : RuntimeFault) : RuntimeFault :=
  { f with position := f.position.down lines }

theorem Fault.locate_newline (a b : List Char) (f : Fault) :
    (f.shift (Text.byteLength a + 1)).locate (a ++ '\n' :: b) =
      (f.locate b).down (a.count '\n' + 1) := by
  unfold locate RuntimeFault.down shift
  rw [Nat.add_comm f.offset, Position.ofOffset_newline]

/-- A run over the first script and then the second, which stands further down, is a run over the
first and from there one over the second. -/
theorem Checking.Tracks.run_joined {c : Checking} {p q : Progress} {n : Nat}
    {resolutions resolutions' joined : Resolutions} {script more : Script} {scope : Scope}
    (ht : c.Tracks p) (args : List String) (hscope : (script.foldl Checking.step c).scope = scope)
    (hk : ∀ r ∈ c.resolvedFrom script, resolutions[r.1]? = some r.2)
    (hk' : ∀ r ∈ (start scope).resolvedFrom more, resolutions'[r.1]? = some r.2)
    (hj : ∀ r ∈ c.resolvedFrom (script ++ more.map (Stmt.shift n)), joined[r.1]? = some r.2)
    (hs : (script.foldl Checking.step c).findings.toList = [])
    (hs' : (more.foldl Checking.step (start scope)).findings.toList = [])
    (hrun : runStmts resolutions args p script = (q, none)) :
    let next := runStmts resolutions' args ⟨q.bindings, none, 0, ""⟩ more
    runStmts joined args p (script ++ more.map (Stmt.shift n)) =
      (q.then next.1, next.2.map (Fault.shift n)) := by
  rw [resolvedFrom_append] at hj
  have hfirst : runStmts joined args p script = (q, none) := by
    rw [ht.run_congr args hk (fun r hr => hj r (List.mem_append_left _ hr)) hs, hrun]
  have htq := (ht.run args hk hs).2 q hrun
  have hstart : (start scope).Tracks ⟨q.bindings, none, 0, ""⟩ :=
    tracks_start (hscope ▸ htq.types)
  have hagree : (start scope).Agree (script.foldl Checking.step c) := by
    refine ⟨hscope.symm, ?_⟩
    rw [hs]
    exact Iff.rfl
  have hsecond := hstart.run_shift (n := n) args hagree hk'
    (fun r hr => hj r (List.mem_append_right _ hr)) hs'
  rw [runStmts_append, hfirst]
  dsimp only
  rw [runStmts_from, hsecond]

namespace Engine

variable {files : FileTree} {options : Options} {prior : Option EngineState} {text next : String}
  {script more : Script} {state : EngineState} {printed : String}

/-- Where a batch runs as its first part and then the second, it leaves what the second leaves on
top of the first. -/
theorem execute_newline {joined checked : Checked} {p : Progress} {args : List String}
    (prior state : EngineState) (text next : String) (modules : ModuleTable) (names : Names)
    (hrun :
      let r := runStmts checked.resolutions args ⟨state.bindings, none, 0, ""⟩ more
      runStmts joined.resolutions args ⟨prior.bindings, none, 0, ""⟩
          (script ++ more.map (Stmt.shift (Text.byteLength text.toList + 1))) =
        (p.then r.1, r.2.map (Fault.shift (Text.byteLength text.toList + 1))))
    (himports : joined.imports = checked.imports)
    (hty : more ≠ [] → joined.finalTy = checked.finalTy)
    (hlast : more ≠ [] → ∀ r, runStmts checked.resolutions args ⟨state.bindings, none, 0, ""⟩ more =
      (r, none) → r.last.isSome) :
    let (b, out) := execute (text ++ "\n" ++ next).toList
      (script ++ more.map (Stmt.shift (Text.byteLength text.toList + 1))) joined args prior modules
      names
    let (s, out') := execute next.toList more checked args state modules names
    b.bindings = s.bindings ∧ b.modules = s.modules ∧ b.imports = s.imports ∧
      b.fault = s.fault.map (RuntimeFault.down (text.toList.count '\n' + 1)) ∧
      out = p.printed ++ out' ∧
      (more ≠ [] → b.finalValue = s.finalValue ∧ b.finalStatement = s.finalStatement ∧
        b.returnValue = s.returnValue) := by
  have htext : (text ++ "\n" ++ next).toList = text.toList ++ '\n' :: next.toList := by
    rw [String.toList_append, String.toList_append, List.append_assoc]
    rfl
  rcases hr : runStmts checked.resolutions args ⟨state.bindings, none, 0, ""⟩ more with ⟨r, f⟩
  rw [hr] at hrun
  simp only [execute, hrun, hr]
  have hvalue (hne : more ≠ []) : (if (f.map (Fault.shift (Text.byteLength text.toList + 1))).isSome
      then none else (p.then r).last) = if f.isSome then none else r.last := by
    cases f with
    | some fault => rfl
    | none =>
      obtain ⟨v, hv⟩ := Option.isSome_iff_exists.1 (hlast hne r hr)
      simp only [Progress.then, hv, Option.some_or]
      rfl
  have hstatement (hne : more ≠ []) :
      ((script ++ more.map (Stmt.shift (Text.byteLength text.toList + 1))).getLast?.bind fun s =>
        joined.finalTy.map fun ty => (⟨ty, s.terminated⟩ : FinalStatement)) =
      more.getLast?.bind fun s => checked.finalTy.map fun ty => ⟨ty, s.terminated⟩ := by
    rw [List.getLast?_append, List.getLast?_map, List.getLast?_eq_some_getLast hne, hty hne]
    rfl
  refine ⟨rfl, trivial, by rw [himports], ?_, rfl, fun hne => ⟨hvalue hne, hstatement hne, ?_⟩⟩
  · cases f with
    | none => rfl
    | some fault => simp only [Option.map_some, htext, Fault.locate_newline]
  · simp only [EngineState.returnValue, hvalue hne, hstatement hne]

/-- A text that goes on from another on a new line is accepted on top of the same state exactly if
it is accepted on top of what the other left, and it leaves the same. -/
theorem batch_leaves_what_steps_leave (hparse : parse text = .ok script)
    (hmore : parse next = .ok more)
    (hterminated : ∀ s ∈ script.getLast?, s.terminated)
    (huse : ∀ s ∈ script, ∀ path, s.kind = .use path →
      dotted path ∈ options.imports ∨ dotted path ∈ (base prior).imports)
    (hrun : run files text options prior false = .ok (state, printed))
    (hfault : state.fault = none) :
    let batch := run files (text ++ "\n" ++ next) options prior false
    let step := run files next options (some state) false
    ((∃ r, batch = .ok r) ↔ ∃ r, step = .ok r) ∧
    ∀ b out s out', batch = .ok (b, out) → step = .ok (s, out') →
      b.bindings = s.bindings ∧ b.modules = s.modules ∧ b.imports = s.imports ∧
      b.fault = s.fault.map (RuntimeFault.down (text.toList.count '\n' + 1)) ∧
      out = printed ++ out' ∧
      (more ≠ [] → b.finalValue = s.finalValue ∧ b.finalStatement = s.finalStatement ∧
        b.returnValue = s.returnValue) := by
  have huse' : ∀ s ∈ script, ∀ path, s.kind = .use path →
      dotted path ∈ startImports options prior := fun s hs path hp =>
    (Names.contains_extend _ _ _).2 (huse s hs path hp).symm
  obtain ⟨modules, checked, p, hload, hcheck, hp, hbindings, hmodules, himports, rfl⟩ :=
    run_without_fault hparse huse' hrun hfault
  have hjoined := parse_newline hparse hterminated hmore
  obtain ⟨hclean, -⟩ := check_eq_ok_iff.1 hcheck
  have hstart : (Checking.start (startScope modules (startImports options prior)
      (base prior).bindings)).Tracks ⟨(base prior).bindings, none, 0, ""⟩ :=
    Checking.tracks_start rfl
  have hkept := resolutions_kept hparse hcheck
  have hscope := scope_after rfl huse' ((hstart.run options.args hkept hclean).2 p hp)
  have himports' : startImports options (some state) = startImports options prior := by
    rw [startImports, base, Option.getD_some, himports]
    exact Names.extend_of_mem fun name hn => (Names.contains_extend _ _ _).2 (.inr hn)
  have hload' :
      loadReferences files (base (some state)).modules options.references = .ok modules := by
    rw [base, Option.getD_some, hmodules]
    exact loadReferences_idem hload
  have hagree : (Checking.start (startScope modules (startImports options prior) p.bindings)).Agree
      (script.foldl Checking.step (.start (startScope modules (startImports options prior)
        (base prior).bindings))) :=
    ⟨hscope.symm, by rw [hclean]; exact Iff.rfl⟩
  obtain ⟨hend, hfinal⟩ := hagree.foldl (Text.byteLength text.toList + 1) more
  have hbatch := run_eq_ok_iff_check hload hjoined
  have hnext := run_eq_ok_iff_check hload' hmore
  simp only [himports', base, Option.getD_some, hbindings] at hnext
  constructor
  · constructor
    · rintro ⟨r, hr⟩
      obtain ⟨_, hc, -⟩ := (hbatch r).1 hr
      have hfound := (check_eq_ok_iff.1 hc).1
      rw [List.foldl_append] at hfound
      exact ⟨_, (hnext _).2 ⟨_, check_eq_ok_iff.2 ⟨hend.clean.2 hfound, rfl⟩, rfl⟩⟩
    · rintro ⟨r, hr⟩
      obtain ⟨_, hc, -⟩ := (hnext r).1 hr
      have hfound := hend.clean.1 (check_eq_ok_iff.1 hc).1
      rw [← List.foldl_append] at hfound
      exact ⟨_, (hbatch _).2 ⟨_, check_eq_ok_iff.2 ⟨hfound, rfl⟩, rfl⟩⟩
  · intro b out s out' hb hs
    obtain ⟨joined, hj, hb⟩ := (hbatch _).1 hb
    obtain ⟨checked', hc', hs⟩ := (hnext _).1 hs
    have hjoin := hstart.run_joined options.args hscope hkept
      (resolutions_kept hmore hc') (resolutions_kept hjoined hj) hclean (check_eq_ok_iff.1 hc').1 hp
    have htracks := (Checking.Tracks.run (Checking.tracks_start rfl) options.args
      (resolutions_kept hmore hc') (check_eq_ok_iff.1 hc').1).2
    have hj' := (check_eq_ok_iff.1 hj).2
    rw [List.foldl_append] at hj'
    have hc'' := (check_eq_ok_iff.1 hc').2
    have hexecute := execute_newline (base prior) state text next modules
      (startImports options prior) (by rw [hbindings]; exact hjoin) (by rw [hj', hc'', hend.scope])
      (fun hne => by rw [hj', hc'', hfinal hne]) fun hne r hr => by
        have hlast := (htracks r (hbindings ▸ hr)).last
        have hsome := Checking.isSome_finalTy (c := .start (startScope modules
          (startImports options prior) p.bindings)) hne
        rwa [hlast, Option.isSome_map] at hsome
    rwa [hb, hs] at hexecute

/-- A number that is bound by one submission and added to by the next. -/
theorem batch_of_binding_and_sum :
    let files := FileTree.ofCwd []
    let options : Options := ⟨[], [], []⟩
    ∃ state, run files "let x = 1;" options none false = .ok (state, "") ∧ state.fault = none ∧
      ((∃ r, run files ("let x = 1;" ++ "\n" ++ "x + 2") options none false = .ok r) ↔
        ∃ r, run files "x + 2" options (some state) false = .ok r) := by
  intro files options
  have hparse : parse "let x = 1;" =
      .ok [⟨.bind "x" (.literal ⟨8, 9⟩ (.int 1)), ⟨0, 9⟩, true⟩] := by decide +kernel
  have hmore : parse "x + 2" = .ok [⟨.expr (.binary ⟨0, 5⟩ .add (.path ⟨0, 1⟩ ["x"])
      (.literal ⟨4, 5⟩ (.int 2))), ⟨0, 5⟩, false⟩] := by decide +kernel
  have hrun : run files "let x = 1;" options none false = .ok (_, "") :=
    (run_eq_ok_iff_check rfl hparse _).2 ⟨⟨some .unit, ∅, []⟩, rfl, rfl⟩
  refine ⟨_, hrun, rfl, (batch_leaves_what_steps_leave hparse hmore ?_ ?_ hrun rfl).1⟩
  · intro s hs
    cases hs
    rfl
  · intro s hs path hp
    cases List.mem_singleton.1 hs
    cases hp

end Engine
end ScriptSession
