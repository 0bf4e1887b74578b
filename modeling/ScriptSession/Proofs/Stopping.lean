import ScriptSession.Proofs.Binding
import ScriptSession.Proofs.Shift

namespace ScriptSession

theorem Text.exists_append_of_prefix {text : String} {cut : List Char} (h : cut <+: text.toList) :
    ∃ rest, text = String.ofList cut ++ rest := by
  obtain ⟨rest, hrest⟩ := h
  refine ⟨String.ofList rest, String.toList_injective ?_⟩
  rw [String.toList_append, String.toList_ofList, String.toList_ofList, hrest]

theorem parse_cut {text : String} {front rest : Script} {s : Stmt}
    (hparse : parse text = .ok (front ++ s :: rest)) :
    ∃ cut after, text = cut ++ after ∧ Text.byteLength cut.toList = s.span.start ∧
      parse cut = .ok front := by
  obtain ⟨hlength, hcut, hstrays, -, hfront⟩ := readsScript_cut hparse
  obtain ⟨after, hafter⟩ := Text.exists_append_of_prefix hcut
  refine ⟨_, after, hafter, by rw [String.toList_ofList, hlength], ?_⟩
  rw [parse_eq_ok_iff, String.toList_ofList]
  exact ⟨hstrays, hfront⟩

theorem check_front {text cut : String} {front back : Script} {scope : Scope} {checked : Checked}
    {bindings : Bindings} (hparse : parse text = .ok (front ++ back)) (hcut : parse cut = .ok front)
    (hcheck : check scope (front ++ back) = .ok checked) (hscope : scope.bindings = bindings.types)
    (args : List String) :
    ∃ checked', check scope front = .ok checked' ∧
      runStmts checked'.resolutions args ⟨bindings, none, 0, ""⟩ front =
        runStmts checked.resolutions args ⟨bindings, none, 0, ""⟩ front := by
  have hclean := (check_eq_ok_iff.1 hcheck).1
  rw [List.foldl_append] at hclean
  have hfront := Checking.clean_of_foldl hclean
  have hkept := resolutions_kept hparse hcheck
  rw [Checking.resolvedFrom_append] at hkept
  have hcheck' := check_eq_ok_iff.2 ⟨hfront, rfl⟩
  -- the table of the whole script keeps more, but it agrees on all that the front looks up
  exact ⟨_, hcheck', (Checking.tracks_start hscope).run_congr args
    (fun q hq => hkept q (List.mem_append_left _ hq)) (resolutions_kept hcut hcheck') hfront⟩

namespace Engine

variable {files : FileTree} {text : String} {options : Options} {prior : Option EngineState}

/-- A submission completes the statements in `done` and faults in the statement after them. -/
def FaultsAfter (files : FileTree) (text : String) (options : Options) (prior : Option EngineState)
    (done : Script) (fault : RuntimeFault) : Prop :=
  ∃ s more modules checked p f,
    loadReferences files (base prior).modules options.references = .ok modules ∧
    parse text = .ok (done ++ s :: more) ∧
    check (startScope modules (startImports options prior) (base prior).bindings)
      (done ++ s :: more) = .ok checked ∧
    Stops checked.resolutions options.args ⟨(base prior).bindings, none, 0, ""⟩ done s p f ∧
    fault = f.locate text.toList

/-- A submission that faults commits exactly what ran. Its executed bytes are a prefix of the text
that parses as the statements that completed; submitted in its place, that prefix runs without a
fault, leaves the same names and modules and prints the first part of what was printed. -/
theorem faulted_submission_commits_what_ran {cancelled : Bool} {state : EngineState}
    {printed : String} {fault : RuntimeFault}
    (hrun : run files text options prior cancelled = .ok (state, printed))
    (hfault : state.fault = some fault) :
    ∃ cut rest done, text = cut ++ rest ∧ Text.byteLength cut.toList = state.executedLength ∧
      FaultsAfter files text options prior done fault ∧ parse cut = .ok done ∧
      ∃ alone out more, run files cut options prior false = .ok (alone, out) ∧
        alone.fault = none ∧ alone.bindings = state.bindings ∧ alone.modules = state.modules ∧
        printed = out ++ more := by
  obtain ⟨-, modules, script, checked, hload, hparse, hcheck, he⟩ := run_eq_ok_iff.1 hrun
  rcases hp : runStmts checked.resolutions options.args ⟨(base prior).bindings, none, 0, ""⟩ script
    with ⟨p, _ | f⟩
  · simp only [execute, hp] at he
    cases he
    cases hfault
  · obtain ⟨done, s, more, q, rfl, hstops, rfl⟩ := stops_of_runStmts hp
    simp only [execute, hp] at he
    cases he
    cases hfault
    obtain ⟨cut, rest, htext, hlength, hcut⟩ := parse_cut hparse
    have hfaults : FaultsAfter files text options prior done (f.locate text.toList) :=
      ⟨s, more, modules, checked, q, f, hload, hparse, hcheck, hstops, rfl⟩
    refine ⟨cut, rest, done, htext, ?_, hfaults, hcut, ?_⟩
    · rw [hlength]
      exact (executedLength_of_stops hstops rfl).symm
    · obtain ⟨checked', hcheck', hsame⟩ := check_front hparse hcut hcheck rfl options.args
      have halone := (run_eq_ok_iff_check hload hcut _).2 ⟨checked', hcheck', rfl⟩
      rw [hstops.completes] at hsame
      simp only [execute, hsame] at halone
      exact ⟨_, _, _, halone, rfl, rfl, rfl, rfl⟩

/-- A submission that binds and prints a number; the statement that faults stands behind a comment
and prints before it divides. -/
theorem commit_of_prints_and_division :
    let files := FileTree.ofCwd []
    let options : Options := ⟨[], [], []⟩
    let text := "let x = 1; print(x); // é\nstr(print(2)) + str(1 / 0)"
    ∃ state fault, run files text options none false = .ok (state, "1\n2\n") ∧
      state.fault = some fault ∧
      ∃ cut rest done, text = cut ++ rest ∧ Text.byteLength cut.toList = state.executedLength ∧
        FaultsAfter files text options none done fault ∧ parse cut = .ok done ∧
        ∃ alone out more, run files cut options none false = .ok (alone, out) ∧
          alone.fault = none ∧ alone.bindings = state.bindings ∧ alone.modules = state.modules ∧
          "1\n2\n" = out ++ more := by
  intro files options text
  have hparse : parse text =
      .ok [⟨.bind "x" (.literal ⟨8, 9⟩ (.int 1)), ⟨0, 9⟩, true⟩,
        ⟨.expr (.call ⟨11, 19⟩ "print" [.path ⟨17, 18⟩ ["x"]]), ⟨11, 19⟩, true⟩,
        ⟨.expr (.binary ⟨27, 53⟩ .add
          (.call ⟨27, 40⟩ "str" [.call ⟨31, 39⟩ "print" [.literal ⟨37, 38⟩ (.int 2)]])
          (.call ⟨43, 53⟩ "str"
            [.binary ⟨47, 52⟩ .div (.literal ⟨47, 48⟩ (.int 1)) (.literal ⟨51, 52⟩ (.int 0))])),
          ⟨27, 53⟩, false⟩] := by
    decide +kernel
  have hrun : run files text options none false = .ok (_, "1\n2\n") :=
    (run_eq_ok_iff_check rfl hparse _).2 ⟨_, rfl, rfl⟩
  exact ⟨_, _, hrun, rfl, faulted_submission_commits_what_ran hrun rfl⟩

end Engine
end ScriptSession
