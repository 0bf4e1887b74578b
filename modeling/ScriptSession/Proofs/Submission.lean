import ScriptSession.Proofs.Outcome
import ScriptSession.Script.Engine

namespace ScriptSession.Engine

variable {files : FileTree} {text : String} {options : Options} {prior : Option EngineState}
  {cancelled : Bool} {state : EngineState} {printed : String}

/-- The state that a submission starts from. -/
def base (prior : Option EngineState) : EngineState :=
  prior.getD .initial

def startImports (options : Options) (prior : Option EngineState) : Names :=
  (base prior).imports.extend options.imports

/-- A submission leaves a state exactly if every stage before the run succeeds. -/
theorem run_eq_ok_iff {result : EngineState × String} :
    run files text options prior cancelled = .ok result ↔
      cancelled = false ∧ ∃ modules script checked,
        loadReferences files (base prior).modules options.references = .ok modules ∧
        parse text = .ok script ∧
        check (startScope modules (startImports options prior) (base prior).bindings) script =
          .ok checked ∧
        execute text.toList script checked options.args (base prior) modules
          (startImports options prior) = result := by
  cases cancelled with
  | true => exact ⟨nofun, fun h => nomatch h.1⟩
  | false =>
    constructor
    · intro h
      obtain ⟨modules, hm, h⟩ := Except.bind_eq_ok_iff.1 h
      obtain ⟨script, hs, h⟩ := Except.bind_eq_ok_iff.1 h
      obtain ⟨checked, hc, h⟩ := Except.bind_eq_ok_iff.1 h
      cases h
      exact ⟨rfl, modules, script, checked, hm, Except.mapError_eq_ok_iff.1 hs,
        Except.mapError_eq_ok_iff.1 hc, rfl⟩
    · rintro ⟨-, modules, script, checked, hm, hs, hc, rfl⟩
      refine Except.bind_eq_ok_iff.2 ⟨modules, hm, Except.bind_eq_ok_iff.2 ⟨script, ?_, ?_⟩⟩
      · exact Except.mapError_eq_ok_iff.2 hs
      · exact Except.bind_eq_ok_iff.2 ⟨checked, Except.mapError_eq_ok_iff.2 hc, rfl⟩

theorem run_eq_ok_iff_check {modules : ModuleTable} {script : Script}
    (hload : loadReferences files (base prior).modules options.references = .ok modules)
    (hparse : parse text = .ok script) (result : EngineState × String) :
    run files text options prior false = .ok result ↔ ∃ checked,
      check (startScope modules (startImports options prior) (base prior).bindings) script =
        .ok checked ∧
      execute text.toList script checked options.args (base prior) modules
        (startImports options prior) = result := by
  rw [run_eq_ok_iff]
  constructor
  · rintro ⟨-, modules', script', checked, hm, hs, hc, he⟩
    cases hload.symm.trans hm
    cases hparse.symm.trans hs
    exact ⟨checked, hc, he⟩
  · rintro ⟨checked, hc, he⟩
    exact ⟨rfl, modules, script, checked, hload, hparse, hc, he⟩

end ScriptSession.Engine
