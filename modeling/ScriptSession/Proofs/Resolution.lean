import ScriptSession.Proofs.Admission
import ScriptSession.Proofs.Incremental

namespace ScriptSession

namespace Scope

/-- The modules that a qualifier names below the imports, in their order. -/
def relative (s : Scope) (qualifier : String) : List Module :=
  s.imports.filterMap fun i => s.modules.get? s!"{i}.{qualifier}"

/-- Whether imports compete for a path: its qualifier is no full name of a module, and below the
imports it names two of them. -/
def Contested (s : Scope) (segments : List String) : Prop :=
  segments.dropLast ≠ [] ∧ s.modules.get? (dotted segments.dropLast) = none ∧
    ∃ m ∈ s.relative (dotted segments.dropLast), ∃ n ∈ s.relative (dotted segments.dropLast), m ≠ n

theorem findModule?_eq (s : Scope) (qualifier : String) :
    s.findModule? qualifier = (s.modules.get? qualifier).or (s.relative qualifier).head? := by
  rw [findModule?, relative, List.head?_filterMap]

theorem mem_relative {s : Scope} {qualifier : String} {m : Module} :
    m ∈ s.relative qualifier ↔ ∃ i ∈ s.imports, s.modules.get? s!"{i}.{qualifier}" = some m :=
  List.mem_filterMap

section SameImports

variable {s t : Scope}

/-- Whether two scopes differ in the order and repetition of their imports alone. -/
structure SameImports (s t : Scope) : Prop where
  modules : s.modules = t.modules
  imports : ∀ i, i ∈ s.imports ↔ i ∈ t.imports
  bindings : s.bindings = t.bindings

theorem SameImports.resolveImported (h : s.SameImports t) (name : String) :
    s.resolveImported name = t.resolveImported name := by
  have hany (m : Module) : s.imports.any (ModuleTable.isWithin · m.name) =
      t.imports.any (ModuleTable.isWithin · m.name) := by
    rw [Bool.eq_iff_iff, List.any_eq_true, List.any_eq_true]
    simp only [h.imports]
  have hexporters : s.exportersOf name = t.exportersOf name := by
    simp only [exportersOf, hany, h.modules]
  unfold Scope.resolveImported
  rw [hexporters, h.modules]

theorem SameImports.mem_relative (h : s.SameImports t) {qualifier : String} {m : Module} :
    m ∈ s.relative qualifier ↔ m ∈ t.relative qualifier := by
  simp only [Scope.mem_relative, h.imports, h.modules]

theorem SameImports.findModule? (h : s.SameImports t) {qualifier : String}
    (hone : s.modules.get? qualifier = none → ∀ m ∈ s.relative qualifier,
      ∀ n ∈ s.relative qualifier, m = n) :
    s.findModule? qualifier = t.findModule? qualifier := by
  rw [findModule?_eq, findModule?_eq, ← h.modules]
  cases hfull : s.modules.get? qualifier with
  | some m => rfl
  | none =>
    rw [Option.none_or, Option.none_or]
    cases hs : (s.relative qualifier).head? with
    | none =>
      rw [List.head?_eq_none_iff] at hs
      symm
      rw [List.head?_eq_none_iff, List.eq_nil_iff_forall_not_mem]
      intro m hm
      rw [← h.mem_relative, hs] at hm
      cases hm
    | some m =>
      cases ht : (t.relative qualifier).head? with
      | none =>
        have hm := h.mem_relative.1 (List.mem_of_head? hs)
        rw [List.head?_eq_none_iff.1 ht] at hm
        cases hm
      | some n =>
        have hn := h.mem_relative.2 (List.mem_of_head? ht)
        rw [hone hfull m (List.mem_of_head? hs) n hn]

theorem exists_resolve_eq {segments : List String} (h : segments.dropLast ≠ []) :
    ∃ name, ∀ s : Scope,
      s.resolve segments = (s.resolveQualified segments.dropLast name).map some := by
  match segments with
  | [] | [_] => exact absurd rfl h
  | first :: second :: rest => exact ⟨_, fun _ => rfl⟩

/-- Where imports do not compete for a path, it means the same under them in any order. -/
theorem SameImports.resolve (h : s.SameImports t) {segments : List String}
    (hfree : ¬ s.Contested segments) : s.resolve segments = t.resolve segments := by
  by_cases hplain : segments.dropLast = []
  · match segments with
    | [] => rfl
    | [name] => rw [Scope.resolve, Scope.resolve, h.bindings, h.resolveImported]
  · obtain ⟨name, hresolve⟩ := exists_resolve_eq hplain
    have hone (hfull : s.modules.get? (dotted segments.dropLast) = none) :
        ∀ m ∈ s.relative (dotted segments.dropLast),
          ∀ n ∈ s.relative (dotted segments.dropLast), m = n := by
      intro m hm n hn
      by_contra hne
      exact hfree ⟨hplain, hfull, m, hm, n, hn, hne⟩
    rw [hresolve, hresolve]
    unfold resolveQualified
    rw [h.findModule? hone, h.bindings]

end SameImports

/-- What a name below a module refers to. -/
def member (m : Module) (name : String) : Except Problem (Resolution × Ty) :=
  match exported? m name with
  | some r => .ok r
  | none => .error (.noExport m.name name)

theorem member_ne {m n : Module} (h : m.name ≠ n.name) (name : String) :
    member m name ≠ member n name := by
  have howner (k : Module) (r : Resolution × Ty) (hr : exported? k name = some r) :
      r.1 = .exported k name := by
    obtain ⟨_, -, rfl⟩ := Option.map_eq_some_iff.1 hr
    rfl
  unfold member
  cases hm : exported? m name with
  | none =>
    cases exported? n name with
    | none =>
      intro hsame
      injection hsame with hproblem
      injection hproblem with howner
      exact h howner
    | some _ => exact nofun
  | some r =>
    cases hn : exported? n name with
    | none => exact nofun
    | some r' =>
      intro hsame
      cases hsame
      cases (howner m r hm).symm.trans (howner n r hn)
      exact h rfl

theorem resolveQualified_of_findModule? {s : Scope} {qualifier : List String} {m : Module}
    (h : s.findModule? (dotted qualifier) = some m) (name : String) :
    s.resolveQualified qualifier name = member m name := by
  cases hm : exported? m name with
  | none => simp only [resolveQualified, member, h, hm]
  | some r => simp only [resolveQualified, member, h, hm]

theorem name_ne_of_mem_relative (s : Scope) (hs : s.modules.Consistent) {qualifier : String}
    {m n : Module} (hm : m ∈ s.relative qualifier) (hn : n ∈ s.relative qualifier) (h : m ≠ n) :
    m.name ≠ n.name := by
  obtain ⟨i, -, hat⟩ := mem_relative.1 hm
  obtain ⟨j, -, hat'⟩ := mem_relative.1 hn
  intro hsame
  rw [hs.named _ _ hat, hs.named _ _ hat'] at hsame
  rw [hsame, hat'] at hat
  exact h (Option.some.inj hat).symm

theorem contested_iff {t : ModuleTable} (hs : t.Consistent) (imports : List String)
    (bindings : Std.ExtTreeMap String (Option Ty)) (segments : List String) :
    let s : Scope := ⟨t, imports, bindings⟩
    s.Contested segments ↔
      segments.dropLast ≠ [] ∧ t.get? (dotted segments.dropLast) = none ∧
        ∃ a ∈ (s.relative (dotted segments.dropLast)).map (·.name),
          ∃ b ∈ (s.relative (dotted segments.dropLast)).map (·.name), a ≠ b := by
  intro s
  refine and_congr_right fun _ => and_congr_right fun _ => ⟨?_, ?_⟩
  · rintro ⟨m, hm, n, hn, hne⟩
    exact ⟨m.name, List.mem_map_of_mem hm, n.name, List.mem_map_of_mem hn,
      s.name_ne_of_mem_relative hs hm hn hne⟩
  · rintro ⟨a, ha, b, hb, hne⟩
    obtain ⟨m, hm, rfl⟩ := List.mem_map.1 ha
    obtain ⟨n, hn, rfl⟩ := List.mem_map.1 hb
    exact ⟨m, hm, n, hn, fun hsame => hne (congrArg _ hsame)⟩

theorem findModule?_of_first {s : Scope} {qualifier i : String} {m : Module}
    (hfull : s.modules.get? qualifier = none) (hm : s.modules.get? s!"{i}.{qualifier}" = some m)
    (imports : List String) :
    findModule? { s with imports := i :: imports } qualifier = some m := by
  rw [findModule?, hfull, Option.none_or, List.findSome?_cons, hm]

/-- Where imports compete for a path, there is another order of them in which it means something
else. -/
theorem Contested.exists_order {s : Scope} {segments : List String} (h : s.Contested segments)
    (hs : s.modules.Consistent) :
    ∃ imports, imports.Perm s.imports ∧
      resolve { s with imports } segments ≠ s.resolve segments := by
  obtain ⟨hplain, hfull, m, hm, n, hn, hne⟩ := h
  obtain ⟨k, hk⟩ : ∃ k, (s.relative (dotted segments.dropLast)).head? = some k :=
    Option.isSome_iff_exists.1 (List.isSome_head?.2 (List.ne_nil_of_mem hm))
  obtain ⟨other, hother, hdiffers⟩ :
      ∃ other ∈ s.relative (dotted segments.dropLast), other ≠ k := by
    by_cases hmk : m = k
    · exact ⟨n, hn, fun hnk => hne (hmk.trans hnk.symm)⟩
    · exact ⟨m, hm, hmk⟩
  have hnames := s.name_ne_of_mem_relative hs hother (List.mem_of_head? hk) hdiffers
  obtain ⟨i, hi, hat⟩ := mem_relative.1 hother
  have hfirst := findModule?_of_first hfull hat (s.imports.erase i)
  have hfound : s.findModule? (dotted segments.dropLast) = some k := by
    rw [findModule?_eq, hfull, Option.none_or, hk]
  obtain ⟨name, hresolve⟩ := exists_resolve_eq hplain
  refine ⟨i :: s.imports.erase i, (List.perm_cons_erase hi).symm, ?_⟩
  rw [hresolve, hresolve, resolveQualified_of_findModule? hfirst,
    resolveQualified_of_findModule? hfound]
  exact fun hsame => member_ne hnames name (Except.map_some_inj hsame)

end Scope

theorem Checking.mem_imports_foldl {c : Checking} {i : String} (h : i ∈ c.scope.imports)
    (script : Script) : i ∈ (script.foldl Checking.step c).scope.imports := by
  induction script generalizing c with
  | nil => exact h
  | cons s rest ih =>
    refine ih ?_
    unfold Checking.step
    cases s.kind with
    | use path =>
      dsimp only
      split
      · dsimp only
        split
        · exact h
        · exact List.mem_append_left _ h
      · exact h
    | _ => exact h

namespace Engine

variable {files : FileTree} {text : String} {script : Script} {options : Options}
  {prior : Option EngineState} {state : EngineState} {printed : String}

/-- What names mean after the last statement of a submission. -/
def lastScope (script : Script) (options : Options) (prior : Option EngineState)
    (modules : ModuleTable) : Scope :=
  (script.foldl Checking.step
    (.start (startScope modules (startImports options prior) (base prior).bindings))).scope

/-- What names mean before the first statement of a submission on top of a state. -/
def nextScope (state : EngineState) : Scope :=
  startScope state.modules state.imports state.bindings

/-- A submission hands its modules and imports on to the next, and without a fault its bindings. -/
theorem nextScope_of_run (hparse : parse text = .ok script)
    (hrun : run files text options prior false = .ok (state, printed)) :
    let last := lastScope script options prior state.modules
    (last.modules = (nextScope state).modules ∧
      ∀ i, i ∈ last.imports ↔ i ∈ (nextScope state).imports) ∧
    (state.fault = none → last.bindings = (nextScope state).bindings) := by
  intro last
  obtain ⟨-, modules, script', checked, hload, hparse', hcheck, hexecute⟩ := run_eq_ok_iff.1 hrun
  cases hparse.symm.trans hparse'
  obtain ⟨hclean, hchecked⟩ := check_eq_ok_iff.1 hcheck
  rcases hp : runStmts checked.resolutions options.args ⟨(base prior).bindings, none, 0, ""⟩ script
    with ⟨p, fault⟩
  simp only [execute, hp] at hexecute
  cases hexecute
  have himports : checked.imports = last.imports := by rw [hchecked]; rfl
  refine ⟨⟨Checking.modules_foldl _ script, fun i => ?_⟩, fun hfault => ?_⟩
  · refine Iff.trans ?_ (Names.mem_sorted.trans (Names.contains_extend _ _ _)).symm
    rw [himports]
    refine ⟨.inr, fun hi => hi.elim (fun hi => ?_) id⟩
    exact Checking.mem_imports_foldl (Names.mem_sorted.2 hi) script
  · cases fault with
    | some fault => cases hfault
    | none =>
      exact ((Checking.Tracks.run (Checking.tracks_start rfl) options.args
        (resolutions_kept hparse hcheck) hclean).2 p hp).types

/-- Where no two imports compete for a path, it means the same under every order and repetition of
them, and so at the end of a submission that has a state and before the next one. Where some do,
there is an order in which it means something else. -/
theorem order_matters_where_imports_compete (s : Scope) (segments : List String) :
    (¬ s.Contested segments → ∀ t, s.SameImports t → s.resolve segments = t.resolve segments) ∧
    (s.modules.Consistent → s.Contested segments → ∃ imports, imports.Perm s.imports ∧
      Scope.resolve { s with imports } segments ≠ s.resolve segments) ∧
    ∀ (files : FileTree) (text : String) (script : Script) (options : Options)
      (prior : Option EngineState) (state : EngineState) (printed : String),
      parse text = .ok script → run files text options prior false = .ok (state, printed) →
      let last := lastScope script options prior state.modules
      (¬ last.Contested segments → last.resolve segments =
        Scope.resolve { nextScope state with bindings := last.bindings } segments) ∧
      (state.fault = none → last.bindings = (nextScope state).bindings) := by
  refine ⟨fun hfree t h => h.resolve hfree, fun hs h => h.exists_order hs, ?_⟩
  intro files text script options prior state printed hparse hrun last
  obtain ⟨⟨hmodules, himports⟩, hbindings⟩ := nextScope_of_run hparse hrun
  refine ⟨fun hfree => ?_, hbindings⟩
  have hsame : last.SameImports { nextScope state with bindings := last.bindings } :=
    ⟨hmodules, himports, rfl⟩
  exact hsame.resolve hfree

/-- Three modules, two of them called `X` below different imports. -/
theorem order_matters_below_two_imports :
    let file (name text : String) : Location × Node := ([name], .file text.toUTF8)
    let files : FileTree := ⟨[], [file "a.dll" "kmod A.X, Version=1.0\nexport v = 1",
      file "b.dll" "kmod B.X, Version=1.0\nexport v = 2",
      file "c.dll" "kmod A.Y, Version=1.0\nexport w = 3"]⟩
    let t := ModuleTable.empty.after [⟨files, ⟨"a.dll"⟩⟩, ⟨files, ⟨"b.dll"⟩⟩, ⟨files, ⟨"c.dll"⟩⟩]
    let s : Scope := ⟨t, ["B", "A"], ∅⟩
    let options : Options := ⟨[⟨"a.dll"⟩, ⟨"b.dll"⟩, ⟨"c.dll"⟩], [], []⟩
    s.resolve ["Y", "w"] = Scope.resolve { s with imports := ["A", "B", "A"] } ["Y", "w"] ∧
      (∃ imports, imports.Perm ["B", "A"] ∧
        Scope.resolve { s with imports } ["X", "v"] ≠ s.resolve ["X", "v"]) ∧
      ∃ script state printed, parse "use B; use A; let x = w;" = .ok script ∧
        run files "use B; use A; let x = w;" options none false = .ok (state, printed) ∧
        (lastScope script options none state.modules).resolve ["w"] =
          (nextScope state).resolve ["w"] := by
  intro file files t s options
  have ht : t.Consistent := ModuleTable.consistent_empty.after _
  have hfree : ¬ s.Contested ["Y", "w"] :=
    mt (Scope.contested_iff ht _ _ _).1 (by decide +kernel)
  have hcontested : s.Contested ["X", "v"] :=
    (Scope.contested_iff ht _ _ _).2 (by decide +kernel)
  have hclean : (run files "use B; use A; let x = w;" options none false).toOption.any
      (·.1.fault.isNone) = true := by decide +kernel
  clear_value t
  have hsets : s.SameImports { s with imports := ["A", "B", "A"] } := by
    refine ⟨rfl, fun i => ?_, rfl⟩
    simp only [s, List.mem_cons, List.not_mem_nil]
    tauto
  obtain ⟨hsame, -, -⟩ := order_matters_where_imports_compete s ["Y", "w"]
  obtain ⟨-, hdiffers, -⟩ := order_matters_where_imports_compete s ["X", "v"]
  refine ⟨hsame hfree _ hsets, hdiffers ht hcontested, ?_⟩
  cases hrun : run files "use B; use A; let x = w;" options none false with
  | error e =>
    rw [hrun] at hclean
    cases hclean
  | ok r =>
    rw [hrun] at hclean
    obtain ⟨-, -, script, -, -, hparse, -⟩ := run_eq_ok_iff.1 hrun
    obtain ⟨-, -, hlast⟩ := order_matters_where_imports_compete s ["w"]
    obtain ⟨hplain, hbindings⟩ := hlast _ _ _ _ _ _ _ hparse hrun
    refine ⟨script, r.1, r.2, hparse, rfl, (hplain fun h => h.1 rfl).trans ?_⟩
    rw [hbindings (Option.isNone_iff_eq_none.1 hclean)]

/-- Under the imports `B` and then `A` the name `X.v` means the export of `B.X`, and under `A` and
then `B` that of `A.X`; so it does in the submission that imports them and in the next one. -/
theorem dotted_name_follows_import_order :
    let file (name text : String) : Location × Node := ([name], .file text.toUTF8)
    let files : FileTree := ⟨[], [file "a.dll" "kmod A.X, Version=1.0\nexport v = 1",
      file "b.dll" "kmod B.X, Version=1.0\nexport v = 2"]⟩
    let t := ModuleTable.empty.after [⟨files, ⟨"a.dll"⟩⟩, ⟨files, ⟨"b.dll"⟩⟩]
    let options : Options := ⟨[⟨"a.dll"⟩, ⟨"b.dll"⟩], [], []⟩
    let first := run files "use B; use A; X.v" options none false
    let next := run files "X.v" options (first.toOption.map (·.1)) false
    ¬ (∀ s s' : Scope, s.SameImports s' → ∀ segments, s.resolve segments = s'.resolve segments) ∧
      (Scope.mk t ["B", "A"] ∅).findModule? "X" ≠ (Scope.mk t ["A", "B"] ∅).findModule? "X" ∧
      (first.toOption.bind fun r => r.1.returnValue) = some (.int 2) ∧
      (next.toOption.bind fun r => r.1.returnValue) = some (.int 1) := by
  intro file files t options first next
  have hruns : (first.toOption.bind fun r => r.1.returnValue) = some (.int 2) ∧
      (next.toOption.bind fun r => r.1.returnValue) = some (.int 1) := by decide +kernel
  have hfound : ((Scope.mk t ["B", "A"] ∅).findModule? "X").map (·.name) = some "B.X" ∧
      ((Scope.mk t ["A", "B"] ∅).findModule? "X").map (·.name) = some "A.X" := by decide +kernel
  refine ⟨fun hall => ?_, fun hsame => ?_, hruns⟩
  · have ht : t.Consistent := ModuleTable.consistent_empty.after _
    have hcontested : (Scope.mk t ["B", "A"] ∅).Contested ["X", "v"] :=
      (Scope.contested_iff ht _ _ _).2 (by decide +kernel)
    clear_value t
    obtain ⟨imports, hperm, hdiffers⟩ := hcontested.exists_order ht
    have hsame : (Scope.mk t imports ∅).SameImports (Scope.mk t ["B", "A"] ∅) :=
      ⟨rfl, fun _ => hperm.mem_iff, rfl⟩
    exact hdiffers (hall _ _ hsame _)
  · have hnames := hfound.1.symm.trans ((congrArg _ hsame).trans hfound.2)
    exact absurd (Option.some.inj hnames) (by decide)

end Engine
end ScriptSession
