import Mathlib.Data.List.Nodup
import ScriptSession.Proofs.Syntax
import ScriptSession.Script.Typing

namespace ScriptSession

theorem Findings.toList_eq_nil_append {a b : Findings} :
    (a ++ b).toList = [] ↔ a.toList = [] ∧ b.toList = [] := by
  rw [toList_append, List.append_eq_nil_iff]

namespace Inference

theorem findings_unary {offset : Nat} {op : UnaryOp} {i : Inference}
    (h : (unary offset op i).findings.toList = []) : i.findings.toList = [] := by
  unfold unary at h
  split at h
  · exact h
  · split at h
    · exact h
    · exact (Findings.toList_eq_nil_append.1 h).1

theorem findings_binary {offset : Nat} {op : BinaryOp} {i j : Inference}
    (h : (binary offset op i j).findings.toList = []) :
    i.findings.toList = [] ∧ j.findings.toList = [] := by
  unfold binary at h
  split at h
  · split at h
    · exact Findings.toList_eq_nil_append.1 h
    · exact Findings.toList_eq_nil_append.1 (Findings.toList_eq_nil_append.1 h).1
  · exact Findings.toList_eq_nil_append.1 h

theorem toList_foldl_findings (fs : Findings) (args : List (Nat × Inference)) :
    (args.foldl (fun fs arg => fs ++ arg.2.findings) fs).toList =
      fs.toList ++ args.flatMap fun arg => arg.2.findings.toList := by
  induction args generalizing fs with
  | nil => simp
  | cons a args ih => simp only [List.foldl_cons, ih, Findings.toList_append, List.flatMap_cons,
      List.append_assoc]

theorem findings_call {offset : Nat} {name : String} {args : List (Nat × Inference)}
    (h : (call offset name args).findings.toList = []) :
    ∀ arg ∈ args, arg.2.findings.toList = [] := by
  have hargs :
      (args.foldl (fun (fs : Findings) arg => fs ++ arg.2.findings) .none).toList = [] := by
    unfold call at h
    split at h
    · exact (Findings.toList_eq_nil_append.1 h).1
    · split at h
      · exact (Findings.toList_eq_nil_append.1 h).1
      · exact (Findings.toList_eq_nil_append.1 h).1
  rw [toList_foldl_findings, Findings.toList_none, List.nil_append] at hargs
  exact List.flatMap_eq_nil_iff.1 hargs

theorem ty_unary {offset : Nat} {op : UnaryOp} {i : Inference} {t : Ty}
    (h : (unary offset op i).ty = some t) : i.ty = some t ∧ t = op.operandTy := by
  unfold unary at h
  split at h
  · cases h
  next u hu =>
    split at h
    next hop =>
      cases h
      exact ⟨hu, hop⟩
    · cases h

theorem ty_binary {offset : Nat} {op : BinaryOp} {i j : Inference} {t : Ty}
    (h : (binary offset op i j).ty = some t) :
    ∃ a b, i.ty = some a ∧ j.ty = some b ∧ op.resultTy? a b = some t := by
  unfold binary at h
  split at h
  next a b ha hb =>
    split at h
    next u hu =>
      cases h
      exact ⟨a, b, ha, hb, hu⟩
    · cases h
  · cases h

theorem ty_call {offset : Nat} {name : String} {args : List (Nat × Inference)} {t : Ty}
    (h : (call offset name args).ty = some t) :
    ∃ f, Builtin.ofName? name = some f ∧ f.params.length = args.length ∧ t = f.result ∧
      (∀ arg ∈ args, arg.2.ty.isSome) ∧
      (f.params.zip args).flatMap (fun p => argument name p.1 p.2.1 p.2.2) = [] := by
  unfold call at h
  split at h
  · cases h
  next f hf =>
    split at h
    · cases h
    next hlen =>
      dsimp only at h
      split at h
      next hok =>
        cases h
        refine ⟨f, hf, Decidable.not_not.1 hlen, rfl, ?_, hok.2⟩
        exact fun arg harg => List.all_eq_true.1 hok.1 arg harg
      · cases h

end Inference

namespace Scope

theorem inferAll_eq (s : Scope) (args : List Expr) :
    s.inferAll args = args.map fun e => (e.span.start, s.infer e) := by
  induction args with
  | nil => rfl
  | cons e es ih => rw [inferAll, ih, List.map_cons]

/-- The resolutions of the paths in an expression, by the offset where each path starts. -/
def resolved (s : Scope) : Expr → List (Nat × Resolution)
  | .literal _ _ => []
  | .path span segments =>
    match s.resolve segments with
    | .ok (some (r, _)) => [(span.start, r)]
    | _ => []
  | .unary _ _ e => s.resolved e
  | .binary _ _ l r => s.resolved l ++ s.resolved r
  | .call _ _ args => args.flatMap s.resolved

theorem bindAllPaths_eq (s : Scope) (args : List Expr) (found : Resolutions) :
    s.bindAllPaths args found = args.foldl (fun found e => s.bindPaths e found) found := by
  induction args generalizing found with
  | nil => rfl
  | cons e es ih => rw [bindAllPaths, ih, List.foldl_cons]

theorem bindPaths_eq (s : Scope) (e : Expr) (found : Resolutions) :
    s.bindPaths e found = found.insertMany (s.resolved e) := by
  induction e generalizing found with
  | literal => simp only [bindPaths, resolved, Std.ExtTreeMap.insertMany_nil]
  | path span segments =>
    simp only [bindPaths, resolved]
    rcases s.resolve segments with _ | _ | ⟨r, t⟩
    · exact Std.ExtTreeMap.insertMany_nil.symm
    · exact Std.ExtTreeMap.insertMany_nil.symm
    · exact Std.ExtTreeMap.insertMany_list_singleton.symm
  | unary span op e ih => simp only [bindPaths, resolved, ih]
  | binary span op l r ihl ihr =>
    simp only [bindPaths, resolved, ihl, ihr, Std.ExtTreeMap.insertMany_append]
  | call span name args ih =>
    simp only [bindPaths, resolved, bindAllPaths_eq]
    induction args generalizing found with
    | nil => simp only [List.foldl_nil, List.flatMap_nil, Std.ExtTreeMap.insertMany_nil]
    | cons e es ihes =>
      obtain ⟨he, hes⟩ := List.forall_mem_cons.1 ih
      simp only [List.foldl_cons, List.flatMap_cons, Std.ExtTreeMap.insertMany_append, he, ihes hes]

theorem resolved_sublist (s : Scope) (e : Expr) :
    ((s.resolved e).map (·.1)).Sublist e.pathStarts := by
  induction e with
  | literal => simp only [resolved, Expr.pathStarts, List.map_nil, List.Sublist.refl]
  | path span segments =>
    simp only [resolved, Expr.pathStarts]
    split
    · exact .refl _
    · exact List.nil_sublist _
  | unary span op e ih => simpa only [resolved, Expr.pathStarts] using ih
  | binary span op l r ihl ihr =>
    simp only [resolved, Expr.pathStarts, List.map_append]
    exact ihl.append ihr
  | call span name args ih =>
    simp only [resolved, Expr.pathStarts, List.map_flatMap]
    induction args with
    | nil => exact .refl _
    | cons e es ihes =>
      obtain ⟨he, hes⟩ := List.forall_mem_cons.1 ih
      simp only [List.flatMap_cons]
      exact he.append (ihes hes)

/-- No name is bound without a type. -/
def Sound (s : Scope) : Prop :=
  ∀ name : String, s.bindings[name]? ≠ some none

theorem ty_path {s : Scope} {span : Span} {segments : List String} {t : Ty}
    (h : (s.infer (.path span segments)).ty = some t) :
    ∃ r, s.resolve segments = .ok (some (r, t)) := by
  simp only [infer] at h
  split at h
  next r t' hr =>
    cases h
    exact ⟨r, hr⟩
  · cases h
  · cases h

theorem resolve_ne_none {s : Scope} (hs : s.Sound) (segments : List String) :
    s.resolve segments ≠ .ok none := by
  unfold resolve
  split
  · exact nofun
  next name =>
    split
    · exact nofun
    next h => exact (hs name h).elim
    · cases s.resolveImported name <;> exact nofun
  next first rest _ =>
    cases s.resolveQualified (first :: rest).dropLast ((first :: rest).getLast (by simp)) <;>
      exact nofun

/-- In a sound scope an expression without findings has a type. -/
theorem isSome_ty_infer {s : Scope} (hs : s.Sound) {e : Expr}
    (h : (s.infer e).findings.toList = []) : (s.infer e).ty.isSome := by
  induction e with
  | literal => rfl
  | path span segments =>
    simp only [infer] at h ⊢
    split
    · rfl
    next hn => exact (resolve_ne_none hs segments hn).elim
    next p hp => simp only [hp, Findings.toList_one] at h; cases h
  | unary span op e ih =>
    simp only [infer] at h ⊢
    obtain ⟨t, ht⟩ := Option.isSome_iff_exists.1 (ih (Inference.findings_unary h))
    simp only [Inference.unary, ht] at h ⊢
    split at h
    next hop => simp only [hop, if_true, Option.isSome_some]
    · exact absurd (Findings.toList_eq_nil_append.1 h).2 (by simp)
  | binary span op l r ihl ihr =>
    simp only [infer] at h ⊢
    obtain ⟨hl, hr⟩ := Inference.findings_binary h
    obtain ⟨a, ha⟩ := Option.isSome_iff_exists.1 (ihl hl)
    obtain ⟨b, hb⟩ := Option.isSome_iff_exists.1 (ihr hr)
    simp only [Inference.binary, ha, hb] at h ⊢
    split at h
    next t ht => rw [Option.isSome_some]
    · exact absurd (Findings.toList_eq_nil_append.1 h).2 (by simp)
  | call span name args ih =>
    simp only [infer] at h ⊢
    have hargs := Inference.findings_call h
    have hknown : ∀ arg ∈ s.inferAll args, arg.2.ty.isSome := by
      rw [inferAll_eq] at hargs ⊢
      intro arg harg
      obtain ⟨e, he, rfl⟩ := List.mem_map.1 harg
      exact ih e he (hargs _ harg)
    unfold Inference.call at h ⊢
    split at h
    · exact absurd (Findings.toList_eq_nil_append.1 h).2 (by simp)
    next f hf =>
      split at h
      · exact absurd (Findings.toList_eq_nil_append.1 h).2 (by simp)
      next hlen =>
        simp only [hlen, if_false]
        have hwrong := (Findings.toList_eq_nil_append.1 h).2
        rw [Findings.toList_ofList] at hwrong
        rw [if_pos ⟨List.all_eq_true.2 hknown, hwrong⟩, Option.isSome_some]

theorem findings_of_ty {s : Scope} {e : Expr} {t : Ty} (h : (s.infer e).ty = some t) :
    (s.infer e).findings.toList = [] := by
  induction e generalizing t with
  | literal => rfl
  | path span segments =>
    simp only [infer] at h ⊢
    split at h
    · exact Findings.toList_none
    · cases h
    · cases h
  | unary span op e ih =>
    simp only [infer] at h ⊢
    obtain ⟨hoperand, hop⟩ := Inference.ty_unary h
    simp only [Inference.unary, hoperand, if_pos hop]
    exact ih hoperand
  | binary span op l r ihl ihr =>
    simp only [infer] at h ⊢
    obtain ⟨a, b, ha, hb, hresult⟩ := Inference.ty_binary h
    simp only [Inference.binary, ha, hb, hresult]
    exact Findings.toList_eq_nil_append.2 ⟨ihl ha, ihr hb⟩
  | call span name args ih =>
    simp only [infer] at h ⊢
    obtain ⟨f, hf, hlength, -, hknown, hwrong⟩ := Inference.ty_call h
    have hargs : ∀ arg ∈ s.inferAll args, arg.2.findings.toList = [] := by
      intro arg harg
      have hty := hknown arg harg
      rw [inferAll_eq] at harg
      obtain ⟨e, he, rfl⟩ := List.mem_map.1 harg
      obtain ⟨t, ht⟩ := Option.isSome_iff_exists.1 hty
      exact ih e he ht
    unfold Inference.call
    simp only [hf, hlength, ne_eq, not_true_eq_false, if_false]
    rw [Findings.toList_append, Inference.toList_foldl_findings, Findings.toList_ofList, hwrong,
      Findings.toList_none, List.nil_append, List.append_nil]
    exact List.flatMap_eq_nil_iff.2 hargs

theorem findings_part {s : Scope} {a e : Expr} (hp : a.Part e)
    (h : (s.infer e).findings.toList = []) : (s.infer a).findings.toList = [] := by
  induction hp with
  | self => exact h
  | operand _ ih => simp only [infer] at h; exact ih (Inference.findings_unary h)
  | left _ ih => simp only [infer] at h; exact ih (Inference.findings_binary h).1
  | right _ ih => simp only [infer] at h; exact ih (Inference.findings_binary h).2
  | argument he _ ih =>
    simp only [infer, inferAll_eq] at h
    exact ih (Inference.findings_call h _ (List.mem_map_of_mem he))

theorem resolved_part {s : Scope} {a e : Expr} (hp : a.Part e) {p : Nat × Resolution}
    (h : p ∈ s.resolved a) : p ∈ s.resolved e := by
  induction hp with
  | self => exact h
  | operand _ ih => rw [resolved]; exact ih
  | left _ ih => rw [resolved]; exact List.mem_append_left _ ih
  | right _ ih => rw [resolved]; exact List.mem_append_right _ ih
  | argument he _ ih => rw [resolved]; exact List.mem_flatMap.2 ⟨_, he, ih⟩

def resolvedIn (s : Scope) (stmt : Stmt) : List (Nat × Resolution) :=
  (stmt.kind.value?.map s.resolved).getD []

theorem resolvedIn_sublist (s : Scope) (stmt : Stmt) :
    ((s.resolvedIn stmt).map (·.1)).Sublist stmt.pathStarts := by
  unfold resolvedIn Stmt.pathStarts
  cases stmt.kind.value? with
  | none => exact .refl _
  | some e => exact s.resolved_sublist e

end Scope

namespace Checking

theorem sound_insert {s : Scope} (hs : s.Sound) (name : String) (t : Ty) :
    Scope.Sound { s with bindings := s.bindings.insert name (some t) } := by
  intro name'
  simp only [Std.ExtTreeMap.getElem?_insert]
  split
  · exact nofun
  · exact hs name'

theorem resolutions_step (c : Checking) (s : Stmt) :
    (c.step s).resolutions = c.resolutions.insertMany (c.scope.resolvedIn s) := by
  unfold step Scope.resolvedIn
  cases s.kind with
  | bind name value => exact c.scope.bindPaths_eq value _
  | use path =>
    dsimp only
    split
    · exact Std.ExtTreeMap.insertMany_nil.symm
    · exact Std.ExtTreeMap.insertMany_nil.symm
  | expr value => exact c.scope.bindPaths_eq value _

/-- A statement that adds no finding keeps the scope sound, and its expression has none. -/
theorem step_sound {c : Checking} {s : Stmt} (h : (c.step s).findings.toList = []) :
    c.findings.toList = [] ∧
      (∀ e, s.kind.value? = some e → (c.scope.infer e).findings.toList = []) ∧
      (c.scope.Sound → (c.step s).scope.Sound) := by
  unfold step at h ⊢
  cases hk : s.kind with
  | bind name value =>
    simp only [hk] at h ⊢
    obtain ⟨hc, hi⟩ := Findings.toList_eq_nil_append.1 h
    refine ⟨hc, fun e he => Option.some.inj he ▸ hi, fun hs => ?_⟩
    obtain ⟨t, ht⟩ := Option.isSome_iff_exists.1 (Scope.isSome_ty_infer hs hi)
    rw [ht]
    exact sound_insert hs name t
  | use path =>
    simp only [hk] at h ⊢
    split at h
    next hn =>
      rw [if_pos hn]
      exact ⟨h, nofun, id⟩
    next hn => exact absurd (Findings.toList_eq_nil_append.1 h).2 (by simp)
  | expr value =>
    simp only [hk] at h ⊢
    obtain ⟨hc, hi⟩ := Findings.toList_eq_nil_append.1 h
    exact ⟨hc, fun e he => Option.some.inj he ▸ hi, id⟩

/-- The resolutions that checking a script from `c` on adds. -/
def resolvedFrom (c : Checking) : Script → List (Nat × Resolution)
  | [] => []
  | s :: rest => c.scope.resolvedIn s ++ (c.step s).resolvedFrom rest

theorem resolutions_foldl (c : Checking) (script : Script) :
    (script.foldl step c).resolutions = c.resolutions.insertMany (c.resolvedFrom script) := by
  induction script generalizing c with
  | nil => exact Std.ExtTreeMap.insertMany_nil.symm
  | cons s rest ih =>
    rw [List.foldl_cons, ih, resolutions_step, resolvedFrom, Std.ExtTreeMap.insertMany_append]

theorem resolvedFrom_append (c : Checking) (front back : Script) :
    c.resolvedFrom (front ++ back) =
      c.resolvedFrom front ++ (front.foldl step c).resolvedFrom back := by
  induction front generalizing c with
  | nil => rfl
  | cons s rest ih =>
    simp only [List.cons_append, resolvedFrom, ih, List.foldl_cons, List.append_assoc]

theorem resolvedFrom_sublist (c : Checking) (script : Script) :
    ((c.resolvedFrom script).map (·.1)).Sublist script.pathStarts := by
  induction script generalizing c with
  | nil => exact .refl _
  | cons s rest ih =>
    simp only [resolvedFrom, List.map_append, Script.pathStarts, List.flatMap_cons]
    exact (c.scope.resolvedIn_sublist s).append (ih _)

theorem clean_of_foldl {c : Checking} {script : Script}
    (h : (script.foldl step c).findings.toList = []) : c.findings.toList = [] := by
  induction script generalizing c with
  | nil => exact h
  | cons s rest ih => exact (step_sound (ih h)).1

theorem sound_foldl {c : Checking} (hs : c.scope.Sound) {script : Script}
    (h : (script.foldl step c).findings.toList = []) :
    (script.foldl step c).scope.Sound := by
  induction script generalizing c with
  | nil => exact hs
  | cons s rest ih => exact ih ((step_sound (clean_of_foldl (c := c.step s) h)).2.2 hs) h

end Checking

/-- A check succeeds exactly if it has walked over the whole script without a finding. -/
theorem check_eq_ok_iff {scope : Scope} {script : Script} {checked : Checked} :
    check scope script = .ok checked ↔
      (script.foldl Checking.step (.start scope)).findings.toList = [] ∧
        checked = ⟨(script.foldl Checking.step (.start scope)).finalTy,
          (script.foldl Checking.step (.start scope)).resolutions,
          (script.foldl Checking.step (.start scope)).scope.imports⟩ := by
  unfold check
  dsimp only
  split
  next h =>
    rw [h, Except.ok.injEq]
    exact ⟨fun he => ⟨rfl, he.symm⟩, fun he => he.2.symm⟩
  next h =>
    exact ⟨nofun, fun he => absurd he.1 (by simpa using h)⟩

theorem getElem?_resolutions {scope : Scope} {script : Script} (hn : script.pathStarts.Nodup)
    {p : Nat × Resolution} (hp : p ∈ (Checking.start scope).resolvedFrom script) :
    (script.foldl Checking.step (.start scope)).resolutions[p.1]? = some p.2 := by
  have hkeys : (((Checking.start scope).resolvedFrom script).map (·.1)).Nodup :=
    hn.sublist (Checking.resolvedFrom_sublist _ _)
  rw [Checking.resolutions_foldl]
  apply Std.ExtTreeMap.getElem?_insertMany_list_of_mem (k := p.1) (v := p.2)
    Std.ReflCmp.compare_self
  · rw [List.Nodup, List.pairwise_map] at hkeys
    exact hkeys.imp fun h he => h (Std.LawfulEqCmp.eq_of_compare he)
  · exact hp

end ScriptSession
