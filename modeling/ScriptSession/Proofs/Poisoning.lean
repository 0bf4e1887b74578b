import ScriptSession.Proofs.Typing

namespace ScriptSession

namespace Inference

/-- Whether `i` knows and reports no more than `j`: what it has of a type is the type of `j`, and
its findings are some of those of `j`, in their order. -/
structure Within (i j : Inference) : Prop where
  ty : ∀ t, i.ty = some t → j.ty = some t
  findings : i.findings.toList.Sublist j.findings.toList

abbrev AllWithin (args args' : List (Nat × Inference)) : Prop :=
  List.Forall₂ (fun a b => a.1 = b.1 ∧ a.2.Within b.2) args args'

section Within

variable {i j l l' r r' : Inference} {args args' : List (Nat × Inference)}

theorem within_of_untyped (hty : i.ty = none)
    (hfindings : i.findings.toList.Sublist j.findings.toList) : i.Within j := by
  refine ⟨fun t ht => ?_, hfindings⟩
  rw [hty] at ht
  cases ht

theorem Within.unary (h : i.Within j) (offset : Nat) (op : UnaryOp) :
    (unary offset op i).Within (unary offset op j) := by
  cases hi : i.ty with
  | none =>
    simp only [Inference.unary, hi]
    refine within_of_untyped rfl ?_
    split
    · exact h.findings
    · split
      · exact h.findings
      · rw [Findings.toList_append]
        exact h.findings.trans (List.sublist_append_left _ _)
  | some t =>
    simp only [Inference.unary, hi, h.ty t hi]
    split
    · exact ⟨fun _ ht => ht, h.findings⟩
    · refine within_of_untyped rfl ?_
      rw [Findings.toList_append, Findings.toList_append]
      exact h.findings.append (.refl _)

theorem Within.binary (hl : l.Within l') (hr : r.Within r') (offset : Nat) (op : BinaryOp) :
    (binary offset op l r).Within (binary offset op l' r') := by
  have hoperands :
      (l.findings ++ r.findings).toList.Sublist (l'.findings ++ r'.findings).toList := by
    rw [Findings.toList_append, Findings.toList_append]
    exact hl.findings.append hr.findings
  -- an operand without a type leaves only the findings of the operands
  have hmuted (i : Inference) (hi : i = ⟨none, l.findings ++ r.findings⟩) :
      i.Within (Inference.binary offset op l' r') := by
    subst hi
    refine within_of_untyped rfl ?_
    unfold Inference.binary
    split
    · split
      · exact hoperands
      · rw [Findings.toList_append (_ ++ _)]
        exact hoperands.trans (List.sublist_append_left _ _)
    · exact hoperands
  cases ha : l.ty with
  | none => exact hmuted _ (by simp only [Inference.binary, ha])
  | some a =>
    cases hb : r.ty with
    | none => exact hmuted _ (by simp only [Inference.binary, ha, hb])
    | some b =>
      simp only [Inference.binary, ha, hb, hl.ty a ha, hr.ty b hb]
      cases op.resultTy? a b with
      | some t => exact ⟨fun _ ht => ht, hoperands⟩
      | none =>
        refine within_of_untyped rfl ?_
        rw [Findings.toList_append (_ ++ _), Findings.toList_append (_ ++ _)]
        exact hoperands.append (.refl _)

theorem argument_congr {name : String} {param : Option Ty} {offset : Nat} (h : i.ty = j.ty) :
    argument name param offset i = argument name param offset j := by
  unfold argument
  rw [h]

theorem Within.argument (h : i.Within j) (name : String) (param : Option Ty) (offset : Nat) :
    (argument name param offset i).Sublist (argument name param offset j) := by
  cases hi : i.ty with
  | none =>
    unfold Inference.argument
    rw [hi]
    cases param <;> exact List.nil_sublist _
  | some t =>
    rw [argument_congr (hi.trans (h.ty t hi).symm)]

theorem AllWithin.findings (h : AllWithin args args') :
    (args.flatMap (·.2.findings.toList)).Sublist (args'.flatMap (·.2.findings.toList)) := by
  induction h with
  | nil => exact .refl _
  | cons hab _ ih =>
    rw [List.flatMap_cons, List.flatMap_cons]
    exact hab.2.findings.append ih

theorem AllWithin.wrong (h : AllWithin args args') (name : String) (params : List (Option Ty)) :
    ((params.zip args).flatMap fun (param, start, arg) => argument name param start arg).Sublist
      ((params.zip args').flatMap fun (param, start, arg) => argument name param start arg) := by
  induction h generalizing params with
  | nil => exact .refl _
  | @cons a b _ _ hab _ ih =>
    obtain ⟨start, i⟩ := a
    obtain ⟨start', j⟩ := b
    obtain ⟨hstart, hij⟩ := hab
    cases hstart
    cases params with
    | nil => exact .refl _
    | cons param params =>
      rw [List.zip_cons_cons, List.zip_cons_cons, List.flatMap_cons, List.flatMap_cons]
      exact (hij.argument name param start).append (ih params)

/-- Where all arguments have types, so have their partners, and nothing else is wrong with them. -/
theorem AllWithin.of_known (h : AllWithin args args') (hknown : args.all (·.2.ty.isSome))
    (name : String) (params : List (Option Ty)) :
    args'.all (·.2.ty.isSome) ∧
      ((params.zip args').flatMap fun (param, start, arg) => argument name param start arg) =
        (params.zip args).flatMap fun (param, start, arg) => argument name param start arg := by
  induction h generalizing params with
  | nil => exact ⟨rfl, rfl⟩
  | @cons a b _ _ hab _ ih =>
    obtain ⟨start, i⟩ := a
    obtain ⟨start', j⟩ := b
    obtain ⟨hstart, hij⟩ := hab
    cases hstart
    rw [List.all_cons, Bool.and_eq_true] at hknown
    obtain ⟨t, ht⟩ := Option.isSome_iff_exists.1 hknown.1
    have ht' : j.ty = some t := hij.ty t ht
    have hty : i.ty = j.ty := Eq.trans ht ht'.symm
    constructor
    · rw [List.all_cons, Bool.and_eq_true]
      exact ⟨Option.isSome_of_eq_some ht', (ih hknown.2 params).1⟩
    · cases params with
      | nil => rfl
      | cons param params =>
        rw [List.zip_cons_cons, List.zip_cons_cons, List.flatMap_cons, List.flatMap_cons,
          (ih hknown.2 params).2]
        exact congrArg (· ++ _) (argument_congr hty.symm)

theorem AllWithin.call (h : AllWithin args args') (offset : Nat) (name : String) :
    (call offset name args).Within (call offset name args') := by
  have hargs : (args.foldl (fun (fs : Findings) arg => fs ++ arg.2.findings) .none).toList.Sublist
      (args'.foldl (fun (fs : Findings) arg => fs ++ arg.2.findings) .none).toList := by
    rw [toList_foldl_findings, toList_foldl_findings]
    exact h.findings
  have hlength := h.length_eq
  unfold Inference.call
  cases Builtin.ofName? name with
  | none =>
    refine within_of_untyped rfl ?_
    rw [Findings.toList_append, Findings.toList_append]
    exact hargs.append (.refl _)
  | some f =>
    dsimp only
    rw [hlength]
    split
    · refine within_of_untyped rfl ?_
      rw [Findings.toList_append, Findings.toList_append]
      exact hargs.append (.refl _)
    · constructor
      · intro t ht
        dsimp only at ht ⊢
        split at ht
        next hok =>
          obtain ⟨hknown, hwrong⟩ := h.of_known hok.1 name f.params
          rwa [if_pos ⟨hknown, hwrong.trans hok.2⟩]
        · cases ht
      · rw [Findings.toList_append, Findings.toList_append, Findings.toList_ofList,
          Findings.toList_ofList]
        exact hargs.append (h.wrong name f.params)

end Within
end Inference

namespace Scope

/-- Whether `p` is `s` with some of its names poisoned. -/
structure Poisons (p s : Scope) : Prop where
  modules : p.modules = s.modules
  imports : p.imports = s.imports
  bindings : ∀ name : String, p.bindings[name]? = s.bindings[name]? ∨
    p.bindings[name]? = some none ∧ (s.bindings[name]?).isSome

section Poisons

variable {p s : Scope}

theorem Poisons.refl (s : Scope) : s.Poisons s :=
  ⟨rfl, rfl, fun _ => .inl rfl⟩

theorem Poisons.contains (h : p.Poisons s) (name : String) :
    p.bindings.contains name = s.bindings.contains name := by
  rw [Std.ExtTreeMap.contains_eq_isSome_getElem?, Std.ExtTreeMap.contains_eq_isSome_getElem?]
  obtain he | ⟨hp, hs⟩ := h.bindings name
  · rw [he]
  · rw [hp, hs]
    rfl

theorem Poisons.resolve (h : p.Poisons s) (segments : List String) :
    p.resolve segments = s.resolve segments ∨ p.resolve segments = .ok none := by
  obtain ⟨modules, imports, bindings⟩ := p
  obtain ⟨modules', imports', bindings'⟩ := s
  obtain ⟨rfl, rfl, hbindings⟩ := id h
  match segments with
  | [] => exact .inl rfl
  | [name] =>
    unfold Scope.resolve
    obtain he | ⟨hp, -⟩ := hbindings name
    · dsimp only at he ⊢
      rw [he]
      exact .inl rfl
    · dsimp only at hp ⊢
      rw [hp]
      exact .inr rfl
  | first :: second :: rest =>
    left
    have hqualified (qualifier : List String) (name : String) :
        resolveQualified ⟨modules, imports, bindings⟩ qualifier name =
          resolveQualified ⟨modules, imports, bindings'⟩ qualifier name := by
      unfold resolveQualified
      dsimp only
      have hfind : findModule? ⟨modules, imports, bindings⟩ (dotted qualifier) =
          findModule? ⟨modules, imports, bindings'⟩ (dotted qualifier) := rfl
      rw [hfind]
      cases findModule? ⟨modules, imports, bindings'⟩ (dotted qualifier) with
      | some m => rfl
      | none =>
        match qualifier with
        | [q] =>
          have hq : bindings.contains q = bindings'.contains q := h.contains q
          dsimp only
          rw [hq]
        | [] => rfl
        | _ :: _ :: _ => rfl
    unfold Scope.resolve
    dsimp only
    rw [hqualified]

/-- Poisoned names only take types and findings away from an expression. -/
theorem Poisons.infer (h : p.Poisons s) (e : Expr) : (p.infer e).Within (s.infer e) := by
  induction e with
  | literal => exact ⟨fun _ ht => ht, .refl _⟩
  | path span segments =>
    simp only [Scope.infer]
    obtain he | he := h.resolve segments
    · rw [he]
      exact ⟨fun _ ht => ht, .refl _⟩
    · rw [he]
      exact Inference.within_of_untyped rfl (List.nil_sublist _)
  | unary span op e ih =>
    simp only [Scope.infer]
    exact ih.unary span.start op
  | binary span op l r ihl ihr =>
    simp only [Scope.infer]
    exact ihl.binary ihr span.start op
  | call span name args ih =>
    simp only [Scope.infer, inferAll_eq]
    refine Inference.AllWithin.call ?_ span.start name
    apply List.forall₂_map_left_iff.2
    apply List.forall₂_map_right_iff.2
    exact List.forall₂_same.2 fun e he => ⟨rfl, ih e he⟩

theorem Poisons.insert (h : p.Poisons s) (name : String) {t u : Option Ty}
    (ht : ∀ v, t = some v → u = some v) :
    Poisons { p with bindings := p.bindings.insert name t }
      { s with bindings := s.bindings.insert name u } := by
  refine ⟨h.modules, h.imports, fun other => ?_⟩
  simp only [Std.ExtTreeMap.getElem?_insert]
  split
  · cases t with
    | none => exact .inr ⟨rfl, rfl⟩
    | some v => exact .inl (congrArg some (ht v rfl).symm)
  · exact h.bindings other

theorem Poisons.poison (h : p.Poisons s) (name : String) (u : Option Ty) :
    Poisons { p with bindings := p.bindings.insert name none }
      { s with bindings := s.bindings.insert name u } := by
  refine h.insert name fun v hv => ?_
  cases hv

end Poisons
end Scope

namespace Checking

/-- Whether `c` is `d` with poisoned names and with some of its findings, in their order. -/
structure Within (c d : Checking) : Prop where
  scope : c.scope.Poisons d.scope
  findings : c.findings.toList.Sublist d.findings.toList

theorem Within.step {c d : Checking} (h : c.Within d) (s : Stmt) :
    (c.step s).Within (d.step s) := by
  unfold Checking.step
  cases s.kind with
  | bind name value =>
    have hi := h.scope.infer value
    refine ⟨h.scope.insert name hi.ty, ?_⟩
    simp only [Findings.toList_append]
    exact h.findings.append hi.findings
  | use path =>
    dsimp only
    rw [h.scope.modules, h.scope.imports]
    split
    · exact ⟨⟨rfl, rfl, h.scope.bindings⟩, h.findings⟩
    · refine ⟨h.scope, ?_⟩
      simp only [Findings.toList_append]
      exact h.findings.append (.refl _)
  | expr value =>
    refine ⟨h.scope, ?_⟩
    simp only [Findings.toList_append]
    exact h.findings.append (h.scope.infer value).findings

theorem Within.run {c d : Checking} (h : c.Within d) (script : Script) :
    (script.foldl Checking.step c).Within (script.foldl Checking.step d) := by
  induction script generalizing c d with
  | nil => exact h
  | cons s rest ih => exact ih (h.step s)

theorem step_eq (c : Checking) (s : Stmt) :
    (c.step s).scope = ((start c.scope).step s).scope ∧
      (c.step s).findings.toList =
        c.findings.toList ++ ((start c.scope).step s).findings.toList := by
  unfold Checking.step start
  cases s.kind with
  | bind name value =>
    refine ⟨rfl, ?_⟩
    simp only [Findings.toList_append, Findings.toList_none, List.nil_append]
  | use path =>
    dsimp only
    split
    · refine ⟨rfl, ?_⟩
      simp only [Findings.toList_none, List.append_nil]
    · refine ⟨rfl, ?_⟩
      simp only [Findings.toList_append, Findings.toList_none, List.nil_append]
  | expr value =>
    refine ⟨rfl, ?_⟩
    simp only [Findings.toList_append, Findings.toList_none, List.nil_append]

theorem findings_foldl (c : Checking) (script : Script) :
    (script.foldl Checking.step c).findings.toList =
      c.findings.toList ++ (script.foldl Checking.step (start c.scope)).findings.toList := by
  induction script generalizing c with
  | nil => exact (List.append_nil _).symm
  | cons s rest ih =>
    obtain ⟨hscope, hfindings⟩ := c.step_eq s
    rw [List.foldl_cons, List.foldl_cons, ih, ih ((start c.scope).step s), hscope, hfindings,
      List.append_assoc]

end Checking

def diagnostics (source : List Char) (scope : Scope) (script : Script) : List Diagnostic :=
  match check scope script with
  | .ok _ => []
  | .error findings => Finding.locateAll source findings

theorem diagnostics_eq (source : List Char) (scope : Scope) (script : Script) :
    diagnostics source scope script =
      (script.foldl Checking.step (.start scope)).findings.toList.map (Finding.locate source) := by
  unfold diagnostics check
  dsimp only
  split
  next h =>
    split at h
    next hnil => rw [hnil]; rfl
    · cases h
  next h =>
    split at h
    · cases h
    · cases h
      exact Finding.locateAll_eq source _

/-- Poisoned names never cascade. A name whose initializer does not check leaves of the diagnostics
of what follows some of those that it would have with a type, whichever that is; poisoning any names
never adds, changes or reorders a diagnostic; and a check that succeeds has poisoned no name at any
point. -/
theorem poisoned_names_never_cascade (source : List Char) :
    (∀ (scope : Scope) (name : String) (e : Expr) (span : Span) (terminated : Bool) (rest : Script),
      (scope.infer e).findings.toList ≠ [] ∨ (scope.infer e).ty = none →
      let after (t : Option Ty) : Scope :=
        { scope with bindings := scope.bindings.insert name t }
      diagnostics source scope (⟨.bind name e, span, terminated⟩ :: rest) =
        (scope.infer e).findings.toList.map (Finding.locate source) ++
          diagnostics source (after none) rest ∧
      (scope.Sound → (scope.infer e).findings.toList ≠ []) ∧
      ∀ t, (diagnostics source (after none) rest).Sublist
        (diagnostics source (after (some t)) rest)) ∧
    (∀ (p s : Scope) (script : Script), p.Poisons s →
      (diagnostics source p script).Sublist (diagnostics source s script)) ∧
    ∀ (scope : Scope) (script : Script) (checked : Checked), scope.Sound →
      check scope script = .ok checked → ∀ front back, script = front ++ back →
        (front.foldl Checking.step (.start scope)).scope.Sound := by
  have hpoison (p s : Scope) (script : Script) (h : p.Poisons s) :
      (diagnostics source p script).Sublist (diagnostics source s script) := by
    rw [diagnostics_eq, diagnostics_eq]
    have hstart : (Checking.start p).Within (.start s) := ⟨h, .refl _⟩
    exact (hstart.run script).findings.map _
  refine ⟨?_, hpoison, ?_⟩
  · intro scope name e span terminated rest hunchecked after
    have hty : (scope.infer e).ty = none := by
      refine hunchecked.elim (fun hfindings => ?_) id
      exact Option.eq_none_iff_forall_ne_some.2 fun t ht => hfindings (Scope.findings_of_ty ht)
    refine ⟨?_, fun hsound hnil => ?_, fun t => hpoison _ _ rest ?_⟩
    · rw [diagnostics_eq, diagnostics_eq, List.foldl_cons, Checking.findings_foldl,
        List.map_append]
      simp only [Checking.step, Checking.start, hty, Findings.toList_append, Findings.toList_none,
        List.nil_append]
      rfl
    · have hsome := Scope.isSome_ty_infer hsound hnil
      rw [hty] at hsome
      cases hsome
    · exact (Scope.Poisons.refl scope).poison name (some t)
  · rintro scope script checked hsound hcheck front back rfl
    have hclean := (check_eq_ok_iff.1 hcheck).1
    rw [List.foldl_append] at hclean
    exact Checking.sound_foldl hsound (Checking.clean_of_foldl hclean)

/-- `x` has a bad initializer and `y` takes the poison over, so that `!y` reports nothing; the
unknown `z` is reported all the same. -/
theorem cascade_of_negated_text :
    let source := "let x = -\"a\"; let y = x; !y; z".toList
    let scope : Scope := ⟨.empty, [], ∅⟩
    let after (t : Option Ty) : Scope := ⟨.empty, [], (∅ : Std.ExtTreeMap _ _).insert "x" t⟩
    let e : Expr := .unary ⟨8, 12⟩ .neg (.literal ⟨9, 12⟩ (.str "a"))
    let rest : Script :=
      [⟨.bind "y" (.path ⟨22, 23⟩ ["x"]), ⟨14, 23⟩, true⟩,
        ⟨.expr (.unary ⟨25, 27⟩ .not (.path ⟨26, 27⟩ ["y"])), ⟨25, 27⟩, true⟩,
        ⟨.expr (.path ⟨29, 30⟩ ["z"]), ⟨29, 30⟩, false⟩]
    (scope.infer e).ty = none ∧ scope.Sound ∧ check scope [] = .ok ⟨none, ∅, []⟩ ∧
    diagnostics source scope (⟨.bind "x" e, ⟨0, 12⟩, true⟩ :: rest) =
      [⟨⟨1, 9⟩, .unaryMismatch .neg .str⟩] ++ diagnostics source (after none) rest ∧
    diagnostics source (after none) rest = [⟨⟨1, 30⟩, .unknownName "z"⟩] ∧
    diagnostics source (after (some .int)) rest =
      [⟨⟨1, 26⟩, .unaryMismatch .not .int⟩, ⟨⟨1, 30⟩, .unknownName "z"⟩] ∧
    (diagnostics source (after none) rest).Sublist
      (diagnostics source (after (some .int)) rest) := by
  have hmismatch :
      [Finding.mk 25 (.unaryMismatch .not .int), ⟨29, .unknownName "z"⟩].map
        (Finding.locate "let x = -\"a\"; let y = x; !y; z".toList) =
      [⟨⟨1, 26⟩, .unaryMismatch .not .int⟩, ⟨⟨1, 30⟩, .unknownName "z"⟩] := by
    decide +kernel
  intro source scope after e rest
  have hunknown : [Finding.mk 29 (.unknownName "z")].map (Finding.locate source) =
      [⟨⟨1, 30⟩, .unknownName "z"⟩] := congrArg List.tail hmismatch
  have hty : (scope.infer e).ty = none := rfl
  have hsound : scope.Sound := fun name => by
    rw [Std.ExtTreeMap.getElem?_empty]
    intro h
    cases h
  have hcheck : check scope [] = .ok ⟨none, ∅, []⟩ := rfl
  obtain ⟨hlet, hpoison, hchecked⟩ := poisoned_names_never_cascade source
  have hpoisons : (after none).Poisons (after (some .int)) :=
    (Scope.Poisons.refl scope).poison "x" (some .int)
  have hfront : scope.Sound := hchecked scope [] _ hsound hcheck [] [] rfl
  have hmuted : (rest.foldl Checking.step (.start (after none))).findings.toList =
      [⟨29, .unknownName "z"⟩] := rfl
  have htyped : (rest.foldl Checking.step (.start (after (some .int)))).findings.toList =
      [⟨25, .unaryMismatch .not .int⟩, ⟨29, .unknownName "z"⟩] := rfl
  refine ⟨hty, hfront, hcheck, (hlet scope "x" e ⟨0, 12⟩ true rest (.inr hty)).1, ?_, ?_,
    hpoison _ _ rest hpoisons⟩
  · exact (diagnostics_eq source _ rest).trans ((congrArg _ hmuted).trans hunknown)
  · exact (diagnostics_eq source _ rest).trans ((congrArg _ htyped).trans hmismatch)

end ScriptSession
