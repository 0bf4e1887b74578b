import Mathlib.Data.List.Induction
import ScriptSession.Proofs.Soundness

namespace ScriptSession

def Finding.shift (n : Nat) (f : Finding) : Finding :=
  { f with offset := f.offset + n }

def Findings.shift (n : Nat) : Findings → Findings
  | none => none
  | one f => one (f.shift n)
  | both a b => both (a.shift n) (b.shift n)

theorem Findings.shift_append (n : Nat) (a b : Findings) :
    (a ++ b).shift n = a.shift n ++ b.shift n := by
  cases a <;> cases b <;> rfl

theorem Findings.shift_ofList (n : Nat) (fs : List Finding) :
    (ofList fs).shift n = ofList (fs.map (Finding.shift n)) := by
  induction fs with
  | nil => rfl
  | cons f fs ih =>
    simp only [ofList, List.foldr_cons, List.map_cons] at ih ⊢
    rw [shift_append, ih]
    rfl

theorem Findings.toList_shift (n : Nat) (fs : Findings) :
    (fs.shift n).toList = fs.toList.map (Finding.shift n) := by
  induction fs with
  | none => rfl
  | one f => rfl
  | both a b iha ihb => rw [shift, toList_both, toList_both, iha, ihb, List.map_append]

def Inference.shift (n : Nat) (i : Inference) : Inference :=
  ⟨i.ty, i.findings.shift n⟩

namespace Inference

theorem shift_unary (n offset : Nat) (op : UnaryOp) (i : Inference) :
    (unary offset op i).shift n = unary (offset + n) op (i.shift n) := by
  unfold unary
  rw [show (i.shift n).ty = i.ty from rfl]
  cases i.ty with
  | none => rfl
  | some t =>
    dsimp only
    split
    · rfl
    · simp only [shift, Findings.shift_append]
      rfl

theorem shift_binary (n offset : Nat) (op : BinaryOp) (i j : Inference) :
    (binary offset op i j).shift n = binary (offset + n) op (i.shift n) (j.shift n) := by
  unfold binary
  rw [show (i.shift n).ty = i.ty from rfl, show (j.shift n).ty = j.ty from rfl]
  cases i.ty with
  | none => simp only [shift, Findings.shift_append]
  | some l =>
    cases j.ty with
    | none => simp only [shift, Findings.shift_append]
    | some r =>
      dsimp only
      cases op.resultTy? l r with
      | none => simp only [shift, Findings.shift_append]; rfl
      | some t => simp only [shift, Findings.shift_append]

theorem shift_argument (n offset : Nat) (name : String) (param : Option Ty) (i : Inference) :
    argument name param (offset + n) (i.shift n) =
      (argument name param offset i).map (Finding.shift n) := by
  unfold argument
  rw [show (i.shift n).ty = i.ty from rfl]
  cases param with
  | none => rfl
  | some expects =>
    cases i.ty with
    | none => rfl
    | some found =>
      dsimp only
      split <;> rfl

theorem shift_call (n offset : Nat) (name : String) (args : List (Nat × Inference)) :
    (call offset name args).shift n =
      call (offset + n) name (args.map fun arg => (arg.1 + n, arg.2.shift n)) := by
  have hfindings (fs : Findings) :
      (args.foldl (fun fs arg => fs ++ arg.2.findings) fs).shift n =
        (args.map fun arg => (arg.1 + n, arg.2.shift n)).foldl
          (fun fs arg => fs ++ arg.2.findings) (fs.shift n) := by
    induction args generalizing fs with
    | nil => rfl
    | cons arg args ih => rw [List.foldl_cons, ih, Findings.shift_append]; rfl
  have hwrong (params : List (Option Ty)) :
      (params.zip (args.map fun arg => (arg.1 + n, arg.2.shift n))).flatMap
          (fun p => argument name p.1 p.2.1 p.2.2) =
        ((params.zip args).flatMap fun p => argument name p.1 p.2.1 p.2.2).map
          (Finding.shift n) := by
    rw [List.zip_map_right, List.flatMap_map, List.map_flatMap]
    exact congrArg (List.flatMap · _) (funext fun p => shift_argument n p.2.1 name p.1 p.2.2)
  have hknown : (args.map fun arg => (arg.1 + n, arg.2.shift n)).all (·.2.ty.isSome) =
      args.all (·.2.ty.isSome) := by
    rw [List.all_map]
    rfl
  have hnone := hfindings .none
  unfold call
  dsimp only
  split
  · simp only [shift, Findings.shift_append, hnone]
    rfl
  next f hf =>
    rw [List.length_map]
    split
    · simp only [shift, Findings.shift_append, hnone]
      rfl
    · have hw := hwrong f.params
      refine congr (congrArg Inference.mk ?_) ?_
      · refine if_congr ?_ rfl rfl
        exact and_congr (by rw [hknown]) ((List.map_eq_nil_iff.symm).trans (by rw [← hw]))
      · rw [Findings.shift_append, Findings.shift_ofList, hnone]
        exact congrArg (fun fs => _ ++ Findings.ofList fs) hw.symm

end Inference

namespace Scope

theorem infer_shift (s : Scope) (n : Nat) (e : Expr) :
    s.infer (e.shift n) = (s.infer e).shift n := by
  induction e with
  | literal => simp only [Expr.shift, infer]; rfl
  | path span segments =>
    simp only [Expr.shift, infer]
    rcases s.resolve segments with p | _ | ⟨r, t⟩ <;> rfl
  | unary span op e ih =>
    simp only [Expr.shift, infer, ih, Inference.shift_unary, Span.shift_start]
  | binary span op l r ihl ihr =>
    simp only [Expr.shift, infer, ihl, ihr, Inference.shift_binary, Span.shift_start]
  | call span name args ih =>
    simp only [Expr.shift, infer, Inference.shift_call, Span.shift_start, inferAll_eq,
      List.map_map]
    refine congrArg _ (List.map_congr_left fun e he => ?_)
    simp only [Function.comp_apply, ih e he, Expr.span_shift, Span.shift_start]

end Scope

/-- Two points of checking at which the same holds, apart from what was found before. -/
structure Checking.Agree (c d : Checking) : Prop where
  scope : c.scope = d.scope
  clean : c.findings.toList = [] ↔ d.findings.toList = []

namespace Checking.Agree

variable {c d : Checking}

theorem step (h : c.Agree d) (n : Nat) (s : Stmt) :
    (c.step s).Agree (d.step (s.shift n)) ∧ (c.step s).finalTy = (d.step (s.shift n)).finalTy := by
  have hclean (e : Expr) : (c.findings ++ (d.scope.infer e).findings).toList = [] ↔
      (d.findings ++ (d.scope.infer (e.shift n)).findings).toList = [] := by
    rw [Findings.toList_eq_nil_append, Findings.toList_eq_nil_append, h.clean, Scope.infer_shift,
      Inference.shift, Findings.toList_shift, List.map_eq_nil_iff]
  have hty (e : Expr) : (d.scope.infer (e.shift n)).ty = (d.scope.infer e).ty := by
    rw [Scope.infer_shift]
    rfl
  unfold Checking.step
  rw [h.scope, Stmt.shift_kind]
  cases s.kind with
  | bind name value =>
    refine ⟨⟨?_, hclean value⟩, rfl⟩
    dsimp only [StmtKind.shift]
    rw [hty]
  | use path =>
    dsimp only [StmtKind.shift]
    split
    · exact ⟨⟨rfl, h.clean⟩, rfl⟩
    · refine ⟨⟨rfl, ?_⟩, rfl⟩
      rw [Findings.toList_eq_nil_append, Findings.toList_eq_nil_append]
      simp only [Findings.toList_one, reduceCtorEq, and_false]
  | expr value =>
    dsimp only [StmtKind.shift]
    refine ⟨⟨rfl, hclean value⟩, ?_⟩
    rw [hty]

theorem foldl (h : c.Agree d) (n : Nat) (script : Script) :
    (script.foldl Checking.step c).Agree ((script.map (Stmt.shift n)).foldl Checking.step d) ∧
      (script ≠ [] → (script.foldl Checking.step c).finalTy =
        ((script.map (Stmt.shift n)).foldl Checking.step d).finalTy) := by
  induction script using List.reverseRecOn with
  | nil => exact ⟨h, fun hne => absurd rfl hne⟩
  | append_singleton front s ih =>
    simp only [List.foldl_append, List.map_append, List.foldl_cons, List.foldl_nil, List.map_cons,
      List.map_nil]
    exact ⟨(ih.1.step n s).1, fun _ => (ih.1.step n s).2⟩

end Checking.Agree

def Fault.shift (n : Nat) (f : Fault) : Fault :=
  { f with offset := f.offset + n }

/-- The same computation with faults `n` bytes further down. -/
def Effect.shift {α : Type} (n : Nat) (x : Effect α) : Effect α :=
  ⟨x.printed, x.result.mapError (Fault.shift n)⟩

namespace Effect

variable {α β : Type}

theorem shift_pure (n : Nat) (a : α) : (pure a).shift n = pure a := rfl

theorem shift_bind (n : Nat) (x : Effect α) (f : α → Effect β) :
    (x.bind f).shift n = (x.shift n).bind fun a => (f a).shift n := by
  unfold Effect.bind shift
  cases x.result <;> rfl

theorem shift_word (n offset : Nat) (symbol : String) (w : Option Word) :
    (word offset symbol w).shift n = word (offset + n) symbol w := by
  cases w <;> rfl

end Effect

theorem evalUnary_shift (n offset : Nat) (op : UnaryOp) (v : Value) :
    evalUnary (offset + n) op v = (evalUnary offset op v).shift n := by
  unfold evalUnary
  split
  · exact (Effect.shift_word ..).symm
  · rfl
  · rfl

theorem evalBinary_shift (n offset : Nat) (op : BinaryOp) (left right : Value) :
    evalBinary (offset + n) op left right = (evalBinary offset op left right).shift n := by
  unfold evalBinary
  split
  case h_4 | h_5 =>
    split
    · rfl
    · exact (Effect.shift_word ..).symm
  all_goals first | rfl | exact (Effect.shift_word ..).symm

theorem evalCall_shift (n offset : Nat) (args : List String) (name : String) (values : List Value) :
    evalCall args (offset + n) name values = (evalCall args offset name values).shift n := by
  unfold evalCall
  split
  case h_6 => split <;> rfl
  all_goals rfl

theorem evalAll_shift {f g : Frame} {n : Nat} {args : List Expr}
    (h : ∀ e ∈ args, eval g (e.shift n) = (eval f e).shift n) :
    evalAll g (args.map (Expr.shift n)) = (evalAll f args).shift n := by
  induction args with
  | nil => rfl
  | cons e es ih =>
    obtain ⟨he, hes⟩ := List.forall_mem_cons.1 h
    rw [List.map_cons, evalAll, evalAll, he, ih hes]
    refine Eq.trans ?_ (Effect.shift_bind n _ _).symm
    refine congrArg _ (funext fun v => ?_)
    exact (Effect.shift_bind n (evalAll f es) fun vs => .pure (v :: vs)).symm

/-- An expression that stands further down is evaluated alike in a frame with the same values. -/
theorem eval_shift {f g : Frame} {s : Scope} {n : Nat} {e : Expr} {t : Ty} (hf : f.Fits s e)
    (hg : g.Fits s (e.shift n)) (hb : f.bindings = g.bindings) (ha : f.args = g.args)
    (ht : (s.infer e).ty = some t) : eval g (e.shift n) = (eval f e).shift n := by
  induction e generalizing t with
  | literal => simp only [Expr.shift, eval, Effect.shift_pure]
  | path span segments =>
    obtain ⟨r, hr⟩ := Scope.ty_path ht
    have hkf := hf.kept (span.start, r) (by simp only [Scope.resolved, hr, List.mem_singleton])
    have hkg := hg.kept (span.start + n, r) (by
      simp only [Expr.shift, Scope.resolved, hr, List.mem_singleton, Span.shift_start])
    simp only [Expr.shift, eval, Effect.shift_pure, Frame.lookup, Span.shift_start, hkf, hkg, hb]
  | unary span op e ih =>
    rw [Scope.infer] at ht
    rw [Expr.shift] at hg ⊢
    rw [eval, eval, ih (hf.part (.operand (.self e))) (hg.part (.operand (.self _)))
      (Inference.ty_unary ht).1]
    refine Eq.trans ?_ (Effect.shift_bind n _ _).symm
    exact congrArg _ (funext fun v => evalUnary_shift n span.start op v)
  | binary span op l r ihl ihr =>
    rw [Scope.infer] at ht
    obtain ⟨a, b, hla, hrb, -⟩ := Inference.ty_binary ht
    rw [Expr.shift] at hg ⊢
    rw [eval, eval, ihl (hf.part (.left (.self l))) (hg.part (.left (.self _))) hla,
      ihr (hf.part (.right (.self r))) (hg.part (.right (.self _))) hrb]
    refine Eq.trans ?_ (Effect.shift_bind n _ _).symm
    refine congrArg _ (funext fun left => ?_)
    cases shortCircuit? op left with
    | some v => rfl
    | none =>
      dsimp only
      refine Eq.trans ?_ (Effect.shift_bind n _ _).symm
      exact congrArg _ (funext fun right => evalBinary_shift n span.start op left right)
  | call span name args ih =>
    rw [Scope.infer] at ht
    obtain ⟨_, -, -, -, hknown, -⟩ := Inference.ty_call ht
    rw [Scope.inferAll_eq] at hknown
    rw [Expr.shift] at hg ⊢
    rw [eval, eval, evalAll_shift (f := f) fun e he => ?_, ha]
    · refine Eq.trans ?_ (Effect.shift_bind n _ _).symm
      exact congrArg _ (funext fun values => evalCall_shift n span.start g.args name values)
    · obtain ⟨t, ht⟩ := Option.isSome_iff_exists.1 (hknown _ (List.mem_map_of_mem he))
      exact ih e he (hf.part (.argument he (.self e)))
        (hg.part (.argument (List.mem_map_of_mem he) (.self _))) ht

/-- How far a run is that goes on from `p` and then does what leads from the start to `q`. -/
def Progress.then (p q : Progress) : Progress :=
  ⟨q.bindings, q.last.or p.last, p.completed + q.completed, p.printed ++ q.printed⟩

theorem runStmts_from (resolutions : Resolutions) (args : List String) (p : Progress)
    (script : Script) :
    runStmts resolutions args p script =
      ((p.then (runStmts resolutions args ⟨p.bindings, none, 0, ""⟩ script).1),
        (runStmts resolutions args ⟨p.bindings, none, 0, ""⟩ script).2) := by
  induction script generalizing p with
  | nil => simp [runStmts, Progress.then]
  | cons s rest ih =>
    rw [runStmts, runStmts]
    cases (runStmt resolutions args p.bindings s).result with
    | ok r =>
      dsimp only
      rw [ih, ih ⟨_, some r.1, 0 + 1, _⟩]
      simp [Progress.then, Nat.add_assoc, String.append_assoc]
    | error fault =>
      simp [Progress.then]

theorem Checking.Tracks.stmt_shift {c d : Checking} {p : Progress} {n : Nat}
    {resolutions resolutions' : Resolutions} {s : Stmt} (ht : c.Tracks p) (args : List String)
    (hd : c.Agree d)
    (hk : ∀ q ∈ c.scope.resolvedIn s, resolutions[q.1]? = some q.2)
    (hk' : ∀ q ∈ d.scope.resolvedIn (s.shift n), resolutions'[q.1]? = some q.2)
    (hs : (c.step s).findings.toList = []) :
    runStmt resolutions' args p.bindings (s.shift n) =
      (runStmt resolutions args p.bindings s).shift n := by
  rw [← hd.scope] at hk'
  have hshift (e : Expr) (he : s.kind.value? = some e) :
      eval ⟨resolutions', args, p.bindings⟩ (e.shift n) =
        (eval ⟨resolutions, args, p.bindings⟩ e).shift n := by
    obtain ⟨t, hty, -⟩ := ht.part_sound args hk hs he (.self e)
    refine eval_shift (ht.fits hk he) (ht.fits hk' ?_) rfl rfl hty
    rw [Stmt.shift_kind]
    cases hkind : s.kind <;> rw [hkind] at he <;> cases he <;> rfl
  unfold runStmt
  rw [Stmt.shift_kind]
  cases hkind : s.kind with
  | bind name value =>
    dsimp only [StmtKind.shift]
    rw [hshift value (by rw [hkind]; rfl)]
    exact (Effect.shift_bind n _ fun v => .pure (Value.unit, p.bindings.insert name v)).symm
  | use path => rfl
  | expr value =>
    dsimp only [StmtKind.shift]
    rw [hshift value (by rw [hkind]; rfl)]
    exact (Effect.shift_bind n _ fun v => .pure (v, p.bindings)).symm

theorem Checking.Tracks.run_shift {c d : Checking} {p : Progress} {n : Nat}
    {resolutions resolutions' : Resolutions} {script : Script} (ht : c.Tracks p)
    (args : List String) (hd : c.Agree d)
    (hk : ∀ q ∈ c.resolvedFrom script, resolutions[q.1]? = some q.2)
    (hk' : ∀ q ∈ d.resolvedFrom (script.map (Stmt.shift n)), resolutions'[q.1]? = some q.2)
    (hs : (script.foldl Checking.step c).findings.toList = []) :
    runStmts resolutions' args p (script.map (Stmt.shift n)) =
      ((runStmts resolutions args p script).1,
        (runStmts resolutions args p script).2.map (Fault.shift n)) := by
  induction script generalizing c d p with
  | nil => rfl
  | cons s rest ih =>
    have hstep : (c.step s).findings.toList = [] := clean_of_foldl (c := c.step s) hs
    rw [Checking.resolvedFrom] at hk
    rw [List.map_cons, Checking.resolvedFrom] at hk'
    have hstmt := ht.stmt_shift args hd (fun q hq => hk q (List.mem_append_left _ hq))
      (fun q hq => hk' q (List.mem_append_left _ hq)) hstep
    have hgives := (ht.step args (fun q hq => hk q (List.mem_append_left _ hq)) hstep).2
    rw [List.map_cons, runStmts, runStmts, hstmt]
    cases hr : (runStmt resolutions args p.bindings s).result with
    | ok r =>
      simp only [Effect.shift, hr, Except.mapError]
      exact ih (hgives r hr _ _) (hd.step n s).1 (fun q hq => hk q (List.mem_append_right _ hq))
        (fun q hq => hk' q (List.mem_append_right _ hq)) hs
    | error fault =>
      simp only [Effect.shift, hr, Except.mapError, Option.map_some]

/-- Two tables that keep the resolutions of a script run it alike. -/
theorem Checking.Tracks.run_congr {c : Checking} {p : Progress}
    {resolutions resolutions' : Resolutions} {script : Script} (ht : c.Tracks p)
    (args : List String) (hk : ∀ q ∈ c.resolvedFrom script, resolutions[q.1]? = some q.2)
    (hk' : ∀ q ∈ c.resolvedFrom script, resolutions'[q.1]? = some q.2)
    (hs : (script.foldl Checking.step c).findings.toList = []) :
    runStmts resolutions' args p script = runStmts resolutions args p script := by
  have hid : script.map (Stmt.shift 0) = script :=
    (List.map_congr_left fun s _ => s.shift_zero).trans (List.map_id _)
  have hrun := ht.run_shift (d := c) (n := 0) args ⟨rfl, Iff.rfl⟩ hk (hid.symm ▸ hk') hs
  have hfault (f : Fault) : f.shift 0 = f := rfl
  rw [hid, funext hfault, Option.map_id'] at hrun
  exact hrun

end ScriptSession
