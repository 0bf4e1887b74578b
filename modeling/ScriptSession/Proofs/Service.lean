import ScriptSession.Proofs.Collection
import ScriptSession.References.Service
import ScriptSession.Resolve.Chain
import ScriptSession.Session.Evaluation

namespace ScriptSession

namespace ReferenceService

def Keeps (s t : ReferenceService) : Prop :=
  t.frameworks = s.frameworks ∧ t.analysis = s.analysis

theorem Keeps.refl (s : ReferenceService) : Keeps s s := ⟨rfl, rfl⟩

theorem Keeps.trans {s t u : ReferenceService} (h : Keeps s t) (h' : Keeps t u) : Keeps s u :=
  ⟨h'.1.trans h.1, h'.2.trans h.2⟩

structure Grows (s t : ReferenceService) : Prop where
  frameworks : t.frameworks = s.frameworks
  analysis : s.analysis.items <+: t.analysis.items
  wellFormed : s.analysis.WellFormed → t.analysis.WellFormed

theorem Keeps.grows {s t : ReferenceService} (h : Keeps s t) : Grows s t :=
  ⟨h.1, h.2 ▸ List.prefix_rfl, fun hw => h.2 ▸ hw⟩

theorem Grows.trans {s t u : ReferenceService} (h : Grows s t) (h' : Grows t u) : Grows s u :=
  ⟨h'.frameworks.trans h.frameworks, h.analysis.trans h'.analysis, h'.wellFormed ∘ h.wellFormed⟩

theorem keeps_findExecution (files : FileTree) (s : ReferenceService) (name : String) :
    s.Keeps (s.findExecution files name).2 := by
  unfold findExecution
  dsimp only
  split
  · exact .refl s
  · exact ⟨rfl, rfl⟩

theorem record_cons (s : ReferenceService) (a : Artifact) (as : List Artifact) :
    (s.record (a :: as)).2 = ((s.recordOne a).2.record as).2 := by
  have hfold (n m : Nat) (s : ReferenceService) :
      (as.foldl (fun p a => (p.1 + (p.2.recordOne a).1.toNat, (p.2.recordOne a).2)) (n, s)).2 =
        (as.foldl (fun p a => (p.1 + (p.2.recordOne a).1.toNat, (p.2.recordOne a).2))
          (m, s)).2 := by
    induction as generalizing n m s with
    | nil => rfl
    | cons a as ih => exact ih _ _ _
  exact hfold _ _ _

theorem keeps_record (s : ReferenceService) (artifacts : List Artifact) :
    s.Keeps (s.record artifacts).2 := by
  induction artifacts generalizing s with
  | nil => exact .refl s
  | cons a as ih =>
    rw [record_cons]
    exact Keeps.trans ⟨rfl, rfl⟩ (ih _)

theorem grows_reconcileOne (files : FileTree) (s : ReferenceService) (a : Artifact) :
    s.Grows (s.reconcileOne files a).2 := by
  unfold reconcileOne reconcileKey
  split
  · exact (Keeps.refl s).grows
  · dsimp only
    split
    · exact (Keeps.refl s).grows
    · exact ⟨rfl, ArtifactSet.items_extend _ _, fun h => h.extend _⟩

theorem grows_reconcile (files : FileTree) (s : ReferenceService) (artifacts : List Artifact) :
    s.Grows (s.reconcile files artifacts).2 := by
  unfold reconcile
  generalize ArtifactSet.empty = result
  induction artifacts generalizing result s with
  | nil => exact (Keeps.refl s).grows
  | cons a as ih => exact (grows_reconcileOne files s a).trans (ih _ _)

end ReferenceService

theorem Resolver.keeps_resolve (host : Host) (settings : ResolverSettings) (s : ReferenceService)
    (cancelled : Bool) (d : Directive) : s.Keeps (resolve host settings s cancelled d).2.1 := by
  unfold resolve
  cases owner d with
  | package | project => exact .refl s
  | assembly =>
    unfold resolveAssembly
    dsimp only
    split
    · exact .refl s
    · split
      · exact .refl s
      · have h := s.keeps_findExecution host.files (String.ofList (Text.trim d.value.toList))
        split
        next he =>
          rw [he] at h
          exact h
        next he =>
          rw [he] at h
          exact h

namespace Evaluator

theorem keeps_resolveAll (host : Host) (settings : ResolverSettings) (cancelled : Bool)
    (s : ReferenceService) (references : ArtifactSet) (directives : List Directive) :
    s.Keeps (resolveAll host settings cancelled s references directives).2.1 := by
  induction directives generalizing host s references with
  | nil => exact .refl s
  | cons d rest ih =>
    have h := Resolver.keeps_resolve host settings s cancelled d
    rw [resolveAll]
    split
    next he =>
      rw [he] at h
      exact h.trans (ih _ _ _)
    next he =>
      rw [he] at h
      exact h

theorem keeps_prepare (host : Host) (e : Evaluator) (s : ReferenceService) (link : Option Link)
    (text : String) (cancel : Cancellation) : s.Keeps (e.prepare host s link text cancel).2.1 := by
  unfold prepare
  split
  · exact .refl s
  · have h := keeps_resolveAll host e.settings cancel.atStart s (e.references link)
      (Directive.scan text)
    dsimp only
    split
    next he =>
      rw [he] at h
      exact h
    next he =>
      rw [he] at h
      exact h
    next he =>
      rw [he] at h
      exact h

end Evaluator
end ScriptSession
