import ScriptSession.Proofs.Provenance

namespace ScriptSession

/-- What a reference service is asked to do. -/
inductive ServiceRequest
  | load (framework : FrameworkRequest) (paths : SearchPaths)
  | reconcile (artifacts : List Artifact)
  | record (artifacts : List Artifact)
  | find (shortName : String)

/-- A request to a reference service with the files that it finds. -/
structure ServiceCall where
  files : FileTree
  request : ServiceRequest

namespace ReferenceService

/-- The service after a call; a framework that is not found leaves it as it was. -/
def serve (s : ReferenceService) (c : ServiceCall) : ReferenceService :=
  match c.request with
  | .load framework paths =>
    match s.loadFramework c.files framework paths with
    | .ok (_, t) => t
    | .error _ => s
  | .reconcile artifacts => (s.reconcile c.files artifacts).2
  | .record artifacts => (s.record artifacts).2
  | .find shortName => (s.findExecution c.files shortName).2

def after (s : ReferenceService) (calls : List ServiceCall) : ReferenceService :=
  calls.foldl serve s

theorem after_append (s : ReferenceService) (calls later : List ServiceCall) :
    s.after (calls ++ later) = (s.after calls).after later :=
  List.foldl_append ..

section Outcomes

variable (files : FileTree)

/-- What each of some artifacts is found to be, one after the other. -/
def outcomes : ReferenceService → List Artifact → List (Option Artifact)
  | _, [] => []
  | s, a :: as => (s.reconcileOne files a).1 :: (s.reconcileOne files a).2.outcomes as

theorem reconcile_eq (s : ReferenceService) (as : List Artifact) :
    s.reconcile files as = (.ofList (s.outcomes files as).reduceOption,
      as.foldl (fun s a => (s.reconcileOne files a).2) s) := by
  have hfold (result : ArtifactSet) :
      as.foldl (fun p a => (p.1.extend (p.2.reconcileOne files a).1.toList,
        (p.2.reconcileOne files a).2)) (result, s) =
      (result.extend (s.outcomes files as).reduceOption,
        as.foldl (fun s a => (s.reconcileOne files a).2) s) := by
    induction as generalizing s result with
    | nil => rfl
    | cons a as ih =>
      have hcons : (s.outcomes files (a :: as)).reduceOption =
          (s.reconcileOne files a).1.toList ++
            ((s.reconcileOne files a).2.outcomes files as).reduceOption := by
        rw [outcomes]
        cases (s.reconcileOne files a).1 <;> rfl
      rw [List.foldl_cons, ih, hcons, ArtifactSet.extend_append]
      rfl
  exact hfold .empty

theorem reconcile_cons (s : ReferenceService) (a : Artifact) (as : List Artifact) :
    (s.reconcile files (a :: as)).2 = ((s.reconcileOne files a).2.reconcile files as).2 := by
  simp only [reconcile_eq, List.foldl_cons]

theorem reconcile_append (s : ReferenceService) (as bs : List Artifact) :
    (s.reconcile files (as ++ bs)).2 = ((s.reconcile files as).2.reconcile files bs).2 := by
  simp only [reconcile_eq, List.foldl_append]

end Outcomes

/-- Whether all that `s` decided stands in `t`, which decides no key twice if `s` did not. -/
structure Upholds (s t : ReferenceService) : Prop where
  cache : s.cache <+: t.cache
  nodup : (s.cache.map (·.1)).Nodup → (t.cache.map (·.1)).Nodup

section Upholds

variable {s t u : ReferenceService}

theorem Upholds.of_eq (h : t.cache = s.cache) : s.Upholds t :=
  ⟨h ▸ List.prefix_rfl, fun hnodup => h ▸ hnodup⟩

theorem Upholds.trans (h : s.Upholds t) (h' : t.Upholds u) : s.Upholds u :=
  ⟨h.cache.trans h'.cache, h'.nodup ∘ h.nodup⟩

theorem Upholds.lookup (h : s.Upholds t) {k : Key} (hd : s.Decided k) :
    t.cache.lookup k = s.cache.lookup k := by
  obtain ⟨more, hmore⟩ := h.cache
  obtain ⟨r, hr⟩ := Option.isSome_iff_exists.1 hd
  rw [← hmore, List.lookup_append, hr, Option.some_or]

theorem Upholds.decided (h : s.Upholds t) {k : Key} (hd : s.Decided k) : t.Decided k := by
  unfold Decided
  rw [h.lookup hd]
  exact hd

theorem upholds_reconcileOne (files : FileTree) (s : ReferenceService) (a : Artifact) :
    s.Upholds (s.reconcileOne files a).2 := by
  apply reconcileOne_cases (motive := fun p => s.Upholds p.2) files s a
  case anonymous => exact fun _ => .of_eq rfl
  case cached => exact fun _ _ _ _ => .of_eq rfl
  case fresh =>
    intro k _ hc
    constructor
    · exact List.prefix_append _ _
    · intro hnodup
      have hnew : k ∉ s.cache.map (·.1) := by
        intro hmem
        obtain ⟨e, he, hkey⟩ := List.mem_map.1 hmem
        have hd : s.Decided k := decided_iff.2 ⟨e, he, hkey.symm⟩
        rw [Decided, hc] at hd
        cases hd
      rw [List.map_append, List.map_singleton, ← List.concat_eq_append]
      exact hnodup.concat hnew

theorem upholds_reconcile (files : FileTree) (s : ReferenceService) (as : List Artifact) :
    s.Upholds (s.reconcile files as).2 := by
  induction as generalizing s with
  | nil => exact .of_eq rfl
  | cons a as ih =>
    rw [reconcile_cons]
    exact (upholds_reconcileOne files s a).trans (ih _)

theorem cache_record (s : ReferenceService) (as : List Artifact) :
    (s.record as).2.cache = s.cache := by
  induction as generalizing s with
  | nil => rfl
  | cons a as ih =>
    rw [record_cons, ih]
    rfl

theorem cache_registers (s : ReferenceService) (layers : List Layer) :
    (layers.foldl register s).cache = s.cache := by
  induction layers generalizing s with
  | nil => rfl
  | cons layer rest ih =>
    rw [List.foldl_cons, ih]
    unfold register
    split <;> rfl

theorem loadFramework_eq_ok {files : FileTree} {framework : FrameworkRequest} {paths : SearchPaths}
    {layers : List Layer} (h : s.loadFramework files framework paths = .ok (layers, t)) :
    Framework.discover files framework paths = .ok layers ∧
      t = { layers.foldl register s with
        frameworks := (layers.foldl register s).frameworks ++ [layers] } := by
  obtain ⟨_, hlayers, h⟩ := Except.bind_eq_ok_iff.1 h
  cases h
  exact ⟨hlayers, rfl⟩

theorem serve_load (s : ReferenceService) (files : FileTree) (framework : FrameworkRequest)
    (paths : SearchPaths) :
    s.serve ⟨files, .load framework paths⟩ = s ∨
      ∃ layers, Framework.discover files framework paths = .ok layers ∧
        s.serve ⟨files, .load framework paths⟩ = { layers.foldl register s with
          frameworks := (layers.foldl register s).frameworks ++ [layers] } := by
  unfold serve
  dsimp only
  split
  next layers _ hload =>
    obtain ⟨hlayers, rfl⟩ := loadFramework_eq_ok hload
    exact .inr ⟨layers, hlayers, rfl⟩
  · exact .inl rfl

theorem exists_counted_of_serve_find (s : ReferenceService) (files : FileTree)
    (shortName : String) : ∃ n, s.serve ⟨files, .find shortName⟩ = s.counted n :=
  exists_counted_of_findExecution rfl

theorem upholds_serve (s : ReferenceService) (c : ServiceCall) : s.Upholds (s.serve c) := by
  obtain ⟨files, request⟩ := c
  cases request with
  | load framework paths =>
    obtain hserve | ⟨layers, -, hserve⟩ := s.serve_load files framework paths
    · exact .of_eq (by rw [hserve])
    · rw [hserve]
      exact .of_eq (cache_registers s layers)
  | reconcile artifacts => exact upholds_reconcile files s artifacts
  | record artifacts => exact .of_eq (cache_record s artifacts)
  | find shortName =>
    obtain ⟨n, hn⟩ := s.exists_counted_of_serve_find files shortName
    rw [hn]
    exact .of_eq rfl

/-- No run takes back what was decided before it. -/
theorem upholds_after (s : ReferenceService) (calls : List ServiceCall) :
    s.Upholds (s.after calls) := by
  induction calls generalizing s with
  | nil => exact .of_eq rfl
  | cons c rest ih => exact (s.upholds_serve c).trans (ih _)

end Upholds

/-- What stands for an artifact: what was decided for its key, and the artifact itself where it has
none. -/
def decision (s : ReferenceService) (a : Artifact) : Option Artifact :=
  match a.key with
  | none => some a
  | some k => (s.cache.lookup k).bind Reconciled.artifact?

section Decision

variable {s t : ReferenceService} {a b : Artifact} {k : Key}

theorem decision_of_anonymous (s : ReferenceService) (h : a.key = none) :
    s.decision a = some a := by
  rw [decision, h]

theorem decision_of_key (s : ReferenceService) (h : a.key = some k) :
    s.decision a = (s.cache.lookup k).bind Reconciled.artifact? := by
  rw [decision, h]

theorem decision_congr (s : ReferenceService) (h : a.key = some k) (h' : b.key = some k) :
    s.decision a = s.decision b := by
  rw [decision_of_key s h, decision_of_key s h']

theorem Upholds.decision (h : s.Upholds t) (hd : ∀ k, a.key = some k → s.Decided k) :
    t.decision a = s.decision a := by
  cases hk : a.key with
  | none => rw [decision_of_anonymous t hk, decision_of_anonymous s hk]
  | some k => rw [decision_of_key t hk, decision_of_key s hk, h.lookup (hd k hk)]

variable (files : FileTree)

theorem decided_reconcileOne (s : ReferenceService) (hk : a.key = some k) :
    (s.reconcileOne files a).2.Decided k := by
  cases hc : s.cache.lookup k with
  | some r =>
    rw [reconcileOne_of_cached files hk hc, Decided, hc]
    rfl
  | none =>
    rw [reconcileOne_of_new files hk hc]
    exact decided_iff.2 ⟨_, List.mem_append_right _ (List.mem_singleton_self _), rfl⟩

theorem reconcileOne_decision (s : ReferenceService) (a : Artifact) :
    (s.reconcileOne files a).1 = (s.reconcileOne files a).2.decision a := by
  apply reconcileOne_cases (motive := fun p => p.1 = p.2.decision a) files s a
  case anonymous => exact fun hk => (decision_of_anonymous s hk).symm
  case cached =>
    intro k r hk hc
    rw [decision_of_key s hk, hc]
    rfl
  case fresh =>
    intro k hk hc
    rw [decision_of_key _ hk, List.lookup_append, hc, Option.none_or, List.lookup_cons_self]
    rfl

theorem decided_reconcile (s : ReferenceService) {as : List Artifact} (ha : a ∈ as)
    (hk : a.key = some k) : (s.reconcile files as).2.Decided k := by
  induction as generalizing s with
  | nil => cases ha
  | cons b as ih =>
    rw [reconcile_cons]
    obtain rfl | ha := List.mem_cons.1 ha
    · exact (upholds_reconcile files _ as).decided (decided_reconcileOne files s hk)
    · exact ih _ ha

/-- Reconciled artifacts are found to be what is decided for them in the end. -/
theorem outcomes_eq (s : ReferenceService) (as : List Artifact) :
    s.outcomes files as = as.map (s.reconcile files as).2.decision := by
  induction as generalizing s with
  | nil => rfl
  | cons a as ih =>
    have hlater := upholds_reconcile files (s.reconcileOne files a).2 as
    rw [outcomes, ih, reconcile_cons, List.map_cons,
      hlater.decision fun k hk => decided_reconcileOne files s hk, reconcileOne_decision]

theorem reconcile_past_decided (hb : b.key = some k) (hd : s.Decided k)
    (front back : List Artifact) :
    (s.reconcile files (front ++ b :: back)).2 = (s.reconcile files (front ++ back)).2 := by
  obtain ⟨r, hr⟩ := Option.isSome_iff_exists.1 ((upholds_reconcile files s front).decided hd)
  rw [reconcile_append, reconcile_append, reconcile_cons, reconcileOne_of_cached files hb hr]

end Decision

/-- Reconciliation is frozen. Reconciling artifacts gives in order what is decided for each of
them, once for every key; and what is decided for a key stands after any later run, when an
artifact with that key is found to be just that and leaves no trace in the service. -/
theorem reconciliation_is_frozen (run : List ServiceCall) (files : FileTree)
    (artifacts : List Artifact) :
    let s := empty.after run
    let t := (s.reconcile files artifacts).2
    s.outcomes files artifacts = artifacts.map t.decision ∧
    (s.reconcile files artifacts).1.items =
      (s.outcomes files artifacts).reduceOption.eraseDupsBy Artifact.same ∧
    ∀ later : List ServiceCall,
      let u := t.after later
      s.cache <+: t.cache ∧ t.cache <+: u.cache ∧ (u.cache.map (·.1)).Nodup ∧
      ∀ a ∈ artifacts, ∀ k, a.key = some k →
        t.Decided k ∧ u.decision a = t.decision a ∧
        ∀ (files' : FileTree) (front back : List Artifact) (b : Artifact), b.key = some k →
          (u.reconcile files' (front ++ b :: back)).2 =
            (u.reconcile files' (front ++ back)).2 ∧
          (u.outcomes files' (front ++ b :: back))[front.length]? = some (t.decision a) := by
  intro s t
  have ht : s.Upholds t := upholds_reconcile files s artifacts
  refine ⟨outcomes_eq files s artifacts, ?_, fun later => ?_⟩
  · rw [reconcile_eq, ArtifactSet.items_ofList]
  intro u
  have hu : t.Upholds u := t.upholds_after later
  have hrun : empty.Upholds u := ((empty.upholds_after run).trans ht).trans hu
  refine ⟨ht.cache, hu.cache, hrun.nodup List.nodup_nil, fun a ha k hk => ?_⟩
  -- The key is decided in `t`, whatever stands before or after the artifact in the list; what comes
  -- later finds it decided.
  have hd : t.Decided k := decided_reconcile files s ha hk
  have hsame {b : Artifact} (hb : b.key = some k) : u.decision b = t.decision a := by
    rw [decision_congr u hb hk]
    exact hu.decision fun k' hk' => Option.some.inj (hk.symm.trans hk') ▸ hd
  refine ⟨hd, hsame hk, fun files' front back b hb => ⟨?_, ?_⟩⟩
  · exact reconcile_past_decided files' hb (hu.decided hd) front back
  · have hfinal := (upholds_reconcile files' u (front ++ b :: back)).decision fun k' hk' =>
      Option.some.inj (hb.symm.trans hk') ▸ hu.decided hd
    rw [outcomes_eq, List.getElem?_map, List.getElem?_append_right (Nat.le_refl _), Nat.sub_self,
      List.getElem?_cons_zero, Option.map_some, hfinal, hsame hb]

/-- A module that was promoted is found promoted under another role and identity, also when no file
is left. -/
theorem frozen_of_promotion :
    let files := { Host.small.files with
      entries := Host.small.files.entries ++
        [(["s", "shared", "Kiln.Core", "1.0", "a.dll"], .file "kmod A, Version=1.0".toUTF8)] }
    let run : List ServiceCall := [⟨files, .load .base ⟨[⟨"/s"⟩], none⟩⟩]
    let first := Artifact.ofFile ⟨"/s/shared/Kiln.Core/1.0/a.dll"⟩ .executionOnly
    let internal := Artifact.ofFile ⟨"/s/shared/Kiln.Core/1.0/b.dll"⟩ .executionOnly
    let again := { first with role := .both, identity := some ⟨"B", "2.0"⟩ }
    let later : List ServiceCall := [⟨.ofCwd [], .record [first]⟩, ⟨.ofCwd [], .find "B"⟩]
    let t := ((empty.after run).reconcile files [internal, first]).2
    let u := t.after later
    again.key = first.key ∧ t.decision internal = none ∧
      (t.decision first).bind (·.key) =
        some (.ofPath ⟨"/s/packs/Kiln.Core.Ref/1.0/ref/a.dll"⟩) ∧
      (u.reconcile (.ofCwd []) [internal, again]).2 = (u.reconcile (.ofCwd []) [internal]).2 ∧
      (u.outcomes (.ofCwd []) [internal, again])[1]? = some (t.decision first) := by
  intro files run first internal again later t u
  obtain ⟨-, -, hfrozen⟩ := reconciliation_is_frozen run files [internal, first]
  obtain ⟨-, -, -, hsame⟩ := hfrozen later
  obtain ⟨-, -, hagain⟩ := hsame first (List.mem_cons_of_mem _ List.mem_cons_self) _ rfl
  obtain ⟨hstate, hfound⟩ := hagain (.ofCwd []) [internal] [] again rfl
  have hruns : t.decision internal = none ∧ (t.decision first).bind (·.key) =
      some (.ofPath ⟨"/s/packs/Kiln.Core.Ref/1.0/ref/a.dll"⟩) := by decide +kernel
  exact ⟨rfl, hruns.1, hruns.2, hstate, hfound⟩

end ReferenceService
end ScriptSession
