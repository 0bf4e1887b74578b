import Mathlib.Data.Prod.Lex
import ScriptSession.Proofs.Layers

namespace ScriptSession

namespace ModuleFile

/-- The file name that the reference module for a file of some name has: a native image has an infix
that its reference module lacks. -/
inductive Expects : String → String → Prop
  | native {suffix : String} (stem : String) (h : Text.lower suffix = ".ni.dll") :
      Expects (stem ++ suffix) (stem ++ ".dll")
  | plain {name : String} (h : ∀ stem suffix, name = stem ++ suffix →
      Text.lower suffix ≠ ".ni.dll") : Expects name name

theorem length_of_lower {s t : String} (h : Text.lower s = t) : s.length = t.length := by
  rw [← h, Text.lower, String.length_ofList, List.length_map, String.length_toList]

theorem isSuffixOf_lower_iff {name : String} :
    ".ni.dll".toList.isSuffixOf (Text.lower name).toList ↔
      ∃ stem suffix, name = stem ++ suffix ∧ Text.lower suffix = ".ni.dll" := by
  rw [List.isSuffixOf_iff_suffix]
  constructor
  · rintro ⟨front, hfront⟩
    have hlower : (Text.lower name).toList = name.toList.map Char.toLower := String.toList_ofList
    rw [hlower] at hfront
    refine ⟨String.ofList (name.toList.take front.length),
      String.ofList (name.toList.drop front.length), ?_, ?_⟩
    · rw [← String.ofList_append, List.take_append_drop, String.ofList_toList]
    · rw [Text.lower, String.toList_ofList, List.map_drop, ← hfront, List.drop_left,
        String.ofList_toList]
  · rintro ⟨stem, suffix, rfl, hlower⟩
    rw [Text.lower_append, hlower, String.toList_append]
    exact List.suffix_append _ _

theorem take_stem {suffix : String} (stem : String) (h : Text.lower suffix = ".ni.dll") :
    String.ofList ((stem ++ suffix).toList.take ((stem ++ suffix).length - ".ni.dll".length)) ++
      "." ++ extension = stem ++ ".dll" := by
  have hdll : "." ++ extension = ".dll" := rfl
  rw [String.length_append, length_of_lower h, Nat.add_sub_cancel, String.toList_append,
    ← String.length_toList, List.take_left, String.ofList_toList, String.append_assoc, hdll]

theorem referenceName?_eq_some_iff {p : Path} {expected : String} :
    referenceName? p = some expected ↔
      ∃ name, p.fileName? = some name ∧ Expects name expected := by
  have hnative : s!".ni.{extension}" = ".ni.dll" := rfl
  unfold referenceName?
  rw [Option.map_eq_some_iff]
  dsimp only
  rw [hnative]
  refine exists_congr fun name => and_congr_right fun _ => ?_
  constructor
  · intro h
    split at h
    next hsuffix =>
      obtain ⟨stem, suffix, rfl, hlower⟩ := isSuffixOf_lower_iff.1 hsuffix
      rw [take_stem stem hlower] at h
      subst h
      exact .native stem hlower
    next hplain =>
      subst h
      exact .plain fun stem suffix hname hlower =>
        hplain (isSuffixOf_lower_iff.2 ⟨stem, suffix, hname, hlower⟩)
  · intro h
    cases h with
    | native stem hlower =>
      rw [if_pos (isSuffixOf_lower_iff.2 ⟨stem, _, rfl, hlower⟩)]
      exact take_stem stem hlower
    | plain hplain =>
      rw [if_neg]
      intro hsuffix
      obtain ⟨stem, suffix, hname, hlower⟩ := isSuffixOf_lower_iff.1 hsuffix
      exact hplain stem suffix hname hlower

end ModuleFile

namespace ReferenceService

/-- A reference module that may stand for an execution module at a key: a registered layer has it,
and it has the expected file name and the identity of the execution module. -/
structure Counterpart (s : ReferenceService) (k : Key) (i : Identity) (layer : Layer)
    (a : Artifact) : Prop where
  mem_layers : layer ∈ s.layers
  mem_references : a ∈ layer.references.items
  fileName : ∃ own expected name, k.fileName? = some own ∧ ModuleFile.Expects own expected ∧
    a.key.bind Key.fileName? = some name ∧ Text.sameIgnoringCase name expected
  identity : a.identity = some i

/-- How well a layer serves a key: best if its execution directory holds the key, and then the
deeper the better. -/
def layerRank (k : Key) (layer : Layer) : ℕ ×ₗ ℕ :=
  toLex ((k.isUnder layer.executionDir).toNat, layer.depth)

/-- The documentation of a module at a path, by the one that an artifact carries: without one it is
the file beside the module with the extension `xml`. -/
inductive Documents (files : FileTree) (p : Path) : Option Path → Option Path → Prop
  | carried (doc : Path) : Documents files p (some doc) (some doc)
  | beside (h : files.isFile (p.withExtension "xml")) :
      Documents files p none (some (p.withExtension "xml"))
  | missing (h : ¬ files.isFile (p.withExtension "xml")) : Documents files p none none

theorem documents_documentation? (files : FileTree) (p : Path) (carried : Option Path) :
    Documents files p carried (carried.or (ModuleFile.documentation? files p)) := by
  cases carried with
  | some doc => exact .carried doc
  | none =>
    rw [Option.none_or, ModuleFile.documentation?]
    split
    next hfile => exact .beside hfile
    next hmissing => exact .missing hmissing

/-- What an artifact at a key is reconciled to, and the number of probes that this takes: the first
that applies of four dispositions. -/
inductive Settles (files : FileTree) (s : ReferenceService) (k : Key) (a : Artifact) :
    Reconciled → Nat → Prop
  | source {layer : Layer} (hl : layer ∈ s.layers) (hk : k.isUnder layer.referenceDir) :
      Settles files s k a (.analysis a) 0
  | promoted {i : Identity} {layer : Layer} {r : Artifact}
      (hreference : ∀ l ∈ s.layers, ¬ k.isUnder l.referenceDir)
      (hi : a.identity.or (Identity.read? files k.path) = some i)
      (hr : s.Counterpart k i layer r)
      (hbest : ∀ l r', s.Counterpart k i l r' → layerRank k l ≤ layerRank k layer) :
      Settles files s k a (.analysis r) a.identity.isNone.toNat
  | dropped {layer : Layer} (hreference : ∀ l ∈ s.layers, ¬ k.isUnder l.referenceDir)
      (hnone : ∀ i l r, a.identity.or (Identity.read? files k.path) = some i →
        ¬ s.Counterpart k i l r)
      (hl : layer ∈ s.layers) (hk : k.isUnder layer.executionDir) :
      Settles files s k a .dropped a.identity.isNone.toNat
  | synthesized {documentation : Option Path}
      (hreference : ∀ l ∈ s.layers, ¬ k.isUnder l.referenceDir)
      (hnone : ∀ i l r, a.identity.or (Identity.read? files k.path) = some i →
        ¬ s.Counterpart k i l r)
      (hexecution : ∀ l ∈ s.layers, ¬ k.isUnder l.executionDir)
      (hdocumentation : Documents files k.path a.documentation documentation) :
      Settles files s k a
        (.analysis {
          key := some k
          role := .both
          documentation := documentation
          identity := a.identity.or (Identity.read? files k.path) })
        (a.identity.isNone.toNat + a.documentation.isNone.toNat)

section Best

variable {k : Key} {r r' : IndexedReference} {rs : List IndexedReference}

def indexRank (k : Key) (r : IndexedReference) : ℕ ×ₗ ℕ :=
  toLex (IndexedReference.rank k r)

theorem better_eq (k : Key) (r r' : IndexedReference) :
    better k r r' = if indexRank k r' < indexRank k r then r else r' := by
  unfold better indexRank
  simp only [Prod.Lex.toLex_lt_toLex, gt_iff_lt, eq_comm]

theorem le_better (k : Key) (r r' : IndexedReference) :
    indexRank k r ≤ indexRank k (better k r r') ∧
      indexRank k r' ≤ indexRank k (better k r r') := by
  rw [better_eq]
  split
  next hlt => exact ⟨le_rfl, hlt.le⟩
  next hle => exact ⟨not_lt.1 hle, le_rfl⟩

theorem le_foldl_better (k : Key) (r : IndexedReference) (rs : List IndexedReference) :
    ∀ r' ∈ r :: rs, indexRank k r' ≤ indexRank k (rs.foldl (better k) r) := by
  induction rs generalizing r with
  | nil =>
    intro r' hr'
    rw [List.mem_singleton.1 hr']
    exact le_rfl
  | cons d ds ih =>
    obtain ⟨hr, hd⟩ := le_better k r d
    have hchosen := ih (better k r d) _ List.mem_cons_self
    intro r' hr'
    obtain rfl | hr' := List.mem_cons.1 hr'
    · exact hr.trans hchosen
    · obtain rfl | hr' := List.mem_cons.1 hr'
      · exact hd.trans hchosen
      · exact ih (better k r d) r' (List.mem_cons_of_mem _ hr')

theorem le_best? (h : best? k rs = some r) (hr' : r' ∈ rs) : indexRank k r' ≤ indexRank k r := by
  cases rs with
  | nil => cases hr'
  | cons c cs =>
    cases h
    exact le_foldl_better k c cs r' hr'

theorem best?_eq_none_iff : best? k rs = none ↔ rs = [] := by
  cases rs with
  | nil => exact iff_of_true rfl rfl
  | cons c cs => exact iff_of_false nofun nofun

end Best

section Candidates

variable {s : ReferenceService} {k : Key} {i : Identity} {layer : Layer} {a : Artifact}

theorem exists_counterpart_of_mem_candidates (hs : s.Registered s.layers) (hk : k.Proper)
    {r : IndexedReference} (hr : r ∈ s.candidates k i) :
    ∃ layer, s.Counterpart k i layer r.artifact ∧ layerRank k layer = indexRank k r := by
  unfold candidates at hr
  split at hr
  next expected hexpected =>
    obtain ⟨own, hown, hexpects⟩ := ModuleFile.referenceName?_eq_some_iff.1 hexpected
    rw [Key.fileName?_path hk] at hown
    obtain ⟨hindex, hmatch⟩ := List.mem_filter.1 hr
    obtain ⟨hname, hidentity⟩ := of_decide_eq_true hmatch
    rw [hs.index] at hindex
    obtain ⟨layer, hlayer, hentry⟩ := List.mem_flatMap.1 hindex
    obtain ⟨a, ha, hentry⟩ := List.mem_filterMap.1 hentry
    obtain ⟨name, hfile, rfl⟩ := Option.map_eq_some_iff.1 hentry
    refine ⟨layer, ?_, rfl⟩
    exact ⟨hlayer, ha, ⟨own, expected, name, hown, hexpects, hfile, beq_iff_eq.2 hname⟩, hidentity⟩
  next => cases hr

theorem Counterpart.exists_candidate (h : s.Counterpart k i layer a)
    (hs : s.Registered s.layers) (hk : k.Proper) :
    ∃ r ∈ s.candidates k i, r.artifact = a ∧ indexRank k r = layerRank k layer := by
  obtain ⟨own, expected, name, hown, hexpects, hfile, hsame⟩ := h.fileName
  have hexpected : ModuleFile.referenceName? k.path = some expected := by
    rw [ModuleFile.referenceName?_eq_some_iff, Key.fileName?_path hk]
    exact ⟨own, hown, hexpects⟩
  refine ⟨⟨Text.lower name, a, layer.depth, layer.executionDir⟩, ?_, rfl, rfl⟩
  unfold candidates
  rw [hexpected]
  apply List.mem_filter.2
  constructor
  · rw [hs.index]
    apply List.mem_flatMap.2
    refine ⟨layer, h.mem_layers, List.mem_filterMap.2 ⟨a, h.mem_references, ?_⟩⟩
    rw [hfile]
    rfl
  · exact decide_eq_true ⟨beq_iff_eq.1 hsame, h.identity⟩

theorem counterpart_of_promotion? (hs : s.Registered s.layers) (hk : k.Proper)
    {identity : Option Identity} (h : s.promotion? k identity = some a) :
    ∃ i layer, identity = some i ∧ s.Counterpart k i layer a ∧
      ∀ l r, s.Counterpart k i l r → layerRank k l ≤ layerRank k layer := by
  obtain ⟨i, rfl, h⟩ := Option.bind_eq_some_iff.1 h
  obtain ⟨r, hbest, rfl⟩ := Option.map_eq_some_iff.1 h
  obtain ⟨layer, hr, hrank⟩ := exists_counterpart_of_mem_candidates hs hk (mem_of_best? hbest)
  refine ⟨i, layer, rfl, hr, fun l r' hr' => ?_⟩
  obtain ⟨c, hc, -, hl⟩ := hr'.exists_candidate hs hk
  rw [← hl, hrank]
  exact le_best? hbest hc

theorem not_counterpart_of_promotion? (hs : s.Registered s.layers) (hk : k.Proper)
    {identity : Option Identity} (h : s.promotion? k identity = none) (hi : identity = some i) :
    ¬ s.Counterpart k i layer a := by
  intro ha
  obtain ⟨r, hr, -, -⟩ := ha.exists_candidate hs hk
  subst hi
  have hnone : s.candidates k i = [] := best?_eq_none_iff.1 (Option.map_eq_none_iff.1 h)
  rw [hnone] at hr
  cases hr

end Candidates

section Settles

variable (files : FileTree) {s : ReferenceService} {k : Key}

theorem any_isUnder_iff {layers : List Layer} (dir : Layer → Key) :
    (layers.map dir).any k.isUnder ↔ ∃ l ∈ layers, k.isUnder (dir l) := by
  rw [List.any_map, List.any_eq_true]
  rfl

theorem classify_eq (s : ReferenceService) (k : Key) (a : Artifact) :
    s.classify files k a =
      if s.referenceDirs.any k.isUnder then (.analysis a, 0)
      else match s.promotion? k (a.identity.or (Identity.read? files k.path)) with
        | some reference => (.analysis reference, a.identity.isNone.toNat)
        | none =>
          if s.executionOnlyDirs.any k.isUnder then (.dropped, a.identity.isNone.toNat)
          else
            (.analysis {
              key := some k
              role := .both
              documentation := a.documentation.or (ModuleFile.documentation? files k.path)
              identity := a.identity.or (Identity.read? files k.path) },
            a.identity.isNone.toNat + a.documentation.isNone.toNat) := by
  unfold classify
  cases a.identity with
  | none =>
    rw [Option.none_or]
    cases a.documentation with
    | none => rw [Option.none_or]; rfl
    | some d => rfl
  | some i =>
    cases a.documentation with
    | none => rw [Option.none_or]; rfl
    | some d => rfl

theorem settles_classify (hs : s.Registered s.layers) (hk : k.Proper) (a : Artifact) :
    s.Settles files k a (s.classify files k a).1 (s.classify files k a).2 := by
  rw [classify_eq, hs.referenceDirs, hs.executionOnlyDirs]
  split
  next hreference =>
    obtain ⟨l, hl, hunder⟩ := (any_isUnder_iff _).1 hreference
    exact .source hl hunder
  next hreference =>
    have hreference : ∀ l ∈ s.layers, ¬ k.isUnder l.referenceDir := by
      intro l hl hunder
      exact hreference ((any_isUnder_iff _).2 ⟨l, hl, hunder⟩)
    split
    next hpromoted =>
      obtain ⟨i, layer, hi, hr, hbest⟩ := counterpart_of_promotion? hs hk hpromoted
      exact .promoted hreference hi hr hbest
    next hnone =>
      have hnone (i : Identity) (l : Layer) (r : Artifact)
          (hi : a.identity.or (Identity.read? files k.path) = some i) :
          ¬ s.Counterpart k i l r := not_counterpart_of_promotion? hs hk hnone hi
      split
      next hexecution =>
        obtain ⟨l, hl, hunder⟩ := (any_isUnder_iff _).1 hexecution
        exact .dropped hreference hnone hl hunder
      next hexecution =>
        have hexecution : ∀ l ∈ s.layers, ¬ k.isUnder l.executionDir := by
          intro l hl hunder
          exact hexecution ((any_isUnder_iff _).2 ⟨l, hl, hunder⟩)
        exact .synthesized hreference hnone hexecution (documents_documentation? ..)

theorem reconcile_of_new {a : Artifact} (hk : a.key = some k) (hnew : ¬ s.Decided k) :
    s.reconcile files [a] = (.ofList (s.classify files k a).1.artifact?.toList, { s with
      probes := s.probes + (s.classify files k a).2
      cache := s.cache ++ [(k, (s.classify files k a).1)]
      analysis := s.analysis.extend (s.classify files k a).1.artifact?.toList }) := by
  have hfresh : s.cache.lookup k = none := Option.not_isSome_iff_eq_none.1 hnew
  have hone : s.reconcile files [a] =
      (.ofList (s.reconcileOne files a).1.toList, (s.reconcileOne files a).2) := rfl
  rw [hone, reconcileOne_of_new files hk hfresh]

theorem Settles.probes_le {a : Artifact} {outcome : Reconciled} {n : Nat}
    (h : s.Settles files k a outcome n) : n ≤ 2 := by
  have hone (b : Bool) : b.toNat ≤ 1 := Bool.toNat_le b
  have hidentity := hone a.identity.isNone
  have hdocumentation := hone a.documentation.isNone
  cases h with
  | source => omega
  | promoted | dropped => omega
  | synthesized => omega

theorem Settles.probes_of_reference {a : Artifact} {outcome : Reconciled} {n : Nat}
    (h : s.Settles files k a outcome n) (hk : ∃ l ∈ s.layers, k.isUnder l.referenceDir) :
    n = 0 := by
  obtain ⟨l, hl, hunder⟩ := hk
  cases h with
  | source => rfl
  | promoted hreference | dropped hreference | synthesized hreference =>
    exact absurd hunder (hreference l hl)

end Settles

/-- Reconciliation follows its priority. After any run, an artifact with a path that was not decided
settles by the first disposition that applies, with at most two probes and none under a reference
directory; that is what is found for it, one entry of the cache, and all that analysis gains. -/
theorem reconciliation_follows_priority (run : List ServiceCall) (files : FileTree) (a : Artifact)
    (p : Path) (hkey : a.key = some (.ofPath p)) (hnew : ¬ (empty.after run).Decided (.ofPath p)) :
    let s := empty.after run
    ∃ outcome probes, s.Settles files (.ofPath p) a outcome probes ∧ probes ≤ 2 ∧
      ((∃ l ∈ s.layers, (Key.ofPath p).isUnder l.referenceDir) → probes = 0) ∧
      s.reconcile files [a] = (.ofList outcome.artifact?.toList, { s with
        probes := s.probes + probes
        cache := s.cache ++ [(.ofPath p, outcome)]
        analysis := s.analysis.extend outcome.artifact?.toList }) := by
  intro s
  have hsettles := settles_classify files (registered_after run) (Key.proper_ofPath p) a
  refine ⟨_, _, hsettles, hsettles.probes_le, hsettles.probes_of_reference, ?_⟩
  exact reconcile_of_new files hkey hnew

/-- A native image in the execution directory of a framework is settled by the reference module that
its name leads to without the infix. -/
theorem priority_of_native_image :
    let files := Host.small.files
    let run : List ServiceCall := [⟨files, .load .base ⟨[⟨"/s"⟩], none⟩⟩]
    let native := { Artifact.ofFile ⟨"/s/shared/Kiln.Core/1.0/A.NI.dll"⟩ .executionOnly with
      identity := some ⟨"A", "1.0"⟩ }
    let s := empty.after run
    (s.reconcile files [native]).1.paths = [.ofPath ⟨"/s/packs/Kiln.Core.Ref/1.0/ref/a.dll"⟩] ∧
      ∃ outcome probes, s.Settles files (.ofPath ⟨"/s/shared/Kiln.Core/1.0/A.NI.dll"⟩) native
        outcome probes ∧ probes ≤ 2 := by
  intro files run native s
  have hnew : ¬ s.Decided (.ofPath ⟨"/s/shared/Kiln.Core/1.0/A.NI.dll"⟩) := by
    unfold Decided
    decide +kernel
  obtain ⟨outcome, probes, hsettles, hprobes, -⟩ :=
    reconciliation_follows_priority run files native _ rfl hnew
  exact ⟨by decide +kernel, outcome, probes, hsettles, hprobes⟩

end ReferenceService
end ScriptSession
