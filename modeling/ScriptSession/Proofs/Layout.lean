import Mathlib.Data.List.Forall2
import ScriptSession.Framework.Discovery
import ScriptSession.Proofs.Outcome
import ScriptSession.Proofs.Version

namespace ScriptSession.Framework

variable {files : FileTree} {request : FrameworkRequest} {paths : SearchPaths}

/-- Where one root keeps a framework: the directories above its versions, and whether the execution
modules of a version stand in a directory of their own. -/
structure Layout where
  executionParent : Path
  referenceParent : Path
  inLib : Bool

namespace Layout

def ofRoot (request : FrameworkRequest) (root : Path) : Layout :=
  ⟨root / "shared" / request.name, root / "packs" / s!"{request.name}.Ref", false⟩

def ofCache (request : FrameworkRequest) (cache : Path) : Layout :=
  let lower := Text.lower request.name
  ⟨cache / s!"{lower}.runtime", cache / s!"{lower}.ref", true⟩

def all (request : FrameworkRequest) (paths : SearchPaths) : List Layout :=
  paths.installRoots.map (ofRoot request) ++ paths.packageCache.toList.map (ofCache request)

def executionDir (l : Layout) (version : Version) : Path :=
  let versionDir := l.executionParent / version.text
  if l.inLib then versionDir / "lib" else versionDir

/-- Whether a layout holds a usable pair for a request, which makes this site. -/
structure Holds (l : Layout) (files : FileTree) (request : FrameworkRequest) (site : Site) :
    Prop where
  latest : Version.IsLatest (versionNames files l.executionParent) request.version site.version
  reference : ∃ reference,
    Version.IsLatest (versionNames files l.referenceParent) (some site.version) reference ∧
      site.referenceDir = l.referenceParent / reference.text / "ref"
  executionDir : site.executionDir = l.executionDir site.version
  isDir_reference : files.isDir site.referenceDir
  isDir_lib : l.inLib → files.isDir site.executionDir

theorem Holds.eq_site {l : Layout} {site : Site} (h : l.Holds files request site)
    {version reference : Version}
    (hversion : Version.IsLatest (versionNames files l.executionParent) request.version version)
    (hreference : Version.IsLatest (versionNames files l.referenceParent) (some version)
      reference) :
    site = ⟨l.executionDir version, l.referenceParent / reference.text / "ref", version⟩ := by
  obtain ⟨executionDir, referenceDir, version'⟩ := site
  obtain rfl := h.latest.unique hversion
  obtain ⟨reference', hreference', hdir⟩ := h.reference
  obtain rfl := hreference'.unique hreference
  rw [Site.mk.injEq]
  exact ⟨h.executionDir, hdir, rfl⟩

theorem Holds.unique {l : Layout} {site other : Site} (h : l.Holds files request site)
    (hother : l.Holds files request other) : site = other := by
  obtain ⟨reference, hreference, -⟩ := h.reference
  rw [h.eq_site h.latest hreference, hother.eq_site h.latest hreference]

/-- Whether a search gives what a layout holds and names the directory that it starts at. -/
structure Answers (l : Layout) (files : FileTree) (request : FrameworkRequest)
    (search : List Path × Option Site) : Prop where
  site : ∀ site, search.2 = some site ↔ l.Holds files request site
  tried : l.executionParent ∈ search.1

end Layout

theorem locatePair_answers (files : FileTree) (request : FrameworkRequest)
    (executionParent referenceParent : Path) :
    (Layout.mk executionParent referenceParent false).Answers files request
      (locatePair files request executionParent referenceParent) := by
  unfold locatePair
  cases hv : Version.select? (versionNames files executionParent) request.version with
  | none =>
    refine ⟨fun site => ⟨nofun, fun h => ?_⟩, List.mem_singleton_self _⟩
    exact absurd h.latest.1 (Version.select?_eq_none_iff.1 hv _)
  | some version =>
    obtain ⟨_, -, hread⟩ := Version.exists_of_select? hv
    have hlatest := Version.select?_eq_some_iff.1 hv
    dsimp only
    rw [Version.select?_majorMinor hread]
    cases hr : Version.select? (versionNames files referenceParent) (some version) with
    | none =>
      refine ⟨fun site => ⟨nofun, fun h => ?_⟩, List.mem_cons_self⟩
      obtain ⟨reference, hreference, -⟩ := h.reference
      rw [h.latest.unique hlatest] at hreference
      exact absurd hreference.1 (Version.select?_eq_none_iff.1 hr _)
    | some reference =>
      dsimp only
      have hreference := Version.select?_eq_some_iff.1 hr
      have hsite {site : Site} (h : (Layout.mk executionParent referenceParent false).Holds files
          request site) : site = ⟨executionParent / version.text,
            referenceParent / reference.text / "ref", version⟩ :=
        h.eq_site hlatest hreference
      split
      next hdir =>
        refine ⟨fun site => ⟨fun h => ?_, fun h => congrArg some (hsite h).symm⟩,
          List.mem_cons_self⟩
        cases h
        exact ⟨hlatest, ⟨reference, hreference, rfl⟩, rfl, hdir, nofun⟩
      next hdir =>
        refine ⟨fun site => ⟨nofun, fun h => ?_⟩, List.mem_cons_self⟩
        have hisDir := h.isDir_reference
        rw [hsite h] at hisDir
        exact absurd hisDir hdir

theorem locateInRoot_answers (files : FileTree) (request : FrameworkRequest) (root : Path) :
    (Layout.ofRoot request root).Answers files request (locateInRoot files request root) :=
  locatePair_answers files request _ _

theorem Layout.holds_lib_iff {executionParent referenceParent : Path} {site : Site} :
    (Layout.mk executionParent referenceParent true).Holds files request site ↔
      ∃ found, (Layout.mk executionParent referenceParent false).Holds files request found ∧
        files.isDir (found.executionDir / "lib") ∧
        { found with executionDir := found.executionDir / "lib" } = site := by
  constructor
  · intro h
    refine ⟨{ site with executionDir := executionParent / site.version.text },
      ⟨h.latest, h.reference, rfl, h.isDir_reference, nofun⟩, ?_, ?_⟩
    · have hlib := h.isDir_lib rfl
      rwa [h.executionDir] at hlib
    · obtain ⟨executionDir, referenceDir, version⟩ := site
      rw [Site.mk.injEq]
      exact ⟨h.executionDir.symm, rfl, rfl⟩
  · rintro ⟨found, h, hlib, rfl⟩
    exact ⟨h.latest, h.reference, congrArg (· / "lib") h.executionDir, h.isDir_reference,
      fun _ => hlib⟩

theorem locateInCache_answers (files : FileTree) (request : FrameworkRequest) (cache : Path) :
    (Layout.ofCache request cache).Answers files request (locateInCache files request cache) := by
  have hpair := locatePair_answers files request
    (cache / s!"{Text.lower request.name}.runtime") (cache / s!"{Text.lower request.name}.ref")
  unfold locateInCache
  dsimp only
  generalize locatePair files request _ _ = pair at hpair ⊢
  obtain ⟨tried, found?⟩ := pair
  cases found? with
  | none =>
    refine ⟨fun site => ⟨nofun, fun h => ?_⟩, hpair.tried⟩
    obtain ⟨found, hfound, -⟩ := Layout.holds_lib_iff.1 h
    cases (hpair.site found).2 hfound
  | some found =>
    have hholds := (hpair.site found).1 rfl
    have hsite {site : Site} (h : (Layout.ofCache request cache).Holds files request site) :
        files.isDir (found.executionDir / "lib") ∧
          { found with executionDir := found.executionDir / "lib" } = site := by
      obtain ⟨found', hfound', hlib⟩ := Layout.holds_lib_iff.1 h
      cases (hpair.site found').2 hfound'
      exact hlib
    dsimp only
    split
    next hlib =>
      refine ⟨fun site => ⟨fun h => ?_, fun h => congrArg some (hsite h).2⟩, hpair.tried⟩
      exact Layout.holds_lib_iff.2 ⟨found, hholds, hlib, Option.some.inj h⟩
    next hlib =>
      exact ⟨fun site => ⟨nofun, fun h => absurd (hsite h).1 hlib⟩,
        List.mem_append_left _ hpair.tried⟩

/-- Whether a site is what the first layout with a usable pair holds. -/
def IsFirst (files : FileTree) (request : FrameworkRequest) (site : Site) (layouts : List Layout) :
    Prop :=
  ∃ before l after, layouts = before ++ l :: after ∧ l.Holds files request site ∧
    ∀ earlier ∈ before, ∀ other, ¬ earlier.Holds files request other

theorem IsFirst.exists_holds {site : Site} {layouts : List Layout}
    (h : IsFirst files request site layouts) : ∃ l ∈ layouts, l.Holds files request site := by
  obtain ⟨before, l, after, rfl, hholds, -⟩ := h
  exact ⟨l, List.mem_append_right _ List.mem_cons_self, hholds⟩

theorem IsFirst.unique {site other : Site} {layouts : List Layout}
    (h : IsFirst files request site layouts) (hother : IsFirst files request other layouts) :
    site = other := by
  obtain ⟨before, l, after, hsplit, hl, hbefore⟩ := h
  obtain ⟨before', l', after', hsplit', hl', hbefore'⟩ := hother
  -- a layout that stood before the other would hold nothing
  obtain ⟨middle, rfl, hrest⟩ | ⟨middle, rfl, hrest⟩ :=
    List.append_eq_append_iff.1 (hsplit.symm.trans hsplit')
  all_goals obtain _ | ⟨first, middle⟩ := middle
  · cases hrest
    exact hl.unique hl'
  · cases hrest
    exact absurd hl (hbefore' l (by simp) site)
  · cases hrest
    exact hl.unique hl'
  · cases hrest
    exact absurd hl' (hbefore l' (by simp) other)

theorem firstSite_cases {layouts : List Layout} {searches : List (List Path × Option Site)}
    (h : List.Forall₂ (Layout.Answers · files request ·) layouts searches) (tried : List Path) :
    (∃ site, firstSite tried searches = .ok site ∧ IsFirst files request site layouts) ∨
      ∃ places, firstSite tried searches = .error places ∧ tried ⊆ places ∧
        ∀ l ∈ layouts, l.executionParent ∈ places ∧ ∀ site, ¬ l.Holds files request site := by
  induction h generalizing tried with
  | nil => exact .inr ⟨tried, rfl, fun _ h => h, List.forall_mem_nil _⟩
  | @cons l search layouts searches hanswers hrest ih =>
    obtain ⟨more, _ | site⟩ := search
    · have hempty (site : Site) : ¬ l.Holds files request site :=
        fun h => nomatch (hanswers.site site).2 h
      obtain ⟨site, hsite, before, l', after, rfl, hholds, hbefore⟩ |
        ⟨places, hplaces, hsub, hall⟩ := ih (tried ++ more)
      · exact .inl ⟨site, hsite, l :: before, l', after, rfl, hholds,
          List.forall_mem_cons.2 ⟨hempty, hbefore⟩⟩
      · refine .inr ⟨places, hplaces, fun p hp => hsub (List.mem_append_left _ hp), ?_⟩
        exact List.forall_mem_cons.2
          ⟨⟨hsub (List.mem_append_right _ hanswers.tried), hempty⟩, hall⟩
    · exact .inl ⟨site, rfl, [], l, layouts, rfl, (hanswers.site site).1 rfl,
        List.forall_mem_nil _⟩

def Absent (files : FileTree) (request : FrameworkRequest) (paths : SearchPaths) : Prop :=
  ∀ l ∈ Layout.all request paths, ∀ site, ¬ l.Holds files request site

theorem IsFirst.not_absent {site : Site}
    (h : IsFirst files request site (Layout.all request paths)) : ¬ Absent files request paths :=
  fun habsent =>
    let ⟨l, hl, hholds⟩ := h.exists_holds
    habsent l hl site hholds

/-- A framework is located in the first layout that holds it, or every layout was tried. -/
theorem locate_cases (files : FileTree) (request : FrameworkRequest) (paths : SearchPaths) :
    (∃ site, locate files request paths = .ok site ∧
      IsFirst files request site (Layout.all request paths)) ∨
    ∃ tried, locate files request paths = .error (.frameworkNotFound request.display tried) ∧
      Absent files request paths ∧
        ∀ l ∈ Layout.all request paths, l.executionParent ∈ tried := by
  have hanswers : List.Forall₂ (Layout.Answers · files request ·) (Layout.all request paths)
      (paths.installRoots.map (locateInRoot files request) ++
        paths.packageCache.toList.map (locateInCache files request)) := by
    refine List.rel_append ?_ ?_
    · rw [List.forall₂_map_left_iff, List.forall₂_map_right_iff]
      exact List.forall₂_same.2 fun root _ => locateInRoot_answers files request root
    · rw [List.forall₂_map_left_iff, List.forall₂_map_right_iff]
      exact List.forall₂_same.2 fun cache _ => locateInCache_answers files request cache
  unfold locate
  obtain ⟨site, hsite, hfirst⟩ | ⟨tried, htried, -, hall⟩ := firstSite_cases hanswers []
  · rw [hsite]
    exact .inl ⟨site, rfl, hfirst⟩
  · rw [htried]
    exact .inr ⟨tried, rfl, fun l hl => (hall l hl).2, fun l hl => (hall l hl).1⟩

theorem locate_eq_ok_iff {site : Site} :
    locate files request paths = .ok site ↔
      IsFirst files request site (Layout.all request paths) := by
  obtain ⟨site', hsite, hfirst⟩ | ⟨tried, htried, habsent, -⟩ := locate_cases files request paths
  · rw [hsite, Except.ok.injEq]
    exact ⟨fun h => h ▸ hfirst, hfirst.unique⟩
  · rw [htried]
    exact ⟨nofun, fun h => absurd habsent h.not_absent⟩

theorem tried_of_locate {text : String} {tried : List Path}
    (h : locate files request paths = .error (.frameworkNotFound text tried)) :
    Absent files request paths ∧ text = request.display ∧
      ∀ l ∈ Layout.all request paths, l.executionParent ∈ tried := by
  obtain ⟨_, hsite, -⟩ | ⟨_, htried, habsent, hall⟩ := locate_cases files request paths
  · cases h.symm.trans hsite
  · cases h.symm.trans htried
    exact ⟨habsent, rfl, hall⟩

theorem Absent.locate_eq (h : Absent files request paths) :
    ∃ tried, locate files request paths = .error (.frameworkNotFound request.display tried) := by
  obtain ⟨_, -, hfirst⟩ | ⟨tried, htried, -⟩ := locate_cases files request paths
  · exact absurd h hfirst.not_absent
  · exact ⟨tried, htried⟩

end ScriptSession.Framework
