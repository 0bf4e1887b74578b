import ScriptSession.Proofs.Listing

namespace ScriptSession.Framework

variable {files : FileTree} {request : FrameworkRequest} {paths : SearchPaths}

theorem readLayer_ne_notFound {name : String} {depth : Nat} {site : Site} {text : String}
    {tried : List Path} :
    readLayer files name depth site ≠ .error (.frameworkNotFound text tried) := by
  have hmodules (dir : Path) (role : Role) :
      modulesIn files dir role ≠ .error (.frameworkNotFound text tried) := by
    intro h
    obtain h | ⟨_, -, h⟩ := Except.bind_eq_error_iff.1 h
    · cases hlist : files.list dir with
      | error e => rw [hlist] at h; cases h
      | ok children => rw [hlist] at h; cases h
    · cases h
  intro h
  obtain h | ⟨_, -, h⟩ := Except.bind_eq_error_iff.1 h
  · exact hmodules _ _ h
  · obtain h | ⟨_, -, h⟩ := Except.bind_eq_error_iff.1 h
    · exact hmodules _ _ h
    · cases h

/-- Whether a layer is the first that the layouts of a request hold. -/
def Found (files : FileTree) (request : FrameworkRequest) (paths : SearchPaths) (depth : Nat)
    (layer : Layer) : Prop :=
  ∃ site, IsFirst files request site (Layout.all request paths) ∧
    site.Makes files request.name depth layer

/-- What a request is answered by: the base framework alone, or another one above a base with its
major and minor numbers. -/
inductive Layered (files : FileTree) (request : FrameworkRequest) (paths : SearchPaths) :
    List Layer → Prop
  | base {layer : Layer} (h : request.isBase) (hlayer : Found files request paths 0 layer) :
      Layered files request paths [layer]
  | above {layer base : Layer} (h : ¬ request.isBase) (hlayer : Found files request paths 1 layer)
      (hbase : Found files ⟨FrameworkRequest.baseName, some layer.version⟩ paths 0 base) :
      Layered files request paths [layer, base]

/-- What is looked for when a request is answered: what it asks for, and a base with the major and
minor numbers of what was found. -/
inductive Sought (files : FileTree) (request : FrameworkRequest) (paths : SearchPaths) :
    FrameworkRequest → Prop
  | request : Sought files request paths request
  | base {site : Site} (h : ¬ request.isBase)
      (hsite : IsFirst files request site (Layout.all request paths)) :
      Sought files request paths
        ⟨FrameworkRequest.baseName, Version.parse? site.version.majorMinor⟩

theorem isFirst_majorMinor {site site' : Site} {layouts layouts' : List Layout}
    (h : IsFirst files request site layouts) {name : String} :
    IsFirst files ⟨name, Version.parse? site.version.majorMinor⟩ site' layouts' ↔
      IsFirst files ⟨name, some site.version⟩ site' layouts' := by
  obtain ⟨_, _, _, -, hholds, -⟩ := h
  obtain ⟨_, -, hread⟩ := hholds.latest.1.1
  have hiff (l : Layout) (site' : Site) :
      l.Holds files ⟨name, Version.parse? site.version.majorMinor⟩ site' ↔
        l.Holds files ⟨name, some site.version⟩ site' :=
    ⟨fun h => { h with latest := (Version.isLatest_majorMinor hread).1 h.latest },
      fun h => { h with latest := (Version.isLatest_majorMinor hread).2 h.latest }⟩
  simp only [IsFirst, hiff]

theorem discoverBase_eq_ok_iff {site : Site} {layouts : List Layout}
    (h : IsFirst files request site layouts) {base : Layer} :
    discoverBase files (Version.parse? site.version.majorMinor) paths = .ok base ↔
      Found files ⟨FrameworkRequest.baseName, some site.version⟩ paths 0 base := by
  refine Except.bind_eq_ok_iff.trans (exists_congr fun site' => and_congr ?_ readLayer_eq_ok_iff)
  exact locate_eq_ok_iff.trans (isFirst_majorMinor h)

theorem discover_eq_ok_iff {layers : List Layer} :
    discover files request paths = .ok layers ↔ Layered files request paths layers := by
  constructor
  · intro h
    obtain ⟨site, hsite, h⟩ := Except.bind_eq_ok_iff.1 h
    have hfirst := locate_eq_ok_iff.1 hsite
    split at h
    next hbase =>
      obtain ⟨layer, hlayer, h⟩ := Except.bind_eq_ok_iff.1 h
      cases h
      exact .base hbase ⟨site, hfirst, readLayer_eq_ok_iff.1 hlayer⟩
    next hbase =>
      obtain ⟨base, hfound, h⟩ := Except.bind_eq_ok_iff.1 h
      obtain ⟨layer, hlayer, h⟩ := Except.bind_eq_ok_iff.1 h
      cases h
      have hmakes := readLayer_eq_ok_iff.1 hlayer
      refine .above hbase ⟨site, hfirst, hmakes⟩ ?_
      rw [hmakes.version]
      exact (discoverBase_eq_ok_iff hfirst).1 hfound
  · rintro (⟨hbase, site, hfirst, hmakes⟩ | ⟨hbase, ⟨site, hfirst, hmakes⟩, hfound⟩)
    · refine Except.bind_eq_ok_iff.2 ⟨site, locate_eq_ok_iff.2 hfirst, ?_⟩
      rw [if_pos hbase]
      exact Except.bind_eq_ok_iff.2 ⟨_, readLayer_eq_ok_iff.2 hmakes, rfl⟩
    · refine Except.bind_eq_ok_iff.2 ⟨site, locate_eq_ok_iff.2 hfirst, ?_⟩
      rw [hmakes.version] at hfound
      rw [if_neg hbase]
      exact Except.bind_eq_ok_iff.2 ⟨_, (discoverBase_eq_ok_iff hfirst).2 hfound,
        Except.bind_eq_ok_iff.2 ⟨_, readLayer_eq_ok_iff.2 hmakes, rfl⟩⟩

theorem tried_of_discover {text : String} {tried : List Path}
    (h : discover files request paths = .error (.frameworkNotFound text tried)) :
    ∃ sought, Sought files request paths sought ∧ Absent files sought paths ∧
      text = sought.display ∧ ∀ l ∈ Layout.all sought paths, l.executionParent ∈ tried := by
  obtain h | ⟨site, hsite, h⟩ := Except.bind_eq_error_iff.1 h
  · exact ⟨request, .request, tried_of_locate h⟩
  split at h
  · obtain h | ⟨_, -, h⟩ := Except.bind_eq_error_iff.1 h
    · exact absurd h readLayer_ne_notFound
    · cases h
  next hbase =>
    obtain h | ⟨base, -, h⟩ := Except.bind_eq_error_iff.1 h
    · obtain h | ⟨_, -, h⟩ := Except.bind_eq_error_iff.1 h
      · exact ⟨_, .base hbase (locate_eq_ok_iff.1 hsite), tried_of_locate h⟩
      · exact absurd h readLayer_ne_notFound
    · obtain h | ⟨_, -, h⟩ := Except.bind_eq_error_iff.1 h
      · exact absurd h readLayer_ne_notFound
      · cases h

theorem exists_notFound_of_discover {sought : FrameworkRequest}
    (h : Sought files request paths sought) (habsent : Absent files sought paths) :
    ∃ tried, discover files request paths = .error (.frameworkNotFound sought.display tried) := by
  obtain ⟨tried, htried⟩ := habsent.locate_eq
  refine ⟨tried, Except.bind_eq_error_iff.2 ?_⟩
  cases h with
  | request => exact .inl htried
  | @base site hbase hfirst =>
    refine .inr ⟨site, locate_eq_ok_iff.2 hfirst, ?_⟩
    rw [if_neg hbase]
    exact Except.bind_eq_error_iff.2 (.inl (Except.bind_eq_error_iff.2 (.inl htried)))

theorem locate_reorders {files' : FileTree} (h : files.Reorders files') (hw : files.WellFormed) :
    locate files request paths = locate files' request paths := by
  have hselect (dir : Path) (requested : Option Version) :
      Version.select? (versionNames files dir) requested =
        Version.select? (versionNames files' dir) requested :=
    Version.select?_perm (versionNames_perm h hw dir)
  have hpair : locatePair files = locatePair files' := by
    funext request executionParent referenceParent
    unfold locatePair
    simp only [hselect, h.isDir hw]
  unfold locate locateInRoot locateInCache
  rw [hpair, h.isDir hw]

theorem discover_reorders {files' : FileTree} (h : files.Reorders files') (hw : files.WellFormed) :
    discover files request paths = discover files' request paths := by
  have hread : readLayer files = readLayer files' := by
    funext name depth site
    unfold readLayer
    simp only [modulesIn_reorders h hw]
  unfold discover discoverBase
  simp only [locate_reorders h hw, hread]

/-- Discovery does not depend on the order in which directories list their entries. It finds what is
layered and nothing else, and where a framework is looked for that no layout holds, it has tried
every one. -/
theorem discovery_is_layered (files : FileTree) (request : FrameworkRequest)
    (paths : SearchPaths) :
    (∀ files', files.WellFormed → files.Reorders files' →
      discover files request paths = discover files' request paths) ∧
    (∀ layers, discover files request paths = .ok layers ↔ Layered files request paths layers) ∧
    (∀ text tried, discover files request paths = .error (.frameworkNotFound text tried) →
      ∃ sought, Sought files request paths sought ∧ Absent files sought paths ∧
        text = sought.display ∧ ∀ l ∈ Layout.all sought paths, l.executionParent ∈ tried) ∧
    ∀ sought, Sought files request paths sought → Absent files sought paths →
      ∃ tried, discover files request paths = .error (.frameworkNotFound sought.display tried) :=
  ⟨fun _ hw h => discover_reorders h hw, fun _ => discover_eq_ok_iff, fun _ _ => tried_of_discover,
    fun _ => exists_notFound_of_discover⟩

/-- Below the first root no reference version fits. Below the second one `6.0.10` comes after
`6.0.2`, whatever is listed first; a framework that neither has is looked for below both. -/
theorem layered_below_second_root :
    let files : FileTree := ⟨[], [["q"], ["q", "shared"], ["q", "shared", "App"],
      ["q", "shared", "App", "6.0.11"], ["r"], ["r", "shared"], ["r", "packs"],
      ["r", "shared", "App"], ["r", "shared", "App", "6.0.10"], ["r", "shared", "App", "6.0.2"],
      ["r", "packs", "App.Ref"], ["r", "packs", "App.Ref", "6.0"],
      ["r", "packs", "App.Ref", "6.0", "ref"],
      ["r", "shared", "Kiln.Core"], ["r", "shared", "Kiln.Core", "6.0.1"],
      ["r", "packs", "Kiln.Core.Ref"], ["r", "packs", "Kiln.Core.Ref", "6.0"],
      ["r", "packs", "Kiln.Core.Ref", "6.0", "ref"]].map (·, .dir)⟩
    let reversed : FileTree := ⟨[], files.entries.reverse⟩
    let paths : SearchPaths := ⟨[⟨"/q"⟩, ⟨"/r"⟩], none⟩
    let request : FrameworkRequest := ⟨"App", Version.parse? "6.0"⟩
    let gone : FrameworkRequest := ⟨"Gone", none⟩
    files.WellFormed ∧ files.Reorders reversed ∧
      discover files request paths = discover reversed request paths ∧
      (∃ layers, discover files request paths = .ok layers ∧
        layers.map (·.version.text) = ["6.0.10", "6.0.1"] ∧ Layered files request paths layers) ∧
      ∃ text tried, discover files gone paths = .error (.frameworkNotFound text tried) ∧
        ∃ sought, Sought files gone paths sought ∧ Absent files sought paths ∧
          text = sought.display ∧ ∀ l ∈ Layout.all sought paths, l.executionParent ∈ tried := by
  intro files reversed paths request gone
  have hfiles : files.WellFormed := ⟨by decide +kernel, by decide +kernel⟩
  have hreversed : files.Reorders reversed := ⟨rfl, (List.reverse_perm _).symm⟩
  have hversions : (discover files request paths).toOption.map (·.map (·.version.text)) =
      some ["6.0.10", "6.0.1"] := by decide +kernel
  have htried : (match discover files gone paths with
      | .error e => some e
      | .ok _ => none) =
      some (.frameworkNotFound "Gone" [⟨"/q/shared/Gone"⟩, ⟨"/r/shared/Gone"⟩]) := by
    decide +kernel
  refine ⟨hfiles, hreversed, (discovery_is_layered files request paths).1 _ hfiles hreversed,
    ?_, ?_⟩
  · cases hlayers : discover files request paths with
    | error e =>
      rw [hlayers] at hversions
      cases hversions
    | ok layers =>
      rw [hlayers] at hversions
      exact ⟨layers, rfl, Option.some.inj hversions,
        ((discovery_is_layered files request paths).2.1 layers).1 hlayers⟩
  · cases hgone : discover files gone paths with
    | ok layers =>
      rw [hgone] at htried
      cases htried
    | error e =>
      rw [hgone] at htried
      cases htried
      exact ⟨_, _, rfl, (discovery_is_layered files gone paths).2.2.1 _ _ hgone⟩

end ScriptSession.Framework
