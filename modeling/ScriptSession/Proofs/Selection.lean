import ScriptSession.Proofs.Closure
import ScriptSession.Proofs.Discovery
import ScriptSession.Proofs.Route
import ScriptSession.Proofs.Trim

namespace ScriptSession

theorem Path.text_div_ne {p : Path} (hp : p.text ≠ "") (s : String) : (p / s).text ≠ "" := by
  change (p.join ⟨s⟩).text ≠ ""
  unfold join
  split
  next habs =>
    rintro rfl
    cases habs
  next => split <;> simp [hp]

namespace FileTree

variable {t : FileTree} {p : Path} {s : String} {names : List String}

theorem follow_empty_bind (t : FileTree) (loc : Location) (s : String) :
    (t.follow loc "" >>= (t.follow · s)) = t.follow loc s := by
  unfold follow
  by_cases hdir : t.isDirAt loc
  · rw [if_pos hdir, if_pos (.inl rfl)]
    change (if t.isDirAt loc then _ else _) = _
    rw [if_pos hdir]
  · rw [if_neg hdir, if_neg hdir]
    rfl

theorem locate_div (hp : p.text ≠ "") (hs : '/' ∉ s.toList) :
    t.locate (p / s) = (t.locate p >>= (t.follow · s)) := by
  have hrelative : (⟨s⟩ : Path).isAbsolute = false := Path.relative_of_slash hs
  obtain ⟨front, hjoin, hfront⟩ := Path.toList_join hrelative hp
  have htext : (p / s).text.toList = front ++ '/' :: s.toList := hjoin
  have hne : (p / s).text ≠ "" := by
    intro he
    rw [he] at htext
    exact List.cons_ne_nil _ _ (List.append_eq_nil_iff.1 htext.symm).2
  have hparts : (p / s).text.toList.splitOn '/' = front.splitOn '/' ++ [s.toList] := by
    rw [htext, List.splitOn_append_cons_self, List.splitOn_eq_singleton hs]
  rw [locate, if_neg hne, hparts, List.map_append, List.foldlM_append, locate, if_neg hp]
  obtain ⟨hwhole, hfront⟩ | hslash := hfront
  · have habs : (p / s).isAbsolute = p.isAbsolute := by
      unfold Path.isAbsolute
      rw [htext, hwhole, List.head?_append_of_ne_nil _ hfront]
    rw [habs, hwhole]
    simp
  · have habs : (p / s).isAbsolute = p.isAbsolute := by
      unfold Path.isAbsolute
      rw [htext, hslash]
      cases front <;> rfl
    have hparts' : p.text.toList.splitOn '/' = front.splitOn '/' ++ [[]] := by
      rw [hslash, List.splitOn_append_cons_self, List.splitOn_nil]
    rw [habs, hparts', List.map_append, List.foldlM_append, bind_assoc]
    -- a separator at the end asks for a directory, as every further step does
    simp [follow_empty_bind]

theorem isDir_iff : t.isDir p ↔ ∃ loc, t.locate p = .ok loc ∧ t.node? loc = some .dir := by
  unfold isDir find
  cases t.locate p with
  | error e => simp [bind, Except.bind]
  | ok loc =>
    cases hnode : t.node? loc with
    | none => simp [bind, Except.bind, hnode]
    | some node => cases node <;> simp [bind, Except.bind, hnode, pure, Except.pure]

theorem isDirAt_iff {loc : Location} : t.isDirAt loc ↔ t.node? loc = some .dir := by
  unfold isDirAt
  split
  next h => simp [h]
  next h => simpa using h

theorem mem_childrenAt {loc : Location} {name : String} {node : Node} :
    (name, node) ∈ t.childrenAt loc ↔ (loc ++ [name], node) ∈ t.entries := by
  unfold childrenAt
  rw [List.mem_filterMap]
  constructor
  · rintro ⟨⟨place, n⟩, hentry, hname⟩
    cases hlast : place.getLast? with
    | none => simp [hlast] at hname
    | some last =>
      simp only [hlast, Option.ite_none_right_eq_some, Option.some.injEq, Prod.mk.injEq] at hname
      obtain ⟨rfl, rfl, rfl⟩ := hname
      rwa [List.dropLast_append_getLast? _ hlast]
  · intro hentry
    refine ⟨_, hentry, ?_⟩
    simp

theorem WellFormed.node?_eq_some_iff (h : t.WellFormed) {loc : Location} (hne : loc ≠ [])
    {node : Node} : t.node? loc = some node ↔ (loc, node) ∈ t.entries := by
  rw [node?, if_neg hne, lookup_eq_some_iff_mem h.nodup]

theorem WellFormed.mem_listDirs_iff (h : t.WellFormed) (hs : Path.IsName s)
    (hnames : t.listDirs p = .ok names) : s ∈ names ↔ t.isDir (p / s) := by
  obtain ⟨children, hlist, hnames⟩ := Except.bind_eq_ok_iff.1 hnames
  have hp : p.text ≠ "" := text_ne_of_list hlist
  obtain ⟨loc, hloc, hchildren⟩ := Except.bind_eq_ok_iff.1 hlist
  split at hchildren
  next hdir =>
    cases hchildren
    cases hnames
    have hnode : t.node? (loc ++ [s]) = some .dir ↔ (loc ++ [s], .dir) ∈ t.entries :=
      h.node?_eq_some_iff (List.append_ne_nil_of_right_ne_nil _ (List.cons_ne_nil _ _))
    have hlocate : t.locate (p / s) = t.follow loc s := by
      rw [locate_div hp hs.1, hloc]
      rfl
    rw [isDir_iff, hlocate]
    constructor
    · intro hm
      obtain ⟨⟨name, node⟩, hchild, hname⟩ := List.mem_filterMap.1 hm
      cases node with
      | dir =>
        cases hname
        have hfound := hnode.2 (mem_childrenAt.1 hchild)
        exact ⟨_, follow_name hs hdir (Option.isSome_iff_exists.2 ⟨_, hfound⟩), hfound⟩
      | file => cases hname
    · rintro ⟨loc', hfollow, hdir'⟩
      have hpart : Component.ofPart? s.toList = some (.name s) := hs.ofPart?
      rw [← String.ofList_toList (s := s)] at hfollow
      obtain ⟨-, rfl, -⟩ := follow_eq_ok hfollow
      rw [hpart] at hdir'
      exact List.mem_filterMap.2 ⟨(s, .dir), mem_childrenAt.2 (hnode.1 hdir'), rfl⟩
  next => cases hchildren

theorem isDir_of_isDir_div (hp : p.text ≠ "") (hs : Path.IsName s) (h : t.isDir (p / s)) :
    t.isDir p := by
  obtain ⟨loc', hlocate, -⟩ := isDir_iff.1 h
  rw [locate_div hp hs.1] at hlocate
  obtain ⟨loc, hloc, hfollow⟩ := Except.bind_eq_ok_iff.1 hlocate
  rw [← String.ofList_toList (s := s)] at hfollow
  exact isDir_iff.2 ⟨loc, hloc, isDirAt_iff.1 (follow_eq_ok hfollow).1⟩

end FileTree

/-- The text of a version that was selected is one of the names without the blanks around it. -/
theorem Version.exists_trim_of_select? {names : List String} {requested : Option Version}
    {v : Version} (h : select? names requested = some v) :
    ∃ name ∈ names, v.text.toList = Text.trim name.toList :=
  let ⟨name, hname, hread⟩ := exists_of_select? h
  ⟨name, hname, text_of_parse? hread⟩

namespace Framework

variable {files : FileTree} {dir : Path} {requested : Option Version} {v : Version}

/-- Whether the names of a directory that spell versions have no blanks around them. -/
def PlainVersions (files : FileTree) (dir : Path) : Prop :=
  ∀ name ∈ versionNames files dir, (Version.parse? name).isSome → Text.IsTrimmed name.toList

instance (files : FileTree) (dir : Path) : Decidable (PlainVersions files dir) :=
  inferInstanceAs (Decidable (∀ name ∈ versionNames files dir, _ → _))

theorem PlainVersions.text_eq (h : PlainVersions files dir) {name : String}
    (hname : name ∈ versionNames files dir) (hread : Version.parse? name = some v) :
    v.text = name := by
  have htrimmed := h name hname (Option.isSome_iff_exists.2 ⟨v, hread⟩)
  rw [← String.toList_inj, Version.text_of_parse? hread, htrimmed.trim_eq]

theorem PlainVersions.mem_of_isLatest (h : PlainVersions files dir)
    (hlatest : Version.IsLatest (versionNames files dir) requested v) :
    v.text ∈ versionNames files dir := by
  obtain ⟨name, hname, hread⟩ := hlatest.1.1
  rwa [h.text_eq hname hread]

theorem exists_names_of_mem {name : String} (h : name ∈ versionNames files dir) :
    ∃ names, files.listDirs dir = .ok names ∧ versionNames files dir = names := by
  unfold versionNames at h ⊢
  split at h
  next names hnames => exact ⟨names, hnames, rfl⟩
  next => cases h

theorem text_ne_of_mem {name : String} (h : name ∈ versionNames files dir) : dir.text ≠ "" := by
  obtain ⟨names, hnames, -⟩ := exists_names_of_mem h
  obtain ⟨_, hlist, -⟩ := Except.bind_eq_ok_iff.1 hnames
  exact FileTree.text_ne_of_list hlist

/-- The text of the latest version is a listed name exactly if it leads to a directory. -/
theorem isLatest_mem_iff (hfiles : files.WellFormed)
    (h : Version.IsLatest (versionNames files dir) requested v) :
    Path.IsName v.text ∧ (v.text ∈ versionNames files dir ↔ files.isDir (dir / v.text)) := by
  obtain ⟨name, hname, hread⟩ := h.1.1
  obtain ⟨names, hnames, heq⟩ := exists_names_of_mem hname
  rw [heq] at hname ⊢
  obtain ⟨children, hlist, hchildren⟩ := Except.bind_eq_ok_iff.1 hnames
  have hslash : '/' ∉ name.toList := by
    cases hchildren
    obtain ⟨⟨_, node⟩, hchild, hdir⟩ := List.mem_filterMap.1 hname
    cases node with
    | dir =>
      cases hdir
      exact (hfiles.isName_of_list hlist hchild).1
    | file => cases hdir
  have htext : Path.IsName v.text := Version.isName_of_parse? hread hslash
  exact ⟨htext, hfiles.mem_listDirs_iff htext hnames⟩

variable {request : FrameworkRequest} {paths : SearchPaths} {site : Site}

theorem exists_readLayer (hreference : files.isDir site.referenceDir)
    (hexecution : files.isDir site.executionDir) (name : String) (depth : Nat) :
    ∃ layer, readLayer files name depth site = .ok layer := by
  obtain ⟨references, hreferences⟩ := exists_modulesIn hreference .analysisOnly
  obtain ⟨executables, hexecutables⟩ := exists_modulesIn hexecution .executionOnly
  unfold readLayer
  rw [hreferences, hexecutables]
  exact ⟨_, rfl⟩

theorem Layout.Holds.exists_reference {l : Layout} (h : l.Holds files request site)
    (hfiles : files.WellFormed) : ∃ reference ∈ versionNames files l.referenceParent,
      site.referenceDir = l.referenceParent / reference / "ref" := by
  obtain ⟨reference, hlatest, hdir⟩ := h.reference
  obtain ⟨htext, hlisted⟩ := isLatest_mem_iff hfiles hlatest
  have hnonempty : (l.referenceParent / reference.text).text ≠ "" := by
    obtain ⟨name, hname, -⟩ := hlatest.1.1
    exact Path.text_div_ne (text_ne_of_mem hname) _
  have hisDir := h.isDir_reference
  rw [hdir] at hisDir
  have habove := FileTree.isDir_of_isDir_div hnonempty (by decide) hisDir
  exact ⟨reference.text, hlisted.2 habove, hdir⟩

theorem Layout.Holds.isDir_execution {l : Layout} (h : l.Holds files request site)
    (hfiles : files.WellFormed) (hplain : PlainVersions files l.executionParent) :
    files.isDir site.executionDir := by
  cases hlib : l.inLib with
  | true => exact h.isDir_lib hlib
  | false =>
    have hlisted := hplain.mem_of_isLatest h.latest
    rw [h.executionDir, Layout.executionDir, hlib, if_neg Bool.false_ne_true]
    exact (isLatest_mem_iff hfiles h.latest).2.1 hlisted

/-- Where the names of execution versions stand without blanks, a framework is found with all its
directories or not found. -/
theorem tried_of_plainVersions (hfiles : files.WellFormed)
    (hplain : ∀ sought, Sought files request paths sought → ∀ l ∈ Layout.all sought paths,
      PlainVersions files l.executionParent) {e : ResolutionError}
    (h : discover files request paths = .error e) :
    ∃ text tried, e = .frameworkNotFound text tried := by
  have hread {sought : FrameworkRequest} {site : Site} (name : String) (depth : Nat)
      (hsought : Sought files request paths sought)
      (hsite : locate files sought paths = .ok site) :
      ∃ layer, readLayer files name depth site = .ok layer := by
    obtain ⟨l, hl, hholds⟩ := (locate_eq_ok_iff.1 hsite).exists_holds
    exact exists_readLayer hholds.isDir_reference
      (hholds.isDir_execution hfiles (hplain sought hsought l hl)) name depth
  have hlocate {sought : FrameworkRequest} (he : locate files sought paths = .error e) :
      ∃ text tried, e = .frameworkNotFound text tried := by
    obtain ⟨_, hsite, -⟩ | ⟨tried, htried, -⟩ := locate_cases files sought paths
    · cases he.symm.trans hsite
    · cases he.symm.trans htried
      exact ⟨_, _, rfl⟩
  obtain h | ⟨site, hsite, h⟩ := Except.bind_eq_error_iff.1 h
  · exact hlocate h
  obtain ⟨layer, hlayer⟩ := hread request.name 0 .request hsite
  obtain ⟨layer', hlayer'⟩ := hread request.name 1 .request hsite
  split at h
  · rw [hlayer] at h
    cases h
  next hbase =>
    obtain h | ⟨base, -, h⟩ := Except.bind_eq_error_iff.1 h
    · obtain h | ⟨site', hsite', h⟩ := Except.bind_eq_error_iff.1 h
      · exact hlocate h
      · obtain ⟨_, hbaseLayer⟩ := hread FrameworkRequest.baseName 0
          (.base hbase (locate_eq_ok_iff.1 hsite)) hsite'
        cases h.symm.trans hbaseLayer
    · rw [hlayer'] at h
      cases h

end Framework

namespace Package

variable {files : FileTree} {feed : Path} {spec : PackageSpec}

theorem prefix_of_visit {names seen : List String} {closed : ∀ n ∈ mentioned files, n ∈ names}
    {found artifacts : List Artifact} {pending : List { s : PackageSpec // s.id ∈ names }}
    (h : visit files feed names closed seen found pending = .ok artifacts) :
    found <+: artifacts := by
  fun_induction visit files feed names closed seen found pending with
  | case1 =>
    cases h
    exact List.prefix_rfl
  | case2 _ _ _ _ _ _ ih => exact ih h
  | case3 => cases h
  | case4 => cases h
  | case5 => cases h
  | case6 _ _ _ _ _ _ _ _ _ _ _ _ _ _ ih => exact (List.prefix_append _ _).trans (ih h)

theorem exists_chosen_of_resolve {artifacts : List Artifact}
    (h : resolve files feed spec = .ok artifacts) :
    ∃ version found, Chosen files feed spec version ∧
      modules files (feed / spec.id / version) = .ok found ∧ found <+: artifacts := by
  rw [resolve, visit, if_neg List.not_mem_nil] at h
  dsimp only at h
  split at h
  · cases h
  next version hversion =>
    split at h
    · cases h
    next found hfound =>
      split at h
      · cases h
      · exact ⟨version, found, chosen_of_pickVersion hversion, hfound, prefix_of_visit h⟩

/-- Where no version is asked for and the names of the versions stand without blanks, the modules of
the greatest one come first. -/
theorem prefix_of_greatest (hversion : spec.version = none)
    (hplain : Framework.PlainVersions files (feed / spec.id)) {latest : Version} {name : String}
    (hlatest : Version.IsLatest (Framework.versionNames files (feed / spec.id)) none latest)
    (hname : name ∈ Framework.versionNames files (feed / spec.id))
    (hread : Version.parse? name = some latest) {found artifacts : List Artifact}
    (hfound : modules files (feed / spec.id / name) = .ok found)
    (h : resolve files feed spec = .ok artifacts) : found <+: artifacts := by
  obtain ⟨version, found', hchosen, hmodules, hprefix⟩ := exists_chosen_of_resolve h
  unfold Chosen at hchosen
  rw [hversion] at hchosen
  obtain ⟨latest', hlatest', rfl⟩ := hchosen
  rw [hlatest'.unique hlatest, hplain.text_eq hname hread] at hmodules
  cases hfound.symm.trans hmodules
  exact hprefix

end Package

/-- The text of a version that is selected from the names of directories leads to a directory
exactly if it is one of these names, and where the names stand without blanks it is. So it is for
the execution version of a framework that is located, and without a condition for the reference
version; a framework whose execution versions are named without blanks is found with its modules or
not found, but never in a directory that cannot be read; and what a package of that kind is resolved
to starts with the modules of the greatest version. -/
theorem selected_version_is_listed {files : FileTree} (hfiles : files.WellFormed) :
    (∀ dir requested v,
      Version.select? (Framework.versionNames files dir) requested = some v →
        (∃ name ∈ Framework.versionNames files dir, v.text.toList = Text.trim name.toList) ∧
        (v.text ∈ Framework.versionNames files dir ↔ files.isDir (dir / v.text)) ∧
        (Framework.PlainVersions files dir → v.text ∈ Framework.versionNames files dir)) ∧
    (∀ request executionParent referenceParent site,
      (Framework.locatePair files request executionParent referenceParent).2 = some site →
        site.executionDir = executionParent / site.version.text ∧
        (Framework.PlainVersions files executionParent →
          site.version.text ∈ Framework.versionNames files executionParent) ∧
        ∃ reference ∈ Framework.versionNames files referenceParent,
          site.referenceDir = referenceParent / reference / "ref") ∧
    (∀ request paths, (∀ sought, Framework.Sought files request paths sought →
      ∀ l ∈ Framework.Layout.all sought paths,
        Framework.PlainVersions files l.executionParent) →
      ∀ e, Framework.discover files request paths = .error e →
        ∃ text tried, e = .frameworkNotFound text tried) ∧
    ∀ (feed : Path) (spec : PackageSpec), spec.version = none →
      Framework.PlainVersions files (feed / spec.id) →
      (∀ version, Package.pickVersion files feed (feed / spec.id) spec = .ok version →
        version ∈ Framework.versionNames files (feed / spec.id)) ∧
      ∀ latest name found artifacts,
        Version.IsLatest (Framework.versionNames files (feed / spec.id)) none latest →
        name ∈ Framework.versionNames files (feed / spec.id) →
        Version.parse? name = some latest →
        Package.modules files (feed / spec.id / name) = .ok found →
        Package.resolve files feed spec = .ok artifacts → found <+: artifacts := by
  refine ⟨fun dir requested v hv => ?_,
    fun request executionParent referenceParent site hsite => ?_,
    fun request paths hplain e he => Framework.tried_of_plainVersions hfiles hplain he,
    fun feed spec hversion hplain => ⟨fun version hpick => ?_, ?_⟩⟩
  · have hlatest := Version.isLatest_of_select? hv
    exact ⟨Version.exists_trim_of_select? hv, (Framework.isLatest_mem_iff hfiles hlatest).2,
      fun hplain => hplain.mem_of_isLatest hlatest⟩
  · have hholds := ((Framework.locatePair_answers files request executionParent
      referenceParent).site site).1 hsite
    exact ⟨hholds.executionDir, fun hplain => hplain.mem_of_isLatest hholds.latest,
      hholds.exists_reference hfiles⟩
  · have hchosen := Package.chosen_of_pickVersion hpick
    unfold Package.Chosen at hchosen
    rw [hversion] at hchosen
    obtain ⟨latest, hlatest, rfl⟩ := hchosen
    exact hplain.mem_of_isLatest hlatest
  · intro latest name found artifacts hlatest hname hread hfound hartifacts
    exact Package.prefix_of_greatest hversion hplain hlatest hname hread hfound hartifacts

/-- Of two names without blanks the greater version is taken, here for a framework and a package;
a framework that is not there is not found. -/
theorem listed_versions_of_plain_names :
    let files : FileTree := ⟨[], [["r"], ["r", "shared"], ["r", "shared", "Kiln.Core"],
      ["r", "shared", "Kiln.Core", "6.0.10"], ["r", "shared", "Kiln.Core", "6.0.2"],
      ["r", "packs"], ["r", "packs", "Kiln.Core.Ref"], ["r", "packs", "Kiln.Core.Ref", "6.0"],
      ["r", "packs", "Kiln.Core.Ref", "6.0", "ref"],
      ["f"], ["f", "a"], ["f", "a", "1.9"], ["f", "a", "1.10"], ["f", "a", "1.10", "lib"]].map
        (·, .dir) ++ [(["f", "a", "1.10", "lib", "A.dll"], .file "kmod A, Version=1".toByteArray)]⟩
    let runtimes : Path := ⟨"/r/shared/Kiln.Core"⟩
    let packs : Path := ⟨"/r/packs/Kiln.Core.Ref"⟩
    let gone : FrameworkRequest := ⟨"Gone", none⟩
    let feed : Path := ⟨"/f"⟩
    let spec : PackageSpec := ⟨"A", none⟩
    files.WellFormed ∧ Framework.PlainVersions files runtimes ∧
      (∃ v, Version.select? (Framework.versionNames files runtimes) none = some v ∧
        v.text = "6.0.10" ∧ v.text ∈ Framework.versionNames files runtimes) ∧
      (∃ site, (Framework.locatePair files .base runtimes packs).2 = some site ∧
        site.executionDir = runtimes / "6.0.10" ∧
        site.version.text ∈ Framework.versionNames files runtimes) ∧
      (∃ e, Framework.discover files gone ⟨[⟨"/r"⟩], none⟩ = .error e ∧
        ∃ text tried, e = .frameworkNotFound text tried) ∧
      ∃ found artifacts, Package.modules files (feed / spec.id / "1.10") = .ok found ∧
        found.map (·.display) = ["/f/a/1.10/lib/A.dll"] ∧
        Package.resolve files feed spec = .ok artifacts ∧ found <+: artifacts := by
  intro files runtimes packs gone feed spec
  have hfiles : files.WellFormed := ⟨by decide +kernel, by decide +kernel⟩
  have hplain : Framework.PlainVersions files runtimes := by decide +kernel
  have hpackage : Framework.PlainVersions files (feed / spec.id) := by decide +kernel
  obtain ⟨hselect, hlocate, hdiscover, hresolve⟩ := selected_version_is_listed hfiles
  refine ⟨hfiles, hplain, ?_, ?_, ?_, ?_⟩
  · have htext : (Version.select? (Framework.versionNames files runtimes) none).map (·.text) =
        some "6.0.10" := by decide +kernel
    obtain ⟨v, hv, hvtext⟩ := Option.map_eq_some_iff.1 htext
    exact ⟨v, hv, hvtext, (hselect runtimes none v hv).2.2 hplain⟩
  · have htext : (Framework.locatePair files .base runtimes packs).2.map (·.executionDir) =
        some (runtimes / "6.0.10") := by decide +kernel
    obtain ⟨site, hsite, hdir⟩ := Option.map_eq_some_iff.1 htext
    exact ⟨site, hsite, hdir, (hlocate _ _ _ site hsite).2.1 hplain⟩
  · have hgone : (Framework.discover files gone ⟨[⟨"/r"⟩], none⟩).toOption.isNone := by
      decide +kernel
    have hall : ∀ sought, Framework.Sought files gone ⟨[⟨"/r"⟩], none⟩ sought →
        ∀ l ∈ Framework.Layout.all sought ⟨[⟨"/r"⟩], none⟩,
          Framework.PlainVersions files l.executionParent := by
      intro sought hsought l hl
      obtain rfl := List.mem_singleton.1 hl
      cases hsought with
      | request => decide +kernel
      | base =>
        have hparent : (⟨"/r"⟩ : Path) / "shared" / FrameworkRequest.baseName = runtimes := by
          decide +kernel
        rw [← hparent] at hplain
        exact hplain
    cases he : Framework.discover files gone ⟨[⟨"/r"⟩], none⟩ with
    | ok layers =>
      rw [he] at hgone
      cases hgone
    | error e => exact ⟨e, rfl, hdiscover gone _ hall e he⟩
  · have hpick : Package.pickVersion files feed (feed / spec.id) spec = .ok "1.10" := by
      decide +kernel
    have hdeps : Package.dependencies files (feed / spec.id / "1.10") = .ok [] := by
      decide +kernel
    obtain ⟨found, hfound⟩ := Package.exists_modules files (feed / spec.id / "1.10")
    have hdisplay : (Package.modules files (feed / spec.id / "1.10")).toOption.map
        (·.map (·.display)) = some ["/f/a/1.10/lib/A.dll"] := by decide +kernel
    have hlatest : Version.IsLatest (Framework.versionNames files (feed / spec.id)) none
        ⟨1, [10], none, "1.10"⟩ := Version.select?_eq_some_iff.1 (by decide +kernel)
    have hartifacts := Package.Runs.resolve_eq (.visit List.not_mem_nil hpick hfound hdeps .done)
    rw [hfound] at hdisplay
    refine ⟨found, found, hfound, Option.some.inj hdisplay, hartifacts, ?_⟩
    exact (hresolve feed spec rfl hpackage).2 _ "1.10" found found hlatest (by decide +kernel)
      (by decide +kernel) hfound hartifacts

/-- A blank beside the name of a version is lost, and the directory with it: a framework that is
located cannot be read, and a package with a module is resolved to nothing. -/
theorem blank_beside_version_is_lost :
    let files : FileTree := ⟨[], [["r"], ["r", "shared"], ["r", "shared", "Kiln.Core"],
      ["r", "shared", "Kiln.Core", " 1.0.0"], ["r", "packs"], ["r", "packs", "Kiln.Core.Ref"],
      ["r", "packs", "Kiln.Core.Ref", "1.0.0"], ["r", "packs", "Kiln.Core.Ref", "1.0.0", "ref"],
      ["f"], ["f", "a"], ["f", "a", "2.0 "], ["f", "a", "2.0 ", "lib"]].map (·, .dir) ++
        [(["f", "a", "2.0 ", "lib", "A.dll"], .file "kmod A, Version=2.0".toByteArray)]⟩
    let runtimes : Path := ⟨"/r/shared/Kiln.Core"⟩
    let feed : Path := ⟨"/f"⟩
    let spec : PackageSpec := ⟨"A", none⟩
    files.WellFormed ∧ Framework.versionNames files runtimes = [" 1.0.0"] ∧
      (Version.select? (Framework.versionNames files runtimes) none).map (·.text) =
        some "1.0.0" ∧
      (match Framework.discover files .base ⟨[⟨"/r"⟩], none⟩ with
        | .ok _ => none
        | .error e => some e) = some (.unreadable (runtimes / "1.0.0") .notFound) ∧
      Framework.versionNames files (feed / spec.id) = ["2.0 "] ∧
      (Package.modules files (feed / spec.id / "2.0 ")).toOption.map (·.map (·.display)) =
        some ["/f/a/2.0 /lib/A.dll"] ∧
      Package.resolve files feed spec = .ok [] := by
  intro files runtimes feed spec
  have hpick : Package.pickVersion files feed (feed / spec.id) spec = .ok "2.0" := by
    decide +kernel
  have hfound : Package.modules files (feed / spec.id / "2.0") = .ok [] := by decide +kernel
  have hdeps : Package.dependencies files (feed / spec.id / "2.0") = .ok [] := by decide +kernel
  exact ⟨⟨by decide +kernel, by decide +kernel⟩, by decide +kernel, by decide +kernel,
    by decide +kernel, by decide +kernel, by decide +kernel,
    Package.Runs.resolve_eq (.visit List.not_mem_nil hpick hfound hdeps .done)⟩

end ScriptSession
