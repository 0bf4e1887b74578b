import ScriptSession.Proofs.Selection
import ScriptSession.Resolve.Chain

namespace ScriptSession

namespace Key

theorem isUnder_trans {k l m : Key} (h : k.isUnder l) (h' : l.isUnder m) : k.isUnder m :=
  isUnder_iff.2 ((isUnder_iff.1 h').trans (isUnder_iff.1 h))

theorem isUnder_div (p : Path) {s : String} (h : Path.IsName s) :
    (ofPath (p / s)).isUnder (ofPath p) := by
  rw [ofPath_div p h, isUnder_iff, components, components, List.map_append, ← List.append_assoc]
  exact List.prefix_append _ _

theorem ofPath_join {p : Path} (hp : p.isAbsolute = false) (b : Path) :
    ofPath (b.join p) = ⟨(ofPath b).rooted, p.placeFrom (ofPath b).names⟩ := by
  rw [Path.placeFrom_of_relative hp, ← foldl_step (Path.root_notMem_steps p)]
  by_cases hb : b.text = ""
  · obtain ⟨text⟩ := b
    cases hb
    have hjoin : Path.join ⟨""⟩ p = p := by
      rw [Path.join, hp, if_neg Bool.false_ne_true, if_pos (.inl rfl), String.empty_append]
    rw [hjoin, ofPath, Path.foldl_components _ _ rfl, hp]
    rfl
  · rw [ofPath, Path.components_join hp hb, List.foldl_append]
    rfl

end Key

theorem Route.anchor_singleton {r : Route} (h : r.rise ≠ 0) (name : String) :
    r.anchor [name] = [] := by
  cases r with
  | absolute names => rfl
  | relative rise names =>
    have hnone : 1 - rise = 0 := Nat.sub_eq_zero_of_le (Nat.one_le_iff_ne_zero.2 h)
    change [name].take (1 - rise) = []
    rw [hnone, List.take_zero]

namespace Path

/-- Whether a path leads from every directory to a place in it. -/
def Inward (p : Path) : Prop :=
  p.isAbsolute = false ∧ p.route.rise = 0

instance (p : Path) : Decidable p.Inward :=
  inferInstanceAs (Decidable (_ ∧ _))

theorem join_of_isAbsolute {p : Path} (hp : p.isAbsolute = true) (b : Path) : b.join p = p :=
  if_pos hp

end Path

theorem Key.ofPath_join_join (a b c : Path) :
    ofPath ((a.join b).join c) = ofPath (a.join (b.join c)) := by
  cases hc : c.isAbsolute with
  | true => rw [Path.join_of_isAbsolute hc, Path.join_of_isAbsolute hc, Path.join_of_isAbsolute hc]
  | false =>
    have hbc : (b.join c).isAbsolute = b.isAbsolute := by
      rw [← Path.rooted_ofPath, ofPath_join hc, Path.rooted_ofPath]
    cases hb : b.isAbsolute with
    | true => rw [Path.join_of_isAbsolute hb, Path.join_of_isAbsolute (hbc.trans hb)]
    | false =>
      rw [ofPath_join hc, ofPath_join hb, ofPath_join (hbc.trans hb), Path.placeFrom_join]

namespace Path

/-- A path that leads inwards lies under each path that it is joined to, and no other path does. -/
theorem isUnder_join_iff {p : Path} :
    (∀ b : Path, (Key.ofPath (b.join p)).isUnder (Key.ofPath b)) ↔ p.Inward := by
  constructor
  · intro h
    cases hp : p.isAbsolute with
    | true =>
      have hunder := Key.isUnder_iff.1 (h ⟨"a"⟩)
      rw [join_of_isAbsolute hp, Key.components, Key.components, rooted_ofPath p, hp] at hunder
      cases (List.cons_prefix_cons.1 hunder).1
    | false =>
      refine ⟨hp, ?_⟩
      by_contra hrise
      -- above a directory of one name only the names of the path are left
      have hhead (s : String) (hs : Key.ofPath ⟨s⟩ = ⟨false, [s]⟩) :
          p.route.names.head? = some s := by
        have hunder := Key.isUnder_iff.1 (h ⟨s⟩)
        rw [Key.ofPath_join hp, hs, placeFrom_eq, Route.lead,
          Route.anchor_singleton hrise] at hunder
        change [Component.name s] <+: p.route.names.map .name at hunder
        cases hnames : p.route.names with
        | nil =>
          rw [hnames] at hunder
          cases List.prefix_nil.1 hunder
        | cons t names =>
          rw [hnames] at hunder
          cases (List.cons_prefix_cons.1 hunder).1
          rfl
      exact absurd ((hhead "a" (by decide)).symm.trans (hhead "b" (by decide))) (by decide)
  · rintro ⟨hp, hrise⟩ b
    rw [Key.ofPath_join hp, placeFrom_eq, Route.lead, anchor_route (.inl hrise), hp,
      if_neg Bool.false_ne_true, Key.isUnder_iff, Key.components, Key.components, List.map_append,
      ← List.append_assoc]
    exact List.prefix_append _ _

end Path

/-- Whether the name of a package and the version that is asked for, if one is, are names of
directories. -/
def PackageSpec.Plain (s : PackageSpec) : Prop :=
  Path.IsName s.id ∧ ∀ version ∈ s.version, Path.IsName version

instance (s : PackageSpec) : Decidable s.Plain :=
  inferInstanceAs (Decidable (_ ∧ _))

namespace Package

variable {files : FileTree} {feed : Path} {request : PackageSpec} {visits : List Visit} {v : Visit}

def Visit.dir (v : Visit) : Path :=
  (⟨v.spec.id⟩ : Path) / v.version

theorem Visit.ofPath_dir (v : Visit) (feed : Path) :
    Key.ofPath (feed / v.spec.id / v.version) = Key.ofPath (feed.join v.dir) :=
  Key.ofPath_join_join feed ⟨v.spec.id⟩ ⟨v.version⟩

theorem Visit.Valid.exists_path (hv : v.Valid files feed) {a : Artifact} (ha : a ∈ v.modules) :
    ∃ name : String, a.key = some (.ofPath (feed / v.spec.id / v.version / "lib" / name)) := by
  cases hv.modules.sound a ha with
  | @file _ name => exact ⟨name, rfl⟩

theorem Visit.Valid.isUnder (hv : v.Valid files feed) (hnames : files.ProperNames)
    (hdir : v.dir.Inward) {a : Artifact} (ha : a ∈ v.modules) {k : Key} (hk : a.key = some k) :
    k.isUnder (.ofPath feed) := by
  have hlib : k.isUnder (.ofPath (feed / v.spec.id / v.version / "lib")) := by
    cases hv.modules.sound a ha with
    | file hlist hchild _ hextension =>
      cases hk
      exact Framework.isUnder_of_child hnames hlist hchild (Option.isSome_of_eq_some hextension)
  have hversion : (Key.ofPath (feed / v.spec.id / v.version)).isUnder (.ofPath feed) := by
    rw [v.ofPath_dir]
    exact Path.isUnder_join_iff.2 hdir feed
  exact Key.isUnder_trans hlib (Key.isUnder_trans (Key.isUnder_div _ (by decide)) hversion)

theorem Visit.Valid.inward (hv : v.Valid files feed) (hfiles : files.WellFormed)
    (hplain : v.spec.Plain) : v.dir.Inward := by
  have hversion : Path.IsName v.version := by
    have hchosen := hv.chosen
    unfold Chosen at hchosen
    split at hchosen
    next wanted hwanted =>
      rw [hchosen.1]
      exact hplain.2 wanted hwanted
    next =>
      obtain ⟨latest, hlatest, htext⟩ := hchosen
      rw [htext]
      exact (Framework.isLatest_mem_iff hfiles hlatest).1
  apply Path.isUnder_join_iff.1
  intro b
  rw [← v.ofPath_dir]
  exact Key.isUnder_trans (Key.isUnder_div _ hversion) (Key.isUnder_div _ hplain.1)

theorem Walk.mem_texts (h : Walk files feed request visits) :
    ∀ v ∈ visits, v.spec = request ∨ v.spec ∈ files.texts.flatMap PackageSpec.parseAll := by
  induction h with
  | start => exact List.forall_mem_nil _
  | @visit visits v hwalk hnext _ ih =>
    refine List.forall_mem_append.2 ⟨ih, List.forall_mem_singleton.2 ?_⟩
    obtain ⟨-, heq | ⟨u, hu, hdep⟩⟩ := of_next? hnext
    · exact .inl heq
    · exact .inr ((hwalk.valid u hu).dependencies.mem_texts hdep)

end Package

theorem Resolver.resolvePackage_eq_ok_iff {files : FileTree} {settings : ResolverSettings}
    {d : Directive} {cancelled : Bool} {artifacts : List Artifact} :
    resolvePackage files settings d cancelled = .ok artifacts ↔
      ∃ feed request, settings.feed = some feed ∧
        PackageSpec.parse? ((d.afterScheme? "package").getD "").toList = some request ∧
        cancelled = false ∧ Package.resolve files feed request = .ok artifacts := by
  unfold resolvePackage
  dsimp only
  cases PackageSpec.parse? ((d.afterScheme? "package").getD "").toList with
  | none => simp
  | some request =>
    cases settings.feed with
    | none => simp
    | some feed => cases cancelled <;> simp [Except.mapError_eq_ok_iff]

/-- What a package directive is resolved to are the modules of the packages that are visited, each a
file of its directory. They lie in the feed where the id and the version of the package only lead
down; so they all do where the name and the version in the directive and in every dependency file
are names of directories. -/
theorem package_modules_lie_in_feed {files : FileTree} (hfiles : files.WellFormed)
    {settings : ResolverSettings} {d : Directive} {cancelled : Bool} {artifacts : List Artifact}
    (h : Resolver.resolvePackage files settings d cancelled = .ok artifacts) :
    ∃ feed request visits, settings.feed = some feed ∧
      PackageSpec.parse? ((d.afterScheme? "package").getD "").toList = some request ∧
      Package.Walk files feed request visits ∧ Package.next? request visits = none ∧
      artifacts = visits.flatMap (·.modules) ∧
      (∀ v ∈ visits, ∀ a ∈ v.modules, ∃ (name : String) (k : Key), a.key = some k ∧
        k = .ofPath (feed / v.spec.id / v.version / "lib" / name) ∧
        (v.dir.Inward → k.isUnder (.ofPath feed))) ∧
      (request.Plain → (∀ s ∈ files.texts.flatMap PackageSpec.parseAll, s.Plain) →
        ∀ a ∈ artifacts, ∃ k, a.key = some k ∧ k.isUnder (.ofPath feed)) := by
  have hnames : files.ProperNames := fun e he name hname => (hfiles.names e he name hname).1
  obtain ⟨feed, request, hfeed, hrequest, -, hresolve⟩ := Resolver.resolvePackage_eq_ok_iff.1 h
  obtain ⟨visits, hwalk, hends, -⟩ := Package.resolve_completes files feed request
  rw [List.nil_append, hresolve] at hends
  cases hends with
  | done hnext =>
    refine ⟨feed, request, visits, hfeed, hrequest, hwalk, hnext, rfl, ?_, ?_⟩
    · intro v hv a ha
      have hvalid := hwalk.valid v hv
      obtain ⟨name, hkey⟩ := hvalid.exists_path ha
      exact ⟨name, _, hkey, rfl, fun hdir => hvalid.isUnder hnames hdir ha hkey⟩
    · intro hplain hall a ha
      obtain ⟨v, hv, ha⟩ := List.mem_flatMap.1 ha
      have hvalid := hwalk.valid v hv
      have hspec : v.spec.Plain := by
        obtain heq | hm := hwalk.mem_texts v hv
        · rwa [heq]
        · exact hall _ hm
      obtain ⟨name, hkey⟩ := hvalid.exists_path ha
      exact ⟨_, hkey, hvalid.isUnder hnames (hvalid.inward hfiles hspec) ha hkey⟩

/-- A package with plain names and what it depends on are found in the feed. -/
theorem modules_of_plain_packages :
    let files : FileTree := ⟨[], [["f"], ["f", "a"], ["f", "a", "1.10"], ["f", "a", "1.10", "lib"],
      ["f", "b"], ["f", "b", "2.0"], ["f", "b", "2.0", "lib"]].map (·, .dir) ++
        [(["f", "a", "1.10", "package.deps"], .file "B, 2.0".toByteArray),
          (["f", "a", "1.10", "lib", "A.dll"], .file "kmod A, Version=1".toByteArray),
          (["f", "b", "2.0", "lib", "B.dll"], .file "kmod B, Version=2".toByteArray)]⟩
    let feed : Path := ⟨"f"⟩
    let settings : ResolverSettings := ⟨some feed, [], ⟨""⟩⟩
    files.WellFormed ∧ ∃ artifacts,
      Resolver.resolvePackage files settings (.detached "package: A") false = .ok artifacts ∧
      artifacts.map (·.display) = ["f/a/1.10/lib/A.dll", "f/b/2.0/lib/B.dll"] ∧
      ∀ a ∈ artifacts, ∃ k, a.key = some k ∧ k.isUnder (.ofPath feed) := by
  intro files feed settings
  have hfiles : files.WellFormed := ⟨by decide +kernel, by decide +kernel⟩
  have hrequest : PackageSpec.parse?
      (((Directive.detached "package: A").afterScheme? "package").getD "").toList =
        some ⟨"A", none⟩ := by decide +kernel
  have hdisplay (dir : Path) (names : List String)
      (h : (Package.modules files dir).toOption.map (·.map (·.display)) = some names) :
      ∃ found, Package.modules files dir = .ok found ∧ found.map (·.display) = names := by
    obtain ⟨found, hfound⟩ := Package.exists_modules files dir
    rw [hfound] at h
    exact ⟨found, hfound, Option.some.inj h⟩
  obtain ⟨found, hfound, hnames⟩ :=
    hdisplay (feed / "a" / "1.10") ["f/a/1.10/lib/A.dll"] (by decide +kernel)
  obtain ⟨found', hfound', hnames'⟩ :=
    hdisplay (feed / "b" / "2.0") ["f/b/2.0/lib/B.dll"] (by decide +kernel)
  have hdeps : Package.dependencies files (feed / "a" / "1.10") = .ok [⟨"B", some "2.0"⟩] := by
    decide +kernel
  have hdeps' : Package.dependencies files (feed / "b" / "2.0") = .ok [] := by decide +kernel
  have hresolve : Package.resolve files feed ⟨"A", none⟩ = .ok (found ++ found') :=
    Package.Runs.resolve_eq <|
      .visit List.not_mem_nil (by decide +kernel) hfound hdeps <|
      .visit (by decide +kernel) (by decide +kernel) hfound' hdeps' .done
  have hdirective : Resolver.resolvePackage files settings (.detached "package: A") false =
      .ok (found ++ found') :=
    Resolver.resolvePackage_eq_ok_iff.2 ⟨feed, _, rfl, hrequest, rfl, hresolve⟩
  refine ⟨hfiles, found ++ found', hdirective, ?_, ?_⟩
  · rw [List.map_append, hnames, hnames']
    rfl
  · obtain ⟨feed', request, visits, hfeed, hrequest', -, -, -, -, hall⟩ :=
      package_modules_lie_in_feed hfiles hdirective
    cases hfeed
    cases hrequest.symm.trans hrequest'
    exact hall (by decide) (by decide +kernel)

/-- Modules outside the feed are found through a step up, in a name as in a version, and through a
version that is a path from the root. -/
theorem modules_outside_feed :
    let files : FileTree := ⟨[], [["feed"], ["feed", "x"], ["1.0"], ["1.0", "lib"], ["out"],
      ["out", "lib"]].map (·, .dir) ++
        [(["1.0", "lib", "Out.dll"], .file "kmod Out, Version=1.0".toByteArray),
          (["out", "lib", "Out.dll"], .file "kmod Out, Version=2.0".toByteArray)]⟩
    let feed : Path := ⟨"feed"⟩
    let settings : ResolverSettings := ⟨some feed, [], ⟨""⟩⟩
    let finds (value : String) (k : Key) : Prop := ∃ artifacts,
      Resolver.resolvePackage files settings (.detached value) false = .ok artifacts ∧
        artifacts.map (·.key) = [some k] ∧ k.isUnder (.ofPath feed) = false
    files.WellFormed ∧
      finds "package: .., 1.0" ⟨false, ["1.0", "lib", "Out.dll"]⟩ ∧
      finds "package: x, ../../out" ⟨false, ["out", "lib", "Out.dll"]⟩ ∧
      finds "package: x, /out" ⟨true, ["out", "lib", "Out.dll"]⟩ := by
  intro files feed settings finds
  have hfinds {value : String} {k : Key} (request : PackageSpec) (version : String)
      (hrequest : PackageSpec.parse?
        (((Directive.detached value).afterScheme? "package").getD "").toList = some request)
      (hversion : Package.pickVersion files feed (feed / request.id) request = .ok version)
      (hkeys : (Package.modules files (feed / request.id / version)).toOption.map
        (·.map (·.key)) = some [some k])
      (hdeps : Package.dependencies files (feed / request.id / version) = .ok [])
      (hunder : k.isUnder (.ofPath feed) = false) : finds value k := by
    obtain ⟨found, hfound⟩ := Package.exists_modules files (feed / request.id / version)
    rw [hfound] at hkeys
    have hresolve := Package.Runs.resolve_eq (.visit List.not_mem_nil hversion hfound hdeps .done)
    exact ⟨found, Resolver.resolvePackage_eq_ok_iff.2 ⟨feed, _, rfl, hrequest, rfl, hresolve⟩,
      Option.some.inj hkeys, hunder⟩
  refine ⟨⟨by decide +kernel, by decide +kernel⟩, ?_, ?_, ?_⟩
  · exact hfinds ⟨"..", some "1.0"⟩ "1.0" (by decide +kernel) (by decide +kernel)
      (by decide +kernel) (by decide +kernel) (by decide)
  · exact hfinds ⟨"x", some "../../out"⟩ "../../out" (by decide +kernel) (by decide +kernel)
      (by decide +kernel) (by decide +kernel) (by decide)
  · exact hfinds ⟨"x", some "/out"⟩ "/out" (by decide +kernel) (by decide +kernel)
      (by decide +kernel) (by decide +kernel) (by decide)

end ScriptSession
