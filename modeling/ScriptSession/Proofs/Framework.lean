import Mathlib.Data.List.Nodup
import ScriptSession.Proofs.Layout
import ScriptSession.Proofs.Service

namespace ScriptSession

namespace FileTree

/-- Whether the names of all places in a tree are free of separators. -/
def ProperNames (t : FileTree) : Prop :=
  ∀ e ∈ t.entries, ∀ name ∈ e.1, '/' ∉ name.toList

instance (t : FileTree) : Decidable t.ProperNames :=
  inferInstanceAs (Decidable (∀ e ∈ t.entries, ∀ name ∈ e.1, '/' ∉ name.toList))

theorem exists_entry_of_list {t : FileTree} {p : Path} {children : List (String × Node)}
    (hlist : t.list p = .ok children) {name : String} {node : Node}
    (hchild : (name, node) ∈ children) : ∃ place, (place, node) ∈ t.entries ∧ name ∈ place := by
  obtain ⟨loc, -, hloc⟩ := Except.bind_eq_ok_iff.1 hlist
  split at hloc
  · cases hloc
    obtain ⟨⟨place, node'⟩, hentry, hlast⟩ := List.mem_filterMap.1 hchild
    cases hl : place.getLast? with
    | none => simp [hl] at hlast
    | some last =>
      simp only [hl] at hlast
      split at hlast
      · cases hlast
        exact ⟨place, hentry, List.mem_of_getLast? hl⟩
      · cases hlast
  · cases hloc

theorem ProperNames.list {t : FileTree} (h : t.ProperNames) {p : Path}
    {children : List (String × Node)} (hlist : t.list p = .ok children) {name : String}
    {node : Node} (hchild : (name, node) ∈ children) : '/' ∉ name.toList := by
  obtain ⟨place, hentry, hname⟩ := exists_entry_of_list hlist hchild
  exact h _ hentry name hname

theorem ProperNames.listDirs {t : FileTree} (h : t.ProperNames) {p : Path} {names : List String}
    (hnames : t.listDirs p = .ok names) {name : String} (hn : name ∈ names) :
    '/' ∉ name.toList := by
  obtain ⟨children, hlist, hchildren⟩ := Except.bind_eq_ok_iff.1 hnames
  cases hchildren
  obtain ⟨⟨name', node⟩, hchild, hname⟩ := List.mem_filterMap.1 hn
  cases node with
  | dir =>
    cases hname
    exact h.list hlist hchild
  | file => cases hname

theorem text_ne_of_list {t : FileTree} {p : Path} {children : List (String × Node)}
    (h : t.list p = .ok children) : p.text ≠ "" := by
  intro hp
  obtain ⟨loc, hloc, -⟩ := Except.bind_eq_ok_iff.1 h
  rw [locate, if_pos hp] at hloc
  cases hloc

end FileTree

namespace Layer

structure Filed (layer : Layer) : Prop where
  references : ∀ a ∈ layer.references.items, ∃ p, a.key = some (.ofPath p)
  executables : ∀ a ∈ layer.executables.items, ∃ p, a.key = some (.ofPath p)

/-- Whether a layer is the first of some with its reference directory. -/
def Leads (layer : Layer) (layers : List Layer) : Prop :=
  layers.find? (·.referenceDir = layer.referenceDir) = some layer

theorem leads_of_nodup {layers : List Layer} (h : (layers.map (·.referenceDir)).Nodup) :
    ∀ layer ∈ layers, layer.Leads layers := by
  intro layer hlayer
  unfold Leads
  induction layers with
  | nil => cases hlayer
  | cons l rest ih =>
    obtain ⟨hother, hrest⟩ := List.nodup_cons.1 h
    obtain rfl | hlayer := List.mem_cons.1 hlayer
    · exact List.find?_cons_of_pos (decide_eq_true rfl)
    · have hne : ¬ l.referenceDir = layer.referenceDir := fun he =>
        hother (List.mem_map.2 ⟨layer, hlayer, he.symm⟩)
      rw [List.find?_cons_of_neg (by simpa using hne)]
      exact ih hrest hlayer

end Layer

namespace Framework

variable {files : FileTree}

theorem slash_of_versionNames (h : files.ProperNames) {dir : Path} {name : String}
    (hn : name ∈ versionNames files dir) : '/' ∉ name.toList := by
  unfold versionNames at hn
  split at hn
  next hnames => exact h.listDirs hnames hn
  next => cases hn

/-- Whether the reference modules of a site stand in a version of a directory that carries the name
of the framework. -/
def Site.CarriesName (site : Site) (request : FrameworkRequest) : Prop :=
  ∃ above pack version, (Key.ofPath site.referenceDir).names = above ++ [pack, version, "ref"] ∧
    Text.lower pack = Text.lower request.name ++ ".ref"

theorem names_referenceDir (parent : Path) {pack version : String} (hpack : Path.IsName pack)
    (hversion : Path.IsName version) :
    (Key.ofPath (parent / pack / version / "ref")).names =
      (Key.ofPath parent).names ++ [pack, version, "ref"] := by
  rw [Key.ofPath_div _ (by decide), Key.ofPath_div _ hversion, Key.ofPath_div _ hpack]
  simp

theorem Layout.Holds.carriesName (h : files.ProperNames) {request : FrameworkRequest}
    (hname : '/' ∉ request.name.toList) {paths : SearchPaths} {l : Layout}
    (hl : l ∈ Layout.all request paths) {site : Site} (hsite : l.Holds files request site) :
    site.CarriesName request := by
  obtain ⟨reference, hreference, hdir⟩ := hsite.reference
  obtain ⟨name, hmem, hparse⟩ := hreference.1.1
  have hversion : Path.IsName reference.text :=
    Version.isName_of_parse? hparse (slash_of_versionNames h hmem)
  obtain hroot | hcache := List.mem_append.1 hl
  · obtain ⟨root, -, rfl⟩ := List.mem_map.1 hroot
    have hpack : Path.IsName (request.name ++ ".Ref") :=
      Path.isName_append hname (by decide) (by decide)
    refine ⟨(Key.ofPath (root / "packs")).names, request.name ++ ".Ref", reference.text, ?_,
      Text.lower_append _ _⟩
    rw [hdir]
    exact names_referenceDir (root / "packs") hpack hversion
  · obtain ⟨cache, -, rfl⟩ := List.mem_map.1 hcache
    have hpack : Path.IsName (Text.lower request.name ++ ".ref") :=
      Path.isName_append (Text.slash_lower hname) (by decide) (by decide)
    refine ⟨(Key.ofPath cache).names, Text.lower request.name ++ ".ref", reference.text, ?_, ?_⟩
    · rw [hdir]
      exact names_referenceDir cache hpack hversion
    · rw [Text.lower_append, Text.lower_lower]
      rfl

theorem locate_carriesName (h : files.ProperNames) {request : FrameworkRequest}
    (hname : '/' ∉ request.name.toList) {paths : SearchPaths} {site : Site}
    (hsite : locate files request paths = .ok site) : site.CarriesName request := by
  obtain ⟨l, hl, hholds⟩ := (locate_eq_ok_iff.1 hsite).exists_holds
  exact hholds.carriesName h hname hl

/-- Whether a layer is read from a site. -/
structure Site.Makes (site : Site) (files : FileTree) (name : String) (depth : Nat)
    (layer : Layer) : Prop where
  name : layer.name = name
  version : layer.version = site.version
  depth : layer.depth = depth
  referenceDir : layer.referenceDir = .ofPath site.referenceDir
  executionDir : layer.executionDir = .ofPath site.executionDir
  references : modulesIn files site.referenceDir .analysisOnly = .ok layer.references
  executables : modulesIn files site.executionDir .executionOnly = .ok layer.executables

theorem readLayer_eq_ok_iff {name : String} {depth : Nat} {site : Site} {layer : Layer} :
    readLayer files name depth site = .ok layer ↔ site.Makes files name depth layer := by
  constructor
  · intro h
    obtain ⟨references, hreferences, h⟩ := Except.bind_eq_ok_iff.1 h
    obtain ⟨executables, hexecutables, h⟩ := Except.bind_eq_ok_iff.1 h
    cases h
    exact ⟨rfl, rfl, rfl, rfl, rfl, hreferences, hexecutables⟩
  · obtain ⟨name', version, referenceDir, executionDir, references, executables, depth'⟩ := layer
    rintro ⟨rfl, rfl, rfl, rfl, rfl, hreferences, hexecutables⟩
    exact Except.bind_eq_ok_iff.2 ⟨references, hreferences,
      Except.bind_eq_ok_iff.2 ⟨executables, hexecutables, rfl⟩⟩

theorem exists_child_of_mem_modulesIn {dir : Path} {role : Role} {modules : ArtifactSet}
    (h : modulesIn files dir role = .ok modules) {a : Artifact} (ha : a ∈ modules.items) :
    ∃ children name node, files.list dir = .ok children ∧ (name, node) ∈ children ∧
      ModuleFile.hasExtension (dir / name) ∧ a.key = some (.ofPath (dir / name)) ∧
      a.role = role := by
  obtain ⟨children, hlist, h⟩ := Except.bind_eq_ok_iff.1 h
  cases h
  obtain hnil | hmem := ArtifactSet.mem_of_mem_extend ha
  · cases hnil
  · obtain ⟨p, hp, hread⟩ := List.mem_filterMap.1 hmem
    obtain ⟨identity, -, rfl⟩ := Option.map_eq_some_iff.1 hread
    obtain ⟨hchild, hfile⟩ := List.mem_filter.1 (List.mem_mergeSort.1 hp)
    obtain ⟨⟨name, node⟩, hentry, rfl⟩ := List.mem_map.1 hchild
    exact ⟨children, name, node, Except.mapError_eq_ok_iff.1 hlist, hentry,
      (Bool.and_eq_true_iff.1 hfile).2, rfl, rfl⟩

theorem exists_path_of_mem_modulesIn {dir : Path} {role : Role} {modules : ArtifactSet}
    (h : modulesIn files dir role = .ok modules) {a : Artifact} (ha : a ∈ modules.items) :
    (∃ p, a.key = some (.ofPath p)) ∧ a.role = role := by
  obtain ⟨_, name, _, -, -, -, hkey, hrole⟩ := exists_child_of_mem_modulesIn h ha
  exact ⟨⟨dir / name, hkey⟩, hrole⟩

theorem isUnder_of_child (hnames : files.ProperNames) {dir : Path}
    {children : List (String × Node)} (hlist : files.list dir = .ok children) {name : String}
    {node : Node} (hchild : (name, node) ∈ children)
    (hextension : ((dir / name).extension?).isSome) :
    (Key.ofPath (dir / name)).isUnder (.ofPath dir) := by
  have hdir : dir.text ≠ "" := FileTree.text_ne_of_list hlist
  have hslash : '/' ∉ name.toList := hnames.list hlist hchild
  apply Key.isUnder_of_div hdir hslash
  intro hup
  have hlast : (dir / name).fileName? = none := by
    rw [Path.fileName?, Path.components_div_of_ne hdir hslash, hup, Option.toList_some,
      List.getLast?_concat]
  rw [Path.extension?, hlast] at hextension
  cases hextension

theorem isUnder_of_mem_modulesIn (hnames : files.ProperNames) {dir : Path} {role : Role}
    {modules : ArtifactSet} (h : modulesIn files dir role = .ok modules) {a : Artifact}
    (ha : a ∈ modules.items) {k : Key} (hk : a.key = some k) : k.isUnder (.ofPath dir) := by
  obtain ⟨children, name, node, hlist, hchild, hextension, hkey, -⟩ :=
    exists_child_of_mem_modulesIn h ha
  cases hk.symm.trans hkey
  exact isUnder_of_child hnames hlist hchild (Option.isSome_of_any hextension)

theorem exists_site_of_mem_discover {request : FrameworkRequest} {paths : SearchPaths}
    {layers : List Layer} (h : discover files request paths = .ok layers) :
    ∀ layer ∈ layers, ∃ site name depth, Site.Makes site files name depth layer := by
  obtain ⟨site, -, h⟩ := Except.bind_eq_ok_iff.1 h
  split at h
  · obtain ⟨layer, hlayer, h⟩ := Except.bind_eq_ok_iff.1 h
    cases h
    exact List.forall_mem_singleton.2 ⟨site, _, _, readLayer_eq_ok_iff.1 hlayer⟩
  · obtain ⟨base, hbase, h⟩ := Except.bind_eq_ok_iff.1 h
    obtain ⟨layer, hlayer, h⟩ := Except.bind_eq_ok_iff.1 h
    cases h
    obtain ⟨site', -, hbase⟩ := Except.bind_eq_ok_iff.1 hbase
    exact List.forall_mem_cons.2 ⟨⟨site, _, _, readLayer_eq_ok_iff.1 hlayer⟩,
      List.forall_mem_singleton.2 ⟨site', _, _, readLayer_eq_ok_iff.1 hbase⟩⟩

theorem filed_of_discover {request : FrameworkRequest} {paths : SearchPaths} {layers : List Layer}
    (h : discover files request paths = .ok layers) : ∀ layer ∈ layers, layer.Filed := by
  intro layer hlayer
  obtain ⟨_, _, _, hmakes⟩ := exists_site_of_mem_discover h layer hlayer
  constructor
  · intro a ha
    exact (exists_path_of_mem_modulesIn hmakes.references ha).1
  · intro a ha
    exact (exists_path_of_mem_modulesIn hmakes.executables ha).1

theorem exists_base_of_map {β : Type} {f : Layer → β} {x y : β} {request : FrameworkRequest}
    {paths : SearchPaths}
    (h : (discover files request paths).toOption.map (·.map f) = some [x, y]) :
    ∃ top base, discover files request paths = .ok [top, base] ∧ f base = y := by
  rcases hdiscover : discover files request paths with _ | layers
  · rw [hdiscover] at h
    cases h
  · rw [hdiscover] at h
    obtain ⟨top, rest, rfl, -, hrest⟩ := List.map_eq_cons_iff.1 (Option.some.inj h)
    obtain ⟨base, rfl, hbase⟩ := List.map_eq_singleton_iff.1 hrest
    exact ⟨top, base, rfl, hbase⟩

theorem isUnder_of_mem_discover (hnames : files.ProperNames) {request : FrameworkRequest}
    {paths : SearchPaths} {layers : List Layer} (h : discover files request paths = .ok layers) :
    ∀ layer ∈ layers, ∀ {a : Artifact}, a ∈ layer.references.items → ∀ {k : Key},
      a.key = some k → k.isUnder layer.referenceDir := by
  intro layer hlayer a ha k hk
  obtain ⟨_, _, _, hmakes⟩ := exists_site_of_mem_discover h layer hlayer
  rw [hmakes.referenceDir]
  exact isUnder_of_mem_modulesIn hnames hmakes.references ha hk

theorem nodup_referenceDirs (h : files.ProperNames) {request : FrameworkRequest}
    (hname : '/' ∉ request.name.toList) {paths : SearchPaths} {layers : List Layer}
    (hlayers : discover files request paths = .ok layers) :
    (layers.map (·.referenceDir)).Nodup := by
  obtain ⟨site, hsite, hlayers⟩ := Except.bind_eq_ok_iff.1 hlayers
  split at hlayers
  · obtain ⟨layer, -, hlayers⟩ := Except.bind_eq_ok_iff.1 hlayers
    cases hlayers
    exact List.nodup_singleton _
  next hbase =>
    obtain ⟨base, hfound, hlayers⟩ := Except.bind_eq_ok_iff.1 hlayers
    obtain ⟨layer, hlayer, hlayers⟩ := Except.bind_eq_ok_iff.1 hlayers
    cases hlayers
    obtain ⟨site', hsite', hbaseLayer⟩ := Except.bind_eq_ok_iff.1 hfound
    obtain ⟨above, pack, version, hnames, hpack⟩ := locate_carriesName h hname hsite
    obtain ⟨above', pack', version', hnames', hpack'⟩ :=
      locate_carriesName h (show '/' ∉ FrameworkRequest.baseName.toList by decide) hsite'
    have hne : layer.referenceDir ≠ base.referenceDir := by
      rw [(readLayer_eq_ok_iff.1 hlayer).referenceDir,
        (readLayer_eq_ok_iff.1 hbaseLayer).referenceDir]
      intro he
      rw [he, hnames'] at hnames
      obtain ⟨-, htail⟩ := List.append_inj' hnames rfl
      obtain ⟨rfl, -⟩ := List.cons.inj htail
      rw [hpack'] at hpack
      exact hbase (beq_iff_eq.2 ((String.append_left_inj _).1 hpack).symm)
    simpa using hne

theorem leads_of_discover (h : files.ProperNames) {request : FrameworkRequest}
    (hname : '/' ∉ request.name.toList) {paths : SearchPaths} {layers : List Layer}
    (hlayers : discover files request paths = .ok layers) :
    ∀ layer ∈ layers, layer.Leads layers :=
  Layer.leads_of_nodup (nodup_referenceDirs h hname hlayers)

end Framework

namespace ReferenceService

def Serves (s : ReferenceService) (a : Artifact) : Prop :=
  ∃ b ∈ s.analysis.items, b.same a

structure WellFormed (s : ReferenceService) : Prop where
  execution : s.execution.WellFormed
  analysis : s.analysis.WellFormed

/-- Whether a service has all that a layer brings: its execution modules for execution, its
reference modules for analysis, and its execution directory for execution only. -/
structure Seeded (s : ReferenceService) (layer : Layer) : Prop where
  execution : ∀ a ∈ layer.executables.items, ∃ b ∈ s.execution.items, b.same a
  analysis : ∀ a ∈ layer.references.items, s.Serves a
  executionOnly : layer.executionDir ∈ s.executionOnlyDirs

/-- Whether `t` has all that `s` holds, in its order. -/
structure Accumulates (s t : ReferenceService) : Prop where
  execution : s.execution.items <+: t.execution.items
  analysis : s.analysis.items <+: t.analysis.items
  executionOnlyDirs : s.executionOnlyDirs <+: t.executionOnlyDirs
  wellFormed : s.WellFormed → t.WellFormed

variable {s t u : ReferenceService} {layer : Layer} {layers : List Layer}

theorem wellFormed_empty : empty.WellFormed :=
  ⟨ArtifactSet.wellFormed_empty, ArtifactSet.wellFormed_empty⟩

theorem Grows.serves (h : s.Grows t) {a : Artifact} (ha : s.Serves a) : t.Serves a :=
  let ⟨b, hb, hsame⟩ := ha
  ⟨b, h.analysis.subset hb, hsame⟩

theorem Accumulates.refl (s : ReferenceService) : s.Accumulates s :=
  ⟨List.prefix_rfl, List.prefix_rfl, List.prefix_rfl, id⟩

theorem Accumulates.trans (h : s.Accumulates t) (h' : t.Accumulates u) : s.Accumulates u :=
  ⟨h.execution.trans h'.execution, h.analysis.trans h'.analysis,
    h.executionOnlyDirs.trans h'.executionOnlyDirs, h'.wellFormed ∘ h.wellFormed⟩

theorem Seeded.mono (hs : s.Seeded layer) (h : s.Accumulates t) : t.Seeded layer := by
  constructor
  · intro a ha
    obtain ⟨b, hb, hsame⟩ := hs.execution a ha
    exact ⟨b, h.execution.subset hb, hsame⟩
  · intro a ha
    obtain ⟨b, hb, hsame⟩ := hs.analysis a ha
    exact ⟨b, h.analysis.subset hb, hsame⟩
  · exact h.executionOnlyDirs.subset hs.executionOnly

theorem grows_register (s : ReferenceService) (layer : Layer) : s.Grows (s.register layer) := by
  unfold register
  split
  · exact (Keeps.refl s).grows
  · exact ⟨rfl, ArtifactSet.items_extend _ _, fun h => h.extend _⟩

theorem grows_registers (s : ReferenceService) (layers : List Layer) :
    s.Grows (layers.foldl register s) := by
  induction layers generalizing s with
  | nil => exact (Keeps.refl s).grows
  | cons layer rest ih => exact (s.grows_register layer).trans (ih _)

theorem accumulates_register (s : ReferenceService) (layer : Layer) :
    s.Accumulates (s.register layer) := by
  unfold register
  split
  · exact .refl s
  · exact ⟨ArtifactSet.items_extend _ _, ArtifactSet.items_extend _ _, List.prefix_append _ _,
      fun h => ⟨h.execution.extend _, h.analysis.extend _⟩⟩

theorem accumulates_registers (s : ReferenceService) (layers : List Layer) :
    s.Accumulates (layers.foldl register s) := by
  induction layers generalizing s with
  | nil => exact .refl s
  | cons layer rest ih => exact (s.accumulates_register layer).trans (ih _)

theorem referenceDirs_register (s : ReferenceService) (layer : Layer) {dir : Key}
    (hd : dir ∈ (s.register layer).referenceDirs) :
    dir ∈ s.referenceDirs ∨ dir = layer.referenceDir := by
  unfold register at hd
  split at hd
  · exact .inl hd
  · exact (List.mem_append.1 hd).imp_right List.mem_singleton.1

theorem Seeded.register (hw : s.WellFormed) (hfiled : layer.Filed)
    (hnew : layer.referenceDir ∉ s.referenceDirs) : (s.register layer).Seeded layer := by
  unfold ReferenceService.register
  rw [if_neg hnew]
  constructor
  · intro a ha
    obtain ⟨p, hp⟩ := hfiled.executables a ha
    exact hw.execution.exists_same ha hp
  · intro a ha
    obtain ⟨p, hp⟩ := hfiled.references a ha
    exact hw.analysis.exists_same ha hp
  · exact List.mem_append_right _ (List.mem_singleton_self _)

/-- Of some layers that are added, those are seeded that are the first with a reference directory
that was not known. -/
theorem Seeded.registers (hw : s.WellFormed) (hfiled : layer.Filed) (hfirst : layer.Leads layers)
    (hnew : layer.referenceDir ∉ s.referenceDirs) :
    (layers.foldl ReferenceService.register s).Seeded layer := by
  induction layers generalizing s with
  | nil => cases hfirst
  | cons l rest ih =>
    unfold Layer.Leads at hfirst
    by_cases hdir : l.referenceDir = layer.referenceDir
    · rw [List.find?_cons_of_pos (by simpa using hdir)] at hfirst
      cases hfirst
      exact (Seeded.register hw hfiled hnew).mono (accumulates_registers _ rest)
    · rw [List.find?_cons_of_neg (by simpa using hdir)] at hfirst
      apply ih ((s.accumulates_register l).wellFormed hw) hfirst
      intro hd
      obtain hd | he := s.referenceDirs_register l hd
      · exact hnew hd
      · exact hdir he.symm

/-- A framework that is loaded first seeds its layers, apart from those that come after another one
with the same reference directory. -/
theorem loadFramework_cases {files : FileTree} {request : FrameworkRequest} {paths : SearchPaths}
    (h : empty.loadFramework files request paths = .ok (layers, s)) :
    Framework.discover files request paths = .ok layers ∧ s.frameworks = [layers] ∧
      ∀ layer ∈ layers, layer.Leads layers → s.Seeded layer := by
  obtain ⟨_, hlayers, h⟩ := Except.bind_eq_ok_iff.1 h
  cases h
  refine ⟨hlayers, ?_, fun layer hlayer hfirst => ?_⟩
  · dsimp only
    rw [(empty.grows_registers layers).frameworks]
    rfl
  · have hfiled := Framework.filed_of_discover hlayers layer hlayer
    have hseeded := Seeded.registers wellFormed_empty hfiled hfirst nofun
    exact ⟨hseeded.execution, hseeded.analysis, hseeded.executionOnly⟩

end ReferenceService
end ScriptSession
