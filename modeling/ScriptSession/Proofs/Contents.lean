import ScriptSession.Proofs.Listing
import ScriptSession.Proofs.Trim
import ScriptSession.Resolve.Package

namespace ScriptSession

namespace PackageSpec

/-- Whether some characters name a package in a dependency file. -/
structure IsName (name : List Char) : Prop where
  nonempty : name ≠ []
  unbroken : ∀ c ∈ name, Text.isBlank c = false
  comma : ',' ∉ name
  comment : name.head? ≠ some '#'

/-- `Lists line s`: a line of a dependency file lists the package `s`. -/
inductive Lists : List Char → PackageSpec → Prop
  | bare {line name : List Char} : IsName name → Text.Pads line name →
      Lists line ⟨String.ofList name, none⟩
  | latest {front back name : List Char} : IsName name → Text.Pads front name →
      Text.Pads back [] → Lists (front ++ ',' :: back) ⟨String.ofList name, none⟩
  | exact {front back name version : List Char} : IsName name → Text.Pads front name →
      Text.Pads back version → version ≠ [] →
      Lists (front ++ ',' :: back) ⟨String.ofList name, some (String.ofList version)⟩

inductive ListsAll : List (List Char) → List PackageSpec → Prop
  | nil : ListsAll [] []
  | package {line : List Char} {s : PackageSpec} {lines : List (List Char)}
      {specs : List PackageSpec} : Lists line s → ListsAll lines specs →
      ListsAll (line :: lines) (s :: specs)
  | other {line : List Char} {lines : List (List Char)} {specs : List PackageSpec} :
      (∀ s, ¬ Lists line s) → ListsAll lines specs → ListsAll (line :: lines) specs

def ofLine? (line : List Char) : Option PackageSpec :=
  if (Text.trim line).head? = some '#' then none else parse? (Text.trim line)

theorem isName_iff {name : List Char} (hcomma : ',' ∉ name) {s t : PackageSpec} :
    (if name.head? = some '#' then none
      else if FrameworkRequest.isName name then some t else none) = some s ↔
      IsName name ∧ s = t := by
  by_cases hhead : name.head? = some '#'
  · rw [if_pos hhead]
    exact ⟨nofun, fun h => absurd hhead h.1.comment⟩
  · rw [if_neg hhead, Option.ite_none_right_eq_some, Option.some.injEq, FrameworkRequest.isName,
      Bool.and_eq_true, decide_eq_true_iff, Bool.not_eq_true', List.any_eq_false]
    constructor
    · rintro ⟨⟨hne, hblank⟩, rfl⟩
      exact ⟨⟨hne, fun c hc => Bool.eq_false_iff.2 (hblank c hc), hcomma, hhead⟩, rfl⟩
    · rintro ⟨hname, rfl⟩
      exact ⟨⟨hname.nonempty, fun c hc => Bool.eq_false_iff.1 (hname.unbroken c hc)⟩, rfl⟩

theorem ofLine?_bare {line : List Char} (h : ',' ∉ line) {s : PackageSpec} :
    ofLine? line = some s ↔
      IsName (Text.trim line) ∧ s = ⟨String.ofList (Text.trim line), none⟩ := by
  have hcomma : ',' ∉ Text.trim line := fun hm => h (Text.mem_of_mem_trim hm)
  rw [← isName_iff hcomma, ofLine?, parse?, Text.cutFirst_eq_none hcomma]
  dsimp only
  rw [(Text.isTrimmed_trim line).trim_eq, if_pos rfl]

theorem ofLine?_comma {front : List Char} (h : ',' ∉ front) (back : List Char) {s : PackageSpec} :
    ofLine? (front ++ ',' :: back) = some s ↔ IsName (Text.trim front) ∧
      s = ⟨String.ofList (Text.trim front),
        if Text.trim back = [] then none else some (String.ofList (Text.trim back))⟩ := by
  have hsep : Text.isBlank ',' = false := by decide
  have hcomma : ',' ∉ Text.trim front := fun hm => h (Text.mem_of_mem_trim hm)
  have hstart : ',' ∉ Text.trimStart front := fun hm =>
    h ((List.dropWhile_sublist Text.isBlank).mem hm)
  have htrim : Text.trim (front ++ ',' :: back) =
      Text.trimStart front ++ ',' :: Text.trimEnd back := by
    rw [Text.trim, Text.trimStart_sep hsep, Text.trimEnd_sep hsep]
  rw [← isName_iff hcomma, ofLine?, parse?, htrim, Text.cutFirst_append hstart]
  dsimp only
  rw [Text.trim_trimStart, Text.trim_trimEnd]
  by_cases hname : Text.trim front = []
  · -- without a name the line starts with the comma
    simp [hname, FrameworkRequest.isName]
  · have hne : Text.trimStart front ≠ [] := by
      intro hnil
      rw [Text.trim, hnil] at hname
      exact hname rfl
    rw [List.head?_append_of_ne_nil _ hne, Text.head?_trim hname]

theorem lists_iff {line : List Char} {s : PackageSpec} : Lists line s ↔ ofLine? line = some s := by
  have hcomma : Text.isBlank ',' = false := by decide
  constructor
  · intro h
    cases h with
    | bare hname hline =>
      have htrim := Text.pads_iff.1 hline
      rw [ofLine?_bare (hline.notMem hcomma hname.comma), htrim]
      exact ⟨hname, rfl⟩
    | latest hname hfront hback =>
      rw [ofLine?_comma (hfront.notMem hcomma hname.comma), Text.pads_iff.1 hfront,
        if_pos (Text.pads_iff.1 hback)]
      exact ⟨hname, rfl⟩
    | exact hname hfront hback hversion =>
      rw [ofLine?_comma (hfront.notMem hcomma hname.comma), Text.pads_iff.1 hfront,
        Text.pads_iff.1 hback, if_neg hversion]
      exact ⟨hname, rfl⟩
  · intro h
    by_cases hline : ',' ∈ line
    · obtain ⟨front, back, rfl, hfront⟩ := List.eq_append_cons_of_mem hline
      obtain ⟨hname, rfl⟩ := (ofLine?_comma hfront back).1 h
      split
      next hback => exact .latest hname (Text.pads_iff.2 rfl) (Text.pads_iff.2 hback)
      next hback => exact .exact hname (Text.pads_iff.2 rfl) (Text.pads_iff.2 rfl) hback
    · obtain ⟨hname, rfl⟩ := (ofLine?_bare hline).1 h
      exact .bare hname (Text.pads_iff.2 rfl)

theorem listsAll_iff {lines : List (List Char)} {specs : List PackageSpec} :
    ListsAll lines specs ↔ lines.filterMap ofLine? = specs := by
  constructor
  · intro h
    induction h with
    | nil => rfl
    | package hline _ ih => rw [List.filterMap_cons_some (lists_iff.1 hline), ih]
    | @other line _ _ hline _ ih =>
      have hnone : ofLine? line = none :=
        Option.eq_none_iff_forall_ne_some.2 fun s hs => hline s (lists_iff.2 hs)
      rw [List.filterMap_cons_none hnone, ih]
  · rintro rfl
    induction lines with
    | nil => exact .nil
    | cons line lines ih =>
      cases hline : ofLine? line with
      | none =>
        rw [List.filterMap_cons_none hline]
        exact .other (fun s hs => nomatch hline.symm.trans (lists_iff.1 hs)) ih
      | some s =>
        rw [List.filterMap_cons_some hline]
        exact .package (lists_iff.2 hline) ih

theorem parseAll_eq (text : String) :
    parseAll text = (Text.lines text.toList).filterMap ofLine? := by
  unfold parseAll
  rw [List.filterMap_filter, List.filterMap_map]
  congr 1
  funext line
  rw [Function.comp_apply, ofLine?]
  by_cases hnil : Text.trim line = []
  · rw [hnil]
    rfl
  · by_cases hhead : (Text.trim line).head? = some '#' <;> simp [hnil, hhead]

end PackageSpec

namespace FileTree

variable {t : FileTree} {p : Path}

theorem isDir_iff_list : t.isDir p = true ↔ ∃ children, t.list p = .ok children := by
  unfold isDir find list
  cases t.locate p with
  | error e => exact ⟨nofun, fun ⟨_, h⟩ => nomatch h⟩
  | ok loc =>
    dsimp only [bind, Except.bind]
    unfold isDirAt
    rcases t.node? loc with _ | _ | bytes
    · exact ⟨nofun, fun ⟨_, h⟩ => nomatch h⟩
    · exact ⟨fun _ => ⟨_, rfl⟩, fun _ => rfl⟩
    · exact ⟨nofun, fun ⟨_, h⟩ => nomatch h⟩

end FileTree

theorem Framework.exists_modulesIn {files : FileTree} {dir : Path} (h : files.isDir dir)
    (role : Role) : ∃ modules, modulesIn files dir role = .ok modules := by
  obtain ⟨children, hlist⟩ := FileTree.isDir_iff_list.1 h
  unfold modulesIn
  rw [hlist]
  exact ⟨_, rfl⟩

namespace Package

variable {files : FileTree} {dir : Path}

/-- Whether an artifact is a module directly inside a directory: a file there with the extension of
modules and a header that identifies it. -/
inductive IsModuleIn (files : FileTree) (dir : Path) : Artifact → Prop
  | file {children : List (String × Node)} {name extension : String} {node : Node}
      {identity : Identity} : files.list dir = .ok children → (name, node) ∈ children →
      files.isFile (dir / name) = true → (dir / name).extension? = some extension →
      Text.lower extension = "dll" → Identity.read? files (dir / name) = some identity →
      IsModuleIn files dir
        { key := some (.ofPath (dir / name)), role := .executionOnly, identity := some identity }

/-- Whether some artifacts are the modules directly inside a directory, in the order of their
paths. -/
structure HasModules (files : FileTree) (dir : Path) (found : List Artifact) : Prop where
  sound : ∀ a ∈ found, IsModuleIn files dir a
  complete : ∀ a, IsModuleIn files dir a → ∃ b ∈ found, b.same a
  nodup : (found.filterMap (·.key)).Nodup
  sorted : found.Pairwise fun a b => ∃ name name' : String,
    a.key = some (.ofPath (dir / name)) ∧ b.key = some (.ofPath (dir / name')) ∧
      (dir / name).le (dir / name')

theorem hasExtension_iff {p : Path} : ModuleFile.hasExtension p = true ↔
    ∃ extension, p.extension? = some extension ∧ Text.lower extension = "dll" := by
  rw [ModuleFile.hasExtension, Option.any_eq_true]
  simp only [Text.sameIgnoringCase, beq_iff_eq]
  rfl

def moduleAt? (files : FileTree) (p : Path) : Option Artifact :=
  (Identity.read? files p).map fun identity =>
    { key := some (.ofPath p), role := .executionOnly, identity := some identity }

theorem modulesIn_cases {set : ArtifactSet}
    (h : Framework.modulesIn files dir .executionOnly = .ok set) :
    ∃ (children : List (String × Node)) (paths : List Path), files.list dir = .ok children ∧
      paths.Pairwise (fun p q => p.le q = true) ∧
      (∀ p, p ∈ paths ↔ ∃ name node, (name, node) ∈ children ∧ dir / name = p ∧
        files.isFile p = true ∧ ModuleFile.hasExtension p = true) ∧
      set = .ofList (paths.filterMap (moduleAt? files)) := by
  obtain ⟨children, hlist, h⟩ := Except.bind_eq_ok_iff.1 h
  cases h
  refine ⟨children, _, Except.mapError_eq_ok_iff.1 hlist, Path.pairwise_mergeSort _, fun p => ?_,
    rfl⟩
  rw [List.mem_mergeSort, List.mem_filter, List.mem_map, Bool.and_eq_true]
  exact ⟨fun ⟨⟨child, hchild, hp⟩, hfile⟩ => ⟨child.1, child.2, hchild, hp, hfile⟩,
    fun ⟨name, node, hchild, hp, hfile⟩ => ⟨⟨(name, node), hchild, hp⟩, hfile⟩⟩

theorem hasModules_of_modulesIn {set : ArtifactSet}
    (h : Framework.modulesIn files dir .executionOnly = .ok set) :
    HasModules files dir set.items := by
  obtain ⟨children, paths, hlist, hsorted, hpaths, rfl⟩ := modulesIn_cases h
  obtain ⟨new, hnew, hsub⟩ := ArtifactSet.exists_sublist_extend .empty
    (paths.filterMap (moduleAt? files))
  constructor
  · intro a ha
    rw [ArtifactSet.ofList, hnew] at ha
    obtain ⟨p, hp, hread⟩ := List.mem_filterMap.1 (hsub.subset ha)
    obtain ⟨name, node, hchild, rfl, hfile, hextension⟩ := (hpaths p).1 hp
    obtain ⟨identity, hidentity, rfl⟩ := Option.map_eq_some_iff.1 hread
    obtain ⟨extension, hext, hdll⟩ := hasExtension_iff.1 hextension
    exact .file hlist hchild hfile hext hdll hidentity
  · intro a ha
    cases ha with
    | @file children' name extension node identity hlist' hchild hfile hext hdll hidentity =>
      cases hlist.symm.trans hlist'
      apply ArtifactSet.wellFormed_empty.exists_same _ rfl
      refine List.mem_filterMap.2 ⟨dir / name, (hpaths _).2 ?_, ?_⟩
      · exact ⟨name, node, hchild, rfl, hfile, hasExtension_iff.2 ⟨extension, hext, hdll⟩⟩
      · rw [moduleAt?, hidentity]
        rfl
  · exact ArtifactSet.wellFormed_empty.nodup_extend List.nodup_nil _
  · rw [ArtifactSet.ofList, hnew]
    have hnamed : paths.Pairwise fun p q =>
        ∃ name name' : String, dir / name = p ∧ dir / name' = q ∧ p.le q := by
      refine hsorted.imp_of_mem fun hp hq hle => ?_
      obtain ⟨name, _, -, hname, -⟩ := (hpaths _).1 hp
      obtain ⟨name', _, -, hname', -⟩ := (hpaths _).1 hq
      exact ⟨name, name', hname, hname', hle⟩
    refine List.Pairwise.sublist hsub (hnamed.filterMap _ ?_)
    rintro _ _ ⟨name, name', rfl, rfl, hle⟩ a ha b hb
    obtain ⟨_, -, rfl⟩ := Option.map_eq_some_iff.1 ha
    obtain ⟨_, -, rfl⟩ := Option.map_eq_some_iff.1 hb
    exact ⟨name, name', rfl, rfl, hle⟩

theorem hasModules_of_modules {found : List Artifact} (h : modules files dir = .ok found) :
    HasModules files (dir / "lib") found := by
  unfold modules at h
  dsimp only at h
  split at h
  · obtain ⟨set, hset, rfl⟩ := Except.map_eq_ok_iff.1 h
    exact hasModules_of_modulesIn hset
  next hdir =>
    cases h
    refine ⟨List.forall_mem_nil _, fun a ha => ?_, List.nodup_nil, .nil⟩
    cases ha with
    | file hlist => exact absurd (FileTree.isDir_iff_list.2 ⟨_, hlist⟩) hdir

/-- Whether the package in a version directory depends on some packages: on those that its
dependency file lists, and without such a file on none. -/
inductive DependsOn (files : FileTree) (dir : Path) : List PackageSpec → Prop
  | listed {text : String} {specs : List PackageSpec} :
      files.readText (dir / "package.deps") = .ok text →
      PackageSpec.ListsAll (Text.lines text.toList) specs → DependsOn files dir specs
  | nothing : files.isFile (dir / "package.deps") = false → DependsOn files dir []

theorem dependsOn_of_dependencies {specs : List PackageSpec}
    (h : dependencies files dir = .ok specs) : DependsOn files dir specs := by
  unfold dependencies at h
  split at h
  · split at h
    next text htext =>
      cases h
      exact .listed htext (PackageSpec.listsAll_iff.2 (PackageSpec.parseAll_eq text).symm)
    next => cases h
  next hfile =>
    cases h
    exact .nothing (Bool.eq_false_iff.2 hfile)

theorem DependsOn.mem_texts {specs : List PackageSpec} (h : DependsOn files dir specs)
    {s : PackageSpec} (hs : s ∈ specs) : s ∈ files.texts.flatMap PackageSpec.parseAll := by
  cases h with
  | listed htext hlists =>
    refine List.mem_flatMap.2 ⟨_, FileTree.mem_texts_of_readText htext, ?_⟩
    rwa [PackageSpec.parseAll_eq, PackageSpec.listsAll_iff.1 hlists]
  | nothing => cases hs

end Package
end ScriptSession
