import Mathlib.Data.List.Nodup
import Mathlib.Data.List.Perm.Subperm
import Mathlib.Order.Bounds.Defs
import ScriptSession.Proofs.Contents
import ScriptSession.Proofs.Version

namespace ScriptSession

namespace FileTree

variable {t : FileTree} {p : Path}

theorem cause_of_isFile {cause : ReadError} (hfile : t.isFile p)
    (h : t.readText p = .error cause) : cause = .notText := by
  unfold isFile at hfile
  split at hfile
  next bytes hfind =>
    obtain h | ⟨_, -, h⟩ := Except.bind_eq_error_iff.1 h
    · rw [readBytes, hfind] at h
      cases h
    · split at h
      · cases h
      · cases h
        rfl
  next => cases hfile

end FileTree

namespace Package

variable {files : FileTree} {feed : Path} {spec request : PackageSpec} {version : String}

/-- Whether a package is resolved to a version: the one that is asked for, which has a directory, or
else the latest that has one. -/
def Chosen (files : FileTree) (feed : Path) (spec : PackageSpec) (version : String) : Prop :=
  match spec.version with
  | some wanted => version = wanted ∧ files.isDir (feed / spec.id / wanted)
  | none => ∃ latest, Version.IsLatest (Framework.versionNames files (feed / spec.id)) none latest ∧
      version = latest.text

theorem pickVersion_cases (files : FileTree) (feed : Path) (spec : PackageSpec) :
    (∃ version, pickVersion files feed (feed / spec.id) spec = .ok version ∧
      Chosen files feed spec version) ∨
    pickVersion files feed (feed / spec.id) spec = .error (notFound feed spec) ∧
      ∀ version, ¬ Chosen files feed spec version := by
  unfold pickVersion Chosen
  cases spec.version with
  | some wanted =>
    dsimp only
    split
    next hdir => exact .inl ⟨wanted, rfl, rfl, hdir⟩
    next hdir => exact .inr ⟨rfl, fun version h => hdir h.2⟩
  | none =>
    have hnone {names : List String} (h : Version.select? names none = none) (version : String) :
        ¬ ∃ latest, Version.IsLatest names none latest ∧ version = latest.text :=
      fun ⟨latest, hlatest, _⟩ => Version.select?_eq_none_iff.1 h latest hlatest.1
    unfold Framework.versionNames
    cases files.listDirs (feed / spec.id) with
    | error e => exact .inr ⟨rfl, hnone rfl⟩
    | ok names =>
      dsimp only
      cases hselect : Version.select? names none with
      | none => exact .inr ⟨rfl, hnone hselect⟩
      | some latest =>
        exact .inl ⟨latest.text, rfl, latest, Version.select?_eq_some_iff.1 hselect, rfl⟩

theorem chosen_of_pickVersion (h : pickVersion files feed (feed / spec.id) spec = .ok version) :
    Chosen files feed spec version := by
  obtain ⟨version', hversion, hchosen⟩ | ⟨hnotFound, -⟩ := pickVersion_cases files feed spec
  · cases h.symm.trans hversion
    exact hchosen
  · cases h.symm.trans hnotFound

theorem exists_modules (files : FileTree) (dir : Path) :
    ∃ found, modules files dir = .ok found := by
  unfold modules
  dsimp only
  split
  next hlib =>
    obtain ⟨found, hfound⟩ := Framework.exists_modulesIn hlib .executionOnly
    rw [hfound]
    exact ⟨_, rfl⟩
  next => exact ⟨_, rfl⟩

theorem notText_of_dependencies {dir : Path} {e : ResolutionError}
    (h : dependencies files dir = .error e) :
    files.readText (dir / dependencyFile) = .error .notText ∧
      e = .unreadable (dir / dependencyFile) .notText := by
  unfold dependencies at h
  split at h
  next hfile =>
    split at h
    · cases h
    next cause hcause =>
      cases h
      obtain rfl := FileTree.cause_of_isFile hfile hcause
      exact ⟨hcause, rfl⟩
  next => cases h

/-- A package that was visited: the version that was chosen, the modules of that version and the
packages that it depends on. -/
structure Visit where
  spec : PackageSpec
  version : String
  modules : List Artifact
  dependencies : List PackageSpec

/-- Whether a visit has what the feed holds. -/
structure Visit.Valid (files : FileTree) (feed : Path) (v : Visit) : Prop where
  chosen : Chosen files feed v.spec v.version
  modules : HasModules files (feed / v.spec.id / v.version / "lib") v.modules
  dependencies : DependsOn files (feed / v.spec.id / v.version) v.dependencies

def visitedIds (visits : List Visit) : List String :=
  visits.map (·.spec.id)

/-- The packages that were mentioned, those that the latest visit depends on first. -/
def mentions (request : PackageSpec) (visits : List Visit) : List PackageSpec :=
  visits.reverse.flatMap (·.dependencies) ++ [request]

def unvisited (visits : List Visit) (s : PackageSpec) : Bool :=
  s.id ∉ visitedIds visits

/-- The package to visit next in a depth-first search: of the latest visited package that depends on
one not visited yet, the first such dependency. -/
def next? (request : PackageSpec) (visits : List Visit) : Option PackageSpec :=
  (mentions request visits).find? (unvisited visits)

/-- Visits that follow one another depth first. -/
inductive Walk (files : FileTree) (feed : Path) (request : PackageSpec) : List Visit → Prop
  | start : Walk files feed request []
  | visit {visits : List Visit} {v : Visit} (hwalk : Walk files feed request visits)
      (hnext : next? request visits = some v.spec) (hv : v.Valid files feed) :
      Walk files feed request (visits ++ [v])

/-- What a walk ends with: the modules of all its visits where no package is left to visit, or else
the reason why the next package cannot be visited. -/
inductive Ends (files : FileTree) (feed : Path) (request : PackageSpec) (visits : List Visit) :
    Except ResolutionError (List Artifact) → Prop
  | done (hnext : next? request visits = none) :
      Ends files feed request visits (.ok (visits.flatMap (·.modules)))
  | notFound {spec : PackageSpec} (hnext : next? request visits = some spec)
      (hnone : ∀ version, ¬ Chosen files feed spec version) :
      Ends files feed request visits (.error (.packageNotFound spec.name spec.version feed))
  | notText {spec : PackageSpec} {version : String} {file : Path}
      (hnext : next? request visits = some spec) (hversion : Chosen files feed spec version)
      (hfile : file = feed / spec.id / version / "package.deps")
      (htext : files.readText file = .error .notText) :
      Ends files feed request visits (.error (.unreadable file .notText))

/-- Visits in the preorder of a depth-first search: of the pending packages, each that was not
visited earlier is followed by what is visited for its dependencies, and then by what is visited for
the rest. -/
inductive Preorder : List Visit → List PackageSpec → List Visit → Prop
  | nil {earlier : List Visit} : Preorder earlier [] []
  | skip {earlier visits : List Visit} {spec : PackageSpec} {rest : List PackageSpec}
      (hvisited : spec.id ∈ visitedIds earlier) (hrest : Preorder earlier rest visits) :
      Preorder earlier (spec :: rest) visits
  | visit {earlier below after : List Visit} {v : Visit} {rest : List PackageSpec}
      (hnew : v.spec.id ∉ visitedIds earlier)
      (hbelow : Preorder (earlier ++ [v]) v.dependencies below)
      (hafter : Preorder (earlier ++ [v] ++ below) rest after) :
      Preorder earlier (v.spec :: rest) (v :: (below ++ after))

theorem Preorder.append {earlier visits : List Visit} {pending : List PackageSpec}
    (h : Preorder earlier pending visits) {front rest : List PackageSpec}
    (hpending : pending = front ++ rest) : ∃ first second, visits = first ++ second ∧
      Preorder earlier front first ∧ Preorder (earlier ++ first) rest second := by
  induction h generalizing front with
  | nil =>
    obtain ⟨rfl, rfl⟩ := List.append_eq_nil_iff.1 hpending.symm
    exact ⟨[], [], rfl, .nil, .nil⟩
  | @skip earlier visits spec tail hvisited htail ih =>
    cases front with
    | nil =>
      cases hpending
      exact ⟨[], visits, rfl, .nil, by rw [List.append_nil]; exact .skip hvisited htail⟩
    | cons _ front =>
      cases hpending
      obtain ⟨first, second, rfl, hfirst, hsecond⟩ := ih rfl
      exact ⟨first, second, rfl, .skip hvisited hfirst, hsecond⟩
  | @visit earlier below after v tail hnew hbelow hafter _ ih =>
    cases front with
    | nil =>
      cases hpending
      exact ⟨[], _, rfl, .nil, by rw [List.append_nil]; exact .visit hnew hbelow hafter⟩
    | cons _ front =>
      cases hpending
      -- what is visited below the first package belongs to the front with it
      obtain ⟨first, second, rfl, hfirst, hsecond⟩ := ih rfl
      refine ⟨v :: (below ++ first), second, ?_, .visit hnew hbelow hfirst, ?_⟩
      · rw [List.cons_append, List.append_assoc]
      · rwa [List.append_cons, ← List.append_assoc]

/-- Whether a worklist stands where some visits have led: what it has seen and found is theirs, and
what is left on it is what they have mentioned, apart from packages that were visited. -/
structure Tracks (request : PackageSpec) (visits : List Visit) (seen : List String)
    (found : List Artifact) (pending : List PackageSpec) : Prop where
  seen : ∀ id, id ∈ seen ↔ id ∈ visitedIds visits
  found : found = visits.flatMap (·.modules)
  pending : pending.filter (unvisited visits) = (mentions request visits).filter (unvisited visits)

section Tracks

variable {visits : List Visit} {seen : List String} {found : List Artifact}
  {rest : List PackageSpec}

theorem Tracks.next?_eq {pending : List PackageSpec}
    (h : Tracks request visits seen found pending) :
    next? request visits = pending.find? (unvisited visits) := by
  rw [next?, ← List.head?_filter, ← h.pending, List.head?_filter]

theorem unvisited_of_notMem (h : Tracks request visits seen found (spec :: rest))
    (hs : spec.id ∉ seen) : unvisited visits spec = true :=
  decide_eq_true fun hm => hs ((h.seen _).2 hm)

theorem Tracks.next?_cons (h : Tracks request visits seen found (spec :: rest))
    (hs : spec.id ∉ seen) : next? request visits = some spec := by
  rw [h.next?_eq, List.find?_cons_of_pos (unvisited_of_notMem h hs)]

theorem Tracks.skip (h : Tracks request visits seen found (spec :: rest)) (hs : spec.id ∈ seen) :
    Tracks request visits seen found rest := by
  have hvisited : ¬ unvisited visits spec = true := by
    simpa [unvisited] using (h.seen _).1 hs
  refine ⟨h.seen, h.found, ?_⟩
  rw [← h.pending, List.filter_cons_of_neg hvisited]

theorem filter_unvisited (visits : List Visit) (v : Visit) (specs : List PackageSpec) :
    specs.filter (unvisited (visits ++ [v])) =
      (specs.filter (unvisited visits)).filter (·.id ≠ v.spec.id) := by
  rw [List.filter_filter]
  congr 1
  funext s
  simp [unvisited, visitedIds, and_comm]

theorem Tracks.visit {v : Visit} (h : Tracks request visits seen found (v.spec :: rest))
    (hs : v.spec.id ∉ seen) :
    Tracks request (visits ++ [v]) (v.spec.id :: seen) (found ++ v.modules)
      (v.dependencies ++ rest) := by
  refine ⟨fun id => ?_, ?_, ?_⟩
  · simp [visitedIds, h.seen id, or_comm]
  · rw [h.found, List.flatMap_append, List.flatMap_singleton]
  · have hrest : rest.filter (unvisited (visits ++ [v])) =
        (mentions request visits).filter (unvisited (visits ++ [v])) := by
      rw [filter_unvisited, filter_unvisited, ← h.pending,
        List.filter_cons_of_pos (unvisited_of_notMem h hs), List.filter_cons_of_neg (by simp)]
    have hmentions : mentions request (visits ++ [v]) =
        v.dependencies ++ mentions request visits := by
      rw [mentions, List.reverse_append, List.reverse_singleton, List.singleton_append,
        List.flatMap_cons, List.append_assoc]
      rfl
    rw [hmentions, List.filter_append, List.filter_append, hrest]

end Tracks

/-- Whether a walk goes on from some visits to an end with this result, where what is pending is
visited in preorder unless something stops it. -/
def Completes (files : FileTree) (feed : Path) (request : PackageSpec) (visits : List Visit)
    (pending : List PackageSpec) (result : Except ResolutionError (List Artifact)) : Prop :=
  ∃ later, Walk files feed request (visits ++ later) ∧
    Ends files feed request (visits ++ later) result ∧
    (next? request (visits ++ later) = none → Preorder visits pending later)

section Completes

variable {visits : List Visit} {pending : List PackageSpec}
  {result : Except ResolutionError (List Artifact)}

theorem Completes.stop (hwalk : Walk files feed request visits)
    (hends : Ends files feed request visits result)
    (hpending : next? request visits = none → Preorder visits pending []) :
    Completes files feed request visits pending result := by
  refine ⟨[], ?_⟩
  rw [List.append_nil]
  exact ⟨hwalk, hends, hpending⟩

theorem Completes.skip (hvisited : spec.id ∈ visitedIds visits)
    (h : Completes files feed request visits pending result) :
    Completes files feed request visits (spec :: pending) result := by
  obtain ⟨later, hwalk, hends, hpreorder⟩ := h
  exact ⟨later, hwalk, hends, fun hnext => .skip hvisited (hpreorder hnext)⟩

theorem Completes.visit {v : Visit} (hnew : v.spec.id ∉ visitedIds visits)
    (h : Completes files feed request (visits ++ [v]) (v.dependencies ++ pending) result) :
    Completes files feed request visits (v.spec :: pending) result := by
  obtain ⟨later, hwalk, hends, hpreorder⟩ := h
  rw [← List.append_cons] at hwalk hends hpreorder
  refine ⟨v :: later, hwalk, hends, fun hnext => ?_⟩
  obtain ⟨below, after, rfl, hbelow, hafter⟩ := (hpreorder hnext).append rfl
  exact .visit hnew hbelow hafter

end Completes

/-- The worklist goes on with the walk that has led to it, up to its end. -/
theorem visit_completes (names : List String) (closed : ∀ n ∈ mentioned files, n ∈ names)
    (seen : List String) (found : List Artifact)
    (pending : List { s : PackageSpec // s.id ∈ names }) {visits : List Visit}
    (hwalk : Walk files feed request visits)
    (htracks : Tracks request visits seen found (pending.map (·.1))) :
    Completes files feed request visits (pending.map (·.1))
      (visit files feed names closed seen found pending) := by
  -- along the recursion of the worklist; that it tracks the walk is what each step keeps
  fun_induction visit files feed names closed seen found pending generalizing visits with
  | case1 seen found =>
    rw [htracks.found]
    exact .stop hwalk (.done htracks.next?_eq) fun _ => .nil
  | case2 seen found spec _ rest hseen ih =>
    exact .skip ((htracks.seen _).1 hseen) (ih hwalk (htracks.skip hseen))
  | case3 seen found spec _ rest hnew dir e =>
    rename_i he
    have hnext := htracks.next?_cons hnew
    obtain ⟨version, hversion, -⟩ | ⟨hnotFound, hnone⟩ := pickVersion_cases files feed spec
    · cases he.symm.trans hversion
    · cases he.symm.trans hnotFound
      exact .stop hwalk (.notFound hnext hnone) fun hdone => nomatch hdone.symm.trans hnext
  | case4 seen found spec _ rest hnew dir version hversion e =>
    rename_i he
    obtain ⟨_, hmodules⟩ := exists_modules files (dir / version)
    cases he.symm.trans hmodules
  | case5 seen found spec _ rest hnew dir version hversion here hhere e =>
    rename_i he
    have hnext := htracks.next?_cons hnew
    obtain ⟨htext, rfl⟩ := notText_of_dependencies he
    exact .stop hwalk (.notText hnext (chosen_of_pickVersion hversion) rfl htext)
      fun hdone => nomatch hdone.symm.trans hnext
  | case6 seen found spec _ rest hnew dir version hversion here hhere deps hdeps next =>
    rename_i ih
    let v : Visit := ⟨spec, version, here, deps⟩
    have hv : v.Valid files feed := ⟨chosen_of_pickVersion hversion, hasModules_of_modules hhere,
      dependsOn_of_dependencies hdeps⟩
    have hpending : (next ++ rest).map (·.1) = deps ++ rest.map (·.1) := by
      rw [List.map_append, List.map_map]
      exact congrArg (· ++ _) (List.attach_map_subtype_val deps)
    rw [hpending] at ih
    have hunvisited : spec.id ∉ visitedIds visits := fun hm => hnew ((htracks.seen _).2 hm)
    exact .visit (v := v) hunvisited
      (ih (hwalk.visit (htracks.next?_cons hnew) hv) (htracks.visit hnew))

/-- A run of the worklist that succeeds, by what was seen and found, what is pending and what it
ends with. -/
inductive Runs (files : FileTree) (feed : Path) :
    List String → List Artifact → List PackageSpec → List Artifact → Prop
  | done {seen : List String} {found : List Artifact} : Runs files feed seen found [] found
  | skip {seen : List String} {found artifacts : List Artifact} {spec : PackageSpec}
      {rest : List PackageSpec} (hseen : spec.id ∈ seen)
      (hrest : Runs files feed seen found rest artifacts) :
      Runs files feed seen found (spec :: rest) artifacts
  | visit {seen : List String} {found here artifacts : List Artifact} {spec : PackageSpec}
      {version : String} {deps rest : List PackageSpec} (hnew : spec.id ∉ seen)
      (hversion : pickVersion files feed (feed / spec.id) spec = .ok version)
      (hhere : modules files (feed / spec.id / version) = .ok here)
      (hdeps : dependencies files (feed / spec.id / version) = .ok deps)
      (hrest : Runs files feed (spec.id :: seen) (found ++ here) (deps ++ rest) artifacts) :
      Runs files feed seen found (spec :: rest) artifacts

theorem Runs.visit_eq {names seen : List String} {closed : ∀ n ∈ mentioned files, n ∈ names}
    {found artifacts : List Artifact} {pending : List PackageSpec}
    (h : Runs files feed seen found pending artifacts)
    {worklist : List { s : PackageSpec // s.id ∈ names }}
    (hpending : worklist.map (·.1) = pending) :
    Package.visit files feed names closed seen found worklist = .ok artifacts := by
  induction h generalizing worklist with
  | done =>
    rw [List.map_eq_nil_iff.1 hpending]
    exact visit.eq_1 ..
  | skip hseen _ ih =>
    obtain ⟨⟨spec, _⟩, rest, rfl, rfl, hrest⟩ := List.map_eq_cons_iff.1 hpending
    rw [Package.visit, if_pos hseen]
    exact ih hrest
  | visit hnew hversion hhere hdeps _ ih =>
    obtain ⟨⟨spec, _⟩, rest, rfl, rfl, rfl⟩ := List.map_eq_cons_iff.1 hpending
    rw [Package.visit, if_neg hnew]
    dsimp only at hversion hhere hdeps ⊢
    rw [hversion]
    dsimp only
    rw [hhere]
    dsimp only
    split
    next h => cases h.symm.trans hdeps
    next deps h =>
      cases h.symm.trans hdeps
      apply ih
      rw [List.map_append, List.map_map]
      exact congrArg (· ++ _) (List.attach_map_subtype_val _)

theorem Runs.resolve_eq {artifacts : List Artifact}
    (h : Runs files feed [] [] [request] artifacts) :
    resolve files feed request = .ok artifacts :=
  h.visit_eq rfl

section Walk

variable {visits : List Visit}

theorem mem_mentions {s : PackageSpec} :
    s ∈ mentions request visits ↔ s = request ∨ ∃ v ∈ visits, s ∈ v.dependencies := by
  simp [mentions, or_comm]

theorem of_next? (h : next? request visits = some spec) :
    spec.id ∉ visitedIds visits ∧ (spec = request ∨ ∃ v ∈ visits, spec ∈ v.dependencies) := by
  have hunvisited : unvisited visits spec = true := List.find?_some h
  exact ⟨of_decide_eq_true hunvisited, mem_mentions.1 (List.mem_of_find?_eq_some h)⟩

theorem Walk.nodup (h : Walk files feed request visits) : (visitedIds visits).Nodup := by
  induction h with
  | start => exact List.nodup_nil
  | @visit visits v _ hnext _ ih =>
    rw [visitedIds, List.map_append, List.map_singleton, List.nodup_append_comm]
    exact List.nodup_cons.2 ⟨(of_next? hnext).1, ih⟩

theorem Walk.valid (h : Walk files feed request visits) : ∀ v ∈ visits, v.Valid files feed := by
  induction h with
  | start => exact List.forall_mem_nil _
  | visit _ _ hv ih => exact List.forall_mem_append.2 ⟨ih, List.forall_mem_singleton.2 hv⟩

theorem Walk.subset (h : Walk files feed request visits) :
    visitedIds visits ⊆ request.id :: mentioned files := by
  induction h with
  | start => exact List.nil_subset _
  | @visit visits v hwalk hnext _ ih =>
    rw [visitedIds, List.map_append, List.map_singleton]
    refine List.append_subset.2 ⟨ih, List.cons_subset.2 ⟨?_, List.nil_subset _⟩⟩
    obtain ⟨-, heq | ⟨u, hu, hdep⟩⟩ := of_next? hnext
    · rw [heq]
      exact List.mem_cons_self
    · exact List.mem_cons_of_mem _
        (List.mem_map_of_mem ((hwalk.valid u hu).dependencies.mem_texts hdep))

theorem Walk.length_le (h : Walk files feed request visits) :
    visits.length ≤ (mentioned files).length + 1 := by
  have hlength := (h.nodup.subperm h.subset).length_le
  rwa [visitedIds, List.length_map, List.length_cons] at hlength

/-- Whether some ids hold the requested one and, with every package that was visited, those that it
depends on. -/
def Closed (request : PackageSpec) (visits : List Visit) (ids : Set String) : Prop :=
  request.id ∈ ids ∧ ∀ v ∈ visits, v.spec.id ∈ ids → ∀ d ∈ v.dependencies, d.id ∈ ids

theorem Walk.mem_of_closed (h : Walk files feed request visits) {ids : Set String}
    (hclosed : Closed request visits ids) : ∀ id ∈ visitedIds visits, id ∈ ids := by
  induction h with
  | start => exact List.forall_mem_nil _
  | @visit visits v _ hnext _ ih =>
    have hearlier : ∀ id ∈ visitedIds visits, id ∈ ids :=
      ih ⟨hclosed.1, fun u hu => hclosed.2 u (List.mem_append_left _ hu)⟩
    rw [visitedIds, List.map_append, List.map_singleton]
    refine List.forall_mem_append.2 ⟨hearlier, List.forall_mem_singleton.2 ?_⟩
    obtain ⟨-, heq | ⟨u, hu, hdep⟩⟩ := of_next? hnext
    · rw [heq]
      exact hclosed.1
    · exact hclosed.2 u (List.mem_append_left _ hu) (hearlier _ (List.mem_map_of_mem hu)) _ hdep

theorem Walk.isLeast (h : Walk files feed request visits) (hnext : next? request visits = none) :
    IsLeast {ids | Closed request visits ids} {id | id ∈ visitedIds visits} := by
  have hall {s : PackageSpec} (hs : s = request ∨ ∃ v ∈ visits, s ∈ v.dependencies) :
      s.id ∈ visitedIds visits := by
    simpa [unvisited] using List.find?_eq_none.1 hnext s (mem_mentions.2 hs)
  refine ⟨⟨hall (.inl rfl), fun v hv _ d hd => hall (.inr ⟨v, hv, hd⟩)⟩, ?_⟩
  exact fun ids hids id hid => h.mem_of_closed hids id hid

end Walk

theorem resolve_completes (files : FileTree) (feed : Path) (spec : PackageSpec) :
    Completes files feed spec [] [spec] (resolve files feed spec) :=
  visit_completes (spec.id :: mentioned files) (fun _ h => List.mem_cons_of_mem _ h) [] []
    [⟨spec, List.mem_cons_self⟩] .start ⟨fun _ => Iff.rfl, rfl, rfl⟩

/-- Resolution ends for every feed. It visits packages one after another, none twice and not more of
them than are mentioned, until one cannot be visited or none is left. In that case they come in the
preorder of a depth-first search, and their ids are the least set that holds the requested one and
is closed under dependencies. -/
theorem resolution_is_closure (files : FileTree) (feed : Path) (request : PackageSpec) :
    ∃ visits, Walk files feed request visits ∧
      Ends files feed request visits (resolve files feed request) ∧
      (visitedIds visits).Nodup ∧ visits.length ≤ (mentioned files).length + 1 ∧
      (next? request visits = none → Preorder [] [request] visits ∧
        IsLeast {ids | Closed request visits ids} {id | id ∈ visitedIds visits}) := by
  obtain ⟨visits, hwalk, hends, hpreorder⟩ := resolve_completes files feed request
  exact ⟨visits, hwalk, hends, hwalk.nodup, hwalk.length_le,
    fun hnext => ⟨hpreorder hnext, hwalk.isLeast hnext⟩⟩

/-- Two packages that depend on one that leads back to the first, under names in any letter case. -/
theorem closure_of_diamond_and_cycle :
    let dir (name version : String) : List (Location × Node) :=
      [(["f", name], .dir), (["f", name, version], .dir), (["f", name, version, "lib"], .dir)]
    let file (place : List String) (text : String) : Location × Node :=
      ("f" :: place, .file text.toByteArray)
    let files : FileTree := ⟨[], (["f"], .dir) :: dir "a" "1.0" ++ dir "b" "1.0" ++ dir "c" "2.0" ++
      dir "d" "1.10" ++ [(["f", "d", "1.9"], .dir),
        file ["a", "1.0", "package.deps"] "# both ways\nB\n c , 2.0",
        file ["b", "1.0", "package.deps"] "D,", file ["c", "2.0", "package.deps"] "d",
        file ["d", "1.10", "package.deps"] "A, 1.0",
        file ["a", "1.0", "lib", "A.dll"] "kmod A, Version=1",
        file ["b", "1.0", "lib", "B.dll"] "kmod B, Version=1",
        file ["c", "2.0", "lib", "C.dll"] "kmod C, Version=2",
        file ["d", "1.10", "lib", "D.dll"] "kmod D, Version=1"]⟩
    let feed : Path := ⟨"f"⟩
    let request : PackageSpec := ⟨"A", none⟩
    ∃ artifacts visits, resolve files feed request = .ok artifacts ∧
      artifacts.map (·.display) = ["f/a/1.0/lib/A.dll", "f/b/1.0/lib/B.dll", "f/d/1.10/lib/D.dll",
        "f/c/2.0/lib/C.dll"] ∧
      Walk files feed request visits ∧ artifacts = visits.flatMap (·.modules) ∧
      (visitedIds visits).Nodup ∧ Preorder [] [request] visits ∧
      IsLeast {ids | Closed request visits ids} {id | id ∈ visitedIds visits} := by
  intro dir file files feed request
  have hmodules (spec : PackageSpec) (version name : String)
      (h : (modules files (feed / spec.id / version)).toOption.map (·.map (·.display)) =
        some [name]) : ∃ found, modules files (feed / spec.id / version) = .ok found ∧
          found.map (·.display) = [name] := by
    obtain ⟨found, hfound⟩ := exists_modules files (feed / spec.id / version)
    rw [hfound] at h
    exact ⟨found, hfound, Option.some.inj h⟩
  obtain ⟨as, has, ha⟩ := hmodules request "1.0" "f/a/1.0/lib/A.dll" (by decide +kernel)
  obtain ⟨bs, hbs, hb⟩ := hmodules ⟨"B", none⟩ "1.0" "f/b/1.0/lib/B.dll" (by decide +kernel)
  obtain ⟨ds, hds, hd⟩ := hmodules ⟨"D", none⟩ "1.10" "f/d/1.10/lib/D.dll" (by decide +kernel)
  obtain ⟨cs, hcs, hc⟩ := hmodules ⟨"c", some "2.0"⟩ "2.0" "f/c/2.0/lib/C.dll" (by decide +kernel)
  obtain ⟨hofa, hofb, hofd, hofc⟩ : dependencies files (feed / request.id / "1.0") =
      .ok [⟨"B", none⟩, ⟨"c", some "2.0"⟩] ∧
    dependencies files (feed / (⟨"B", none⟩ : PackageSpec).id / "1.0") = .ok [⟨"D", none⟩] ∧
    dependencies files (feed / (⟨"D", none⟩ : PackageSpec).id / "1.10") = .ok [⟨"A", some "1.0"⟩] ∧
    dependencies files (feed / (⟨"c", some "2.0"⟩ : PackageSpec).id / "2.0") =
      .ok [⟨"d", none⟩] := by decide +kernel
  have hruns : Runs files feed [] [] [request] (as ++ bs ++ ds ++ cs) := by
    apply Runs.visit List.not_mem_nil (by decide +kernel) has hofa
    apply Runs.visit (by decide +kernel) (by decide +kernel) hbs hofb
    apply Runs.visit (by decide +kernel) (by decide +kernel) hds hofd
    apply Runs.skip (by decide +kernel)
    apply Runs.visit (by decide +kernel) (by decide +kernel) hcs hofc
    exact .skip (by decide +kernel) .done
  obtain ⟨visits, hwalk, hends, hnodup, -, hcloses⟩ := resolution_is_closure files feed request
  have hdisplay : (as ++ bs ++ ds ++ cs).map (·.display) = ["f/a/1.0/lib/A.dll",
      "f/b/1.0/lib/B.dll", "f/d/1.10/lib/D.dll", "f/c/2.0/lib/C.dll"] := by
    rw [List.map_append, List.map_append, List.map_append, ha, hb, hc, hd]
    rfl
  refine ⟨_, visits, hruns.resolve_eq, hdisplay, hwalk, ?_⟩
  rw [hruns.resolve_eq] at hends
  generalize as ++ bs ++ ds ++ cs = artifacts at hends ⊢
  cases hends with
  | done hnext => exact ⟨rfl, hnodup, hcloses hnext⟩

end Package
end ScriptSession
