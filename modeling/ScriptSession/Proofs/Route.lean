import ScriptSession.FileTree
import ScriptSession.Proofs.Outcome
import ScriptSession.Proofs.Path
/-!
What paths denote. From a directory a path leads some steps up and then down through names, or it
leads down from the root; that is its route, and paths with the same route, and only those, name
the same place from everywhere. A key keeps the names of the route and forgets the steps up.
-/
namespace ScriptSession

/-- Where a component leads from a place, without a look at any disk. -/
def Component.walk (loc : Location) : Component → Location
  | .root => []
  | .here => loc
  | .up => loc.dropLast
  | .name s => loc ++ [s]

/-- How a path leads: down from the root, or some steps up from a directory and then down. -/
inductive Route
  | absolute (names : List String)
  | relative (rise : Nat) (names : List String)
deriving DecidableEq, Repr

namespace Route

def step : Route → Component → Route
  | _, .root => .absolute []
  | r, .here => r
  | .absolute names, .up => .absolute names.dropLast
  | .relative rise [], .up => .relative (rise + 1) []
  | .relative rise (s :: names), .up => .relative rise (s :: names).dropLast
  | .absolute names, .name s => .absolute (names ++ [s])
  | .relative rise names, .name s => .relative rise (names ++ [s])

def rise : Route → Nat
  | .absolute _ => 0
  | .relative rise _ => rise

def names : Route → List String
  | .absolute names => names
  | .relative _ names => names

/-- The directory that the names of a route are taken from. -/
def anchor (base : Location) : Route → Location
  | .absolute _ => []
  | .relative rise _ => base.take (base.length - rise)

def lead (base : Location) (r : Route) : Location :=
  r.anchor base ++ r.names

def key : Route → Key
  | .absolute names => ⟨true, names⟩
  | .relative _ names => ⟨false, names⟩

theorem key_step (r : Route) (c : Component) : (r.step c).key = r.key.step c := by
  cases c with
  | root => cases r <;> rfl
  | here => cases r <;> rfl
  | name s => cases r <;> rfl
  | up =>
    cases r with
    | absolute names => rfl
    | relative rise names => cases names <;> rfl

theorem lead_step (base : Location) (r : Route) (c : Component) :
    (r.step c).lead base = c.walk (r.lead base) := by
  cases c with
  | root => cases r <;> rfl
  | here => cases r <;> rfl
  | name s => cases r <;> exact (List.append_assoc _ _ _).symm
  | up =>
    cases r with
    | absolute names => rfl
    | relative rise names =>
      cases names with
      | nil =>
        change base.take (base.length - (rise + 1)) ++ [] =
          (base.take (base.length - rise) ++ []).dropLast
        rw [List.append_nil, List.append_nil, List.dropLast_eq_take, List.take_take,
          List.length_take]
        congr 1
        omega
      | cons s names => exact (List.dropLast_append_of_ne_nil (List.cons_ne_nil _ _)).symm

theorem eq_of_lead {r r' : Route} (h : ∀ base, r.lead base = r'.lead base) : r = r' := by
  -- the root shows the names, and a directory that is deep enough shows the steps up
  have hlength (base : Location) := congrArg List.length (h base)
  have hroot := h []
  cases r with
  | absolute names =>
    cases r' with
    | absolute names' => exact congrArg _ (h [])
    | relative rise names' =>
      have hfar := hlength (List.replicate (rise + names.length + 1) "")
      simp [lead, anchor, Route.names] at hfar
      omega
  | relative rise names =>
    cases r' with
    | absolute names' =>
      have hfar := hlength (List.replicate (rise + names'.length + 1) "")
      simp [lead, anchor, Route.names] at hfar
      omega
    | relative rise' names' =>
      have hnames : names = names' := by simpa [lead, anchor, Route.names] using hroot
      have hfar := hlength (List.replicate (rise + rise') "")
      simp [lead, anchor, Route.names, hnames] at hfar
      have hrise : rise = rise' := by omega
      rw [hnames, hrise]

end Route

theorem Key.foldl_step {cs : List Component} (hcs : .root ∉ cs) (k : Key) :
    cs.foldl Key.step k = ⟨k.rooted, cs.foldl Component.walk k.names⟩ := by
  induction cs generalizing k with
  | nil => rfl
  | cons c cs ih =>
    rw [List.mem_cons, not_or] at hcs
    rw [List.foldl_cons, List.foldl_cons, ih hcs.2]
    cases c with
    | root => exact absurd rfl hcs.1
    | here | up | name s => rfl

namespace Path

/-- The place that a path names from a directory, whether or not it exists. -/
def placeFrom (base : Location) (p : Path) : Location :=
  p.components.foldl Component.walk base

def route (p : Path) : Route :=
  p.components.foldl Route.step (.relative 0 [])

theorem key_route (p : Path) : p.route.key = Key.ofPath p := by
  have hfold (cs : List Component) (r : Route) :
      (cs.foldl Route.step r).key = cs.foldl Key.step r.key := by
    induction cs generalizing r with
    | nil => rfl
    | cons c cs ih =>
      rw [List.foldl_cons, List.foldl_cons, ih, Route.key_step]
  exact hfold _ _

theorem placeFrom_eq (base : Location) (p : Path) : p.placeFrom base = p.route.lead base := by
  have hfold (cs : List Component) (r : Route) :
      cs.foldl Component.walk (r.lead base) = (cs.foldl Route.step r).lead base := by
    induction cs generalizing r with
    | nil => rfl
    | cons c cs ih =>
      rw [List.foldl_cons, List.foldl_cons, ← Route.lead_step, ih]
  have hstart : (Route.relative 0 []).lead base = base := by
    simp [Route.lead, Route.anchor, Route.names]
  have h := hfold p.components (.relative 0 [])
  rwa [hstart] at h

/-- Paths name the same place from everywhere exactly if they have the same route. -/
theorem placeFrom_eq_iff {p q : Path} :
    (∀ base, p.placeFrom base = q.placeFrom base) ↔ p.route = q.route := by
  constructor
  · intro h
    apply Route.eq_of_lead
    intro base
    rw [← placeFrom_eq, ← placeFrom_eq, h base]
  · intro h base
    rw [placeFrom_eq, placeFrom_eq, h]

theorem foldl_components {β : Type} (f : β → Component → β) (start : β)
    (hhere : f start .here = start) (p : Path) :
    p.components.foldl f start =
      p.steps.foldl f (if p.isAbsolute then f start .root else start) := by
  have hlead : ((leadMark p.text.toList).map (·.1)).foldl f start =
      if p.isAbsolute then f start .root else start := by
    unfold leadMark isAbsolute
    split
    next he => simp [he]
    next he => simpa [he] using hhere
    next he => simpa [he] using hhere
    next hroot _ _ =>
      have habs : ¬ p.text.toList.head? = some '/' := fun he =>
        (List.head?_eq_some_iff.1 he).elim hroot
      simp [habs]
  rw [components_eq, List.foldl_append, hlead, steps]

theorem rooted_ofPath (p : Path) : (Key.ofPath p).rooted = p.isAbsolute := by
  rw [Key.ofPath, foldl_components _ _ rfl, Key.foldl_step (root_notMem_steps p)]
  cases p.isAbsolute <;> rfl

theorem placeFrom_of_relative {p : Path} (hp : p.isAbsolute = false) (base : Location) :
    p.placeFrom base = p.steps.foldl Component.walk base := by
  rw [placeFrom, foldl_components _ _ rfl, hp, if_neg Bool.false_ne_true]

theorem placeFrom_join (base : Location) (b p : Path) :
    (b.join p).placeFrom base = p.placeFrom (b.placeFrom base) := by
  have hp : p.placeFrom (b.placeFrom base) =
      p.steps.foldl Component.walk (if p.isAbsolute then [] else b.placeFrom base) :=
    foldl_components _ _ rfl p
  cases habs : p.isAbsolute with
  | true =>
    have hjoin : b.join p = p := if_pos habs
    have hp' : p.placeFrom base =
        p.steps.foldl Component.walk (if p.isAbsolute then [] else base) :=
      foldl_components _ _ rfl p
    rw [hjoin, hp', hp, habs]
    rfl
  | false =>
    rw [hp, habs]
    by_cases hb : b.text = ""
    · obtain ⟨text⟩ := b
      cases hb
      have hjoin : join ⟨""⟩ p = p := by
        rw [join, habs, if_neg Bool.false_ne_true, if_pos (.inl rfl), String.empty_append]
      rw [hjoin, placeFrom, foldl_components _ _ rfl, habs]
      rfl
    · rw [placeFrom, components_join habs hb, List.foldl_append]
      rfl

/-- Where no step up is without a name before it, or where that is taken at the root, the names of
a path are taken from where the path starts. -/
theorem anchor_route {base : Location} {p : Path} (h : p.route.rise = 0 ∨ base = []) :
    p.route.anchor base = if p.isAbsolute then [] else base := by
  rw [← rooted_ofPath, ← key_route]
  generalize p.route = r at h ⊢
  cases r with
  | absolute names => rfl
  | relative rise names =>
    change base.take (base.length - rise) = base
    rcases h with hrise | rfl
    · change rise = 0 at hrise
      rw [hrise, Nat.sub_zero, List.take_length]
    · exact List.take_nil

theorem route_path {k : Key} (h : k.Proper) :
    k.path.route = if k.rooted then .absolute k.names else .relative 0 k.names := by
  rw [route, Key.components_path h]
  obtain ⟨rooted, names⟩ := k
  cases rooted with
  | true => exact Key.foldl_names _ Route.absolute (fun _ _ => rfl) [] names
  | false => exact Key.foldl_names _ (Route.relative 0) (fun _ _ => rfl) [] names

/-- The path that a key is read through leads where the path itself does if that has no steps up
before its names, or if they are taken at the root. -/
theorem placeFrom_path_iff (base : Location) (p : Path) :
    (Key.ofPath p).path.placeFrom base = p.placeFrom base ↔ p.route.rise = 0 ∨ base = [] := by
  have hkey : p.route.key = Key.ofPath p := key_route p
  rw [placeFrom_eq, placeFrom_eq, route_path (Key.proper_ofPath p), ← hkey]
  cases p.route with
  | absolute names => exact iff_of_true rfl (.inl rfl)
  | relative rise names =>
    change base.take (base.length - 0) ++ names = base.take (base.length - rise) ++ names ↔ _
    rw [List.append_left_inj, Nat.sub_zero, List.take_length]
    constructor
    · intro he
      have hlength := congrArg List.length he
      rw [List.length_take] at hlength
      by_cases hbase : base = []
      · exact .inr hbase
      · have hpos := List.length_pos_of_ne_nil hbase
        left
        change rise = 0
        omega
    · rintro (hrise | rfl)
      · change rise = 0 at hrise
        rw [hrise, Nat.sub_zero, List.take_length]
      · exact List.take_nil.symm

end Path

namespace FileTree

inductive Descends (t : FileTree) (base : Location) : List String → Prop
  | nil : Descends t base []
  | snoc {names : List String} {s : String} (h : Descends t base names)
      (hdir : t.isDirAt (base ++ names)) (hnode : (t.node? (base ++ names ++ [s])).isSome) :
      Descends t base (names ++ [s])

theorem Descends.dropLast {t : FileTree} {base : Location} {names : List String}
    (h : t.Descends base names) : t.Descends base names.dropLast := by
  cases h with
  | nil => exact .nil
  | snoc h hdir hnode =>
    rw [List.dropLast_concat]
    exact h

theorem follow_eq_ok {t : FileTree} {loc loc' : Location} {part : List Char}
    (h : t.follow loc (String.ofList part) = .ok loc') :
    t.isDirAt loc ∧ loc' = (Component.ofPart? part).toList.foldl Component.walk loc ∧
      ∀ s, Component.ofPart? part = some (.name s) → (t.node? (loc ++ [s])).isSome := by
  have htext (cs : List Char) : String.ofList part = String.ofList cs ↔ part = cs := by
    rw [← String.toList_inj, String.toList_ofList, String.toList_ofList]
  have hplain : (String.ofList part = "" ∨ String.ofList part = ".") ↔ part = [] ∨ part = ['.'] :=
    or_congr (htext []) (htext ['.'])
  have hup : String.ofList part = ".." ↔ part = ['.', '.'] := htext ['.', '.']
  unfold follow at h
  split at h
  next hdir =>
    refine ⟨hdir, ?_⟩
    unfold Component.ofPart?
    simp only [hplain, hup] at h
    split at h
    next hplain =>
      rw [if_pos hplain]
      cases h
      exact ⟨rfl, fun s hs => nomatch hs⟩
    next hplain =>
      rw [if_neg hplain]
      split at h
      next hup =>
        rw [if_pos hup]
        cases h
        exact ⟨rfl, fun s hs => nomatch hs⟩
      next hup =>
        rw [if_neg hup]
        split at h
        next hnode =>
          cases h
          refine ⟨rfl, fun s hs => ?_⟩
          cases hs
          exact hnode
        next => cases h
  next => cases h

theorem Descends.follow {t : FileTree} {base loc' : Location} {r : Route} {part : List Char}
    (hd : t.Descends (r.anchor base) r.names)
    (h : t.follow (r.lead base) (String.ofList part) = .ok loc') :
    loc' = ((Component.ofPart? part).toList.foldl Route.step r).lead base ∧
      t.Descends (((Component.ofPart? part).toList.foldl Route.step r).anchor base)
        ((Component.ofPart? part).toList.foldl Route.step r).names := by
  obtain ⟨hdir, hloc, hnode⟩ := follow_eq_ok h
  cases hc : Component.ofPart? part with
  | none =>
    rw [hc] at hloc
    exact ⟨hloc, hd⟩
  | some c =>
    rw [hc] at hloc
    refine ⟨hloc.trans (Route.lead_step base r c).symm, ?_⟩
    change t.Descends ((r.step c).anchor base) (r.step c).names
    cases c with
    | root => cases r <;> exact .nil
    | here => cases r <;> exact hd
    | up =>
      cases r with
      | absolute names => exact hd.dropLast
      | relative rise names =>
        cases names with
        | nil => exact .nil
        | cons s names => exact hd.dropLast
    | name s =>
      cases r with
      | absolute names => exact hd.snoc hdir (hnode s hc)
      | relative rise names => exact hd.snoc hdir (hnode s hc)

theorem Descends.followAll {t : FileTree} {base loc' : Location} {r : Route}
    {parts : List (List Char)} (hd : t.Descends (r.anchor base) r.names)
    (h : (parts.map String.ofList).foldlM t.follow (r.lead base) = .ok loc') :
    loc' = ((parts.filterMap Component.ofPart?).foldl Route.step r).lead base ∧
      t.Descends (((parts.filterMap Component.ofPart?).foldl Route.step r).anchor base)
        ((parts.filterMap Component.ofPart?).foldl Route.step r).names := by
  induction parts generalizing r with
  | nil =>
    cases h
    exact ⟨rfl, hd⟩
  | cons part parts ih =>
    rw [List.map_cons, List.foldlM_cons] at h
    obtain ⟨loc, hfirst, hrest⟩ := Except.bind_eq_ok_iff.1 h
    obtain ⟨hloc, hd'⟩ := hd.follow hfirst
    have hsteps : (part :: parts).filterMap Component.ofPart? =
        (Component.ofPart? part).toList ++ parts.filterMap Component.ofPart? := by
      rw [List.filterMap_cons]
      cases Component.ofPart? part <;> rfl
    rw [hloc] at hrest
    rw [hsteps, List.foldl_append]
    exact ih hd' hrest

theorem follow_name {t : FileTree} {loc : Location} {s : String} (hs : Path.IsName s)
    (hdir : t.isDirAt loc) (hnode : (t.node? (loc ++ [s])).isSome) :
    t.follow loc s = .ok (loc ++ [s]) := by
  obtain ⟨-, hempty, hdot, hup⟩ := hs
  rw [follow, if_pos hdir, if_neg (not_or_intro hempty hdot), if_neg hup, if_pos hnode]

theorem Descends.foldlM {t : FileTree} {base : Location} {names : List String}
    (h : t.Descends base names) (hproper : ∀ s ∈ names, Path.IsName s) :
    names.foldlM t.follow base = .ok (base ++ names) := by
  induction h with
  | nil => exact congrArg _ (List.append_nil base).symm
  | snoc h hdir hnode ih =>
    rename_i names s
    obtain ⟨hnames, hs⟩ := List.forall_mem_append.1 hproper
    have hlast := follow_name (hs s List.mem_cons_self) hdir hnode
    rw [List.append_assoc] at hlast
    rw [List.foldlM_append, ih hnames]
    exact Except.bind_eq_ok_iff.2 ⟨_, rfl, Except.bind_eq_ok_iff.2 ⟨_, hlast, rfl⟩⟩

/-- Where a path was followed, it led to the place that it names, and its names can be followed
down from where its steps up ended. -/
theorem locate_eq_ok {t : FileTree} {p : Path} {loc : Location} (h : t.locate p = .ok loc) :
    t.isDirAt (if p.isAbsolute then [] else t.cwd) ∧ loc = p.placeFrom t.cwd ∧
      t.Descends (p.route.anchor t.cwd) p.route.names := by
  unfold locate at h
  split at h
  next => cases h
  next =>
    have hroute : p.route = p.steps.foldl Route.step
        (if p.isAbsolute then .absolute [] else .relative 0 []) :=
      Path.foldl_components _ _ rfl p
    have hlead : (if p.isAbsolute then Route.absolute [] else .relative 0 []).lead t.cwd =
        if p.isAbsolute then [] else t.cwd := by
      cases p.isAbsolute with
      | true => rfl
      | false => simp [Route.lead, Route.anchor, Route.names]
    have hstart : t.Descends
        ((if p.isAbsolute then Route.absolute [] else .relative 0 []).anchor t.cwd)
        (if p.isAbsolute then Route.absolute [] else .relative 0 []).names := by
      cases p.isAbsolute <;> exact .nil
    constructor
    · obtain ⟨part, parts, hparts⟩ :=
        List.exists_cons_of_ne_nil (List.splitOn_ne_nil '/' p.text.toList)
      rw [hparts, List.map_cons, List.foldlM_cons] at h
      obtain ⟨loc', hfirst, -⟩ := Except.bind_eq_ok_iff.1 h
      exact (follow_eq_ok hfirst).1
    · rw [← hlead] at h
      rw [Path.placeFrom_eq, hroute]
      exact hstart.followAll h

theorem locate_path {t : FileTree} {k : Key} (h : k.Proper) (hne : k.names ≠ [])
    (hd : t.Descends (if k.rooted then [] else t.cwd) k.names) :
    t.locate k.path = .ok ((if k.rooted then [] else t.cwd) ++ k.names) := by
  have hne' : k.names.map String.toList ≠ [] := fun he => hne (List.map_eq_nil_iff.1 he)
  have hparts : (['/'].intercalate (k.names.map String.toList)).splitOn '/' =
      k.names.map String.toList := by
    apply List.splitOn_intercalate '/' _ hne'
    intro part hpart
    obtain ⟨s, hs, rfl⟩ := List.mem_map.1 hpart
    exact (h s hs).1
  have hback : (k.names.map String.toList).map String.ofList = k.names := by
    rw [List.map_map]
    exact (List.map_congr_left fun s _ => String.ofList_toList).trans (List.map_id _)
  have htext : k.path.text.toList = (if k.rooted then ['/'] else []) ++
      ['/'].intercalate (k.names.map String.toList) := Key.toList_display k
  have hfollow := hd.foldlM h
  have hlead := Key.leadMark_intercalate h
  have hnonempty : k.path.text ≠ "" := by
    intro he
    rw [he] at htext
    have hnil := (List.append_eq_nil_iff.1 htext.symm).2
    rw [hnil, List.splitOn_nil] at hparts
    have hmem : [] ∈ k.names.map String.toList := by
      rw [← hparts]
      exact List.mem_singleton_self []
    obtain ⟨s, hs, hs'⟩ := List.mem_map.1 hmem
    exact (h s hs).2.1 (String.toList_inj.1 hs')
  cases hrooted : k.rooted with
  | true =>
    rw [hrooted] at htext hfollow
    have habs : k.path.isAbsolute = true := by
      unfold Path.isAbsolute
      rw [htext]
      rfl
    have hsplit : k.path.text.toList.splitOn '/' = [] :: k.names.map String.toList := by
      rw [htext]
      change ([] ++ '/' :: ['/'].intercalate (k.names.map String.toList)).splitOn '/' = _
      rw [List.splitOn_append_cons_self, hparts, List.splitOn_nil]
      rfl
    rw [locate, if_neg hnonempty, habs, hsplit, List.map_cons, hback]
    exact hfollow
  | false =>
    rw [hrooted] at htext hfollow
    have habs : k.path.isAbsolute = false := by
      apply decide_eq_false
      intro hhead
      obtain ⟨cs, hcs⟩ := List.head?_eq_some_iff.1 hhead
      have hcs' : ['/'].intercalate (k.names.map String.toList) = '/' :: cs := htext.symm.trans hcs
      rw [hcs'] at hlead
      cases hlead
    have hsplit : k.path.text.toList.splitOn '/' = k.names.map String.toList := by
      rw [htext]
      exact hparts
    rw [locate, if_neg hnonempty, habs, hsplit, hback]
    exact hfollow

/-- What a path reads is read through the path of its key too, where that path names the same
place. -/
theorem readBytes_path {t : FileTree} {p : Path} {bytes : ByteArray}
    (hplace : p.route.rise = 0 ∨ t.cwd = []) (h : t.readBytes p = .ok bytes) :
    t.readBytes (Key.ofPath p).path = .ok bytes := by
  obtain ⟨n, hfind, hn⟩ := Except.bind_eq_ok_iff.1 h
  obtain ⟨loc, hloc, hnode⟩ := Except.bind_eq_ok_iff.1 hfind
  obtain ⟨hdir, hlead, hdescends⟩ := locate_eq_ok hloc
  have hanchor := Path.anchor_route hplace
  have hnames : p.route.names = (Key.ofPath p).names := by
    rw [← p.key_route]
    cases p.route <;> rfl
  rw [Path.placeFrom_eq, Route.lead, hanchor, hnames, ← Path.rooted_ofPath] at hlead
  rw [hanchor, hnames, ← Path.rooted_ofPath] at hdescends
  rw [← Path.rooted_ofPath] at hdir
  -- A path without names leads to the directory that it is taken from, which is no file.
  have hne : (Key.ofPath p).names ≠ [] := by
    intro hnil
    rw [hnil, List.append_nil] at hlead
    subst hlead
    unfold isDirAt at hdir
    split at hdir
    next he =>
      rw [he] at hnode
      cases hnode
      cases hn
    next => cases hdir
  have hpath : t.locate (Key.ofPath p).path = .ok loc := by
    rw [locate_path (Key.proper_ofPath p) hne hdescends, hlead]
  unfold readBytes find
  unfold readBytes find at h
  rw [hloc] at h
  rw [hpath]
  exact h

end FileTree

namespace Path

theorem route_eq_iff {p q : Path} :
    p.route = q.route ↔ Key.ofPath p = Key.ofPath q ∧ p.route.rise = q.route.rise := by
  rw [← key_route, ← key_route]
  constructor
  · intro h
    rw [h]
    exact ⟨rfl, rfl⟩
  · rintro ⟨hkey, hrise⟩
    cases hp : p.route with
    | absolute names =>
      cases hq : q.route with
      | absolute names' =>
        rw [hp, hq] at hkey
        exact congrArg Route.absolute (Key.mk.inj hkey).2
      | relative rise names' =>
        rw [hp, hq] at hkey
        exact nomatch (Key.mk.inj hkey).1
    | relative rise names =>
      cases hq : q.route with
      | absolute names' =>
        rw [hp, hq] at hkey
        exact nomatch (Key.mk.inj hkey).1
      | relative rise' names' =>
        rw [hp, hq] at hkey hrise
        have hnames : names = names' := (Key.mk.inj hkey).2
        have hrise' : rise = rise' := hrise
        rw [hnames, hrise']

/-- A key keeps all of what a path denotes but the steps up that have no name before them: the path
that a key is read through names the same place from a directory exactly where there are none, or
where that directory is the root; paths that name the same place from everywhere are those with one
key and as many such steps; and without them what the path reads is read through its key. -/
theorem key_keeps_all_but_rise (p : Path) :
    (∀ (b : Path) (base : Location), (b.join (Key.ofPath p).path).placeFrom base =
      (b.join p).placeFrom base ↔ p.route.rise = 0 ∨ b.placeFrom base = []) ∧
    (∀ q : Path, (∀ base, p.placeFrom base = q.placeFrom base) ↔
      Key.ofPath p = Key.ofPath q ∧ p.route.rise = q.route.rise) ∧
    ∀ (t : FileTree) (bytes : ByteArray), p.route.rise = 0 ∨ t.cwd = [] →
      t.readBytes p = .ok bytes → t.readBytes (Key.ofPath p).path = .ok bytes := by
  refine ⟨fun b base => ?_, fun q => ?_, fun t bytes hplace hread => ?_⟩
  · rw [placeFrom_join, placeFrom_join]
    exact placeFrom_path_iff _ _
  · rw [placeFrom_eq_iff, route_eq_iff]
  · exact FileTree.readBytes_path hplace hread

/-- A step back out of a directory is kept: the same file is read. -/
theorem key_keeps_inner_step_up :
    let t : FileTree := ⟨["d"],
      [(["d"], .dir), (["d", "lib"], .dir), (["d", "x.dll"], .file ⟨#[1]⟩)]⟩
    Key.ofPath ⟨"lib/../x.dll"⟩ = ⟨false, ["x.dll"]⟩ ∧
      t.readBytes (Key.ofPath ⟨"lib/../x.dll"⟩).path = .ok ⟨#[1]⟩ :=
  ⟨by decide, (key_keeps_all_but_rise ⟨"lib/../x.dll"⟩).2.2 _ _ (.inl (by decide)) rfl⟩

/-- A step up in front is lost: from `/d` the path of the key names another place, a path to that
place has the same key, and another file is read through it. -/
theorem key_loses_leading_step_up :
    let t : FileTree := ⟨["d"],
      [(["d"], .dir), (["d", "x.dll"], .file ⟨#[1]⟩), (["x.dll"], .file ⟨#[2]⟩)]⟩
    placeFrom [] (join ⟨"/d"⟩ (Key.ofPath ⟨"../x.dll"⟩).path) = ["d", "x.dll"] ∧
      placeFrom [] (join ⟨"/d"⟩ ⟨"../x.dll"⟩) = ["x.dll"] ∧
      Key.ofPath ⟨"../x.dll"⟩ = Key.ofPath ⟨"x.dll"⟩ ∧
      t.readBytes ⟨"../x.dll"⟩ = .ok ⟨#[2]⟩ ∧
      t.readBytes (Key.ofPath ⟨"../x.dll"⟩).path = .ok ⟨#[1]⟩ :=
  ⟨by decide, by decide, by decide, rfl, rfl⟩

end Path
end ScriptSession
