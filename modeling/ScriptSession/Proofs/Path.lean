import ScriptSession.Path.Key
import ScriptSession.Proofs.Text

namespace ScriptSession

def Component.ofPart? (part : List Char) : Option Component :=
  if part = [] ∨ part = ['.'] then none
  else if part = ['.', '.'] then some .up
  else some (.name (String.ofList part))

namespace Path

/-- Whether a text is the name of a place inside a directory. -/
def IsName (s : String) : Prop :=
  '/' ∉ s.toList ∧ s ≠ "" ∧ s ≠ "." ∧ s ≠ ".."

instance (s : String) : Decidable (IsName s) :=
  inferInstanceAs (Decidable (_ ∧ _))

theorem isName_append {s t : String} (hs : '/' ∉ s.toList) (ht : '/' ∉ t.toList)
    (hlong : 2 < t.length) : IsName (s ++ t) := by
  have hne {u : String} (hu : u.length ≤ 2) : s ++ t ≠ u := by
    rintro rfl
    rw [String.length_append] at hu
    omega
  refine ⟨?_, hne (by decide), hne (by decide), hne (by decide)⟩
  rw [String.toList_append]
  exact fun hm => (List.mem_append.1 hm).elim hs ht

theorem IsName.ofPart? {s : String} (h : IsName s) :
    Component.ofPart? s.toList = some (.name s) := by
  obtain ⟨-, hempty, hdot, hdots⟩ := h
  have hempty' : s.toList ≠ [] := fun he => hempty (String.toList_inj.1 he)
  have hdot' : s.toList ≠ ['.'] := fun he => hdot (String.toList_inj.1 he)
  have hdots' : s.toList ≠ ['.', '.'] := fun he => hdots (String.toList_inj.1 he)
  unfold Component.ofPart?
  rw [if_neg (not_or_intro hempty' hdot'), if_neg hdots', String.ofList_toList]

theorem map_partMarks (pos : Nat) (parts : List (List Char)) :
    (partMarks pos parts).map (·.1) = parts.filterMap Component.ofPart? := by
  induction parts generalizing pos with
  | nil => rfl
  | cons part rest ih =>
    unfold partMarks
    rw [List.filterMap_cons]
    unfold Component.ofPart?
    split
    · exact ih _
    · split
      · exact congrArg (Component.up :: ·) (ih _)
      · exact congrArg (Component.name _ :: ·) (ih _)

/-- The parts of a path between separators, as far as they leave a component. -/
def steps (p : Path) : List Component :=
  (p.text.toList.splitOn '/').filterMap Component.ofPart?

theorem root_notMem_steps (p : Path) : .root ∉ p.steps := by
  intro hm
  obtain ⟨part, -, hpart⟩ := List.mem_filterMap.1 hm
  unfold Component.ofPart? at hpart
  split at hpart
  · cases hpart
  · split at hpart <;> cases hpart

theorem components_eq (p : Path) :
    p.components = (leadMark p.text.toList).map (·.1) ++ p.steps := by
  rw [components, marks, List.map_append, map_partMarks]
  rfl

theorem leadMark_append (cs rest : List Char) :
    leadMark (cs ++ '/' :: rest) = if cs = [] then [(.root, 1)] else leadMark cs := by
  match cs with
  | [] => rfl
  | [c] =>
    by_cases hs : c = '/'
    · subst hs; rfl
    · by_cases hd : c = '.'
      · subst hd; rfl
      · simp [leadMark, hs, hd]
  | c :: d :: cs =>
    by_cases hs : c = '/'
    · subst hs; rfl
    · by_cases hd : c = '.'
      · subst hd
        by_cases he : d = '/'
        · subst he; rfl
        · simp [leadMark, he]
      · simp [leadMark, hs, hd]

theorem leadMark_of_isName {s : String} (h : IsName s) : leadMark s.toList = [] := by
  obtain ⟨hslash, -, hdot, -⟩ := h
  have hdot' : s.toList ≠ ['.'] := fun he => hdot (String.toList_inj.1 he)
  unfold leadMark
  split
  next he =>
    rw [he] at hslash
    exact absurd List.mem_cons_self hslash
  next he => exact absurd he hdot'
  next he =>
    rw [he] at hslash
    exact absurd (List.mem_cons_of_mem _ List.mem_cons_self) hslash
  next => rfl

theorem relative_of_slash {s : String} (hs : '/' ∉ s.toList) : (⟨s⟩ : Path).isAbsolute = false :=
  decide_eq_false fun he => hs (List.mem_of_head? he)

theorem toList_join {b p : Path} (hp : p.isAbsolute = false) (hb : b.text ≠ "") :
    ∃ front, (b.join p).text.toList = front ++ '/' :: p.text.toList ∧
      (b.text.toList = front ∧ front ≠ [] ∨ b.text.toList = front ++ ['/']) := by
  unfold join
  rw [hp, if_neg Bool.false_ne_true]
  split
  next hend =>
    obtain ⟨front, hfront⟩ := List.getLast?_eq_some_iff.1 (hend.resolve_left hb)
    refine ⟨front, ?_, .inr hfront⟩
    rw [String.toList_append, hfront, List.append_assoc, List.singleton_append]
  next hmid =>
    refine ⟨b.text.toList, ?_, .inl ⟨rfl, fun he => hb (String.toList_inj.1 he)⟩⟩
    rw [String.toList_append, String.toList_append, List.append_assoc]
    rfl

theorem components_join {b p : Path} (hp : p.isAbsolute = false) (hb : b.text ≠ "") :
    (b.join p).components = b.components ++ p.steps := by
  obtain ⟨front, hjoin, hfront⟩ := toList_join hp hb
  rw [components_eq, components_eq, steps, steps, hjoin, leadMark_append,
    List.splitOn_append_cons_self, List.filterMap_append]
  rcases hfront with ⟨hfront, hne⟩ | hfront
  · rw [hfront, if_neg hne, List.append_assoc]
    rfl
  · rw [hfront, leadMark_append, List.splitOn_append_cons_self, List.filterMap_append,
      List.append_assoc, List.append_assoc]
    rfl

theorem components_div_of_ne {p : Path} {s : String} (hp : p.text ≠ "") (hs : '/' ∉ s.toList) :
    (p / s).components = p.components ++ (Component.ofPart? s.toList).toList := by
  have hsteps : steps ⟨s⟩ = (Component.ofPart? s.toList).toList := by
    rw [steps, List.splitOn_eq_singleton hs, List.filterMap_cons]
    cases Component.ofPart? s.toList <;> rfl
  rw [← hsteps]
  exact components_join (relative_of_slash hs) hp

theorem components_div (p : Path) {s : String} (h : IsName s) :
    (p / s).components = p.components ++ [.name s] := by
  by_cases hp : p.text = ""
  · obtain ⟨text⟩ := p
    cases hp
    change (join ⟨""⟩ ⟨s⟩).components = _
    unfold join
    rw [relative_of_slash h.1, if_neg Bool.false_ne_true, if_pos (.inl rfl), String.empty_append,
      components_eq, steps, leadMark_of_isName h, List.splitOn_eq_singleton h.1,
      List.filterMap_cons, h.ofPart?]
    rfl
  · rw [components_div_of_ne hp h.1, h.ofPart?]
    rfl

end Path

theorem Key.ofPath_div (p : Path) {s : String} (h : Path.IsName s) :
    ofPath (p / s) = { ofPath p with names := (ofPath p).names ++ [s] } := by
  rw [ofPath, Path.components_div p h, List.foldl_append]
  rfl

namespace Key

theorem isUnder_iff {k dir : Key} : k.isUnder dir ↔ dir.components <+: k.components :=
  List.isPrefixOf_iff_prefix

theorem isUnder_refl (k : Key) : k.isUnder k :=
  isUnder_iff.2 List.prefix_rfl

/-- What a directory holds under a text without separators lies under it, unless the text is a step
up. -/
theorem isUnder_of_div {p : Path} {s : String} (hp : p.text ≠ "") (hs : '/' ∉ s.toList)
    (hup : Component.ofPart? s.toList ≠ some .up) : (ofPath (p / s)).isUnder (ofPath p) := by
  have hkey : ofPath (p / s) = (Component.ofPart? s.toList).toList.foldl step (ofPath p) := by
    rw [ofPath, Path.components_div_of_ne hp hs, List.foldl_append]
    rfl
  rw [hkey]
  unfold Component.ofPart? at hup ⊢
  by_cases hplain : s.toList = [] ∨ s.toList = ['.']
  · rw [if_pos hplain]
    exact isUnder_refl _
  · rw [if_neg hplain] at hup ⊢
    have hdots : s.toList ≠ ['.', '.'] := fun he => hup (if_pos he)
    rw [if_neg hdots]
    apply isUnder_iff.2
    simp [components, step]

end Key

namespace Component

theorem isName_of_ofPart? {part : List Char} {s : String} (hp : '/' ∉ part)
    (h : ofPart? part = some (.name s)) : Path.IsName s := by
  unfold ofPart? at h
  split at h
  · cases h
  next hdot =>
    split at h
    · cases h
    next hdots =>
      cases h
      rw [not_or] at hdot
      have hne (u : String) (hu : part ≠ u.toList) : String.ofList part ≠ u := by
        intro he
        rw [← he, String.toList_ofList] at hu
        exact hu rfl
      refine ⟨?_, hne "" hdot.1, hne "." hdot.2, hne ".." hdots⟩
      rwa [String.toList_ofList]

end Component

namespace Path

theorem name_notMem_leadMark (cs : List Char) (s : String) :
    Component.name s ∉ (leadMark cs).map (·.1) := by
  unfold leadMark
  split <;> simp

theorem isName_of_mem_components {p : Path} {s : String} (h : Component.name s ∈ p.components) :
    IsName s := by
  rw [components_eq] at h
  have hparts := (List.mem_append.1 h).resolve_left (name_notMem_leadMark _ s)
  obtain ⟨part, hmem, hpart⟩ := List.mem_filterMap.1 hparts
  exact Component.isName_of_ofPart? (Text.not_mem_of_mem_splitOn hmem) hpart

end Path

namespace Key

def Proper (k : Key) : Prop :=
  ∀ s ∈ k.names, Path.IsName s

theorem Proper.step {k : Key} (h : k.Proper) {c : Component}
    (hc : ∀ s, c = .name s → Path.IsName s) : (k.step c).Proper := by
  cases c with
  | root => exact List.forall_mem_nil _
  | here => exact h
  | up =>
    intro s hs
    exact h s (List.dropLast_subset _ hs)
  | name s => exact List.forall_mem_append.2 ⟨h, List.forall_mem_singleton.2 (hc s rfl)⟩

theorem proper_ofPath (p : Path) : (ofPath p).Proper := by
  have hfold (cs : List Component) (k : Key) (hk : k.Proper)
      (hcs : ∀ s, Component.name s ∈ cs → Path.IsName s) : (cs.foldl Key.step k).Proper := by
    induction cs generalizing k with
    | nil => exact hk
    | cons c cs ih =>
      apply ih
      · apply hk.step
        rintro s rfl
        exact hcs s List.mem_cons_self
      · intro s hs
        exact hcs s (List.mem_cons_of_mem _ hs)
  exact hfold _ _ (List.forall_mem_nil _) fun s hs => Path.isName_of_mem_components hs

theorem leadMark_intercalate {names : List String} (h : ∀ s ∈ names, Path.IsName s) :
    Path.leadMark (['/'].intercalate (names.map String.toList)) = [] := by
  cases names with
  | nil => rfl
  | cons s names =>
    have hs : Path.IsName s := h s List.mem_cons_self
    cases names with
    | nil =>
      rw [List.map_singleton, List.intercalate_singleton]
      exact Path.leadMark_of_isName hs
    | cons s' names =>
      have hne : s.toList ≠ [] := fun he => hs.2.1 (String.toList_inj.1 he)
      rw [List.map_cons, List.map_cons, List.intercalate_cons_cons, List.append_assoc,
        List.singleton_append, Path.leadMark_append, if_neg hne]
      exact Path.leadMark_of_isName hs

theorem parts_intercalate {names : List String} (h : ∀ s ∈ names, Path.IsName s) :
    ((['/'].intercalate (names.map String.toList)).splitOn '/').filterMap Component.ofPart? =
      names.map .name := by
  have hparts : (names.map String.toList).filterMap Component.ofPart? = names.map .name := by
    rw [List.filterMap_map, ← List.filterMap_eq_map]
    apply List.filterMap_congr
    intro s hs
    exact (h s hs).ofPart?
  cases names with
  | nil => rfl
  | cons s names =>
    rw [List.splitOn_intercalate '/' _ (by simp), hparts]
    intro part hpart
    obtain ⟨s', hs', rfl⟩ := List.mem_map.1 hpart
    exact (h s' hs').1

theorem toList_display (k : Key) : k.display.toList =
    (if k.rooted then ['/'] else []) ++ ['/'].intercalate (k.names.map String.toList) := by
  have hslash : "/".toList = ['/'] := rfl
  unfold display
  rw [String.toList_append, String.toList_intercalate, hslash]
  cases k.rooted with
  | false => rfl
  | true => exact congrArg (· ++ _) hslash

theorem components_path {k : Key} (h : k.Proper) : k.path.components = k.components := by
  obtain ⟨rooted, names⟩ := k
  rw [Path.components_eq, Path.steps, path, toList_display]
  cases rooted with
  | false =>
    change (Path.leadMark (['/'].intercalate _)).map _ ++ _ = _
    rw [leadMark_intercalate h]
    exact parts_intercalate h
  | true =>
    change Component.root :: (([] ++ '/' :: ['/'].intercalate _).splitOn '/').filterMap _ = _
    rw [List.splitOn_append_cons_self, List.filterMap_append]
    exact congrArg (Component.root :: ·) (parts_intercalate h)

theorem fileName?_path {k : Key} (h : k.Proper) : k.path.fileName? = k.fileName? := by
  rw [Path.fileName?, components_path h]
  obtain ⟨rooted, names⟩ := k
  obtain rfl | ⟨front, s, rfl⟩ := List.eq_nil_or_concat' names
  · cases rooted <;> rfl
  · unfold components fileName?
    rw [List.map_append, ← List.append_assoc, List.map_singleton, List.getLast?_concat,
      List.getLast?_concat]

theorem foldl_names {β : Type} (f : β → Component → β) (gather : List String → β)
    (hstep : ∀ front s, f (gather front) (.name s) = gather (front ++ [s]))
    (front names : List String) :
    (names.map Component.name).foldl f (gather front) = gather (front ++ names) := by
  induction names generalizing front with
  | nil => rw [List.append_nil]; rfl
  | cons s names ih =>
    rw [List.map_cons, List.foldl_cons, hstep, ih, List.append_assoc, List.singleton_append]

/-- The path that a key is read through has that key. -/
theorem ofPath_path {k : Key} (h : k.Proper) : ofPath k.path = k := by
  rw [ofPath, components_path h]
  obtain ⟨rooted, names⟩ := k
  cases rooted with
  | false => exact foldl_names _ (Key.mk false) (fun _ _ => rfl) [] names
  | true => exact foldl_names _ (Key.mk true) (fun _ _ => rfl) [] names

end Key
end ScriptSession
