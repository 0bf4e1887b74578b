import ScriptSession.Proofs.Loading

namespace ScriptSession

/-- A path that a table is asked to load, with the files that it finds. -/
structure Offer where
  files : FileTree
  path : Path

namespace ModuleTable

/-- What becomes of an offer, and the table after it; an error brings no table of its own. -/
def offer (t : ModuleTable) (o : Offer) : Except ModuleError Admission × ModuleTable :=
  match t.load o.files o.path with
  | .ok (a, t') => (.ok a, t')
  | .error e => (.error e, t)

def after (t : ModuleTable) (offers : List Offer) : ModuleTable :=
  offers.foldl (fun t o => (t.offer o).2) t

def add (t : ModuleTable) (m : Module) : ModuleTable :=
  ⟨t.modules.insert m.name m, (t.index m).origins⟩

/-- How an offer can end. A path that is known is not looked at; of any other the file is read, and
where that holds a module, it is refused, known under another path, or new. -/
inductive Offered (t : ModuleTable) (o : Offer) : Except ModuleError Admission → ModuleTable → Prop
  | known : t.knowsPath o.path = true → Offered t o (.ok .alreadyLoaded) t
  | failed {e : ModuleError} : t.knowsPath o.path = false →
      ModuleFile.load o.files o.path = .error e → Offered t o (.error e) t
  | refused {m held : Module} : t.knowsPath o.path = false →
      ModuleFile.load o.files o.path = .ok m → t.get? m.name = some held →
      held.identity ≠ m.identity → Offered t o (.ok (.conflict held.identity)) t
  | shared {m held : Module} : t.knowsPath o.path = false →
      ModuleFile.load o.files o.path = .ok m → t.get? m.name = some held →
      held.identity = m.identity → Offered t o (.ok .alreadyLoaded) (t.index m)
  | added {m : Module} : t.knowsPath o.path = false →
      ModuleFile.load o.files o.path = .ok m → t.get? m.name = none →
      Offered t o (.ok .added) (t.add m)

theorem offered (t : ModuleTable) (o : Offer) : t.Offered o (t.offer o).1 (t.offer o).2 := by
  unfold offer load
  cases hknown : t.knowsPath o.path with
  | true => exact .known hknown
  | false =>
    rw [if_neg Bool.false_ne_true]
    cases hload : ModuleFile.load o.files o.path with
    | error e => exact .failed hknown hload
    | ok m =>
      dsimp only [Except.map]
      unfold accept
      cases hheld : t.get? m.name with
      | none => exact .added hknown hload hheld
      | some held =>
        dsimp only
        split
        next hsame => exact .shared hknown hload hheld hsame
        next hother => exact .refused hknown hload hheld hother

theorem offer_of_knowsPath {t : ModuleTable} {p : Path} (h : t.knowsPath p) (files : FileTree) :
    t.offer ⟨files, p⟩ = (.ok .alreadyLoaded, t) := by
  unfold offer load
  rw [if_pos h]

theorem originOf?_index (t : ModuleTable) (m : Module) (p : Path) :
    (t.index m).originOf? p =
      if p.components = m.path.components then some m.name else t.originOf? p := by
  simp only [originOf?, index, List.lookup_cons]
  split
  next h => rw [if_pos (beq_iff_eq.1 h)]
  next h => rw [if_neg (beq_eq_false_iff_ne.1 h)]

theorem get?_add (t : ModuleTable) (m : Module) (name : String) :
    (t.add m).get? name = if m.name = name then some m else t.get? name := by
  simp only [get?, add, Std.ExtTreeMap.getElem?_insert, Std.LawfulEqCmp.compare_eq_iff_eq]

theorem originOf?_add (t : ModuleTable) (m : Module) (p : Path) :
    (t.add m).originOf? p =
      if p.components = m.path.components then some m.name else t.originOf? p :=
  originOf?_index t m p

/-- Whether `u` holds all modules of `t`, and all its paths for the same names. -/
structure Extends (t u : ModuleTable) : Prop where
  modules : ∀ name m, t.get? name = some m → u.get? name = some m
  origins : ∀ p name, t.originOf? p = some name → u.originOf? p = some name

section Extends

variable {t u v : ModuleTable}

theorem Extends.refl (t : ModuleTable) : t.Extends t :=
  ⟨fun _ _ h => h, fun _ _ h => h⟩

theorem Extends.trans (h : t.Extends u) (h' : u.Extends v) : t.Extends v :=
  ⟨fun name m hm => h'.modules name m (h.modules name m hm),
    fun p name hp => h'.origins p name (h.origins p name hp)⟩

/-- The path of a module that is new to a table gives no path of the table another name. -/
theorem extends_index {o : Offer} {m : Module} (hknown : t.knowsPath o.path = false)
    (hload : ModuleFile.load o.files o.path = .ok m) : t.Extends (t.index m) := by
  refine ⟨fun _ _ h => h, fun p name hp => ?_⟩
  have hother : p.components ≠ m.path.components := by
    intro hsame
    rw [ModuleFile.path_load hload] at hsame
    have hfound : t.originOf? o.path = some name := by
      rw [originOf?, ← hsame]
      exact hp
    rw [knowsPath, hfound] at hknown
    cases hknown
  rw [originOf?_index, if_neg hother]
  exact hp

theorem Offered.extends {o : Offer} {outcome : Except ModuleError Admission}
    (h : t.Offered o outcome u) : t.Extends u := by
  cases h with
  | known | failed | refused => exact .refl t
  | shared hknown hload => exact extends_index hknown hload
  | @added m hknown hload hnew =>
    refine ⟨fun name held hheld => ?_, (extends_index hknown hload).origins⟩
    have hother : m.name ≠ name := by
      rintro rfl
      cases hnew.symm.trans hheld
    rw [get?_add, if_neg hother]
    exact hheld

theorem extends_after (t : ModuleTable) (offers : List Offer) : t.Extends (t.after offers) := by
  induction offers generalizing t with
  | nil => exact .refl t
  | cons o rest ih => exact (t.offered o).extends.trans (ih _)

end Extends

/-- How modules and paths hang together: a module stands under its own name, which its own path is
known for, and a path is known for a name under which a module stands. -/
structure Consistent (t : ModuleTable) : Prop where
  named : ∀ name m, t.get? name = some m → m.name = name
  own : ∀ name m, t.get? name = some m → t.originOf? m.path = some name
  loaded : ∀ p name, t.originOf? p = some name → ∃ m, t.get? name = some m

theorem consistent_empty : empty.Consistent := by
  have hnone (name : String) (m : Module) : empty.get? name ≠ some m := by
    intro h
    cases Std.ExtTreeMap.getElem?_empty.symm.trans h
  exact ⟨fun name m h => absurd h (hnone name m), fun name m h => absurd h (hnone name m), nofun⟩

section Consistent

variable {t u : ModuleTable}

theorem Offered.consistent {o : Offer} {outcome : Except ModuleError Admission}
    (h : t.Offered o outcome u) (ht : t.Consistent) : u.Consistent := by
  have hextends := h.extends
  cases h with
  | known | failed | refused => exact ht
  | @shared m held hknown hload hheld hsame =>
    refine ⟨ht.named, fun name m hm => hextends.origins _ _ (ht.own name m hm), ?_⟩
    intro p name hp
    rw [originOf?_index] at hp
    split at hp
    · cases hp
      exact ⟨held, hheld⟩
    · exact ht.loaded p name hp
  | @added m hknown hload hnew =>
    constructor
    · intro name m' hm'
      rw [get?_add] at hm'
      split at hm'
      next hname =>
        cases hm'
        exact hname
      · exact ht.named name m' hm'
    · intro name m' hm'
      rw [get?_add] at hm'
      split at hm'
      next hname =>
        cases hm'
        rw [originOf?_add, if_pos rfl, hname]
      · exact hextends.origins _ _ (ht.own name m' hm')
    · intro p name hp
      rw [originOf?_add] at hp
      split at hp
      · cases hp
        exact ⟨m, by rw [get?_add, if_pos rfl]⟩
      · obtain ⟨held, hheld⟩ := ht.loaded p name hp
        exact ⟨held, hextends.modules name held hheld⟩

theorem Consistent.after (ht : t.Consistent) (offers : List Offer) :
    (t.after offers).Consistent := by
  induction offers generalizing t with
  | nil => exact ht
  | cons o rest ih => exact ih ((t.offered o).consistent ht)

theorem Consistent.unique (ht : t.Consistent) {m m' : Module} (hm : m ∈ t.toList)
    (hm' : m' ∈ t.toList) (h : m.name = m'.name) : m = m' := by
  obtain ⟨name, hname⟩ := mem_toList_iff.1 hm
  obtain ⟨name', hname'⟩ := mem_toList_iff.1 hm'
  rw [ht.named name m hname, ht.named name' m' hname'] at h
  subst h
  exact Option.some.inj (hname.symm.trans hname')

end Consistent

/-- Whatever is offered to a table, with whatever files, a module stands under its own name alone,
its own path is known for that name, and every known path is known for a name that is loaded. An
offer that fails or is refused leaves the table as it was; one of a known path is answered without
its file; one of another path of a loaded module adds that path and nothing else. No later offer
gives a name another module or a path another name. -/
theorem offers_keep_table_consistent (offers : List Offer) :
    let t := empty.after offers
    t.Consistent ∧ (∀ m ∈ t.toList, ∀ m' ∈ t.toList, m.name = m'.name → m = m') ∧
      (∀ o outcome u, t.offer o = (outcome, u) →
        (outcome.isOk = false → u = t) ∧
        (∀ held, outcome = .ok (.conflict held) → u = t) ∧
        (outcome = .ok .alreadyLoaded → u.modules = t.modules ∧ u.knowsPath o.path ∧
          ∀ p : Path, p.components ≠ o.path.components → u.originOf? p = t.originOf? p) ∧
        (t.knowsPath o.path → ∀ files, t.offer ⟨files, o.path⟩ = (.ok .alreadyLoaded, t))) ∧
      ∀ later, t.Extends (t.after later) := by
  intro t
  have ht : t.Consistent := consistent_empty.after offers
  refine ⟨ht, fun m hm m' hm' => ht.unique hm hm', ?_, t.extends_after⟩
  intro o outcome u ho
  have hoffered := t.offered o
  rw [ho] at hoffered
  dsimp only at hoffered
  refine ⟨?_, ?_, ?_, fun hknown files => offer_of_knowsPath hknown files⟩
  · intro hfails
    cases hoffered with
    | failed => rfl
    | known | refused | shared | added => cases hfails
  · intro held hconflict
    cases hoffered with
    | refused => rfl
    | known | failed | shared | added => cases hconflict
  · intro hloaded
    cases hoffered with
    | known hknown => exact ⟨rfl, hknown, fun p _ => rfl⟩
    | @shared m held hunknown hload =>
      have hpath := ModuleFile.path_load hload
      refine ⟨rfl, ?_, fun p hp => ?_⟩
      · rw [knowsPath_index, hpath, BEq.rfl, Bool.true_or]
      · rw [originOf?_index, hpath, if_neg hp]
    | failed | refused | added => cases hloaded

/-- A module at two paths, another version of it, a path without a file, and the first path again,
where the other version stands by then. -/
theorem table_of_duplicate_and_conflict :
    let file (name text : String) : Location × Node := ([name], .file text.toUTF8)
    let files : FileTree := ⟨[], [file "a.dll" "kmod L, Version=1.0\nexport x = 1",
      file "b.dll" "kmod L, Version=1.0", file "c.dll" "kmod L, Version=2.0"]⟩
    let rewritten : FileTree := ⟨[], [file "a.dll" "kmod L, Version=2.0"]⟩
    let t := empty.after [⟨files, ⟨"a.dll"⟩⟩, ⟨files, ⟨"b.dll"⟩⟩]
    t.toList.map (·.path) = [⟨"a.dll"⟩] ∧ t.originOf? ⟨"b.dll"⟩ = some "L" ∧
      (∃ u, t.offer ⟨files, ⟨"c.dll"⟩⟩ = (.ok (.conflict ⟨"L", "1.0"⟩), u) ∧ u = t) ∧
      (∃ e u, t.offer ⟨files, ⟨"d.dll"⟩⟩ = (.error e, u) ∧ u = t) ∧
      t.offer ⟨rewritten, ⟨"a.dll"⟩⟩ = (.ok .alreadyLoaded, t) := by
  intro file files rewritten t
  obtain ⟨-, -, hoffers, -⟩ :=
    offers_keep_table_consistent [⟨files, ⟨"a.dll"⟩⟩, ⟨files, ⟨"b.dll"⟩⟩]
  have hruns : t.toList.map (·.path) = [⟨"a.dll"⟩] ∧ t.originOf? ⟨"b.dll"⟩ = some "L" ∧
      (t.offer ⟨files, ⟨"c.dll"⟩⟩).1.toOption = some (.conflict ⟨"L", "1.0"⟩) ∧
      (t.offer ⟨files, ⟨"d.dll"⟩⟩).1.isOk = false ∧ t.knowsPath ⟨"a.dll"⟩ := by decide +kernel
  obtain ⟨hpaths, hother, hconflict, hfails, hknown⟩ := hruns
  refine ⟨hpaths, hother, ?_, ?_, ?_⟩
  · rcases hc : t.offer ⟨files, ⟨"c.dll"⟩⟩ with ⟨outcome, u⟩
    rw [hc] at hconflict
    cases outcome with
    | error => cases hconflict
    | ok admission =>
      cases hconflict
      exact ⟨u, rfl, (hoffers _ _ _ hc).2.1 _ rfl⟩
  · rcases hd : t.offer ⟨files, ⟨"d.dll"⟩⟩ with ⟨outcome, u⟩
    rw [hd] at hfails
    cases outcome with
    | error e => exact ⟨e, u, rfl, (hoffers _ _ _ hd).1 rfl⟩
    | ok => cases hfails
  · exact (hoffers ⟨files, ⟨"a.dll"⟩⟩ _ _ rfl).2.2.2 hknown rewritten

end ModuleTable
end ScriptSession
