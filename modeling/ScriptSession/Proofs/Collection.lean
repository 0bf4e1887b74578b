import Mathlib.Data.List.Nodup
import ScriptSession.Artifact.Set
/-!
Sets of artifacts as what was inserted into them. However a set came about, it holds of the
artifacts that were inserted the first with each key and all without one, in their order, and its
keys are those of its items. That settles what it finds, how it counts and how unions behave.
-/
namespace ScriptSession

theorem Artifact.same_iff {a b : Artifact} : a.same b ↔ ∃ k, a.key = some k ∧ b.key = some k := by
  rw [same]
  split
  next k l hk hl =>
    rw [hk, hl, decide_eq_true_iff]
    grind
  next hnone => exact ⟨nofun, fun ⟨k, hk, hb⟩ => (hnone k k hk hb).elim⟩

namespace ArtifactSet

/-- The keys of a set are those of its items. -/
def WellFormed (s : ArtifactSet) : Prop :=
  s.keys = s.paths

theorem wellFormed_empty : WellFormed .empty := rfl

section Insert

variable {s t : ArtifactSet} {a : Artifact} {as bs : List Artifact} {k : Key}

theorem insertNew_of_contains (hk : a.key = some k) (h : s.contains k) :
    s.insertNew a = (false, s) := by
  simp only [insertNew, hk, h, if_true]

theorem insertNew_of_new (h : ∀ k, a.key = some k → s.contains k = false) :
    s.insertNew a = (true, ⟨s.items ++ [a], s.keys ++ a.key.toList⟩) := by
  cases hk : a.key with
  | none => simp only [insertNew, hk, Option.toList_none, List.append_nil]
  | some k => simp only [insertNew, hk, h k hk, Bool.false_eq_true, if_false, Option.toList_some]

theorem insertNew_cases (s : ArtifactSet) (a : Artifact) :
    (∃ k, a.key = some k ∧ s.contains k ∧ s.insertNew a = (false, s)) ∨
      (∀ k, a.key = some k → s.contains k = false) ∧
        s.insertNew a = (true, ⟨s.items ++ [a], s.keys ++ a.key.toList⟩) := by
  by_cases h : ∃ k, a.key = some k ∧ s.contains k
  · obtain ⟨k, hk, hc⟩ := h
    exact .inl ⟨k, hk, hc, insertNew_of_contains hk hc⟩
  · have hnew : ∀ k, a.key = some k → s.contains k = false := by
      intro k hk
      exact Bool.eq_false_iff.2 fun hc => h ⟨k, hk, hc⟩
    exact .inr ⟨hnew, insertNew_of_new hnew⟩

theorem paths_concat (items : List Artifact) (a : Artifact) (keys : List Key) :
    paths ⟨items ++ [a], keys⟩ = items.filterMap Artifact.key ++ a.key.toList := by
  rw [paths, List.filterMap_append]
  cases hk : a.key with
  | none => rw [List.filterMap_cons_none hk]; rfl
  | some k => rw [List.filterMap_cons_some hk]; rfl

theorem WellFormed.insertNew (h : s.WellFormed) (a : Artifact) : (s.insertNew a).2.WellFormed := by
  obtain ⟨k, -, -, he⟩ | ⟨-, he⟩ := s.insertNew_cases a
  · rw [he]
    exact h
  · rw [he, WellFormed, paths_concat]
    exact congrArg (· ++ _) h

theorem foldl_insertNew (n : Nat) (s : ArtifactSet) (as : List Artifact) :
    as.foldl (fun p a => (p.1 + (p.2.insertNew a).1.toNat, (p.2.insertNew a).2)) (n, s) =
      (n + (s.extendNew as).1, (s.extendNew as).2) := by
  induction as generalizing n s with
  | nil => rfl
  | cons a as ih =>
    have hzero : s.extendNew (a :: as) = _ := ih (0 + (s.insertNew a).1.toNat) (s.insertNew a).2
    rw [List.foldl_cons, ih, hzero, Nat.zero_add, Nat.add_assoc]

theorem extendNew_cons (s : ArtifactSet) (a : Artifact) (as : List Artifact) :
    s.extendNew (a :: as) = ((s.insertNew a).1.toNat + ((s.insertNew a).2.extendNew as).1,
      ((s.insertNew a).2.extendNew as).2) := by
  have hfold : s.extendNew (a :: as) = _ :=
    foldl_insertNew (0 + (s.insertNew a).1.toNat) (s.insertNew a).2 as
  rw [hfold, Nat.zero_add]

theorem extend_cons (s : ArtifactSet) (a : Artifact) (as : List Artifact) :
    s.extend (a :: as) = (s.insertNew a).2.extend as := by
  rw [extend, extendNew_cons]
  rfl

theorem extend_append (s : ArtifactSet) (as bs : List Artifact) :
    s.extend (as ++ bs) = (s.extend as).extend bs := by
  induction as generalizing s with
  | nil => rfl
  | cons a as ih => rw [List.cons_append, extend_cons, extend_cons, ih]

theorem WellFormed.extend (h : s.WellFormed) (as : List Artifact) : (s.extend as).WellFormed := by
  induction as generalizing s with
  | nil => exact h
  | cons a as ih =>
    rw [extend_cons]
    exact ih (h.insertNew a)

theorem items_insertNew (s : ArtifactSet) (a : Artifact) : s.items <+: (s.insertNew a).2.items := by
  obtain ⟨k, -, -, he⟩ | ⟨-, he⟩ := s.insertNew_cases a
  · exact he.symm ▸ List.prefix_rfl
  · rw [he]
    exact List.prefix_append _ _

theorem items_extend (s : ArtifactSet) (as : List Artifact) : s.items <+: (s.extend as).items := by
  induction as generalizing s with
  | nil => exact List.prefix_rfl
  | cons a as ih =>
    rw [extend_cons]
    exact (items_insertNew s a).trans (ih _)

theorem mem_of_mem_extend (h : a ∈ (s.extend as).items) : a ∈ s.items ∨ a ∈ as := by
  induction as generalizing s with
  | nil => exact .inl h
  | cons b as ih =>
    rw [extend_cons] at h
    obtain hs | has := ih h
    · obtain ⟨k, -, -, he⟩ | ⟨-, he⟩ := s.insertNew_cases b
      · rw [he] at hs
        exact .inl hs
      · rw [he] at hs
        obtain hold | hb := List.mem_append.1 hs
        · exact .inl hold
        · exact .inr (List.mem_singleton.1 hb ▸ List.mem_cons_self)
    · exact .inr (List.mem_cons_of_mem b has)

theorem exists_sublist_extend (s : ArtifactSet) (as : List Artifact) :
    ∃ new, (s.extend as).items = s.items ++ new ∧ new.Sublist as := by
  induction as generalizing s with
  | nil => exact ⟨[], (List.append_nil _).symm, .slnil⟩
  | cons a as ih =>
    rw [extend_cons]
    obtain ⟨new, hnew, hsub⟩ := ih (s.insertNew a).2
    obtain ⟨_, -, -, he⟩ | ⟨-, he⟩ := s.insertNew_cases a
    · rw [he] at hnew ⊢
      exact ⟨new, hnew, hsub.cons a⟩
    · rw [he] at hnew ⊢
      exact ⟨a :: new, by rw [hnew, List.append_assoc]; rfl, hsub.cons_cons a⟩

theorem WellFormed.contains_iff (h : s.WellFormed) :
    s.contains k ↔ ∃ b ∈ s.items, b.key = some k := by
  rw [contains, decide_eq_true_iff, h, paths, List.mem_filterMap]

theorem WellFormed.contains_of_mem (h : s.WellFormed) (ha : a ∈ s.items) (hk : a.key = some k) :
    s.contains k :=
  h.contains_iff.2 ⟨a, ha, hk⟩

theorem WellFormed.contains_extend_of_contains (h : s.WellFormed) (hc : s.contains k)
    (as : List Artifact) : (s.extend as).contains k := by
  obtain ⟨b, hb, hk⟩ := h.contains_iff.1 hc
  exact (h.extend as).contains_of_mem ((s.items_extend as).subset hb) hk

theorem WellFormed.contains_extend (h : s.WellFormed) (ha : a ∈ as) (hk : a.key = some k) :
    (s.extend as).contains k := by
  induction as generalizing s with
  | nil => cases ha
  | cons b as ih =>
    rw [extend_cons]
    obtain rfl | ha := List.mem_cons.1 ha
    · have hnew : (s.insertNew a).2.contains k := by
        obtain ⟨l, hl, hc, he⟩ | ⟨-, he⟩ := s.insertNew_cases a
        · cases hk.symm.trans hl
          rw [he]
          exact hc
        · have hlast : a ∈ (s.insertNew a).2.items := by
            rw [he]
            exact List.mem_append_right _ (List.mem_singleton_self a)
          exact (h.insertNew a).contains_of_mem hlast hk
      exact (h.insertNew a).contains_extend_of_contains hnew as
    · exact ih (h.insertNew b) ha

theorem mem_paths_extend (h : s.WellFormed) (ha : a ∈ as) (hk : a.key = some k) :
    k ∈ (s.extend as).paths := by
  have hc := h.contains_extend ha hk
  rwa [contains, decide_eq_true_iff, h.extend as] at hc

theorem WellFormed.exists_same (h : s.WellFormed) (ha : a ∈ as) (hk : a.key = some k) :
    ∃ b ∈ (s.extend as).items, b.same a := by
  obtain ⟨b, hb, hbk⟩ := List.mem_filterMap.1 (mem_paths_extend h ha hk)
  exact ⟨b, hb, Artifact.same_iff.2 ⟨k, hbk, hk⟩⟩

theorem key_of_get? (h : s.get? k = some a) : a.key = some k := by
  rw [get?] at h
  split at h
  · have hfound := List.find?_some h
    exact of_decide_eq_true hfound
  · cases h

end Insert

section Items

variable {s t : ArtifactSet} {as : List Artifact} {k : Key}

theorem WellFormed.nodup_insertNew (h : s.WellFormed) (hn : s.paths.Nodup) (a : Artifact) :
    (s.insertNew a).2.paths.Nodup := by
  obtain ⟨k, -, -, he⟩ | ⟨hnew, he⟩ := s.insertNew_cases a
  · rw [he]
    exact hn
  · rw [he, paths_concat, ← paths]
    apply List.Nodup.append hn
    · cases a.key with
      | none => exact List.nodup_nil
      | some k => exact List.nodup_singleton k
    · intro k hk ha
      have hc := hnew k (Option.mem_toList.1 ha)
      rw [contains, h, decide_eq_false_iff_not] at hc
      exact hc hk

theorem WellFormed.nodup_extend (h : s.WellFormed) (hn : s.paths.Nodup) (as : List Artifact) :
    (s.extend as).paths.Nodup := by
  induction as generalizing s with
  | nil => exact hn
  | cons a as ih =>
    rw [extend_cons]
    exact ih (h.insertNew a) (h.nodup_insertNew hn a)

theorem WellFormed.items_insertNew (h : s.WellFormed) (a : Artifact) :
    (s.insertNew a).2.items = if s.items.any a.same then s.items else s.items ++ [a] := by
  have hany : s.items.any a.same ↔ ∃ k, a.key = some k ∧ s.contains k := by
    simp only [List.any_eq_true, Artifact.same_iff, h.contains_iff]
    tauto
  obtain ⟨k, hk, hc, he⟩ | ⟨hnew, he⟩ := s.insertNew_cases a
  · rw [he, if_pos (hany.2 ⟨k, hk, hc⟩)]
  · rw [he, if_neg]
    intro hold
    obtain ⟨k, hk, hc⟩ := hany.1 hold
    rw [hnew k hk] at hc
    cases hc

theorem items_ofList (as : List Artifact) : (ofList as).items = as.eraseDupsBy Artifact.same := by
  -- The loop of `eraseDupsBy` carries what it kept in reverse; a set carries its items.
  have hloop {s : ArtifactSet} (h : s.WellFormed) :
      (s.extend as).items = List.eraseDupsBy.loop Artifact.same as s.items.reverse := by
    induction as generalizing s with
    | nil => exact (List.reverse_reverse _).symm
    | cons a as ih =>
      rw [extend_cons, ih (h.insertNew a), h.items_insertNew, List.eraseDupsBy.loop,
        List.any_reverse]
      cases s.items.any a.same with
      | true => rfl
      | false => rw [if_neg Bool.false_ne_true, List.reverse_append]; rfl
  exact hloop wellFormed_empty

theorem count_extendNew (s : ArtifactSet) (as : List Artifact) :
    s.size + (s.extendNew as).1 = (s.extend as).size := by
  induction as generalizing s with
  | nil => rfl
  | cons a as ih =>
    have hone : s.size + (s.insertNew a).1.toNat = (s.insertNew a).2.size := by
      obtain ⟨k, -, -, he⟩ | ⟨-, he⟩ := s.insertNew_cases a
      · rw [he]
        rfl
      · rw [he, size, size, List.length_append]
        rfl
    rw [extendNew_cons, extend_cons, ← ih, ← hone, Nat.add_assoc]

/-- What a set finds for a key is the first artifact with it of all that were inserted. -/
theorem WellFormed.find?_extend (h : s.WellFormed) (as : List Artifact) (k : Key) :
    (s.extend as).items.find? (·.key = some k) = (s.items ++ as).find? (·.key = some k) := by
  induction as generalizing s with
  | nil => rw [List.append_nil]; rfl
  | cons a as ih =>
    rw [extend_cons, ih (h.insertNew a)]
    obtain ⟨l, hl, hc, he⟩ | ⟨-, he⟩ := s.insertNew_cases a
    · rw [he, List.find?_append, List.find?_append]
      by_cases hk : l = k
      · -- the key is that of an earlier artifact, which is found before
        obtain ⟨b, hb, hbk⟩ := h.contains_iff.1 hc
        have hfound : (s.items.find? (·.key = some k)).isSome := by
          rw [List.find?_isSome]
          exact ⟨b, hb, decide_eq_true (hk ▸ hbk)⟩
        rw [Option.or_of_isSome hfound, Option.or_of_isSome hfound]
      · rw [List.find?_cons_of_neg]
        rw [hl, decide_eq_true_eq, Option.some.injEq]
        exact hk
    · rw [he, List.append_assoc]
      rfl

theorem WellFormed.get?_eq (h : s.WellFormed) (k : Key) :
    s.get? k = s.items.find? (·.key = some k) := by
  rw [get?]
  split
  · rfl
  next hc =>
    symm
    rw [List.find?_eq_none]
    intro b hb hbk
    exact hc (h.contains_of_mem hb (of_decide_eq_true hbk))

theorem WellFormed.isSome_get? (h : s.WellFormed) (k : Key) :
    (s.get? k).isSome = s.contains k := by
  rw [h.get?_eq, Bool.eq_iff_iff, List.find?_isSome, h.contains_iff]
  simp only [decide_eq_true_eq]

/-- Inserting the items that a set got for some artifacts is inserting the artifacts. -/
theorem extend_items_extend (hs : s.WellFormed) (ht : t.WellFormed) (as : List Artifact) :
    s.extend (t.extend as).items = (s.extend t.items).extend as := by
  induction as generalizing t with
  | nil => rfl
  | cons a as ih =>
    rw [extend_cons, extend_cons, ih (ht.insertNew a)]
    congr 1
    obtain ⟨k, hk, hc, he⟩ | ⟨-, he⟩ := t.insertNew_cases a
    · obtain ⟨b, hb, hbk⟩ := ht.contains_iff.1 hc
      rw [he, insertNew_of_contains hk (hs.contains_extend hb hbk)]
    · rw [he, extend_append, extend_cons]
      rfl

theorem union_assoc (hs : s.WellFormed) (ht : t.WellFormed) (u : ArtifactSet) :
    (s.union t).union u = s.union (t.union u) := by
  rw [union, union, union, union, extend_items_extend hs ht]

theorem extend_of_contains (h : ∀ a ∈ as, ∃ k, a.key = some k ∧ s.contains k) :
    s.extend as = s := by
  induction as with
  | nil => rfl
  | cons a as ih =>
    obtain ⟨⟨k, hk, hc⟩, has⟩ := List.forall_mem_cons.1 h
    rw [extend_cons, insertNew_of_contains hk hc]
    exact ih has

theorem WellFormed.union_self (h : s.WellFormed) (hkeyed : ∀ a ∈ s.items, a.key ≠ none) :
    s.union s = s := by
  apply extend_of_contains
  intro a ha
  obtain ⟨k, hk⟩ := Option.ne_none_iff_exists'.1 (hkeyed a ha)
  exact ⟨k, hk, h.contains_of_mem ha hk⟩

theorem covers_of_forall_contains (h : ∀ k, t.contains k → s.contains k) : s.covers t := by
  rw [covers, List.all_eq_true]
  intro k hk
  exact h k (decide_eq_true hk)

theorem WellFormed.covers_union (hs : s.WellFormed) (ht : t.WellFormed) :
    (s.union t).covers s ∧ (s.union t).covers t := by
  constructor
  · apply covers_of_forall_contains
    intro k hk
    exact hs.contains_extend_of_contains hk _
  · apply covers_of_forall_contains
    intro k hk
    obtain ⟨b, hb, hbk⟩ := ht.contains_iff.1 hk
    exact hs.contains_extend hb hbk

end Items

/-- How a set of artifacts came about. -/
inductive Building
  | empty
  | insert (b : Building) (a : Artifact)
  | extend (b : Building) (artifacts : List Artifact)
  | union (b c : Building)

namespace Building

def set : Building → ArtifactSet
  | empty => .empty
  | insert b a => b.set.insert a
  | extend b as => b.set.extend as
  | union b c => b.set.union c.set

/-- All that was inserted on the way, in order; a union inserts what its right side was built of. -/
def inserted : Building → List Artifact
  | empty => []
  | insert b a => b.inserted ++ [a]
  | extend b as => b.inserted ++ as
  | union b c => b.inserted ++ c.inserted

theorem set_eq (b : Building) : b.set = ofList b.inserted := by
  induction b with
  | empty => rfl
  | insert b a ih => rw [set, inserted, ih, ofList, ofList, extend_append, extend_cons]; rfl
  | extend b as ih => rw [set, inserted, ih, ofList, ofList, extend_append]
  | union b c ihb ihc =>
    have hb : (ofList b.inserted).WellFormed := wellFormed_empty.extend _
    have hunion : (ofList b.inserted).union (ofList c.inserted) = _ :=
      extend_items_extend hb wellFormed_empty c.inserted
    rw [set, inserted, ihb, ihc, hunion, ofList, ofList, extend_append]
    rfl

theorem wellFormed_set (b : Building) : b.set.WellFormed := by
  rw [set_eq]
  exact wellFormed_empty.extend b.inserted

/-- However a set of artifacts was built, its keys are the keys of its items, each once. Its items
are those that were inserted, in order, of each key the first; `extendNew` counts by how much the
set grows, and a key is found exactly if it is known, as the first artifact that was inserted with
it. Unions are associative, go on from their left side and cover both; the union of a set with
itself adds nothing unless there are anonymous artifacts in it. -/
theorem built_set_is_in_step (b : Building) :
    let s := b.set
    s.keys = s.paths ∧ s.paths.Nodup ∧
      s.items = b.inserted.eraseDupsBy Artifact.same ∧
      (∀ as, s.size + (s.extendNew as).1 = (s.extend as).size) ∧
      (∀ k, s.get? k = b.inserted.find? (·.key = some k) ∧ (s.get? k).isSome = s.contains k) ∧
      (∀ c d : Building, (s.union c.set).union d.set = s.union (c.set.union d.set)) ∧
      (∀ c : Building, s.items <+: (s.union c.set).items ∧ (s.union c.set).covers s ∧
        (s.union c.set).covers c.set) ∧
      ((∀ a ∈ s.items, a.key ≠ none) → s.union s = s) := by
  intro s
  have h : s.WellFormed := b.wellFormed_set
  have hset : s = ofList b.inserted := b.set_eq
  refine ⟨h, ?_, ?_, s.count_extendNew, fun k => ⟨?_, h.isSome_get? k⟩, fun c d => ?_, fun c => ?_,
    h.union_self⟩
  · rw [hset]
    exact wellFormed_empty.nodup_extend List.nodup_nil b.inserted
  · rw [hset, items_ofList]
  · rw [h.get?_eq, hset]
    exact wellFormed_empty.find?_extend b.inserted k
  · exact union_assoc h c.wellFormed_set d.set
  · exact ⟨items_extend s _, h.covers_union c.wellFormed_set⟩

/-- A set of three files, one of which was inserted first for execution and then for analysis, by
way of a union. -/
theorem in_step_after_second_role :
    let a (key : String) (role : Role) : Artifact := { key := some ⟨true, [key]⟩, role }
    let b : Building := .union (.insert (.insert .empty (a "a" .executionOnly)) (a "b" .both))
      (.extend .empty [a "a" .analysisOnly, a "c" .both, a "c" .executionOnly])
    (∀ x ∈ b.set.items, x.key ≠ none) ∧
      b.set.items = [a "a" .executionOnly, a "b" .both, a "c" .both] ∧
      b.set.union b.set = b.set := by
  intro a b
  have hkeyed : ∀ x ∈ b.set.items, x.key ≠ none := by decide
  have hall := b.built_set_is_in_step
  exact ⟨hkeyed, hall.2.2.1.trans (by decide), hall.2.2.2.2.2.2.2 hkeyed⟩

end Building

end ArtifactSet
end ScriptSession
