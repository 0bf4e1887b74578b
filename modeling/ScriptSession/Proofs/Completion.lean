import ScriptSession.Analysis.Completion
import ScriptSession.Proofs.Directive

namespace ScriptSession.Completion

theorem getElem?_foldl_insertIfNew (items : List CompletionItem)
    (m : Std.ExtTreeMap String CompletionItem) (label : String) :
    (items.foldl (fun m i => m.insertIfNew i.label i) m)[label]? =
      m[label]?.or (items.find? (·.label = label)) := by
  induction items generalizing m with
  | nil => rw [List.foldl_nil, List.find?_nil, Option.or_none]
  | cons i items ih =>
    rw [List.foldl_cons, ih, Std.ExtTreeMap.getElem?_insertIfNew, List.find?_cons]
    by_cases hl : i.label = label
    · cases hl
      by_cases hm : i.label ∈ m <;> simp [hm]
    · simp [hl]

variable {lead : List Char} {offers : List CompletionItem}

theorem label_of_find? {label : String} {i : CompletionItem}
    (h : offers.find? (·.label = label) = some i) : i.label = label := by
  simpa using List.find?_some h

theorem find?_filter_lead (label : String) :
    (offers.filter fun i => lead.isPrefixOf i.label.toList).find? (·.label = label) =
      if lead <+: label.toList then offers.find? (·.label = label) else none := by
  rw [List.find?_filter]
  split
  next hl =>
    congr 1
    funext i
    by_cases hi : i.label = label
    · simp [hi, hl]
    · simp [hi]
  next hl =>
    refine List.find?_eq_none.2 fun i _ hi => hl ?_
    obtain ⟨hfits, hi⟩ := of_decide_eq_true hi
    cases of_decide_eq_true hi
    exact List.isPrefixOf_iff_prefix.1 hfits

/-- The offers that are made, by their labels. -/
def byLabel (lead : List Char) (offers : List CompletionItem) :
    Std.ExtTreeMap String CompletionItem :=
  (offers.filter fun i => lead.isPrefixOf i.label.toList).foldl
    (fun m i => m.insertIfNew i.label i) ∅

theorem collect_eq (lead : List Char) (offers : List CompletionItem) :
    collect lead offers = (byLabel lead offers).toList.map (·.2) := rfl

theorem mem_byLabel_iff {label : String} {i : CompletionItem} :
    (label, i) ∈ (byLabel lead offers).toList ↔
      lead <+: label.toList ∧ offers.find? (·.label = label) = some i := by
  rw [Std.ExtTreeMap.mem_toList_iff_getElem?_eq_some, byLabel, getElem?_foldl_insertIfNew,
    Std.ExtTreeMap.getElem?_empty, Option.none_or, find?_filter_lead,
    Option.ite_none_right_eq_some]

theorem label_of_mem_byLabel {entry : String × CompletionItem}
    (h : entry ∈ (byLabel lead offers).toList) : entry.2.label = entry.1 :=
  label_of_find? (mem_byLabel_iff.1 h).2

/-- Of the offers of one label the first is made, if it fits. -/
theorem mem_collect_iff {i : CompletionItem} : i ∈ collect lead offers ↔
    lead <+: i.label.toList ∧ offers.find? (·.label = i.label) = some i := by
  rw [collect_eq, ← mem_byLabel_iff]
  constructor
  · intro h
    obtain ⟨entry, hentry, rfl⟩ := List.mem_map.1 h
    rw [label_of_mem_byLabel hentry]
    exact hentry
  · intro h
    exact List.mem_map_of_mem h

theorem collect_sorted (lead : List Char) (offers : List CompletionItem) :
    (collect lead offers).Pairwise (·.label < ·.label) := by
  rw [collect_eq, List.pairwise_map]
  refine Std.ExtTreeMap.ordered_keys_toList.imp_of_mem fun hi hj hlt => ?_
  rw [label_of_mem_byLabel hi, label_of_mem_byLabel hj]
  exact compareOfLessAndEq_eq_lt.1 hlt

theorem mem_of_mem_collect {i : CompletionItem} (h : i ∈ collect lead offers) : i ∈ offers :=
  List.mem_of_find?_eq_some (mem_collect_iff.1 h).2

theorem exists_mem_collect {i : CompletionItem} (hi : i ∈ offers)
    (hl : lead <+: i.label.toList) : ∃ j ∈ collect lead offers, j.label = i.label := by
  cases hfind : offers.find? (·.label = i.label) with
  | none => exact absurd (decide_eq_true rfl) (List.find?_eq_none.1 hfind i hi)
  | some j =>
    have hj : j.label = i.label := label_of_find? hfind
    exact ⟨j, mem_collect_iff.2 (by rw [hj]; exact ⟨hl, hfind⟩), hj⟩

theorem binding_mem_plainOffers {d : Document} {name : String} (h : name ∈ (namesInScope d).1) :
    (⟨name, .binding, none⟩ : CompletionItem) ∈ plainOffers d := by
  unfold plainOffers
  refine List.mem_append_left _ (List.mem_append_left _ (List.mem_append_right _ ?_))
  exact List.mem_map_of_mem h

theorem label_mem_namesInScope {d : Document} {i : CompletionItem} (h : i ∈ plainOffers d)
    (hk : i.kind = .binding) : i.label ∈ (namesInScope d).1 := by
  unfold plainOffers at h
  simp only [List.mem_append, List.mem_map, List.mem_flatMap, exportItems] at h
  obtain (((⟨_, -, rfl⟩ | ⟨_, -, rfl⟩) | ⟨name, hname, rfl⟩) | ⟨_, -, rfl⟩) | ⟨_, -, _, -, rfl⟩ := h
  · cases hk
  · cases hk
  · exact hname
  · cases hk
  · cases hk

/-- Where no dot stands in the word before the caret, every name in scope that fits it is offered,
and no other binding is. -/
theorem complete_bindings {d : Document} {caret : Nat}
    (h : '.' ∉ wordBefore (Text.takeBytes caret d.text.toList)) :
    (∀ name ∈ (namesInScope d).1, wordBefore (Text.takeBytes caret d.text.toList) <+: name.toList →
      ∃ i ∈ complete d caret, i.label = name) ∧
    ∀ i ∈ complete d caret, i.kind = .binding → i.label ∈ (namesInScope d).1 := by
  have hoffers : complete d caret =
      collect (wordBefore (Text.takeBytes caret d.text.toList)) (plainOffers d) := by
    unfold complete
    dsimp only
    rw [Text.cutLast_eq_none h]
  rw [hoffers]
  constructor
  · intro name hname hl
    exact exists_mem_collect (binding_mem_plainOffers hname) hl
  · intro i hi hk
    exact label_mem_namesInScope (mem_of_mem_collect hi) hk

end ScriptSession.Completion
