import Mathlib.Data.List.Infix
import Mathlib.Data.List.TakeWhile
import ScriptSession.Text.Ascii
import ScriptSession.Text.Blank
import ScriptSession.Text.Lines

namespace ScriptSession.Text

theorem afterLead_eq_some_iff {lead cs rest : List Char} :
    afterLead lead cs = some rest ↔ cs = lead ++ rest := by
  rw [afterLead, List.isPrefixOf?_eq_some_iff_append_eq, eq_comm]

theorem eq_of_afterLead {lead cs rest : List Char} (h : afterLead lead cs = some rest) :
    cs = lead ++ rest :=
  afterLead_eq_some_iff.1 h

theorem beforeTail_eq_some_iff {tail cs front : List Char} :
    beforeTail tail cs = some front ↔ cs = front ++ tail := by
  rw [beforeTail, Option.map_eq_some_iff]
  constructor
  · rintro ⟨rest, hrest, rfl⟩
    rw [List.isPrefixOf?_eq_some_iff_append_eq] at hrest
    rw [← List.reverse_inj, ← hrest, List.reverse_append, List.reverse_reverse]
  · rintro rfl
    refine ⟨front.reverse, ?_, front.reverse_reverse⟩
    rw [List.isPrefixOf?_eq_some_iff_append_eq, List.reverse_append]

theorem beforeTail_eq_none_iff {tail cs : List Char} :
    beforeTail tail cs = none ↔ ¬ tail <:+ cs := by
  rw [Option.eq_none_iff_forall_ne_some]
  constructor
  · rintro h ⟨front, hfront⟩
    exact h front (beforeTail_eq_some_iff.2 hfront.symm)
  · intro h front hfront
    exact h ⟨front, (beforeTail_eq_some_iff.1 hfront).symm⟩

theorem eq_of_cutFirst {sep : Char} {cs before after : List Char}
    (h : cutFirst sep cs = some (before, after)) : cs = before ++ sep :: after ∧ sep ∉ before := by
  unfold cutFirst at h
  rw [List.span_eq_takeWhile_dropWhile] at h
  have hsplit := List.takeWhile_append_dropWhile (p := fun c => decide (c ≠ sep)) (l := cs)
  have hhead := List.head?_dropWhile_not (fun c => decide (c ≠ sep)) cs
  cases hd : cs.dropWhile fun c => decide (c ≠ sep) with
  | nil =>
    rw [hd] at h
    cases h
  | cons c rest =>
    rw [hd] at h hsplit hhead
    cases h
    have hc : c = sep := by simpa using hhead
    subst hc
    refine ⟨hsplit.symm, fun hm => ?_⟩
    simpa using List.mem_takeWhile_imp hm

theorem decide_ne_of_not_mem {sep : Char} {cs : List Char} (h : sep ∉ cs) :
    ∀ c ∈ cs, decide (c ≠ sep) = true :=
  fun _ hc => decide_eq_true fun he => h (he ▸ hc)

theorem takeWhile_ne_append {sep : Char} {before : List Char} (h : sep ∉ before)
    (after : List Char) : (before ++ sep :: after).takeWhile (· ≠ sep) = before := by
  rw [List.takeWhile_append_of_pos (decide_ne_of_not_mem h), List.takeWhile_cons_of_neg (by simp),
    List.append_nil]

theorem takeWhile_ne_self {sep : Char} {cs : List Char} (h : sep ∉ cs) :
    cs.takeWhile (· ≠ sep) = cs :=
  List.takeWhile_eq_self_iff.2 (decide_ne_of_not_mem h)

theorem cutFirst_append {sep : Char} {before : List Char} (h : sep ∉ before) (after : List Char) :
    cutFirst sep (before ++ sep :: after) = some (before, after) := by
  rw [cutFirst, List.span_eq_takeWhile_dropWhile, takeWhile_ne_append h,
    List.dropWhile_append_of_pos (decide_ne_of_not_mem h), List.dropWhile_cons_of_neg (by simp)]

theorem cutFirst_eq_none {sep : Char} {cs : List Char} (h : sep ∉ cs) : cutFirst sep cs = none := by
  rw [Option.eq_none_iff_forall_ne_some]
  rintro ⟨before, after⟩ hcut
  apply h
  rw [(eq_of_cutFirst hcut).1]
  exact List.mem_append_right _ List.mem_cons_self

theorem cutLast_append {sep : Char} (before : List Char) {after : List Char} (h : sep ∉ after) :
    cutLast sep (before ++ sep :: after) = some (before, after) := by
  have hreverse : (before ++ sep :: after).reverse = after.reverse ++ sep :: before.reverse := by
    rw [List.reverse_append, List.reverse_cons, List.append_assoc, List.singleton_append]
  rw [cutLast, hreverse, cutFirst_append (mt List.mem_reverse.1 h)]
  simp only [Option.map_some, List.reverse_reverse]

theorem cutLast_eq_none {sep : Char} {cs : List Char} (h : sep ∉ cs) : cutLast sep cs = none := by
  rw [cutLast, cutFirst_eq_none (mt List.mem_reverse.1 h), Option.map_none]

theorem takeWhile_ne_eq_iff {sep : Char} {cs part : List Char} :
    cs.takeWhile (· ≠ sep) = part ↔
      sep ∉ part ∧ (cs = part ∨ ∃ rest, cs = part ++ sep :: rest) := by
  constructor
  · rintro rfl
    have hpart : sep ∉ cs.takeWhile (· ≠ sep) := fun hm => by
      simpa using List.mem_takeWhile_imp hm
    refine ⟨hpart, ?_⟩
    by_cases hmem : sep ∈ cs
    · obtain ⟨first, rest, rfl, hfirst⟩ := List.eq_append_cons_of_mem hmem
      rw [takeWhile_ne_append hfirst]
      exact .inr ⟨rest, rfl⟩
    · exact .inl (takeWhile_ne_self hmem).symm
  · rintro ⟨hpart, rfl | ⟨rest, rfl⟩⟩
    · exact takeWhile_ne_self hpart
    · exact takeWhile_ne_append hpart rest

theorem head?_splitOn (sep : Char) (cs : List Char) :
    (cs.splitOn sep).head? = some (cs.takeWhile (· ≠ sep)) := by
  obtain ⟨hpart, hwhole | ⟨rest, hrest⟩⟩ := takeWhile_ne_eq_iff.1 (Eq.refl (cs.takeWhile (· ≠ sep)))
  · rw [← hwhole] at hpart ⊢
    rw [List.splitOn_eq_singleton hpart]
    rfl
  · generalize cs.takeWhile (· ≠ sep) = part at *
    rw [hrest, List.splitOn_append_cons_self, List.splitOn_eq_singleton hpart]
    rfl

theorem not_mem_of_mem_splitOn {sep : Char} {cs part : List Char} (h : part ∈ cs.splitOn sep) :
    sep ∉ part := by
  induction cs generalizing part with
  | nil =>
    rw [List.splitOn_nil, List.mem_singleton] at h
    rw [h]
    exact List.not_mem_nil
  | cons c cs ih =>
    rw [List.splitOn_cons_eq_if_modifyHead] at h
    split at h
    next => exact (List.mem_cons.1 h).elim (fun hp => hp ▸ List.not_mem_nil) ih
    next hc =>
      obtain ⟨first, rest, hparts⟩ := List.exists_cons_of_ne_nil (List.splitOn_ne_nil sep cs)
      rw [hparts, List.modifyHead_cons] at h
      obtain rfl | h := List.mem_cons.1 h
      · have hmem : first ∈ cs.splitOn sep := by
          rw [hparts]
          exact List.mem_cons_self
        have hfirst := ih hmem
        exact fun hm => (List.mem_cons.1 hm).elim (fun he => hc (by simp [← he])) hfirst
      · exact ih (by rw [hparts]; exact List.mem_cons_of_mem _ h)

theorem mem_splitOn (sep : Char) {c : Char} {cs : List Char} (h : c ∈ cs) :
    c = sep ∨ ∃ part ∈ cs.splitOn sep, c ∈ part := by
  induction cs with
  | nil => cases h
  | cons d cs ih =>
    rw [List.splitOn_cons_eq_if_modifyHead]
    obtain ⟨first, rest, hparts⟩ := List.exists_cons_of_ne_nil (List.splitOn_ne_nil sep cs)
    rw [hparts] at ih ⊢
    split
    next hd =>
      obtain rfl | h := List.mem_cons.1 h
      · exact .inl (by simpa using hd)
      · refine (ih h).imp_right fun ⟨part, hpart, hc⟩ => ?_
        exact ⟨part, List.mem_cons_of_mem _ hpart, hc⟩
    next hd =>
      rw [List.modifyHead_cons]
      obtain rfl | h := List.mem_cons.1 h
      · exact .inr ⟨_, List.mem_cons_self, List.mem_cons_self⟩
      · refine (ih h).imp_right fun ⟨part, hpart, hc⟩ => ?_
        obtain rfl | hpart := List.mem_cons.1 hpart
        · exact ⟨_, List.mem_cons_self, List.mem_cons_of_mem _ hc⟩
        · exact ⟨part, List.mem_cons_of_mem _ hpart, hc⟩

theorem not_mem_of_mem_rows {cs row : List Char} (h : row ∈ rows cs) : '\n' ∉ row :=
  not_mem_of_mem_splitOn h

theorem not_mem_trimStart_append {c : Char} {cs rest : List Char} (h : c ∉ cs ++ rest) :
    c ∉ trimStart cs ++ rest := fun hm =>
  h (List.mem_append.2 ((List.mem_append.1 hm).imp_left (List.dropWhile_sublist isBlank).mem))

theorem joinWith_rows (cs : List Char) : joinWith ['\n'] (rows cs) = cs :=
  List.intercalate_splitOn '\n'

theorem eq_closeRow (row : List Char) : row = closeRow row ∨ row = closeRow row ++ ['\r'] := by
  rw [closeRow]
  cases h : beforeTail ['\r'] row with
  | none => exact .inl rfl
  | some front => exact .inr (beforeTail_eq_some_iff.1 h)

theorem length_numbered {α : Type} (start : Nat) (xs : List α) :
    (numbered start xs).length = xs.length := by
  rw [numbered, List.length_zip, List.length_range', Nat.min_self]

theorem getElem?_numbered {α : Type} (start : Nat) (xs : List α) (i : Nat) :
    (numbered start xs)[i]? = xs[i]?.map (start + i, ·) := by
  induction xs generalizing start i with
  | nil => rfl
  | cons x xs ih =>
    have hstep : numbered start (x :: xs) = (start, x) :: numbered (start + 1) xs := rfl
    rw [hstep]
    cases i with
    | zero => rfl
    | succ i =>
      rw [List.getElem?_cons_succ, List.getElem?_cons_succ, ih, Nat.add_right_comm, Nat.add_assoc]

theorem mem_numbered_iff {α : Type} {start i : Nat} {xs : List α} {x : α} :
    (i, x) ∈ numbered start xs ↔ ∃ k, i = start + k ∧ xs[k]? = some x := by
  rw [List.mem_iff_getElem?]
  apply exists_congr
  intro k
  rw [getElem?_numbered, Option.map_eq_some_iff]
  constructor
  · rintro ⟨_, hx, ⟨⟩⟩
    exact ⟨rfl, hx⟩
  · rintro ⟨rfl, hx⟩
    exact ⟨x, hx, rfl⟩

theorem forall₂_numbered {α β : Type} {r : α → β → Prop} {f : Nat × α → β} (start : Nat)
    (xs : List α) (h : ∀ p ∈ numbered start xs, r p.2 (f p)) :
    List.Forall₂ r xs ((numbered start xs).map f) := by
  induction xs generalizing start with
  | nil => exact .nil
  | cons x xs ih =>
    have hstep : numbered start (x :: xs) = (start, x) :: numbered (start + 1) xs := rfl
    rw [hstep] at h ⊢
    obtain ⟨hx, hxs⟩ := List.forall_mem_cons.1 h
    exact .cons hx (ih _ hxs)

/-- A line is its row, perhaps without a carriage return at the end. -/
theorem row_of_line {cs line : List Char} {i : Nat} (h : (lines cs)[i]? = some line) :
    ∃ row, (rows cs)[i]? = some row ∧ (row = line ∨ row = line ++ ['\r']) := by
  unfold lines at h
  rw [List.getElem?_append] at h
  split at h
  next hlt =>
    rw [List.getElem?_map] at h
    obtain ⟨row, hrow, rfl⟩ := Option.map_eq_some_iff.1 h
    rw [List.getElem?_dropLast] at hrow
    split at hrow
    next => exact ⟨row, hrow, eq_closeRow row⟩
    next => cases hrow
  next hge =>
    rw [List.length_map, List.length_dropLast] at h hge
    cases hl : (rows cs).getLast?.filter (· ≠ []) with
    | none =>
      rw [hl] at h
      cases h
    | some last =>
      rw [hl] at h
      obtain ⟨hlt, he⟩ := List.getElem?_eq_some_iff.1 h
      rw [Option.toList_some, List.length_singleton] at hlt
      have hlast := (Option.filter_eq_some_iff.1 hl).1
      rw [List.getLast?_eq_getElem?] at hlast
      refine ⟨last, ?_, .inl ?_⟩
      · rwa [show i = (rows cs).length - 1 by omega]
      · simpa using he

theorem exists_trimEnd (cs : List Char) :
    ∃ blanks, cs = trimEnd cs ++ blanks ∧ ∀ c ∈ blanks, isBlank c = true := by
  refine ⟨(cs.reverse.takeWhile isBlank).reverse, ?_, fun c hc =>
    List.mem_takeWhile_imp (List.mem_reverse.1 hc)⟩
  rw [trimEnd, ← List.reverse_append, List.takeWhile_append_dropWhile, List.reverse_reverse]

theorem trim_eq_self {cs : List Char} (h : ∀ c ∈ cs, isBlank c = false) : trim cs = cs := by
  have hdrop (xs : List Char) (hxs : ∀ c ∈ xs, isBlank c = false) : xs.dropWhile isBlank = xs := by
    cases xs with
    | nil => rfl
    | cons c xs => rw [List.dropWhile_cons_of_neg (by simp [hxs c List.mem_cons_self])]
  rw [trim, trimStart, hdrop cs h, trimEnd, hdrop _ fun c hc => h c (List.mem_reverse.1 hc),
    List.reverse_reverse]

theorem mem_of_mem_trim {c : Char} {cs : List Char} (h : c ∈ trim cs) : c ∈ cs := by
  unfold trim trimEnd trimStart at h
  have h' := List.mem_reverse.1 ((List.dropWhile_sublist isBlank).mem (List.mem_reverse.1 h))
  exact (List.dropWhile_sublist isBlank).mem h'

theorem eq_slash_of_toLower {c : Char} (h : c.toLower = '/') : c = '/' := by
  unfold Char.toLower at h
  split at h
  next hc =>
    have hval := congrArg (fun c : Char => c.val.toNat) h
    simp only [UInt32.le_iff_toNat_le, UInt32.toNat_add, seval, ge_iff_le] at hc hval
    omega
  next => exact h

theorem slash_lower {s : String} (h : '/' ∉ s.toList) : '/' ∉ (lower s).toList := by
  intro hm
  rw [lower, String.toList_ofList] at hm
  obtain ⟨c, hc, hlower⟩ := List.mem_map.1 hm
  exact h (eq_slash_of_toLower hlower ▸ hc)

theorem lower_append (s t : String) : lower (s ++ t) = lower s ++ lower t := by
  unfold lower
  rw [String.toList_append, List.map_append, String.ofList_append]

theorem lower_lower (s : String) : lower (lower s) = lower s := by
  have htwice (c : Char) : c.toLower.toLower = c.toLower := by
    unfold Char.toLower
    grind
  unfold lower
  rw [String.toList_ofList, List.map_map]
  exact congrArg String.ofList (List.map_congr_left fun c _ => htwice c)

end ScriptSession.Text
