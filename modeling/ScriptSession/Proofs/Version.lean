import ScriptSession.Proofs.Numeral
import ScriptSession.Proofs.Path
import ScriptSession.Version

namespace ScriptSession

theorem mem_foldl_of_choice {α : Type} {f : α → α → α} (hf : ∀ a b, f a b = a ∨ f a b = b)
    (a : α) (rest : List α) : rest.foldl f a ∈ a :: rest := by
  induction rest generalizing a with
  | nil => exact List.mem_singleton_self a
  | cons b rest ih =>
    rw [List.foldl_cons]
    obtain hfirst | hlater := List.mem_cons.1 (ih (f a b))
    · rw [hfirst]
      obtain he | he := hf a b <;> rw [he]
      · exact List.mem_cons_self
      · exact List.mem_cons_of_mem _ List.mem_cons_self
    · exact List.mem_cons_of_mem _ (List.mem_cons_of_mem _ hlater)

namespace Version

/-- A text that is read as a version has numbers up to a dash, and the text is kept. -/
theorem cases_of_parse? {s : String} {v : Version} (h : parse? s = some v) :
    v.text.toList = Text.trim s.toList ∧ ∃ core, readNumbers? core = some v.numbers := by
  unfold parse? at h
  generalize Text.trim s.toList = cs at h ⊢
  have hread {core : List Char} {f : List Nat → Option Version} (hnil : f [] = none)
      (hcons : ∀ major others w, f (major :: others) = some w →
        w.text = String.ofList cs ∧ w.numbers = major :: others)
      (h : (readNumbers? core).bind f = some v) :
      v.text.toList = cs ∧ ∃ core, readNumbers? core = some v.numbers := by
    obtain ⟨found, hfound, h⟩ := Option.bind_eq_some_iff.1 h
    cases found with
    | nil => cases hnil.symm.trans h
    | cons major others =>
      obtain ⟨htext, hnumbers⟩ := hcons major others v h
      rw [htext, hnumbers, String.toList_ofList]
      exact ⟨rfl, core, hfound⟩
  dsimp only at h
  split at h
  · split at h
    · cases h
    · exact hread rfl (fun _ _ _ hw => by cases hw; exact ⟨rfl, rfl⟩) h
  · exact hread rfl (fun _ _ _ hw => by cases hw; exact ⟨rfl, rfl⟩) h

theorem text_of_parse? {s : String} {v : Version} (h : parse? s = some v) :
    v.text.toList = Text.trim s.toList :=
  (cases_of_parse? h).1

theorem eq_of_text {s t : String} {v w : Version} (hv : parse? s = some v)
    (hw : parse? t = some w) (h : v.text = w.text) : v = w := by
  have htrim : Text.trim s.toList = Text.trim t.toList := by
    rw [← text_of_parse? hv, ← text_of_parse? hw, h]
  have hparse : parse? s = parse? t := by
    unfold parse?
    rw [htrim]
  exact Option.some.inj (hv.symm.trans (hparse.trans hw))

/-- The text of a version is one step of a path where it holds no separator. -/
theorem isName_of_parse? {s : String} {v : Version} (h : parse? s = some v)
    (hs : '/' ∉ s.toList) : Path.IsName v.text := by
  have htext := text_of_parse? h
  unfold parse? at h
  rw [← htext] at h
  refine ⟨fun hm => hs (Text.mem_of_mem_trim (htext ▸ hm)), ?_, ?_, ?_⟩ <;>
    · intro he
      rw [he] at h
      cases h

theorem lt_of_readNumbers? {core : List Char} {numbers : List Nat}
    (h : readNumbers? core = some numbers) : ∀ n ∈ numbers, n < UInt64.size := by
  unfold readNumbers? at h
  generalize core.splitOn '.' = parts at h
  induction parts generalizing numbers with
  | nil =>
    cases h
    exact List.forall_mem_nil _
  | cons part parts ih =>
    rw [List.mapM_cons] at h
    obtain ⟨n, hn, h⟩ := Option.bind_eq_some_iff.1 h
    obtain ⟨rest, hrest, h⟩ := Option.bind_eq_some_iff.1 h
    cases h
    refine List.forall_mem_cons.2 ⟨?_, ih hrest⟩
    exact of_decide_eq_true (Option.filter_eq_some_iff.1 hn).2

theorem splitOn_toDigits (n : Nat) : (Nat.toDigits 10 n).splitOn '.' = [Nat.toDigits 10 n] :=
  List.splitOn_eq_singleton fun h => absurd (Text.isDigit_of_mem_toDigits h) (by decide)

theorem readNumbers?_toDigits {n : Nat} (hn : n < UInt64.size) :
    readNumbers? (Nat.toDigits 10 n) = some [n] := by
  rw [readNumbers?, splitOn_toDigits, List.mapM_cons, Text.readNatural?_toDigits hn]
  rfl

theorem readNumbers?_dot {n m : Nat} (hn : n < UInt64.size) (hm : m < UInt64.size) :
    readNumbers? (Nat.toDigits 10 n ++ '.' :: Nat.toDigits 10 m) = some [n, m] := by
  rw [readNumbers?, List.splitOn_append_cons_self, splitOn_toDigits, splitOn_toDigits,
    List.singleton_append, List.mapM_cons, Text.readNatural?_toDigits hn, List.mapM_cons,
    Text.readNatural?_toDigits hm]
  rfl

theorem parse?_of_numbers {cs : List Char} {major : Nat} {others : List Nat}
    (hcs : ∀ c ∈ cs, c.isDigit ∨ c = '.') (h : readNumbers? cs = some (major :: others)) :
    parse? (String.ofList cs) = some ⟨major, others, none, String.ofList cs⟩ := by
  have htrim : Text.trim cs = cs := by
    refine Text.trim_eq_self fun c hc => ?_
    obtain hdigit | rfl := hcs c hc
    · exact Text.isBlank_of_isDigit hdigit
    · rfl
  have hcut : Text.cutFirst '-' cs = none := by
    refine Text.cutFirst_eq_none fun hm => ?_
    obtain hdigit | he := hcs _ hm
    · cases hdigit
    · cases he
  unfold parse?
  dsimp only
  rw [String.toList_ofList, htrim, hcut]
  dsimp only [Option.bind_some, bind]
  rw [h]
  rfl

theorem exists_parse?_majorMinor {s : String} {v : Version} (h : parse? s = some v) :
    ∃ w, parse? v.majorMinor = some w ∧ w.major = v.major ∧ w.minor? = v.minor? := by
  obtain ⟨-, core, hcore⟩ := cases_of_parse? h
  have hlt := lt_of_readNumbers? hcore
  obtain ⟨major, others, prerelease, text⟩ := v
  have hmajor : major < UInt64.size := hlt major List.mem_cons_self
  cases others with
  | nil =>
    refine ⟨_, parse?_of_numbers ?_ (readNumbers?_toDigits hmajor), rfl, rfl⟩
    exact fun c hc => .inl (Text.isDigit_of_mem_toDigits hc)
  | cons minor others =>
    have hminor : minor < UInt64.size := hlt minor (List.mem_cons_of_mem _ List.mem_cons_self)
    have htext : majorMinor ⟨major, minor :: others, prerelease, text⟩ =
        String.ofList (Nat.toDigits 10 major ++ '.' :: Nat.toDigits 10 minor) := by
      apply String.toList_inj.1
      simp only [majorMinor, minor?, List.head?_cons, String.toList_append,
        Nat.toString_eq_ofList_toDigits, String.toList_ofList, List.append_assoc]
      rfl
    rw [htext]
    refine ⟨_, parse?_of_numbers ?_ (readNumbers?_dot hmajor hminor), rfl, rfl⟩
    intro c hc
    obtain hc | hc := List.mem_append.1 hc
    · exact .inl (Text.isDigit_of_mem_toDigits hc)
    · obtain rfl | hc := List.mem_cons.1 hc
      · exact .inr rfl
      · exact .inl (Text.isDigit_of_mem_toDigits hc)

theorem satisfies_congr {v w w' : Version} (hmajor : w.major = w'.major)
    (hminor : w.minor? = w'.minor?) : v.satisfies w = v.satisfies w' := by
  rw [satisfies, satisfies, hmajor, hminor]

theorem comparePadded_eq {n : Nat} {as bs : List Nat} (ha : as.length ≤ n) (hb : bs.length ≤ n) :
    comparePadded as bs = compare (as.rightpad n 0) (bs.rightpad n 0) := by
  have hcons (a : Nat) (as : List Nat) (n : Nat) :
      (a :: as).rightpad (n + 1) 0 = a :: as.rightpad n 0 := by simp [List.rightpad]
  have hnil (n : Nat) : ([] : List Nat).rightpad (n + 1) 0 = 0 :: [].rightpad n 0 := by
    simp [List.rightpad, List.replicate_succ]
  have hshort (n : Nat) : ([] : List Nat).length ≤ n := n.zero_le
  induction n generalizing as bs with
  | zero =>
    rw [List.length_eq_zero_iff.1 (Nat.le_zero.1 ha), List.length_eq_zero_iff.1 (Nat.le_zero.1 hb),
      comparePadded, Std.compare_self]
  | succ n ih =>
    cases as with
    | nil =>
      cases bs with
      | nil => rw [comparePadded, Std.compare_self]
      | cons b bs =>
        rw [comparePadded, hcons, hnil, List.compare_cons_cons,
          ih (hshort n) (Nat.le_of_succ_le_succ hb)]
    | cons a as =>
      cases bs with
      | nil =>
        rw [comparePadded, hcons, hnil, List.compare_cons_cons,
          ih (Nat.le_of_succ_le_succ ha) (hshort n)]
      | cons b bs =>
        rw [comparePadded, hcons, hcons, List.compare_cons_cons,
          ih (Nat.le_of_succ_le_succ ha) (Nat.le_of_succ_le_succ hb)]

theorem comparePrerelease_eq (a b : Option String) :
    comparePrerelease a b =
      (compare a.isNone b.isNone).then (compare (a.getD "") (b.getD "")) := by
  cases a <;> cases b <;> rfl

/-- The order of versions with at most `n` numbers. -/
def compareUpTo (n : Nat) : Version → Version → Ordering :=
  compareLex (compareOn fun v => v.numbers.rightpad n 0)
    (compareLex
      (compareLex (compareOn fun v => v.prerelease.isNone)
        (compareOn fun v => v.prerelease.getD ""))
      (compareOn text))

instance (n : Nat) : Std.TransCmp (compareUpTo n) := by
  unfold compareUpTo
  infer_instance

theorem compare_eq {n : Nat} {v w : Version} (hv : v.numbers.length ≤ n)
    (hw : w.numbers.length ≤ n) : compare v w = compareUpTo n v w := by
  change (comparePadded v.numbers w.numbers).then _ = _
  rw [comparePadded_eq hv hw, comparePrerelease_eq]
  rfl

-- the order of a common length is taken anew for the versions at hand
instance : Std.TransOrd Version where
  eq_swap {v w} := by
    have hv := Nat.le_max_left v.numbers.length w.numbers.length
    have hw := Nat.le_max_right v.numbers.length w.numbers.length
    rw [compare_eq hv hw, compare_eq hw hv]
    exact Std.OrientedCmp.eq_swap
  isLE_trans {u v w} huv hvw := by
    have hu := Nat.le_max_left u.numbers.length (max v.numbers.length w.numbers.length)
    have hvw' := Nat.le_max_right u.numbers.length (max v.numbers.length w.numbers.length)
    have hv := (Nat.le_max_left v.numbers.length w.numbers.length).trans hvw'
    have hw := (Nat.le_max_right v.numbers.length w.numbers.length).trans hvw'
    rw [compare_eq hu hv] at huv
    rw [compare_eq hv hw] at hvw
    rw [compare_eq hu hw]
    exact Std.TransCmp.isLE_trans huv hvw

theorem text_of_compare {v w : Version} (h : compare v w = .eq) : v.text = w.text := by
  have htext : compare v.text w.text = .eq := (Ordering.then_eq_eq.1 (Ordering.then_eq_eq.1 h).2).2
  exact Std.LawfulEqOrd.eq_of_compare htext

theorem eq_of_compare {s t : String} {v w : Version} (hv : parse? s = some v)
    (hw : parse? t = some w) (h : compare v w = .eq) : v = w :=
  eq_of_text hv hw (text_of_compare h)

theorem isLE_total (v w : Version) : (compare v w).isLE ∨ (compare w v).isLE := by
  rw [Std.OrientedOrd.eq_swap (a := w)]
  cases compare v w
  · exact .inl rfl
  · exact .inl rfl
  · exact .inr rfl

/-- The numbers of a version, followed by zeros up to `n` of them. -/
def padded (v : Version) (n : Nat) : List Nat :=
  v.numbers.rightpad n 0

section Padded

variable {v w : Version} {n : Nat}

theorem compare_of_padded_ne (hv : v.numbers.length ≤ n) (hw : w.numbers.length ≤ n)
    (h : v.padded n ≠ w.padded n) : compare v w = compare (v.padded n) (w.padded n) := by
  change (comparePadded v.numbers w.numbers).then _ = _
  rw [comparePadded_eq hv hw]
  cases hc : compare (v.numbers.rightpad n 0) (w.numbers.rightpad n 0) with
  | eq => exact absurd (Std.LawfulEqOrd.eq_of_compare hc) h
  | lt | gt => exact hc.symm

theorem compare_of_release (hv : v.numbers.length ≤ n) (hw : w.numbers.length ≤ n)
    (h : v.padded n = w.padded n) (hrelease : v.isPrerelease = false)
    (hprerelease : w.isPrerelease = true) : compare v w = .gt := by
  change (comparePadded v.numbers w.numbers).then _ = _
  have hsame : compare (v.numbers.rightpad n 0) (w.numbers.rightpad n 0) = .eq :=
    Std.LawfulEqOrd.compare_eq_iff_eq.2 h
  obtain ⟨suffix, hsuffix⟩ := Option.isSome_iff_exists.1 hprerelease
  have hnone : v.prerelease = none :=
    Option.isNone_iff_eq_none.1 (Option.isSome_eq_false_iff.1 hrelease)
  rw [comparePadded_eq hv hw, hsame, hnone, hsuffix]
  rfl

end Padded

/-- Whether one of some names spells a version that satisfies a request, if there is one. -/
def Candidate (names : List String) (requested : Option Version) (v : Version) : Prop :=
  (∃ name ∈ names, parse? name = some v) ∧ ∀ r ∈ requested, v.satisfies r

/-- Whether a version is the latest that some names spell and a request allows. -/
def IsLatest (names : List String) (requested : Option Version) (v : Version) : Prop :=
  Candidate names requested v ∧ ∀ w, Candidate names requested w → (compare w v).isLE

theorem satisfies_iff {v r : Version} : v.satisfies r ↔ r.numbers.take 2 <+: v.numbers := by
  obtain ⟨major, others, _, _⟩ := v
  obtain ⟨major', others', _, _⟩ := r
  cases others' with
  | nil => simp [satisfies, numbers, minor?, @eq_comm _ major']
  | cons minor' others' =>
    cases others with
    | nil => simp [satisfies, numbers, minor?]
    | cons minor others =>
      simp [satisfies, numbers, minor?, @eq_comm _ major', @eq_comm _ minor']

theorem later_cases (v w : Version) : later v w = v ∨ later v w = w := by
  unfold later
  split
  · exact .inl rfl
  · exact .inr rfl

theorem isLE_refl (v : Version) : (compare v v).isLE := by
  rw [Std.compare_self]
  rfl

theorem isLE_later (v w : Version) :
    (compare v (later v w)).isLE ∧ (compare w (later v w)).isLE := by
  unfold later
  split
  next h =>
    refine ⟨isLE_refl v, ?_⟩
    rw [Std.OrientedOrd.eq_swap (a := w)]
    revert h
    cases compare v w <;> decide
  next h =>
    refine ⟨?_, isLE_refl w⟩
    revert h
    cases compare v w <;> decide

theorem isLE_foldl_later (v : Version) (vs : List Version) :
    ∀ w ∈ v :: vs, (compare w (vs.foldl later v)).isLE := by
  induction vs generalizing v with
  | nil => exact List.forall_mem_singleton.2 (isLE_refl v)
  | cons u vs ih =>
    rw [List.foldl_cons]
    obtain ⟨hlater, hrest⟩ := List.forall_mem_cons.1 (ih (later v u))
    obtain ⟨hv, hu⟩ := isLE_later v u
    exact List.forall_mem_cons.2 ⟨Std.TransCmp.isLE_trans hv hlater,
      List.forall_mem_cons.2 ⟨Std.TransCmp.isLE_trans hu hlater, hrest⟩⟩

theorem mem_candidates {names : List String} {requested : Option Version} {v : Version} :
    v ∈ (names.filterMap parse?).filter (fun v => requested.all v.satisfies) ↔
      Candidate names requested v := by
  rw [List.mem_filter, List.mem_filterMap, Option.all_eq_true]
  rfl

theorem mem_of_latest? {vs : List Version} {v : Version} (h : latest? vs = some v) : v ∈ vs := by
  cases vs with
  | nil => cases h
  | cons w ws =>
    cases h
    exact mem_foldl_of_choice later_cases w ws

theorem isLE_latest? {vs : List Version} {v : Version} (h : latest? vs = some v) :
    ∀ w ∈ vs, (compare w v).isLE := by
  cases vs with
  | nil => cases h
  | cons u us =>
    cases h
    exact isLE_foldl_later u us

section Select

variable {names names' : List String} {requested : Option Version} {v w : Version}

theorem isLatest_of_select? (h : select? names requested = some v) :
    IsLatest names requested v :=
  ⟨mem_candidates.1 (mem_of_latest? h), fun w hw => isLE_latest? h w (mem_candidates.2 hw)⟩

theorem exists_of_select? (h : select? names requested = some v) :
    ∃ name ∈ names, parse? name = some v :=
  (isLatest_of_select? h).1.1

theorem select?_eq_none_iff :
    select? names requested = none ↔ ∀ v, ¬ Candidate names requested v := by
  have hnone (vs : List Version) : latest? vs = none ↔ vs = [] := by
    cases vs <;> simp [latest?]
  rw [select?, hnone, List.eq_nil_iff_forall_not_mem]
  exact forall_congr' fun v => not_congr mem_candidates

/-- There is only one latest version, as versions that texts are read as differ in their texts. -/
theorem IsLatest.unique (hv : IsLatest names requested v) (hw : IsLatest names requested w) :
    v = w := by
  obtain ⟨_, -, hreadv⟩ := hv.1.1
  obtain ⟨_, -, hreadw⟩ := hw.1.1
  exact eq_of_text hreadv hreadw
    (text_of_compare (Std.OrientedCmp.isLE_antisymm (hw.2 v hv.1) (hv.2 w hw.1)))

theorem select?_eq_some_iff : select? names requested = some v ↔ IsLatest names requested v := by
  refine ⟨isLatest_of_select?, fun h => ?_⟩
  cases hs : select? names requested with
  | none => exact absurd h.1 (select?_eq_none_iff.1 hs v)
  | some w => rw [(isLatest_of_select? hs).unique h]

theorem candidate_perm (h : names.Perm names') :
    Candidate names requested v ↔ Candidate names' requested v :=
  and_congr_left' (exists_congr fun _ => and_congr_left' h.mem_iff)

theorem isLatest_perm (h : names.Perm names') :
    IsLatest names requested v ↔ IsLatest names' requested v :=
  and_congr (candidate_perm h) (forall_congr' fun _ => imp_congr_left (candidate_perm h))

theorem select?_perm (h : names.Perm names') : select? names requested = select? names' requested :=
  Option.ext fun v => by
    rw [select?_eq_some_iff, select?_eq_some_iff, isLatest_perm h]

theorem select?_congr {r r' : Version} (hmajor : r.major = r'.major)
    (hminor : r.minor? = r'.minor?) : select? names (some r) = select? names (some r') := by
  simp only [select?, Option.all_some, satisfies_congr hmajor hminor]

theorem select?_majorMinor {s : String} (h : parse? s = some v) :
    ((parse? v.majorMinor).bind fun wanted => select? names (some wanted)) =
      select? names (some v) := by
  obtain ⟨wanted, hwanted, hmajor, hminor⟩ := exists_parse?_majorMinor h
  rw [hwanted]
  exact select?_congr hmajor hminor

theorem isLatest_majorMinor {s : String} (h : parse? s = some v) :
    IsLatest names (parse? v.majorMinor) w ↔ IsLatest names (some v) w := by
  obtain ⟨wanted, hwanted, hmajor, hminor⟩ := exists_parse?_majorMinor h
  rw [hwanted, ← select?_eq_some_iff, ← select?_eq_some_iff, select?_congr hmajor hminor]

end Select

/-- Versions are in a linear order that goes by the numbers first and then puts releases last, and
in which those that texts spell are told apart. What is selected is the greatest version that some
name spells and the request allows, if there is one, whatever the order of the names. -/
theorem selection_is_maximum :
    (∀ u v w : Version, compare w v = (compare v w).swap ∧
      ((compare v w).isLE ∨ (compare w v).isLE) ∧
      ((compare u v).isLE → (compare v w).isLE → (compare u w).isLE)) ∧
    (∀ (s t : String) (v w : Version), parse? s = some v → parse? t = some w →
      ((compare v w).isLE → (compare w v).isLE → v = w) ∧ (compare v w = .eq ↔ v = w) ∧
      ∀ n, v.numbers.length ≤ n → w.numbers.length ≤ n →
        (v.padded n ≠ w.padded n → compare v w = compare (v.padded n) (w.padded n)) ∧
        (v.padded n = w.padded n → v.isPrerelease = false → w.isPrerelease = true →
          compare v w = .gt)) ∧
    (∀ v r : Version, v.satisfies r ↔ r.numbers.take 2 <+: v.numbers) ∧
    ∀ (names : List String) (requested : Option Version),
      ((∃ v, select? names requested = some v) ↔ ∃ v, Candidate names requested v) ∧
      (∀ v, select? names requested = some v →
        Candidate names requested v ∧ ∀ w, Candidate names requested w → (compare w v).isLE) ∧
      ∀ names', names.Perm names' → select? names' requested = select? names requested := by
  refine ⟨fun u v w => ?_, fun s t v w hv hw => ?_, fun v r => satisfies_iff, ?_⟩
  · exact ⟨Std.OrientedOrd.eq_swap, isLE_total v w, Std.TransCmp.isLE_trans⟩
  · refine ⟨fun hle hge => ?_, ⟨eq_of_compare hv hw, fun he => ?_⟩, fun n hvn hwn => ?_⟩
    · exact eq_of_compare hv hw (Std.OrientedCmp.isLE_antisymm hle hge)
    · rw [he, Std.compare_self]
    · exact ⟨compare_of_padded_ne hvn hwn, compare_of_release hvn hwn⟩
  · intro names requested
    refine ⟨⟨?_, ?_⟩, fun v hv => isLatest_of_select? hv, fun names' h => (select?_perm h).symm⟩
    · rintro ⟨v, hv⟩
      exact ⟨v, (isLatest_of_select? hv).1⟩
    · rintro ⟨v, hv⟩
      by_contra hnone
      rw [not_exists, ← Option.eq_none_iff_forall_ne_some] at hnone
      exact select?_eq_none_iff.1 hnone v hv

/-- `6.0.0` and `6.0` have the same numbers and differ, and `6.0-rc.1` comes before both; of the
three and `7` the request `6.0.9` selects `6.0.0`. -/
theorem selection_among_equal_numbers :
    let six : Version := ⟨6, [0], none, "6.0"⟩
    let long : Version := ⟨6, [0, 0], none, "6.0.0"⟩
    let candidate : Version := ⟨6, [0], some "rc.1", "6.0-rc.1"⟩
    let seven : Version := ⟨7, [], none, "7"⟩
    let names := ["6.0.0", "six", " 6.0", "7", "6.0-rc.1"]
    let requested := parse? "6.0.9"
    (six ≠ long ∧ compare six long ≠ .eq) ∧ compare long candidate = .gt ∧
      compare long seven = compare (long.padded 3) (seven.padded 3) ∧
      select? names requested = some long ∧ (compare six long).isLE ∧
      select? names.reverse requested = some long := by
  intro six long candidate seven names requested
  have hsix : parse? " 6.0" = some six := by decide +kernel
  have hlong : parse? "6.0.0" = some long := by decide +kernel
  have hcandidate : parse? "6.0-rc.1" = some candidate := by decide +kernel
  have hseven : parse? "7" = some seven := by decide +kernel
  have hselect : select? names requested = some long := by decide +kernel
  have hallowed : Candidate names requested six :=
    ⟨⟨" 6.0", by decide, hsix⟩, by decide +kernel⟩
  obtain ⟨-, horder, -, hselection⟩ := selection_is_maximum
  obtain ⟨-, hequal, -⟩ := horder _ _ _ _ hsix hlong
  obtain ⟨-, -, hrelease⟩ := horder _ _ _ _ hlong hcandidate
  obtain ⟨-, -, hnumbers⟩ := horder _ _ _ _ hlong hseven
  obtain ⟨-, hlatest, hperm⟩ := hselection names requested
  have hdiffer : six ≠ long := by decide
  refine ⟨⟨hdiffer, mt hequal.1 hdiffer⟩, ?_, ?_, hselect, ?_, ?_⟩
  · exact (hrelease 3 (by decide) (by decide)).2 (by decide) rfl rfl
  · exact (hnumbers 3 (by decide) (by decide)).1 (by decide)
  · exact (hlatest long hselect).2 six hallowed
  · exact (hperm _ (List.reverse_perm names).symm).trans hselect

end Version
end ScriptSession
