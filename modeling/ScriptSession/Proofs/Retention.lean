import Mathlib.Data.List.Induction
import Mathlib.Data.List.Nodup
import ScriptSession.Analysis.Cache

namespace ScriptSession

/-- What a cache is asked: to serve a key at a time, with how to compute its value, or to forget
all. -/
inductive CacheRequest (α : Type)
  | lookup (key : CacheKey) (now : Nat) (compute : Unit → α)
  | clear

def CacheRequest.looksUp {α : Type} : CacheRequest α → Bool
  | lookup .. => true
  | clear => false

namespace Cache

variable {α : Type}

section Eviction

variable {capacity now : Nat} {entries left : List (CacheEntry α)} {e oldest : CacheEntry α}

theorem inserted_older_le (a b : CacheEntry α) :
    (older a b).inserted ≤ a.inserted ∧ (older a b).inserted ≤ b.inserted := by
  rw [older]
  split
  next h => exact ⟨Nat.le_of_lt h, Nat.le_refl _⟩
  next h => exact ⟨Nat.le_refl _, Nat.not_lt.1 h⟩

theorem inserted_foldl_older_le (e : CacheEntry α) (es : List (CacheEntry α)) :
    ∀ d ∈ e :: es, (es.foldl older e).inserted ≤ d.inserted := by
  induction es generalizing e with
  | nil => exact List.forall_mem_singleton.2 (Nat.le_refl _)
  | cons b es ih =>
    obtain ⟨hfirst, hrest⟩ := List.forall_mem_cons.1 (ih (older e b))
    obtain ⟨he, hb⟩ := inserted_older_le e b
    have hrest' : ∀ d ∈ b :: es, (es.foldl older (older e b)).inserted ≤ d.inserted :=
      List.forall_mem_cons.2 ⟨Nat.le_trans hfirst hb, hrest⟩
    exact List.forall_mem_cons.2 ⟨Nat.le_trans hfirst he, hrest'⟩

theorem inserted_le_of_oldest? (h : oldest? entries = some oldest) :
    ∀ e ∈ entries, oldest.inserted ≤ e.inserted := by
  cases entries with
  | nil => cases h
  | cons e es =>
    cases h
    exact inserted_foldl_older_le e es

theorem exists_oldest? (h : 0 < entries.length) : ∃ oldest, oldest? entries = some oldest := by
  cases entries with
  | nil => cases h
  | cons e es => exact ⟨_, rfl⟩

/-- `Rounds capacity n entries left`: the loop that makes room in `entries` ends after `n` rounds
with `left`, where each round takes off the oldest entry. -/
inductive Rounds (capacity : Nat) : Nat → List (CacheEntry α) → List (CacheEntry α) → Prop
  | done {entries : List (CacheEntry α)} : entries.length < capacity →
      Rounds capacity 0 entries entries
  | round {n : Nat} {entries left : List (CacheEntry α)} {oldest : CacheEntry α} :
      capacity ≤ entries.length → oldest? entries = some oldest →
      Rounds capacity n (entries.eraseP (·.key = oldest.key)) left →
      Rounds capacity (n + 1) entries left

theorem length_eraseP_oldest? (h : oldest? entries = some oldest) :
    (entries.eraseP (·.key = oldest.key)).length = entries.length - 1 :=
  List.length_eraseP_of_mem (oldest?_mem h) (decide_eq_true rfl)

/-- The loop ends after one round for each entry that is too many. -/
theorem rounds_shrink (hc : 0 < capacity) (entries : List (CacheEntry α)) :
    Rounds capacity (entries.length + 1 - capacity) entries (shrink capacity entries) := by
  fun_induction shrink capacity entries with
  | case1 entries hfull oldest hold ih =>
    have hcount : entries.length + 1 - capacity =
        (entries.eraseP (·.key = oldest.key)).length + 1 - capacity + 1 := by
      rw [length_eraseP_oldest? hold]
      omega
    rw [hcount]
    exact .round hfull hold ih
  | case2 entries hfull hnone =>
    obtain ⟨oldest, hold⟩ := exists_oldest? (Nat.lt_of_lt_of_le hc hfull)
    cases hold.symm.trans hnone
  | case3 entries hroom =>
    rw [Nat.sub_eq_zero_of_le (by omega)]
    exact .done (Nat.not_le.1 hroom)

theorem Rounds.length_lt {n : Nat} (h : Rounds capacity n entries left) :
    left.length < capacity := by
  induction h with
  | done hroom => exact hroom
  | round _ _ _ ih => exact ih

theorem shrink_sublist (capacity : Nat) (entries : List (CacheEntry α)) :
    (shrink capacity entries).Sublist entries := by
  fun_induction shrink capacity entries with
  | case1 entries _ oldest _ ih => exact ih.trans List.eraseP_sublist
  | case2 => exact .refl _
  | case3 => exact .refl _

theorem shrink_of_lt (h : entries.length < capacity) : shrink capacity entries = entries := by
  rw [shrink, if_neg (Nat.not_le.2 h)]

/-- Of entries with different keys that fill a cache, the one that was inserted first goes. -/
theorem exists_oldest_of_full (hc : 0 < capacity) (hn : (entries.map (·.key)).Nodup)
    (hfull : entries.length = capacity) :
    ∃ before oldest after, entries = before ++ oldest :: after ∧
      (∀ e ∈ entries, oldest.inserted ≤ e.inserted) ∧
      shrink capacity entries = before ++ after := by
  obtain ⟨oldest, hold⟩ := exists_oldest? (hfull ▸ hc)
  have hmem := oldest?_mem hold
  obtain ⟨found, before, after, -, hkey, hsplit, herase⟩ :=
    List.exists_of_eraseP (p := (·.key = oldest.key)) hmem (decide_eq_true rfl)
  have hfound : found = oldest :=
    List.inj_on_of_nodup_map hn (hsplit ▸ List.mem_append_right _ List.mem_cons_self) hmem
      (of_decide_eq_true hkey)
  subst hfound
  refine ⟨before, found, after, hsplit, inserted_le_of_oldest? hold, ?_⟩
  have hroom : (before ++ after).length < capacity := by
    rw [← hfull, hsplit]
    simp
  have hround : shrink capacity entries = shrink capacity (entries.eraseP (·.key = found.key)) := by
    rw [shrink, if_pos (Nat.le_of_eq hfull.symm)]
    split
    next d hd => rw [Option.some.inj (hold.symm.trans hd)]
    next hnone => cases hold.symm.trans hnone
  rw [hround, herase, shrink_of_lt hroom]

end Eviction

section Lookup

variable {c : Cache α} {key : CacheKey} {now : Nat} {value : α} {e : CacheEntry α}

theorem isFresh_iff : c.isFresh now e ↔ now - e.inserted < c.ttl := by
  rw [isFresh, isExpired, Bool.not_eq_true', decide_eq_false_iff_not, Nat.not_le]

theorem exists_of_get? (h : c.get? key now = some value) :
    ∃ e ∈ c.entries, e.key = key ∧ now - e.inserted < c.ttl ∧ e.value = value := by
  obtain ⟨e, hfind, rfl⟩ := Option.map_eq_some_iff.1 h
  have hfound := List.find?_some hfind
  rw [Bool.and_eq_true, decide_eq_true_eq, isFresh_iff] at hfound
  exact ⟨e, List.mem_of_find?_eq_some hfind, hfound.1, hfound.2, rfl⟩

theorem get?_eq_none_iff :
    c.get? key now = none ↔ ∀ e ∈ c.entries, e.key = key → c.ttl ≤ now - e.inserted := by
  rw [get?, Option.map_eq_none_iff, List.find?_eq_none]
  simp only [Bool.and_eq_true, decide_eq_true_eq, isFresh_iff, not_and, Nat.not_lt]

def room (c : Cache α) (key : CacheKey) (now : Nat) : List (CacheEntry α) :=
  let others := c.entries.filter (·.key ≠ key)
  if c.capacity ≤ others.length then shrink c.capacity (others.filter (c.isFresh now)) else others

theorem insert_eq (c : Cache α) (key : CacheKey) (value : α) (now : Nat) :
    c.insert key value now = { c with entries := c.room key now ++ [⟨key, value, now⟩] } := by
  rw [insert, room]
  split
  · rfl
  · rfl

theorem room_sublist (c : Cache α) (key : CacheKey) (now : Nat) :
    (c.room key now).Sublist (c.entries.filter (·.key ≠ key)) := by
  rw [room]
  split
  · exact (shrink_sublist _ _).trans List.filter_sublist
  · exact .refl _

theorem mem_of_mem_insert (h : e ∈ (c.insert key value now).entries) :
    e ∈ c.entries ∧ e.key ≠ key ∨ e = ⟨key, value, now⟩ := by
  rw [insert_eq] at h
  obtain hold | hnew := List.mem_append.1 h
  · obtain ⟨hmem, hkey⟩ := List.mem_filter.1 ((room_sublist c key now).subset hold)
    exact .inl ⟨hmem, of_decide_eq_true hkey⟩
  · exact .inr (List.mem_singleton.1 hnew)

theorem length_room_lt (hc : 0 < c.capacity) (key : CacheKey) (now : Nat) :
    (c.room key now).length < c.capacity := by
  rw [room]
  split
  · exact (rounds_shrink hc _).length_lt
  next h => exact Nat.not_le.1 h

end Lookup

/-- Looks a key up where computing its value has effects. -/
def getOrInsertM {m : Type → Type} [Monad m] (c : Cache α) (key : CacheKey) (now : Nat)
    (compute : m α) : m (α × Cache α) :=
  match c.get? key now with
  | some value => pure (value, { c with hits := c.hits + 1 })
  | none => do
    let value ← compute
    return (value, { c.insert key value now with misses := c.misses + 1 })

theorem getOrInsert_eq (c : Cache α) (key : CacheKey) (now : Nat) (compute : Unit → α) :
    c.getOrInsert key now compute = Id.run (c.getOrInsertM key now (pure (compute ()))) := by
  rw [getOrInsert, getOrInsertM]
  cases c.get? key now with
  | some value => rfl
  | none => rfl

def serve (c : Cache α) : CacheRequest α → Cache α
  | .lookup key now compute => (c.getOrInsert key now compute).2
  | .clear => c.clear

def after (c : Cache α) (requests : List (CacheRequest α)) : Cache α :=
  requests.foldl serve c

section Run

variable {c : Cache α} {key : CacheKey} {now : Nat} {value : α} {e : CacheEntry α}
  {requests front back : List (CacheRequest α)} {compute : Unit → α}

theorem after_concat (c : Cache α) (requests : List (CacheRequest α)) (r : CacheRequest α) :
    c.after (requests ++ [r]) = (c.after requests).serve r := by
  rw [after, List.foldl_append]
  rfl

theorem serve_of_hit (h : c.get? key now = some value) (compute : Unit → α) :
    c.serve (.lookup key now compute) = { c with hits := c.hits + 1 } := by
  rw [serve, getOrInsert, h]

theorem serve_of_miss (h : c.get? key now = none) (compute : Unit → α) :
    c.serve (.lookup key now compute) =
      { c.insert key (compute ()) now with misses := c.misses + 1 } := by
  rw [serve, getOrInsert, h]

/-- Whether a cache is no bigger than it may be and holds one entry for a key at most, after `n`
lookups. -/
structure Bounded (limit lifetime n : Nat) (c : Cache α) : Prop where
  capacity : c.capacity = max limit 1
  ttl : c.ttl = lifetime
  size : c.size ≤ max limit 1
  keys : (c.entries.map (·.key)).Nodup
  lookups : c.hits + c.misses = n

theorem bounded_new (capacity ttl : Nat) : (new capacity ttl : Cache α).Bounded capacity ttl 0 :=
  ⟨rfl, rfl, Nat.zero_le _, List.nodup_nil, rfl⟩

theorem Bounded.capacity_pos {limit lifetime n : Nat} (h : c.Bounded limit lifetime n) :
    0 < c.capacity := by
  rw [h.capacity]
  omega

theorem Bounded.nodup_filter {limit lifetime n : Nat} (h : c.Bounded limit lifetime n)
    (p : CacheEntry α → Bool) : ((c.entries.filter p).map (·.key)).Nodup :=
  h.keys.sublist (List.filter_sublist.map _)

theorem Bounded.serve {limit lifetime n : Nat} (h : c.Bounded limit lifetime n)
    (r : CacheRequest α) : (c.serve r).Bounded limit lifetime (n + r.looksUp.toNat) := by
  cases r with
  | clear => exact ⟨h.capacity, h.ttl, Nat.zero_le _, List.nodup_nil, h.lookups⟩
  | lookup key now compute =>
    cases hget : c.get? key now with
    | some value =>
      rw [serve_of_hit hget]
      refine ⟨h.capacity, h.ttl, h.size, h.keys, ?_⟩
      rw [Nat.add_right_comm, h.lookups]
      rfl
    | none =>
      rw [serve_of_miss hget, insert_eq]
      have hroom := c.room_sublist key now
      constructor
      · exact h.capacity
      · exact h.ttl
      · rw [Cache.size, List.length_append, ← h.capacity]
        exact length_room_lt h.capacity_pos key now
      · rw [List.map_append]
        apply List.Nodup.append
        · exact (h.nodup_filter _).sublist (hroom.map _)
        · exact List.nodup_singleton _
        · -- what is left to join has other keys
          intro k hk hnew
          obtain ⟨e, he, rfl⟩ := List.mem_map.1 hk
          have hother := (List.mem_filter.1 (hroom.subset he)).2
          rw [decide_eq_true_eq] at hother
          exact hother (List.mem_singleton.1 hnew)
      · rw [← Nat.add_assoc, h.lookups]
        rfl

theorem bounded_after (capacity ttl : Nat) (requests : List (CacheRequest α)) :
    ((new capacity ttl).after requests).Bounded capacity ttl (requests.countP (·.looksUp)) := by
  induction requests using List.reverseRecOn with
  | nil => exact bounded_new capacity ttl
  | append_singleton requests r ih =>
    rw [after_concat, List.countP_append]
    have hserve := ih.serve r
    cases r with
    | lookup => exact hserve
    | clear => exact hserve

/-- Whether a lookup among some requests stored an entry and every later one left it in place: the
lookup missed, nothing was cleared since, and every later lookup for the key hit. -/
structure LatestMiss (c : Cache α) (requests front : List (CacheRequest α)) (e : CacheEntry α)
    (compute : Unit → α) (back : List (CacheRequest α)) : Prop where
  split : requests = front ++ .lookup e.key e.inserted compute :: back
  missed : (c.after front).get? e.key e.inserted = none
  value : e.value = compute ()
  uncleared : .clear ∉ back
  held : ∀ mid, mid <+: back →
    e ∈ (c.after (front ++ .lookup e.key e.inserted compute :: mid)).entries
  hit : ∀ mid now compute', mid ++ [.lookup e.key now compute'] <+: back →
    (c.after (front ++ .lookup e.key e.inserted compute :: mid)).get? e.key now ≠ none

theorem latestMiss_of_miss (h : (c.after front).get? key now = none) (compute : Unit → α) :
    c.LatestMiss (front ++ [.lookup key now compute]) front ⟨key, compute (), now⟩ compute [] := by
  refine ⟨rfl, h, rfl, List.not_mem_nil, fun mid hmid => ?_, fun mid now compute' hmid => ?_⟩
  · rw [List.prefix_nil.1 hmid, after_concat, serve_of_miss h, insert_eq]
    exact List.mem_append_right _ (List.mem_singleton_self _)
  · have hnil := List.prefix_nil.1 hmid
    simp at hnil

theorem LatestMiss.concat (h : c.LatestMiss requests front e compute back) {r : CacheRequest α}
    (hr : r ≠ .clear) (hheld : e ∈ (c.after (requests ++ [r])).entries)
    (hhit : ∀ now compute', r = .lookup e.key now compute' →
      (c.after requests).get? e.key now ≠ none) :
    c.LatestMiss (requests ++ [r]) front e compute (back ++ [r]) := by
  obtain ⟨rfl, hmissed, hvalue, huncleared, hold, hhits⟩ := h
  rw [List.append_assoc, List.cons_append] at hheld
  refine ⟨by rw [List.append_assoc, List.cons_append], hmissed, hvalue, ?_, fun mid hmid => ?_,
    fun mid now compute' hmid => ?_⟩
  · intro hmem
    obtain hback | hnew := List.mem_append.1 hmem
    · exact huncleared hback
    · exact hr (List.mem_singleton.1 hnew).symm
  · obtain rfl | hmid := List.prefix_concat_iff.1 hmid
    · exact hheld
    · exact hold mid hmid
  · obtain hlast | hmid := List.prefix_concat_iff.1 hmid
    · obtain ⟨rfl, hone⟩ := List.append_inj' hlast rfl
      exact hhit now compute' (List.singleton_inj.1 hone).symm
    · exact hhits mid now compute' hmid

/-- Every entry that a run holds was stored by the latest miss for its key. -/
theorem exists_latestMiss {capacity ttl : Nat}
    (he : e ∈ ((new capacity ttl).after requests).entries) :
    ∃ front compute back, (new capacity ttl).LatestMiss requests front e compute back := by
  induction requests using List.reverseRecOn with
  | nil => cases he
  | append_singleton requests r ih =>
    -- an entry that was there before is still the latest
    have hkept (hold : e ∈ ((new capacity ttl).after requests).entries) (hr : r ≠ .clear)
        (hhit : ∀ now compute', r = .lookup e.key now compute' →
          ((new capacity ttl).after requests).get? e.key now ≠ none) :
        ∃ front compute back,
          (new capacity ttl).LatestMiss (requests ++ [r]) front e compute back := by
      obtain ⟨front, compute, back, hlatest⟩ := ih hold
      exact ⟨front, compute, back ++ [r], hlatest.concat hr he hhit⟩
    rw [after_concat] at he
    cases r with
    | clear => cases he
    | lookup key now compute =>
      cases hget : ((new capacity ttl).after requests).get? key now with
      | some value =>
        rw [serve_of_hit hget] at he
        refine hkept he nofun fun now' compute' hr => ?_
        cases hr
        rw [hget]
        exact Option.some_ne_none value
      | none =>
        rw [serve_of_miss hget] at he
        obtain ⟨hold, hkey⟩ | rfl := mem_of_mem_insert he
        · refine hkept hold nofun fun now' compute' hr => ?_
          cases hr
          exact (hkey rfl).elim
        · exact ⟨requests, compute, [], latestMiss_of_miss hget compute⟩

/-- What is left of some entries when room is made among them for one more: all where there are
fewer than the limit, and otherwise those that have not expired, or, where none has, all but one
that no other is older than. -/
inductive MakesRoom (limit lifetime now : Nat) :
    List (CacheEntry α) → List (CacheEntry α) → Prop
  | spare {entries : List (CacheEntry α)} : entries.length < limit →
      MakesRoom limit lifetime now entries entries
  | expired {entries : List (CacheEntry α)} : limit ≤ entries.length →
      (∃ e ∈ entries, lifetime ≤ now - e.inserted) →
      MakesRoom limit lifetime now entries (entries.filter (now - ·.inserted < lifetime))
  | oldest {before after : List (CacheEntry α)} {oldest : CacheEntry α} :
      limit ≤ (before ++ oldest :: after).length →
      (∀ e ∈ before ++ oldest :: after, now - e.inserted < lifetime) →
      (∀ e ∈ before ++ oldest :: after, oldest.inserted ≤ e.inserted) →
      MakesRoom limit lifetime now (before ++ oldest :: after) (before ++ after)

theorem Bounded.makesRoom {limit lifetime n : Nat} (h : c.Bounded limit lifetime n)
    (key : CacheKey) (now : Nat) :
    MakesRoom (max limit 1) lifetime now (c.entries.filter (·.key ≠ key)) (c.room key now) := by
  have hnodup := h.nodup_filter (·.key ≠ key)
  have hle := Nat.le_trans (List.length_filter_le (·.key ≠ key) c.entries) h.size
  rw [room, h.capacity]
  generalize c.entries.filter (·.key ≠ key) = others at hnodup hle
  have hfresh : others.filter (c.isFresh now) = others.filter (now - ·.inserted < lifetime) := by
    apply List.filter_congr
    intro e _
    rw [Bool.eq_iff_iff, isFresh_iff, h.ttl, decide_eq_true_iff]
  rw [hfresh]
  split
  next hfull =>
    by_cases hexpired : ∃ e ∈ others, lifetime ≤ now - e.inserted
    · -- what is left without the expired entries is not full
      have hless : (others.filter (now - ·.inserted < lifetime)).length < others.length := by
        obtain ⟨e, he, hlong⟩ := hexpired
        rw [List.length_filter_lt_length_iff_exists]
        exact ⟨e, he, by simpa using hlong⟩
      rw [shrink_of_lt (Nat.lt_of_lt_of_le hless hle)]
      exact .expired hfull hexpired
    · have hall : ∀ e ∈ others, now - e.inserted < lifetime := by
        intro e he
        exact Nat.not_le.1 fun hlong => hexpired ⟨e, he, hlong⟩
      rw [List.filter_eq_self.2 fun e he => decide_eq_true (hall e he)]
      obtain ⟨before, oldest, after, rfl, holdest, hshrink⟩ :=
        exists_oldest_of_full (by omega) hnodup (Nat.le_antisymm hle hfull)
      rw [hshrink]
      exact .oldest hfull hall holdest
  next hspare => exact .spare (Nat.not_le.1 hspare)

end Run

/-- After every run of lookups and clears, at whatever times (a clock that goes back counts as one
that stands still): a cache has no more entries than it may have, and hits and misses add up to the
lookups. The next lookup either hits, and then it gives the value that the latest miss for the key
stored less than the time to live ago and that nothing has cleared or evicted since, without
computing anything; or nothing that is held for the key is that young, and it computes a value once
and gives that, also where computing has effects. The loop that makes room ends after one round for
each entry too many. A lookup that misses adds its entry to those of other keys, among which room
was made. -/
theorem cache_is_bounded_and_honest (capacity ttl : Nat) (requests : List (CacheRequest α)) :
    let c := (new capacity ttl).after requests
    c.size ≤ max capacity 1 ∧
      c.hits + c.misses = requests.countP (·.looksUp) ∧
      (∀ key now,
        (∃ e front compute back, e.key = key ∧ now - e.inserted < ttl ∧
            (new capacity ttl).LatestMiss requests front e compute back ∧
            ∀ (m : Type → Type) [Monad m] (compute : m α),
              c.getOrInsertM key now compute = pure (e.value, { c with hits := c.hits + 1 })) ∨
          (∀ e ∈ c.entries, e.key = key → ttl ≤ now - e.inserted) ∧
            ∀ (m : Type → Type) [Monad m] (compute : m α),
              c.getOrInsertM key now compute = compute >>= fun value =>
                pure (value, { c.insert key value now with misses := c.misses + 1 })) ∧
      (∀ key now compute,
        c.getOrInsert key now compute = Id.run (c.getOrInsertM key now (pure (compute ())))) ∧
      (∀ entries : List (CacheEntry α), Rounds c.capacity (entries.length + 1 - c.capacity) entries
        (shrink c.capacity entries)) ∧
      ∀ key now compute, c.get? key now = none → ∃ left,
        MakesRoom (max capacity 1) ttl now (c.entries.filter (·.key ≠ key)) left ∧
          (c.getOrInsert key now compute).2.entries = left ++ [⟨key, compute (), now⟩] := by
  intro c
  have hbounded : c.Bounded capacity ttl (requests.countP (·.looksUp)) :=
    bounded_after capacity ttl requests
  refine ⟨hbounded.size, hbounded.lookups, fun key now => ?_, c.getOrInsert_eq,
    rounds_shrink hbounded.capacity_pos, fun key now compute hget => ?_⟩
  · cases hget : c.get? key now with
    | some value =>
      obtain ⟨e, he, rfl, hyoung, rfl⟩ := exists_of_get? hget
      obtain ⟨front, compute, back, hlatest⟩ := exists_latestMiss he
      refine .inl ⟨e, front, compute, back, rfl, hbounded.ttl ▸ hyoung, hlatest, ?_⟩
      intro m _ compute
      rw [getOrInsertM, hget]
    | none =>
      refine .inr ⟨hbounded.ttl ▸ get?_eq_none_iff.1 hget, ?_⟩
      intro m _ compute
      rw [getOrInsertM, hget]
  · refine ⟨c.room key now, hbounded.makesRoom key now, ?_⟩
    have hserve := serve_of_miss hget compute
    rw [insert_eq] at hserve
    exact congrArg Cache.entries hserve

/-- A cache with room for one entry, where a second key takes the place of the first, which is
still young enough to be served. -/
theorem bounded_and_honest_of_two_keys :
    let a : CacheKey := ⟨0, "a", none⟩
    let b : CacheKey := ⟨0, "b", none⟩
    let c := (new 0 5).after [.lookup a 1 fun _ => 10, .lookup a 3 fun _ => 20]
    c.get? a 3 = some 10 ∧ c.get? b 3 = none ∧ ∃ left,
      MakesRoom 1 5 3 [⟨a, 10, 1⟩] left ∧
        (c.getOrInsert b 3 fun _ => 30).2.entries = left ++ [⟨b, 30, 3⟩] := by
  intro a b c
  have hget : c.get? b 3 = none := rfl
  exact ⟨rfl, hget, (cache_is_bounded_and_honest 0 5 _).2.2.2.2.2 b 3 (fun _ => 30) hget⟩

end Cache
end ScriptSession
