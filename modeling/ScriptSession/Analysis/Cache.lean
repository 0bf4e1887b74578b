/-!
A bounded memo of query results. An entry is good for a time to live; when a new key finds the
cache full, the entries that have expired go, and then the oldest until there is room.
-/
namespace ScriptSession

/-- What a result depends on: the project, the text and the caret, where there is one. -/
structure CacheKey where
  project : Nat
  text : String
  caret : Option Nat
deriving DecidableEq, Repr

structure CacheEntry (α : Type) where
  key : CacheKey
  value : α
  inserted : Nat

/-- A cache of at most `capacity` entries, in the order in which they were inserted. -/
structure Cache (α : Type) where
  capacity : Nat
  ttl : Nat
  entries : List (CacheEntry α)
  hits : Nat
  misses : Nat

namespace Cache

variable {α : Type}

/-- An empty cache with room for at least one entry. -/
def new (capacity ttl : Nat) : Cache α :=
  ⟨max capacity 1, ttl, [], 0, 0⟩

def isExpired (c : Cache α) (now : Nat) (e : CacheEntry α) : Bool :=
  c.ttl ≤ now - e.inserted

def isFresh (c : Cache α) (now : Nat) (e : CacheEntry α) : Bool :=
  !c.isExpired now e

/-- The entry that was inserted first, and the earlier in order of two from one time. -/
def older (a b : CacheEntry α) : CacheEntry α :=
  if b.inserted < a.inserted then b else a

def oldest? : List (CacheEntry α) → Option (CacheEntry α)
  | [] => none
  | e :: es => some (es.foldl older e)

theorem foldl_older_mem (e : CacheEntry α) (es : List (CacheEntry α)) :
    es.foldl older e ∈ e :: es := by
  induction es generalizing e with
  | nil => simp
  | cons d ds ih =>
    have h := ih (older e d)
    simp only [older, List.mem_cons, List.foldl_cons] at h ⊢
    split at h <;> grind

theorem oldest?_mem {es : List (CacheEntry α)} {e : CacheEntry α} (h : oldest? es = some e) :
    e ∈ es := by
  cases es with
  | nil => cases h
  | cons d ds => cases h; exact foldl_older_mem d ds

theorem length_erase_lt {es : List (CacheEntry α)} {e : CacheEntry α} (h : oldest? es = some e) :
    (es.eraseP (·.key = e.key)).length < es.length := by
  have hm := oldest?_mem h
  have := List.length_pos_of_mem hm
  rw [List.length_eraseP_of_mem hm (by simp)]
  omega

/-- Removes oldest entries until there are fewer than `capacity`. -/
def shrink (capacity : Nat) (entries : List (CacheEntry α)) : List (CacheEntry α) :=
  if capacity ≤ entries.length then
    match _ : oldest? entries with
    | some e => shrink capacity (entries.eraseP (·.key = e.key))
    | none => entries
  else entries
termination_by entries.length
decreasing_by exact length_erase_lt ‹_›

/-- Makes room for one entry. -/
def evict (c : Cache α) (now : Nat) : Cache α :=
  { c with entries := shrink c.capacity (c.entries.filter (c.isFresh now)) }

def get? (c : Cache α) (key : CacheKey) (now : Nat) : Option α :=
  (c.entries.find? fun e => e.key = key && c.isFresh now e).map (·.value)

/-- Stores a value for a key, in the place of an older one. -/
def insert (c : Cache α) (key : CacheKey) (value : α) (now : Nat) : Cache α :=
  let others := c.entries.filter (·.key ≠ key)
  let c := { c with entries := others }
  let c := if c.capacity ≤ others.length then c.evict now else c
  { c with entries := c.entries ++ [⟨key, value, now⟩] }

/-- The value for a key, computed and stored where there is none that is still good. -/
def getOrInsert (c : Cache α) (key : CacheKey) (now : Nat) (compute : Unit → α) : α × Cache α :=
  match c.get? key now with
  | some value => (value, { c with hits := c.hits + 1 })
  | none =>
    let value := compute ()
    (value, { c.insert key value now with misses := c.misses + 1 })

def clear (c : Cache α) : Cache α :=
  { c with entries := [] }

def size (c : Cache α) : Nat :=
  c.entries.length

end Cache
end ScriptSession
