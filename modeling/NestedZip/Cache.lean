/-!
# The cache of opened archives

An archive that has been opened once is kept under the name of its source and its offset in it.
A key that is present always answers what was first inserted under it; what is not there is
opened, and kept only if that succeeds.

The cache does not know what it keeps nor what opening means, so opening may happen in any monad.

## Main definitions

* `CacheKey`, `Cache`: What is kept, and under what.
* `Cache.get?`, `Cache.getOrInsert`: Looking up, and opening what is not there.
* `Cache.evict`, `Cache.evictBacking`: Removing one key, or all keys of a source.

## Theorems

* `Cache.get?_insert`: An insertion changes one key.
* `Cache.get?_evict`, `Cache.get?_evictBacking`: What is left after a removal.
-/

namespace NestedZip

/-- A source and an offset in it. -/
structure CacheKey where
  identity : String
  offset : Nat
deriving DecidableEq, Repr

/-- What is kept, newest first. -/
structure Cache (α : Type) where
  slots : List (CacheKey × α) := []

namespace Cache

variable {α : Type}

/-- What is kept under a key. -/
def get? (c : Cache α) (key : CacheKey) : Option α := c.slots.lookup key

/-- The number of keys. -/
def size (c : Cache α) : Nat := c.slots.length

def isEmpty (c : Cache α) : Bool := c.slots.isEmpty

/-- Keeps something under a key that is not there yet. -/
def insert (c : Cache α) (key : CacheKey) (a : α) : Cache α := { slots := (key, a) :: c.slots }

/-- What is kept under a key; if there is nothing, what `opening` brings, which is then kept. -/
def getOrInsert {m : Type → Type} [Monad m] (c : Cache α) (key : CacheKey) (opening : m α) :
    m (α × Cache α) :=
  match c.get? key with
  | some a => return (a, c)
  | none => do
    let a ← opening
    return (a, c.insert key a)

/-- The cache without a key. -/
def evict (c : Cache α) (key : CacheKey) : Cache α :=
  { slots := c.slots.filter fun slot => slot.1 != key }

/-- The cache without the keys of a source. -/
def evictBacking (c : Cache α) (identity : String) : Cache α :=
  { slots := c.slots.filter fun slot => slot.1.identity != identity }

/-- The number of keys of a source. -/
def countBacking (c : Cache α) (identity : String) : Nat :=
  c.slots.countP fun slot => slot.1.identity == identity

theorem lookup_slot (key k : CacheKey) (a : α) (slots : List (CacheKey × α)) :
    ((key, a) :: slots).lookup k = if k = key then some a else slots.lookup k := by
  rw [List.lookup_cons]
  by_cases h : k = key
  · rw [beq_iff_eq.mpr h, if_pos h]
  · rw [beq_eq_false_iff_ne.mpr h, if_neg h]

theorem get?_insert (c : Cache α) (key k : CacheKey) (a : α) :
    (c.insert key a).get? k = if k = key then some a else c.get? k :=
  lookup_slot key k a c.slots

/-- Removing the slots whose key is not wanted hides exactly those keys. -/
theorem lookup_filter (wanted : CacheKey → Bool) (k : CacheKey) (slots : List (CacheKey × α)) :
    (slots.filter fun slot => wanted slot.1).lookup k =
      if wanted k then slots.lookup k else none := by
  induction slots with
  | nil => simp
  | cons slot slots ih =>
    obtain ⟨key, a⟩ := slot
    by_cases hw : wanted key
    · rw [List.filter_cons_of_pos (by exact hw), lookup_slot, lookup_slot, ih]
      by_cases hk : k = key
      · rw [if_pos hk, if_pos hk, hk, if_pos hw]
      · rw [if_neg hk, if_neg hk]
    · -- The slot goes, and a wanted key was not in it.
      rw [List.filter_cons_of_neg (by exact hw), lookup_slot, ih]
      by_cases hk : k = key
      · rw [hk, if_neg hw, if_neg hw]
      · rw [if_neg hk]

theorem get?_evict (c : Cache α) (key k : CacheKey) :
    (c.evict key).get? k = if k = key then none else c.get? k := by
  rw [get?, evict, lookup_filter (fun k => k != key)]
  by_cases hk : k = key <;> simp [hk, get?]

theorem get?_evictBacking (c : Cache α) (identity : String) (k : CacheKey) :
    (c.evictBacking identity).get? k = if k.identity = identity then none else c.get? k := by
  rw [get?, evictBacking, lookup_filter (fun k => k.identity != identity)]
  by_cases hk : k.identity = identity <;> simp [hk, get?]

/-- What is evicted and what stays make up all that was kept. -/
theorem size_evictBacking (c : Cache α) (identity : String) :
    (c.evictBacking identity).size + c.countBacking identity = c.size := by
  obtain ⟨slots⟩ := c
  simp only [size, evictBacking, countBacking]
  induction slots with
  | nil => rfl
  | cons slot slots ih =>
    by_cases h : slot.1.identity = identity <;> simp_all <;> omega

end Cache

end NestedZip
