import Mathlib.Data.List.DropRight
import NestedZip.Cache

/-!
# Caches and Their Histories

What a cache answers, told by what it was asked before.

A cache is a map that is only added to where there is nothing yet. What it has
under a key is then a matter of the requests so far and of nothing else: the
first thing that opening brought for the key since the key was last removed.
`standing` reads that off the requests alone, as a map that has no state, and
the cache is compared with it after every history.

Opening is the one thing in a request that is not up to the cache. It may fail,
and it may be expensive, so it matters whether it was run at all. The cache
does not know in which monad opening happens. Here it is one that counts, also
where it fails, and so an answer says how often opening was run for it.

One lemma says what a request does to any key, and one says the same of the
map that is read off a history with the request behind it. They say the same,
so the induction over the history has nothing left to do. That keys are counted
right is apart from this, because look-ups do not see whether a key stands
twice. It does not, since only a key that is absent is inserted.

## Main definitions

* `Cache.Request`, `Cache.Answer`: What a cache is asked, and what is answered.
* `Cache.perform`, `Cache.after`, `Cache.answer`: One request, all of a history, and one
  behind it.
* `Cache.standing`: What was first brought for a key since it was removed.
* `Cache.keys`: The keys of a cache.

## Theorems

* `Cache.get?_perform`: What a request does to a key.
* `Cache.standing_concat`: What one more request does to the history of a key.
* `Cache.get?_after`: A cache has what its history says.
* `Cache.standing_eq_some_iff`: When something stands under a key.
* `Cache.nodup_after`: No key is kept twice.
* `Cache.answers_by_history`: A cache answers by its history.
-/

namespace NestedZip

namespace Cache

variable {ε α : Type}

/-- What a cache may be asked. -/
inductive Request (ε α : Type) where
  /-- What is kept under a key; if there is nothing, what opening brings, which is then
      kept. -/
  | getOrInsert (key : CacheKey) (opening : Except ε α)
  | get (key : CacheKey)
  | evict (key : CacheKey)
  | evictBacking (identity : String)
  | clear

/-- What is answered. -/
inductive Answer (ε α : Type) where
  /-- What is kept now, or the failure of opening, and how often opening was run. -/
  | opened (outcome : Except ε α) (runs : Nat)
  /-- What is kept, or what was kept and is removed. -/
  | kept (a : Option α)
  /-- The number of keys that are removed. -/
  | evicted (count : Nat)
  | done

/-- Opening that is counted when it is run, whether it fails or not. -/
def counted (opening : Except ε α) : ExceptT ε (StateM Nat) α := do
  modify (· + 1)
  ExceptT.mk (pure opening)

/-- The answer to a request, and the cache behind it. Where opening fails there is no new
    cache, and the one that there was goes on. -/
def perform (c : Cache α) : Request ε α → Answer ε α × Cache α
  | .getOrInsert key opening =>
    match (c.getOrInsert key (counted opening)).run 0 with
    | (.ok (a, c'), runs) => (.opened (.ok a) runs, c')
    | (.error e, runs) => (.opened (.error e) runs, c)
  | .get key => (.kept (c.get? key), c)
  | .evict key => (.kept (c.get? key), c.evict key)
  | .evictBacking identity =>
    (.evicted (c.size - (c.evictBacking identity).size), c.evictBacking identity)
  | .clear => (.done, {})

/-- The cache behind some requests to a new one. -/
def after (history : List (Request ε α)) : Cache α :=
  history.foldl (fun c r => (c.perform r).2) {}

/-- The answer to a request behind some others. -/
def answer (history : List (Request ε α)) (r : Request ε α) : Answer ε α :=
  ((after history).perform r).1

/-- Whether a request removes a key, if it is there. -/
def Request.removes (key : CacheKey) : Request ε α → Bool
  | .evict k => k == key
  | .evictBacking identity => key.identity == identity
  | .clear => true
  | .getOrInsert _ _ | .get _ => false

/-- What opening would bring for a key. -/
def Request.brings? (key : CacheKey) : Request ε α → Option α
  | .getOrInsert k (.ok a) => if k = key then some a else none
  | _ => none

/-- What was first brought for a key since the key was last removed. -/
def standing (key : CacheKey) (history : List (Request ε α)) : Option α :=
  (history.rtakeWhile fun r => !r.removes key).findSome? (Request.brings? key)

/-- Opening is run if there is nothing under the key, and then once. -/
theorem perform_getOrInsert (c : Cache α) (key : CacheKey) (opening : Except ε α) :
    c.perform (.getOrInsert key opening) =
      match c.get? key, opening with
      | some a, _ => (.opened (.ok a) 0, c)
      | none, .ok a => (.opened (.ok a) 1, c.insert key a)
      | none, .error e => (.opened (.error e) 1, c) := by
  rcases hkey : c.get? key with _ | a
  · cases opening <;> simp only [perform, getOrInsert, hkey] <;> rfl
  · simp only [perform, getOrInsert, hkey]
    rfl

/-- What a request does to a key: what is there stays unless it is removed, and what is not
    there may be brought. -/
theorem get?_perform (c : Cache α) (r : Request ε α) (key : CacheKey) :
    (c.perform r).2.get? key =
      if r.removes key then none else (c.get? key).or (r.brings? key) := by
  cases r with
  | getOrInsert k opening =>
      have hstays : Request.removes key (.getOrInsert k opening) = false := rfl
      rw [perform_getOrInsert, hstays, if_neg Bool.false_ne_true]
      rcases hk : c.get? k with _ | a
      · cases opening with
        | error e => exact (Option.or_none).symm
        | ok a =>
            change (c.insert k a).get? key = (c.get? key).or (if k = key then some a else none)
            rw [get?_insert]
            by_cases hsame : key = k
            · rw [if_pos hsame, if_pos hsame.symm, hsame, hk, Option.none_or]
            · rw [if_neg hsame, if_neg (Ne.symm hsame), Option.or_none]
      · -- The key is there, so what opening would bring is not even looked at.
        change c.get? key = (c.get? key).or _
        cases opening with
        | error e => exact (Option.or_none).symm
        | ok b =>
            change c.get? key = (c.get? key).or (if k = key then some b else none)
            by_cases hsame : k = key
            · rw [← hsame, hk, Option.some_or]
            · rw [if_neg hsame, Option.or_none]
  | get k => exact (Option.or_none).symm
  | evict k =>
      change (c.evict k).get? key = if k == key then none else (c.get? key).or none
      rw [get?_evict, Option.or_none]
      by_cases hsame : key = k
      · rw [if_pos hsame, if_pos (beq_iff_eq.mpr hsame.symm)]
      · rw [if_neg hsame, if_neg (fun h => hsame (beq_iff_eq.mp h).symm)]
  | evictBacking identity =>
      change (c.evictBacking identity).get? key =
        if key.identity == identity then none else (c.get? key).or none
      rw [get?_evictBacking, Option.or_none]
      simp only [beq_iff_eq]
  | clear => rfl

theorem after_concat (history : List (Request ε α)) (r : Request ε α) :
    after (history ++ [r]) = ((after history).perform r).2 := by
  rw [after, List.foldl_append]
  rfl

/-- Only opening an archive brings one in, and only when it succeeds. -/
theorem Request.brings?_eq_some_iff {key : CacheKey} {r : Request ε α} {a : α} :
    r.brings? key = some a ↔ r = .getOrInsert key (.ok a) := by
  cases r with
  | getOrInsert k opening =>
      cases opening with
      | error e =>
          simp only [brings?, getOrInsert.injEq, reduceCtorEq, and_false]
      | ok b =>
          simp only [brings?, Option.ite_none_right_eq_some, Option.some.injEq,
            getOrInsert.injEq, Except.ok.injEq]
  | get k => simp only [brings?, reduceCtorEq]
  | evict k => simp only [brings?, reduceCtorEq]
  | evictBacking identity => simp only [brings?, reduceCtorEq]
  | clear => simp only [brings?, reduceCtorEq]

/-- What one more request does to what stands under a key. -/
theorem standing_concat (key : CacheKey) (history : List (Request ε α)) (r : Request ε α) :
    standing key (history ++ [r]) =
      if r.removes key then none else (standing key history).or (r.brings? key) := by
  unfold standing
  rw [List.rtakeWhile_concat]
  by_cases hremoves : r.removes key
  · rw [if_pos hremoves, hremoves]
    rfl
  · rw [if_neg hremoves, eq_false_of_ne_true hremoves, Bool.not_false, if_pos rfl,
      List.findSome?_append, List.findSome?_singleton]

/-- A cache has what its history says, under every key. -/
theorem get?_after (history : List (Request ε α)) (key : CacheKey) :
    (after history).get? key = standing key history := by
  induction history using List.reverseRecOn with
  | nil => rfl
  | append_singleton history r ih => rw [after_concat, get?_perform, standing_concat, ih]

/-- Something stands under a key if it was brought when there was nothing, and was not
    removed since. -/
theorem standing_eq_some_iff {key : CacheKey} {history : List (Request ε α)} {a : α} :
    standing key history = some a ↔
      ∃ before behind, history = before ++ .getOrInsert key (.ok a) :: behind ∧
        standing key before = none ∧ ∀ r ∈ behind, r.removes key = false := by
  induction history using List.reverseRecOn with
  | nil =>
      constructor
      · exact fun h => nomatch h
      · rintro ⟨before, behind, hcut, -⟩
        exact absurd (List.append_eq_nil_iff.mp hcut.symm).2 (List.cons_ne_nil _ _)
  | append_singleton history r ih =>
      rw [standing_concat, Option.ite_none_left_eq_some, Option.or_eq_some_iff, ih,
        Request.brings?_eq_some_iff, Bool.not_eq_true]
      constructor
      · rintro ⟨hstays, ⟨before, behind, rfl, hbefore, hbehind⟩ | ⟨hnone, rfl⟩⟩
        · refine ⟨before, behind ++ [r], ?_, hbefore, ?_⟩
          · rw [List.append_assoc, List.cons_append]
          · intro other hother
            rcases List.mem_append.mp hother with hother | hother
            · exact hbehind other hother
            · rw [List.mem_singleton.mp hother]
              exact hstays
        · exact ⟨history, [], rfl, hnone, fun _ hother => absurd hother List.not_mem_nil⟩
      · rintro ⟨before, behind, hcut, hbefore, hbehind⟩
        -- The request that brought it is the last one, or the last one stands behind it.
        rcases List.eq_nil_or_concat behind with rfl | ⟨front, last, rfl⟩
        · rcases List.append_inj' hcut rfl with ⟨rfl, hlast⟩
          rw [(List.cons.inj hlast).1]
          exact ⟨rfl, Or.inr ⟨hbefore, rfl⟩⟩
        · rw [List.concat_eq_append, ← List.cons_append, ← List.append_assoc] at hcut
          rcases List.append_inj' hcut rfl with ⟨rfl, hlast⟩
          rw [(List.cons.inj hlast).1]
          rw [List.concat_eq_append] at hbehind
          refine ⟨hbehind last (List.mem_append_right _ (List.mem_singleton_self last)), Or.inl ?_⟩
          exact ⟨before, front, rfl, hbefore, fun other hother =>
            hbehind other (List.mem_append_left _ hother)⟩

/-- The keys of a cache. -/
def keys (c : Cache α) : List CacheKey := c.slots.map Prod.fst

theorem mem_keys_iff {c : Cache α} {key : CacheKey} : key ∈ c.keys ↔ c.get? key ≠ none := by
  rw [← Option.isSome_iff_ne_none, get?, List.lookup_isSome_iff, keys, List.mem_map]
  simp only [beq_iff_eq, eq_comm (a := key)]

/-- No request lets a key be kept twice: keys are only inserted where they are absent. -/
theorem nodup_perform {c : Cache α} (h : c.keys.Nodup) (r : Request ε α) :
    (c.perform r).2.keys.Nodup := by
  cases r with
  | getOrInsert key opening =>
      rw [perform_getOrInsert]
      rcases hkey : c.get? key with _ | a
      · cases opening with
        | error e => exact h
        | ok a =>
            refine List.nodup_cons.mpr ⟨?_, h⟩
            -- The key is new, or nothing would have been opened.
            intro hmem
            exact mem_keys_iff.mp hmem hkey
      · exact h
  | get key => exact h
  | evict key => exact h.sublist (List.filter_sublist.map Prod.fst)
  | evictBacking identity => exact h.sublist (List.filter_sublist.map Prod.fst)
  | clear => exact List.nodup_nil

theorem nodup_after (history : List (Request ε α)) : (after history).keys.Nodup := by
  induction history using List.reverseRecOn with
  | nil => exact List.nodup_nil
  | append_singleton history r ih =>
      rw [after_concat]
      exact nodup_perform ih r

/-- Removing the keys of a source is answered by their number. -/
theorem evicted_perform (c : Cache α) (identity : String) :
    (c.perform (.evictBacking identity : Request ε α)).1 =
      .evicted (c.keys.countP fun key => key.identity == identity) := by
  have hsize := c.size_evictBacking identity
  have hcount : c.countBacking identity = c.keys.countP fun key => key.identity == identity := by
    rw [keys, List.countP_map]
    rfl
  change Answer.evicted (c.size - (c.evictBacking identity).size) = _
  rw [← hcount, ← hsize, Nat.add_sub_cancel_left]

/-- A cache answers as the map that its history makes, whatever it was asked. Under a key
    stands what was brought when there was nothing, unless it was removed since. That is
    answered, and opening is not run; where nothing stands, opening is run once, and its
    outcome is answered. If it fails, the cache is as if it had not been asked. Removing
    the keys of a source touches no others, at whatever offsets, and is answered by their
    number. The size of a cache is the number of keys under which something stands. -/
theorem answers_by_history (history : List (Request ε α)) :
    (∀ key a, (after history).get? key = some a ↔
      ∃ before behind, history = before ++ .getOrInsert key (.ok a) :: behind ∧
        (after before).get? key = none ∧ ∀ r ∈ behind, r.removes key = false) ∧
    (∀ key, (after history).get? key = standing key history ∧
      answer history (.get key) = .kept (standing key history) ∧
      answer history (.evict key) = .kept (standing key history)) ∧
    (∀ key opening, answer history (.getOrInsert key opening) =
      match standing key history with
      | some a => .opened (.ok a) 0
      | none => .opened opening 1) ∧
    (∀ key e, after (history ++ [.getOrInsert key (.error e)]) = after history) ∧
    (∀ identity key, (after (history ++ [.evictBacking identity])).get? key =
      if key.identity = identity then none else (after history).get? key) ∧
    ∃ keys : List CacheKey, keys.Nodup ∧ (∀ key, key ∈ keys ↔ standing key history ≠ none) ∧
      (after history).size = keys.length ∧
      ∀ identity, answer history (.evictBacking identity) =
        .evicted (keys.countP fun key => key.identity == identity) := by
  refine ⟨?_, ?_, ?_, ?_, ?_, (after history).keys, nodup_after history, ?_, ?_, ?_⟩
  · intro key a
    -- What stands is what was opened while nothing stood, and was not removed since.
    rw [get?_after, standing_eq_some_iff]
    simp only [get?_after]
  · intro key
    have hkey := get?_after history key
    exact ⟨hkey, congrArg Answer.kept hkey, congrArg Answer.kept hkey⟩
  · intro key opening
    rw [answer, perform_getOrInsert, get?_after]
    rcases standing key history with _ | a
    · cases opening <;> rfl
    · rfl
  · intro key e
    rw [after_concat, perform_getOrInsert]
    rcases (after history).get? key with _ | a <;> rfl
  · intro identity key
    rw [after_concat]
    exact get?_evictBacking (after history) identity key
  · intro key
    -- The keys are counted without repetition, so their number is the size.
    rw [mem_keys_iff, get?_after]
  · exact (List.length_map Prod.fst).symm
  · exact evicted_perform (after history)

end Cache

end NestedZip
