import NestedZip.Proofs.Packing.RoundTrip
import NestedZip.Proofs.Resolving.Opening

/-!
# Resolving Composes

Resolving with nothing kept is walking, and then just the walk is kept.

The cache is keyed by places alone. A walk might therefore come back to a place
where it has been and be answered the archive of an earlier level instead of
the one it means. It never does: each level starts behind the one before, so
while a locator is resolved everything that is kept so far starts at the level
in hand or in front of it, and the next level starts behind. `foldlM_alone`
carries this through the names. No assumption on the archive is needed. It may
overlap itself or hold itself, and its local headers may lie. Nor is one needed on
how the resolver came to be empty. A handle on a buffer has no address, so what is
outside plays no part.

## Main definitions

* `Resolver.contents`: What is kept, without the handles.

## Theorems

* `Resolver.foldlM_alone`: From a handle on, with nothing kept behind it.
* `Resolver.resolve_composes`: The answer is where the walk leads, and the cache
  then holds its levels.
-/

namespace NestedZip

namespace Resolver

open Resolving

/-- What is kept, from the first to the last that was opened. -/
def contents (c : Cache Handle) : List (CacheKey × Archive) :=
  c.slots.reverse.map fun slot => (slot.1, slot.2.archive)

theorem contents_insert (c : Cache Handle) (key : CacheKey) (h : Handle) :
    contents (c.insert key h) = contents c ++ [(key, h.archive)] := by
  unfold contents Cache.insert
  rw [List.reverse_cons, List.map_append]
  rfl

theorem map_fst_contents (c : Cache Handle) :
    (contents c).map Prod.fst = (c.slots.map Prod.fst).reverse := by
  unfold contents
  rw [List.map_map, ← List.map_reverse]
  rfl

theorem length_contents (c : Cache Handle) : (contents c).length = c.size := by
  unfold contents
  rw [List.length_map, List.length_reverse]
  rfl

/-- The result of a sequence whose first step is known. -/
theorem answer_of_ok {x : Resolving Handle} {next : Handle → Resolving Handle} {h : Handle}
    {r s : Resolver} (hx : x r = .ok h s) :
    answer (x >>= next) r = answer (next h) s ∧ after (x >>= next) r = after (next h) s := by
  unfold answer after
  rw [bind_of_ok hx]
  exact ⟨rfl, rfl⟩

theorem answer_of_error {x : Resolving Handle} {next : Handle → Resolving Handle} {e : Error}
    {r s : Resolver} (hx : x r = .error e s) :
    answer (x >>= next) r = .error e ∧ after (x >>= next) r = s := by
  unfold answer after
  rw [bind_of_error hx]
  exact ⟨rfl, rfl⟩

/-- As long as all that is kept starts no further back than the archive in hand,
    the archives nested in it are opened and kept, as far as that goes. -/
theorem foldlM_alone {names : List Bytes} {h : Handle} {r : Resolver} (hbuffer : h.address = none)
    (hfront : ∀ key k, r.cache.get? key = some k → key.offset ≤ h.archive.window.offset) :
    answer (names.foldlM openNested h) r = (h.archive.descend names).outcome ∧
      contents (after (names.foldlM openNested h) r).cache =
        contents r.cache ++ (h.archive.levels names).tail.map fun a => (a.key, a) := by
  induction names generalizing h r with
  | nil => exact ⟨rfl, (List.append_nil _).symm⟩
  | cons name names ih =>
      have hopening := opening_openNested (present_of_buffer r hbuffer) name
      rw [List.foldlM_cons]
      rcases hresult : openNested h name r with ⟨inner, s⟩ | ⟨e, s⟩
      · rw [hresult] at hopening
        rw [(answer_of_ok hresult).1, (answer_of_ok hresult).2]
        cases hopening with
        | kept hwanted hget _ =>
            -- What is nested starts behind all that is kept.
            rcases hwanted with ⟨data, hdata, rfl⟩
            rcases Archive.nestedSource_eq_ok hdata with ⟨offset, length, hpositive, _, rfl⟩
            have hle := hfront _ _ hget
            simp only [Window.part] at hle
            omega
        | opened hopened hinner hget hcache =>
            -- It is the last in the source now, and so what is nested in it is next.
            have hlt := (Archive.nestedArchive_inside hopened).2
            have hnext : ∀ key k, s.cache.get? key = some k →
                key.offset ≤ inner.archive.window.offset := by
              intro key k hkey
              rw [hcache, Cache.get?_insert] at hkey
              by_cases hsame : key = inner.archive.key
              · rw [hsame]
                exact Nat.le_refl _
              · rw [if_neg hsame] at hkey
                have hle := hfront key k hkey
                omega
            rcases ih (hinner.trans hbuffer) hnext with ⟨hanswer, hcontents⟩
            rw [hanswer, hcontents, hcache, contents_insert, Archive.descend_cons_of_ok hopened,
              Archive.levels_cons_of_ok hopened, List.tail_cons, List.append_assoc]
            refine ⟨rfl, congrArg (contents r.cache ++ ·) ?_⟩
            rw [Archive.levels_eq_cons, List.map_cons, List.tail_cons]
            rfl
      · rw [hresult] at hopening
        rw [(answer_of_error hresult).1, (answer_of_error hresult).2]
        -- The first level that fails ends the walk, and with it what is kept.
        cases hopening with
        | failed hfailed hcache =>
            rw [Archive.descend_cons_of_error hfailed, Archive.levels_cons_of_error hfailed,
              hcache]
            exact ⟨rfl, (List.append_nil _).symm⟩

/-- If nothing is kept, a locator below a buffer leads where the walk along its names
    leads, and then the levels of the walk are kept. -/
theorem resolve_alone {r : Resolver} (hempty : r.cache.slots = []) {l : Locator}
    (hmemory : memoryScheme.toList.isPrefixOf l.root.toList) {source : Source}
    (hlookup : r.buffers.lookup l.root = some source) (hbuffer : source.address = none) :
    answer (resolve l) r = (Archive.walk source.backing l.archives).outcome ∧
      contents (after (resolve l) r).cache =
        (l.archives.inits.filterMap fun path =>
          (Archive.walk source.backing path).outcome.toOption).map fun a => (a.key, a) := by
  have hnone : ∀ key, r.cache.get? key = none := by
    intro key
    rw [Cache.get?, hempty]
    rfl
  -- The root is a buffer, and it is not kept, so it is opened.
  have hopening : Opening r.cache (fun _ => True) source.address
      (Archive.ofBacking source.backing).outcome (openRoot l.root r) := by
    rw [openRoot_apply, hnone]
    simp only
    rw [bind_of_ok (openSource_of_known hmemory hlookup)]
    exact opening_source rfl trivial
  unfold resolve
  rcases hresult : openRoot l.root r with ⟨root, s⟩ | ⟨e, s⟩
  · rw [hresult] at hopening
    rw [(answer_of_ok hresult).1, (answer_of_ok hresult).2]
    cases hopening with
    | kept _ hget _ =>
        rw [hnone] at hget
        exact absurd hget (by simp only [reduceCtorEq, not_false_eq_true])
    | opened hopened hroot _ hcache =>
        -- After that the root alone is kept, and nothing starts in front of it.
        have hfront : ∀ key k, s.cache.get? key = some k →
            key.offset ≤ root.archive.window.offset := by
          intro key k hkey
          rw [hcache, Cache.get?_insert, hnone] at hkey
          by_cases hsame : key = root.archive.key
          · rw [hsame]
            exact Nat.le_refl _
          · rw [if_neg hsame] at hkey
            exact absurd hkey (by simp only [reduceCtorEq, not_false_eq_true])
        rcases foldlM_alone (hroot.trans hbuffer) hfront with ⟨hanswer, hcontents⟩
        rw [hanswer, hcontents, hcache, contents_insert, Archive.walk_of_ok hopened,
          Archive.filterMap_walk_of_ok hopened, Archive.levels_eq_cons, List.map_cons]
        simp only [contents, hempty, List.reverse_nil, List.map_nil, List.nil_append,
          List.singleton_append, List.tail_cons, and_self]
  · rw [hresult] at hopening
    rw [(answer_of_error hresult).1, (answer_of_error hresult).2]
    cases hopening with
    | failed hfailed hcache =>
        rw [Archive.walk_of_error hfailed, Archive.filterMap_walk_of_error hfailed, hcache,
          contents, hempty]
        exact ⟨rfl, rfl⟩

/-- A locator below a registered buffer leads where the walk along its names
    leads, or fails as the first level does that fails, if nothing is kept when it
    is resolved. Then each level that was opened is kept, under a key of its own. -/
theorem resolve_composes (r : Resolver) (l : Locator) (name : String) (number : Nat)
    (backing : Backing) (hempty : r.cache.isEmpty) (hroot : l.root = memoryScheme ++ name)
    (hlookup : r.buffers.lookup l.root = some { number, backing }) :
    let walked := fun names => (Archive.walk backing names).outcome
    let s := after (resolve l) r
    answer (resolve l) r = walked l.archives ∧
    contents s.cache =
      (l.archives.inits.filterMap fun names => (walked names).toOption).map
        (fun a => (a.key, a)) ∧
    (s.cache.slots.map Prod.fst).Nodup ∧
    ((walked l.archives).isOk → s.cache.size = l.depth + 1) := by
  intro walked s
  have hmemory : memoryScheme.toList.isPrefixOf l.root.toList := by
    rw [hroot]
    exact memory_prefix name
  rcases resolve_alone (List.isEmpty_iff.mp hempty) hmemory hlookup rfl with
    ⟨hanswer, hcontents⟩
  refine ⟨hanswer, hcontents, ?_, fun hok => ?_⟩
  · rw [← List.nodup_reverse, ← map_fst_contents, hcontents, List.map_map]
    -- The handles that are kept lie one inside the other, so their places differ.
    rcases hopened : (Archive.ofBacking backing).outcome with e | root
    · rw [Archive.filterMap_walk_of_error hopened]
      exact List.nodup_nil
    · rw [Archive.filterMap_walk_of_ok hopened]
      exact Archive.keys_nodup root l.archives
  · rcases hwalk : walked l.archives with e | a
    · rw [hwalk] at hok
      exact absurd hok Bool.false_ne_true
    · rcases Metered.bind_outcome_eq_ok_iff.mp hwalk with ⟨root, hopened, hdescend⟩
      rw [← length_contents, hcontents, List.length_map, Archive.filterMap_walk_of_ok hopened,
        Archive.length_levels hdescend]
      rfl

/-- An archive inside a buffer, where the buffer replaces another one that was no
    archive. -/
theorem resolve_composes_boxed :
    let content : ByteArray := ⟨(Node.archive Node.boxed).bytes.toArray⟩
    let l := Locator.ofArchivePath "mem:app" [[0x62]]
    let r := play [.register "app" ⟨#[7]⟩, .resolve l, .register "app" content]
      (new "lib/" {})
    r.cache.isEmpty ∧ l.root = memoryScheme ++ "app" ∧
      r.buffers.lookup l.root = some { number := 1, backing := .memory "app" content } ∧
      (answer (resolve l) r).isOk ∧ (after (resolve l) r).cache.size = 2 := by
  intro content l r
  have hempty : r.cache.isEmpty := by decide +kernel
  have hnumber : (play [.register "app" ⟨#[7]⟩, .resolve l]
      (new "lib/" {})).fetched.size = 1 := by decide +kernel
  have hlookup : r.buffers.lookup l.root =
      some { number := 1, backing := .memory "app" content } := by
    rw [← hnumber]
    exact (lookup_register _ "app" content _).trans (if_pos rfl)
  have hwalk : (Archive.walk (.memory "app" content) l.archives).outcome.isOk := by
    decide +kernel
  rcases resolve_composes r l "app" 1 _ hempty rfl hlookup with ⟨hanswer, _, _, hsize⟩
  exact ⟨hempty, rfl, hlookup, by rw [hanswer]; exact hwalk, hsize hwalk⟩

end Resolver

end NestedZip
