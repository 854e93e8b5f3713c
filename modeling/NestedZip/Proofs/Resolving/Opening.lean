import NestedZip.Proofs.Resolving.Walk

/-!
# Opening One Archive

The one step that resolving repeats, in three cases.

An archive is answered from the cache, or it is opened and kept, or it is not
to be had and the cache is as before. `Opening` says this of the root of a
source and of an entry alike, next to what opening without a cache would have
brought. A proof about a whole locator goes through the names and takes these
cases at each of them. It never has to look at how a step counts, or at the
order in which it asks the cache and the source.

## Main definitions

* `Resolving.answer`: The archive that is answered, or the failure.
* `Resolver.rootBacking`: The source that a root names.
* `Resolver.walk`: Where a locator leads without a cache.
* `Resolver.Opening`: What opening an archive comes to.

## Theorems

* `Resolver.opening_keep`: The three cases, for an archive in a source.
* `Resolver.opening_source`, `Resolver.opening_openRoot`, `Resolver.opening_openNested`:
  For sources, for roots and for entries.
-/

namespace NestedZip

/-- The archive that is answered, or the failure. -/
def Resolving.answer (x : Resolving Handle) (r : Resolver) : Except Error Archive :=
  match x r with
  | .ok h _ => .ok h.archive
  | .error e _ => .error e

/-- What is known of the archive that is answered is known of the handle. -/
theorem Resolving.of_answer {β : Type} {f : Archive → β} {b : β} {x : Resolving Handle}
    {r : Resolver} (h : (answer x r).map f = .ok b) :
    ∃ handle s, x r = .ok handle s ∧ f handle.archive = b := by
  unfold answer at h
  rcases hx : x r with ⟨handle, s⟩ | ⟨e, s⟩
  · rw [hx] at h
    exact ⟨handle, s, rfl, Except.ok.inj h⟩
  · rw [hx] at h
    exact absurd h error_ne_ok

namespace Resolver

/-- The source that a root names, or why it names none. -/
def rootBacking (r : Resolver) (container : String) : Except Error Backing :=
  if memoryScheme.toList.isPrefixOf container.toList then
    match r.buffers.lookup container with
    | some source => .ok source.backing
    | none => .error (.unknownSource container)
  else do
    let address ← addressOf container
    let content ← r.outside.read address
    return backingAt address content

/-- Where a locator leads if nothing is kept. -/
def walk (r : Resolver) (l : Locator) : Except Error Archive := do
  let source ← r.rootBacking l.root
  (Archive.walk source l.archives).outcome

/-- What opening an archive in a source, which may be at an address outside, comes to.
    It may be kept under one of the keys it is looked up by. Otherwise it is opened
    and kept, unless that fails. -/
inductive Opening (c : Cache Handle) (wanted : CacheKey → Prop) (address : Option Address)
    (opening : Except Error Archive) : EStateM.Result Error Resolver Handle → Prop
  | kept {key : CacheKey} {h : Handle} {s : Resolver} : wanted key → c.get? key = some h →
      s.cache = c → Opening c wanted address opening (.ok h s)
  | opened {h : Handle} {s : Resolver} : opening = .ok h.archive → h.address = address →
      c.get? h.archive.key = none → s.cache = c.insert h.archive.key h →
      Opening c wanted address opening (.ok h s)
  | failed {e : Error} {s : Resolver} : opening = .error e → s.cache = c →
      Opening c wanted address opening (.error e s)

/-- Opening an archive under a key answers what is kept there, or keeps what was opened. -/
theorem opening_keep {c : Cache Handle} {wanted : CacheKey → Prop} {key : CacheKey}
    {source : Nat} {address : Option Address} {opening : Metered Error Archive} {r : Resolver}
    (hcache : r.cache = c) (hwanted : wanted key)
    (hkey : ∀ a, opening.outcome = .ok a → a.key = key) :
    Opening c wanted address opening.outcome (keep key source address opening r) := by
  subst hcache
  rw [keep_apply]
  rcases hget : r.cache.get? key with _ | h
  · -- Opening counts bytes against the source, and nothing is kept unless it succeeds.
    unfold charge
    rcases houtcome : opening.outcome with e | a
    · exact .failed rfl rfl
    · have hsame := hkey a houtcome
      refine .opened rfl rfl ?_ ?_
      · simp only [hsame]
        exact hget
      · simp only [hsame]
  · exact .kept hwanted hget rfl

theorem charge_of_ok {α : Type} {source : Nat} {m : Metered Error α} {a : α}
    (h : m.outcome = .ok a) (r : Resolver) :
    charge source m r =
      .ok a { r with fetched := r.fetched.modify source (· + m.fetched) } := by
  unfold charge
  rw [h]

theorem charge_of_error {α : Type} {source : Nat} {m : Metered Error α} {e : Error}
    (h : m.outcome = .error e) (r : Resolver) :
    charge source m r =
      .error e { r with fetched := r.fetched.modify source (· + m.fetched) } := by
  unfold charge
  rw [h]

/-- An entry is looked up by where its data starts. -/
theorem opening_openNested {parent : Handle} {r : Resolver}
    (hpresent : r.present parent = parent.archive) (name : Bytes) :
    Opening r.cache
      (fun key => ∃ data, (parent.archive.nestedSource name).outcome = .ok data ∧
        key = { identity := data.identity, offset := data.offset })
      parent.address (parent.archive.nestedArchive name).outcome (openNested parent name r) := by
  rw [openNested_apply, hpresent]
  unfold Archive.nestedArchive
  rcases hdata : (parent.archive.nestedSource name).outcome with e | data
  · rw [Resolving.bind_of_error (charge_of_error hdata r), Metered.bind_of_error hdata]
    exact .failed rfl rfl
  · rw [Resolving.bind_of_ok (charge_of_ok hdata r), Metered.bind_of_ok hdata]
    simp only
    -- The key is where the data starts, and there the archive starts as well.
    refine opening_keep rfl ⟨data, rfl, rfl⟩ fun a ha => ?_
    rw [Archive.key, (Archive.ofWindow_eq_ok ha).2.2.2.1]

/-- The whole of a source is looked up by the name of the source. -/
theorem opening_source {c : Cache Handle} {wanted : CacheKey → Prop} {source : Source}
    {r : Resolver} (hcache : r.cache = c)
    (hwanted : wanted { identity := source.backing.identity, offset := 0 }) :
    Opening c wanted source.address (Archive.ofBacking source.backing).outcome
      (keep { identity := source.backing.identity, offset := 0 } source.number source.address
        (Archive.ofBacking source.backing) r) := by
  refine opening_keep hcache hwanted fun a ha => ?_
  rw [Archive.key, Archive.ofBacking_eq_ok ha]
  rfl

/-- A source is opened, or the root names none. No archive is opened with it. -/
theorem openSource_eq (container : String) (r : Resolver) :
    (∃ e, r.rootBacking container = .error e ∧ openSource container r = .error e r) ∨
    ∃ (source : Source) (s : Resolver), r.rootBacking container = .ok source.backing ∧
      openSource container r = .ok source s ∧ s.cache = r.cache := by
  unfold rootBacking openSource
  by_cases hmemory : memoryScheme.toList.isPrefixOf container.toList
  · rw [if_pos hmemory, if_pos hmemory, Resolving.get_bind]
    rcases r.buffers.lookup container with _ | source
    · exact Or.inl ⟨_, rfl, rfl⟩
    · exact Or.inr ⟨source, r, rfl, rfl, rfl⟩
  · -- What is outside is opened as one more source, but nothing of it is kept yet.
    rw [if_neg hmemory, if_neg hmemory]
    rcases addressOf container with e | address
    · exact Or.inl ⟨e, rfl, rfl⟩
    · rw [except_ok_bind,
        Resolving.bind_of_ok (show liftExcept (.ok address) r = .ok address r from rfl),
        Resolving.get_bind]
      rcases r.outside.read address with e | content
      · exact Or.inl ⟨e, rfl, rfl⟩
      · exact Or.inr ⟨_, _, rfl, rfl, rfl⟩

/-- A root is looked up as it is written, and then by the name of its source. -/
theorem opening_openRoot (container : String) (r : Resolver) :
    ∃ address, Opening r.cache
      (fun key => key = { identity := container, offset := 0 } ∨
        ∃ source, r.rootBacking container = .ok source ∧
          key = { identity := source.identity, offset := 0 })
      address (r.rootBacking container >>= fun source => (Archive.ofBacking source).outcome)
      (openRoot container r) := by
  rw [openRoot_apply]
  rcases hget : r.cache.get? { identity := container, offset := 0 } with _ | h
  · -- The root has to be opened, and its identity may still be the key of something that is kept.
    rcases openSource_eq container r with ⟨e, hroot, hopen⟩ | ⟨source, s, hroot, hopen, hcache⟩
    · simp only
      rw [hroot, Resolving.bind_of_error hopen]
      exact ⟨none, .failed rfl rfl⟩
    · simp only
      rw [hroot, Resolving.bind_of_ok hopen]
      exact ⟨source.address, opening_source hcache (Or.inr ⟨source.backing, rfl, rfl⟩)⟩
  · -- The root was written as its source is named, and no source is opened.
    exact ⟨none, .kept (Or.inl rfl) hget rfl⟩

end Resolver

end NestedZip
