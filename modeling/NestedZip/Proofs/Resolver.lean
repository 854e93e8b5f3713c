import NestedZip.Resolver
import NestedZip.Proofs.Archive
import NestedZip.Proofs.Percent

/-!
# What a Resolver Keeps

Facts about all archives that a resolver keeps, whatever it was asked before.

A resolver is asked for locators, and what it opens for one of them it keeps
for the next. A fact about the archives it keeps therefore has to survive
every way of opening one, and there are two: the root of a source, and an
entry of an archive that was opened before. `Closed` is a fact for which both
go through, and `preserves_resolve` says that then no locator can break it, no
matter whether it leads anywhere.

While locators are resolved, the known buffers and what is outside do not
change, so the fact may speak of them. Registering does change the buffers, and is one of
the steps of a `Run`, with which the whole past of a resolver is described.

## Main definitions

* `Resolver.Run`: What may happen to a resolver.
* `Resolver.Knows`: A resolver that has only opened archives, and a fact about all
  it keeps.
* `Resolver.Closed`: A fact that holds of whatever is opened.
* `Resolver.Upholds`: Buffers in order, and a fact about all that is kept.
* `Resolver.Sane`: Buffers known under their names, handles from known sources.
* `Resolving.Preserves`: A step that keeps a fact about the resolver.

## Theorems

* `Resolver.preserves_resolve`: Resolving keeps what holds of all that is opened.
* `Resolver.upholds_of_run`: What survives every run.
* `Resolver.lookup_register`, `Resolver.get?_of_register`: What registering changes.
* `Resolver.sane_of_run`: Buffers and handles stay sane over every run.
* `Resolver.get?_register_eq_none`: A buffer is registered without kept archives.
-/

namespace NestedZip

namespace Resolving

variable {α β : Type}

/-- A step that succeeds is followed by the next one. What the steps may change
    is left open, for connections take steps as well. -/
theorem bind_of_ok {σ : Type} {x : EStateM Error σ α} {a : α} {r s : σ} (h : x r = .ok a s)
    (next : α → EStateM Error σ β) : (x >>= next) r = next a s := by
  change EStateM.bind x next r = _
  unfold EStateM.bind
  rw [h]

/-- A step that fails is the last one. -/
theorem bind_of_error {σ : Type} {x : EStateM Error σ α} {e : Error} {r s : σ}
    (h : x r = .error e s) (next : α → EStateM Error σ β) : (x >>= next) r = .error e s := by
  change EStateM.bind x next r = _
  unfold EStateM.bind
  rw [h]

/-- Two steps succeed one after the other. -/
theorem bind_eq_ok_iff {σ : Type} {x : EStateM Error σ α} {next : α → EStateM Error σ β} {b : β}
    {r s : σ} : (x >>= next) r = .ok b s ↔ ∃ a t, x r = .ok a t ∧ next a t = .ok b s := by
  rcases hx : x r with ⟨a, t⟩ | ⟨e, t⟩
  · rw [bind_of_ok hx]
    constructor
    · exact fun h => ⟨a, t, rfl, h⟩
    · rintro ⟨_, _, ⟨⟩, h⟩
      exact h
  · rw [bind_of_error hx]
    constructor
    · exact fun h => nomatch h
    · rintro ⟨_, _, h, _⟩
      exact nomatch h

theorem get_bind {σ : Type} (next : σ → EStateM Error σ α) (s : σ) :
    ((get : EStateM Error σ σ) >>= next) s = next s s := rfl

/-- A step that keeps a fact about the resolver, also where it fails, and whose
    answers are as described. -/
def Preserves (fact : Resolver → Prop) (answers : α → Prop) (x : Resolving α) : Prop :=
  ∀ r : Resolver, fact r →
    match x r with
    | .ok a s => fact s ∧ answers a
    | .error _ s => fact s

/-- Two steps preserve what both do. What the first one answers may be used for the second. -/
theorem Preserves.bind {fact : Resolver → Prop} {answers : α → Prop} {others : β → Prop}
    {x : Resolving α} {next : α → Resolving β} (hx : Preserves fact answers x)
    (hnext : ∀ a, answers a → Preserves fact others (next a)) :
    Preserves fact others (x >>= next) := by
  intro r hr
  have hfirst := hx r hr
  change match EStateM.bind x next r with
    | .ok b s => fact s ∧ others b
    | .error _ s => fact s
  -- A failure of the first step is that of both, and leaves the state of the first.
  unfold EStateM.bind
  cases hstep : x r with
  | ok a s =>
      rw [hstep] at hfirst
      exact hnext a hfirst.2 s hfirst.1
  | error e s =>
      rw [hstep] at hfirst
      exact hfirst

/-- What is known about an answer may be weakened. -/
theorem Preserves.mono {fact : Resolver → Prop} {answers others : α → Prop} {x : Resolving α}
    (hx : Preserves fact answers x) (himp : ∀ a, answers a → others a) :
    Preserves fact others x := by
  intro r hr
  have hfirst := hx r hr
  cases hstep : x r with
  | ok a s =>
      rw [hstep] at hfirst
      exact ⟨hfirst.1, himp a hfirst.2⟩
  | error e s =>
      rw [hstep] at hfirst
      exact hfirst

end Resolving

namespace Resolver

open Resolving

/-- The resolver after a step, whether the step succeeded or failed. -/
def after {α : Type} (x : Resolving α) (r : Resolver) : Resolver :=
  match x r with
  | .ok _ s => s
  | .error _ s => s

/-- What may happen to a resolver: buffers are registered, under free names
    only, what is outside changes, locators are resolved, data is read, and kept
    archives are dropped. -/
inductive Run (free : String → Prop) : Resolver → Resolver → Prop
  | refl (r : Resolver) : Run free r r
  | register {r s : Resolver} (name : String) (content : ByteArray) :
      Run free r s → free name → Run free r (s.register name content).2
  | change {r s : Resolver} (outside : Surroundings) : Run free r s →
      Run free r { s with outside }
  | resolve {r s : Resolver} (l : Locator) : Run free r s → Run free r (after (resolve l) s)
  | fetch {r s : Resolver} (source count : Nat) : Run free r s →
      Run free r { s with fetched := s.fetched.modify source (· + count) }
  | evict {r s : Resolver} (key : CacheKey) : Run free r s →
      Run free r { s with cache := s.cache.evict key }
  | evictBacking {r s : Resolver} (identity : String) : Run free r s →
      Run free r { s with cache := s.cache.evictBacking identity }

/-- A resolver that has only opened archives since it was at `start`, and a fact
    about every handle it keeps. -/
structure Knows (start : Resolver) (fact : CacheKey → Handle → Prop) (r : Resolver) : Prop where
  outside : r.outside = start.outside
  buffers : r.buffers = start.buffers
  sources : start.fetched.size ≤ r.fetched.size
  kept : ∀ key h, r.cache.get? key = some h → fact key h

/-- A source that a root names: a known buffer, or what is at an address outside. -/
inductive Opens (outside : Surroundings) (buffers : List (String × Source))
    (container : String) : Source → Prop
  | buffer {source : Source} : memoryScheme.toList.isPrefixOf container.toList →
      buffers.lookup container = some source → Opens outside buffers container source
  | found (number : Nat) {address : Address} {content : ByteArray} :
      ¬ memoryScheme.toList.isPrefixOf container.toList → addressOf container = .ok address →
      outside.read address = .ok content →
      Opens outside buffers container
        { number, backing := backingAt address content, address := some address }

/-- A fact that holds of whatever is opened: of every root, and of what is nested
    in a handle of which it holds. -/
structure Closed (start : Resolver) (fact : CacheKey → Handle → Prop) : Prop where
  root : ∀ (container : String) (source : Source) (number : Nat) (a : Archive),
    Opens start.outside start.buffers container source →
    (Archive.ofBacking source.backing).outcome = .ok a →
    fact { identity := source.backing.identity, offset := 0 }
      { number, source := source.number, address := source.address, archive := a }
  nested : ∀ (key : CacheKey) (parent : Handle) (r : Resolver) (name : Bytes) (data : Window)
    (number : Nat) (a : Archive), fact key parent → r.outside = start.outside →
    ((r.present parent).nestedSource name).outcome = .ok data →
    (Archive.ofWindow data (parent.archive.entryUrl name)).outcome = .ok a →
    fact { identity := data.identity, offset := data.offset }
      { number, source := parent.source, address := parent.address, archive := a }

/-- What holds of everything holds of all that is opened. -/
theorem closed_trivial (start : Resolver) : Closed start fun _ _ => True :=
  ⟨fun _ _ _ _ _ _ => trivial, fun _ _ _ _ _ _ _ _ _ _ _ => trivial⟩

theorem knows_trivial (r : Resolver) : Knows r (fun _ _ => True) r :=
  ⟨rfl, rfl, Nat.le_refl _, fun _ _ _ => trivial⟩

variable {start : Resolver} {fact : CacheKey → Handle → Prop}

/-- What is known stays known while buffers, surroundings and cache do. -/
theorem Knows.of_eq {r s : Resolver} (h : Knows start fact r) (houtside : s.outside = r.outside)
    (hbuffers : s.buffers = r.buffers) (hsources : r.fetched.size ≤ s.fetched.size)
    (hcache : s.cache = r.cache) : Knows start fact s :=
  ⟨houtside.trans h.outside, hbuffers.trans h.buffers, Nat.le_trans h.sources hsources,
    fun key handle hget => h.kept key handle (hcache ▸ hget)⟩

/-- Counting what was fetched changes nothing that is known. -/
theorem Knows.fetch {r : Resolver} (h : Knows start fact r) (source count : Nat) :
    Knows start fact { r with fetched := r.fetched.modify source (· + count) } :=
  h.of_eq rfl rfl (Nat.le_of_eq Array.size_modify.symm) rfl

/-- Counting costs changes nothing that is known. -/
theorem preserves_charge {α : Type} (source : Nat) (m : Metered Error α) :
    Preserves (Knows start fact) (fun a => m.outcome = .ok a) (charge source m) := by
  intro r hr
  unfold charge
  cases houtcome : m.outcome with
  | ok a => exact ⟨hr.fetch source m.fetched, rfl⟩
  | error e => exact hr.fetch source m.fetched

/-- Nor does a failure that was there before. -/
theorem preserves_liftExcept {α : Type} (x : Except Error α) :
    Preserves (Knows start fact) (fun a => x = .ok a) (liftExcept x) := by
  intro r hr
  unfold liftExcept
  cases x with
  | ok a => exact ⟨hr, rfl⟩
  | error e => exact hr

/-- A handle that is kept is answered, and nothing happens. Otherwise the archive
    is opened, and kept if that succeeds. -/
theorem keep_apply (key : CacheKey) (source : Nat) (address : Option Address)
    (opening : Metered Error Archive) (r : Resolver) :
    keep key source address opening r =
      match r.cache.get? key with
      | some h => .ok h r
      | none =>
        match charge source opening r with
        | .ok a s =>
          let h : Handle := { number := s.handles, source, address, archive := a }
          .ok h { s with handles := s.handles + 1, cache := r.cache.insert key h }
        | .error e s => .error e s := by
  unfold keep Cache.getOrInsert
  rcases hget : r.cache.get? key with _ | h
  · -- It is not kept yet, so opening it decides.
    simp only [Resolving.get_bind, hget, bind_assoc]
    rcases hcharge : charge source opening r with ⟨a, s⟩ | ⟨e, s⟩
    · rw [Resolving.bind_of_ok hcharge]
      rfl
    · rw [Resolving.bind_of_error hcharge]
  · simp only [Resolving.get_bind, hget]
    rfl

/-- A root is kept under its name as it is written, or else it is opened and kept under its
    identity. -/
theorem openRoot_apply (container : String) (r : Resolver) :
    openRoot container r =
      match r.cache.get? { identity := container, offset := 0 } with
      | some h => .ok h r
      | none => (openSource container >>= fun source =>
          keep { identity := source.backing.identity, offset := 0 } source.number source.address
            (Archive.ofBacking source.backing)) r := by
  unfold openRoot
  rcases hget : r.cache.get? { identity := container, offset := 0 } with _ | h
  · simp only [Resolving.get_bind, hget]
  · simp only [Resolving.get_bind, hget]
    rfl

/-- A buffer is a source already. -/
theorem openSource_of_known {r : Resolver} {container : String} {source : Source}
    (hmemory : memoryScheme.toList.isPrefixOf container.toList)
    (hlookup : r.buffers.lookup container = some source) :
    openSource container r = .ok source r := by
  unfold openSource
  rw [if_pos hmemory]
  simp only [Resolving.get_bind, hlookup]
  rfl

/-- A nested archive is found in its parent and then kept under where its data starts. -/
theorem openNested_apply (parent : Handle) (name : Bytes) (r : Resolver) :
    openNested parent name r =
      (charge parent.source ((r.present parent).nestedSource name) >>= fun data =>
        keep { identity := data.identity, offset := data.offset } parent.source parent.address
          (Archive.ofWindow data (parent.archive.entryUrl name))) r := rfl

/-- Keeping an archive leaves everything as known, if what it opens to is. -/
theorem preserves_keep {key : CacheKey} {source : Nat} {address : Option Address}
    {opening : Metered Error Archive}
    (hopened : ∀ number a, opening.outcome = .ok a →
      fact key { number, source, address, archive := a }) :
    Preserves (Knows start fact) (fact key) (keep key source address opening) := by
  intro r hr
  rw [keep_apply]
  rcases hget : r.cache.get? key with _ | h
  · have hcharge := preserves_charge source opening r hr
    rcases hstep : charge source opening r with ⟨a, s⟩ | ⟨e, s⟩
    · rw [hstep] at hcharge
      refine ⟨⟨hcharge.1.outside, hcharge.1.buffers, hcharge.1.sources, fun k h hk => ?_⟩,
        hopened _ a hcharge.2⟩
      -- What is kept now was kept before or has just been opened.
      simp only [Cache.get?_insert] at hk
      by_cases hkey : k = key
      · rw [if_pos hkey, Option.some.injEq] at hk
        rw [hkey, ← hk]
        exact hopened _ a hcharge.2
      · rw [if_neg hkey] at hk
        exact hr.kept k h hk
    · rw [hstep] at hcharge
      exact hcharge
  · exact ⟨hr, hr.kept key h hget⟩

/-- Opening a source changes nothing that is known, and its answer is what the root names. -/
theorem preserves_openSource (container : String) :
    Preserves (Knows start fact) (Opens start.outside start.buffers container)
      (openSource container) := by
  unfold openSource
  by_cases hmemory : memoryScheme.toList.isPrefixOf container.toList
  · rw [if_pos hmemory]
    intro r hr
    rw [Resolving.get_bind]
    rcases hlookup : r.buffers.lookup container with _ | source
    · exact hr
    · exact ⟨hr, .buffer hmemory (by rw [← hr.buffers]; exact hlookup)⟩
  · rw [if_neg hmemory]
    -- What is outside is a new source, and no buffer is changed by it.
    refine (preserves_liftExcept (addressOf container)).bind fun address haddress => ?_
    intro r hr
    refine (preserves_liftExcept (r.outside.read address)).bind (fun content hcontent => ?_) r hr
    rw [hr.outside] at hcontent
    intro s hs
    refine ⟨hs.of_eq rfl rfl ?_ rfl, .found _ hmemory haddress hcontent⟩
    rw [Array.size_push]
    exact Nat.le_succ _

/-- A root that was opened is one of which the fact holds, whether it was kept or not. -/
theorem preserves_openRoot (hclosed : Closed start fact) (container : String) :
    Preserves (Knows start fact) (fun h => ∃ key, fact key h) (openRoot container) := by
  intro r hr
  rw [openRoot_apply]
  rcases hget : r.cache.get? { identity := container, offset := 0 } with _ | h
  · refine (preserves_openSource container).bind (fun source hsource => ?_) r hr
    refine (preserves_keep fun number a ha => ?_).mono fun h hh => ⟨_, hh⟩
    exact hclosed.root container source number a hsource ha
  · exact ⟨hr, _, hr.kept _ h hget⟩

/-- So is an archive that was opened inside another one. -/
theorem preserves_openNested (hclosed : Closed start fact) {parent : Handle}
    (hparent : ∃ key, fact key parent) (name : Bytes) :
    Preserves (Knows start fact) (fun h => ∃ key, fact key h) (openNested parent name) := by
  rcases hparent with ⟨key, hparent⟩
  intro r hr
  rw [openNested_apply]
  refine (preserves_charge parent.source ((r.present parent).nestedSource name)).bind
    (fun data hdata => ?_) r hr
  refine (preserves_keep fun number a ha => ?_).mono fun h hh => ⟨_, hh⟩
  exact hclosed.nested key parent r name data number a hparent hr.outside hdata ha

/-- Whatever locator is resolved, a fact that holds of all that is opened keeps
    holding of all that is kept, and holds of the answer. -/
theorem preserves_resolve (hclosed : Closed start fact) (l : Locator) :
    Preserves (Knows start fact) (fun h => ∃ key, fact key h) (resolve l) := by
  refine (preserves_openRoot hclosed l.root).bind fun root hroot => ?_
  induction l.archives generalizing root with
  | nil => exact fun r hr => ⟨hr, hroot⟩
  | cons name names ih =>
      rw [List.foldlM_cons]
      exact (preserves_openNested hclosed hroot name).bind ih

/-- What is known holds after the step, also if it fails. -/
theorem knows_after {α : Type} {answers : α → Prop} {x : Resolving α}
    (hx : Preserves (Knows start fact) answers x) {r : Resolver} (hr : Knows start fact r) :
    Knows start fact (after x r) := by
  have hstep := hx r hr
  unfold after
  rcases hresult : x r with ⟨a, s⟩ | ⟨e, s⟩
  · rw [hresult] at hstep
    exact hstep.1
  · rw [hresult] at hstep
    exact hstep

/-- Dropping what is kept changes nothing about the rest. -/
theorem Knows.of_subset {r s : Resolver} (h : Knows start fact r)
    (houtside : s.outside = r.outside) (hbuffers : s.buffers = r.buffers)
    (hsources : s.fetched = r.fetched)
    (hcache : ∀ key handle, s.cache.get? key = some handle → r.cache.get? key = some handle) :
    Knows start fact s :=
  ⟨houtside.trans h.outside, hbuffers.trans h.buffers, hsources ▸ h.sources,
    fun key handle hget => h.kept key handle (hcache key handle hget)⟩

/-- What is left after an eviction was there before. -/
theorem get?_of_evict {c : Cache Handle} {key k : CacheKey} {h : Handle}
    (hget : (c.evict key).get? k = some h) : c.get? k = some h := by
  rw [Cache.get?_evict] at hget
  by_cases hk : k = key
  · rw [if_pos hk] at hget
    exact absurd hget (by simp only [reduceCtorEq, not_false_eq_true])
  · rw [if_neg hk] at hget
    exact hget

/-- What is left is of another source. -/
theorem get?_of_evictBacking {c : Cache Handle} {identity : String} {k : CacheKey} {h : Handle}
    (hget : (c.evictBacking identity).get? k = some h) :
    c.get? k = some h ∧ k.identity ≠ identity := by
  rw [Cache.get?_evictBacking] at hget
  by_cases hk : k.identity = identity
  · rw [if_pos hk] at hget
    exact absurd hget (by simp only [reduceCtorEq, not_false_eq_true])
  · rw [if_neg hk] at hget
    exact ⟨hget, hk⟩

/-- Buffers that are in order, and a fact about all that is kept, which may speak
    of them. -/
structure Upholds (order : List (String × Source) → Prop)
    (fact : List (String × Source) → CacheKey → Handle → Prop) (r : Resolver) : Prop where
  order : order r.buffers
  knows : Knows r (fact r.buffers) r

section

variable {order : List (String × Source) → Prop}
  {fact : List (String × Source) → CacheKey → Handle → Prop}

/-- At first nothing is kept. -/
theorem upholds_new (directory : String) (outside : Surroundings) (horder : order []) :
    Upholds order fact { libraryDirectory := directory, outside } := by
  refine ⟨horder, rfl, rfl, Nat.le_refl _, fun key handle hget => ?_⟩
  exact absurd hget (by simp only [Cache.get?, List.lookup_nil, reduceCtorEq, not_false_eq_true])

/-- While the buffers stay the same, so does the fact. -/
theorem Upholds.of_knows {r s : Resolver} (h : Upholds order fact r)
    (hknows : Knows r (fact r.buffers) s) : Upholds order fact s :=
  ⟨by rw [hknows.buffers]; exact h.order,
    by rw [hknows.buffers]; exact ⟨rfl, rfl, Nat.le_refl _, hknows.kept⟩⟩

/-- A fact that holds of all that is opened survives every run, if it survives
    registering. -/
theorem upholds_of_run {free : String → Prop}
    (hclosed : ∀ {start : Resolver}, order start.buffers → Closed start (fact start.buffers))
    (hregister : ∀ {r : Resolver} (name : String) (content : ByteArray), free name →
      Upholds order fact r → Upholds order fact (r.register name content).2)
    {r s : Resolver} (hrun : Run free r s) (h : Upholds order fact r) : Upholds order fact s := by
  -- One case for each thing that may happen. Only registering changes what the fact is about.
  induction hrun with
  | refl => exact h
  | register name content _ hfree ih => exact hregister name content hfree ih
  | change outside _ ih => exact ⟨ih.order, rfl, rfl, Nat.le_refl _, ih.knows.kept⟩
  | resolve l _ ih =>
      exact ih.of_knows (knows_after (preserves_resolve (hclosed ih.order) l) ih.knows)
  | fetch source count _ ih => exact ih.of_knows (ih.knows.fetch source count)
  | evict key _ ih =>
      exact ih.of_knows (ih.knows.of_subset rfl rfl rfl fun _ _ hget => get?_of_evict hget)
  | evictBacking identity _ ih =>
      exact ih.of_knows
        (ih.knows.of_subset rfl rfl rfl fun _ _ hget => (get?_of_evictBacking hget).1)

end

/-- A name that is filtered out is not found, and others are found as before. -/
theorem lookup_filter_ne (container k : String) (buffers : List (String × Source)) :
    (buffers.filter fun buffer => buffer.1 != container).lookup k =
      if k = container then none else buffers.lookup k := by
  -- On the buffers: one of the removed name is passed over, and any other is looked at.
  induction buffers with
  | nil =>
      rw [List.filter_nil, List.lookup_nil]
      by_cases hk : k = container
      · rw [if_pos hk]
      · rw [if_neg hk]
  | cons buffer buffers ih =>
      obtain ⟨c, source⟩ := buffer
      by_cases hc : c = container
      · rw [List.filter_cons_of_neg (by simp only [hc, bne_self_eq_false, Bool.false_eq_true,
          not_false_eq_true]), ih]
        by_cases hk : k = container
        · rw [if_pos hk, if_pos hk]
        · rw [if_neg hk, if_neg hk, List.lookup_cons, beq_eq_false_iff_ne.mpr (hc ▸ hk)]
      · rw [List.filter_cons_of_pos (by simp only [bne_iff_ne, ne_eq]; exact hc), List.lookup_cons,
          List.lookup_cons, ih]
        by_cases hk : k = c
        · have hne : k ≠ container := fun heq => hc (hk.symm.trans heq)
          rw [beq_iff_eq.mpr hk, if_neg hne, if_neg hne]
        · rw [beq_eq_false_iff_ne.mpr hk]

/-- Registering makes one buffer known and changes no other. -/
theorem lookup_register (r : Resolver) (name : String) (content : ByteArray) (k : String) :
    (r.register name content).2.buffers.lookup k =
      if k = memoryScheme ++ name then
        some { number := r.fetched.size, backing := .memory name content }
      else r.buffers.lookup k := by
  change List.lookup k ((memoryScheme ++ name, _) ::
    r.buffers.filter fun buffer => buffer.1 != memoryScheme ++ name) = _
  rw [List.lookup_cons, lookup_filter_ne]
  by_cases hk : k = memoryScheme ++ name
  · rw [if_pos hk, if_pos hk, beq_iff_eq.mpr hk]
  · rw [if_neg hk, if_neg hk, beq_eq_false_iff_ne.mpr hk]

/-- What is kept after registering was kept before, and is not of a buffer that
    was replaced. -/
theorem get?_of_register {r : Resolver} {name : String} {content : ByteArray} {k : CacheKey}
    {h : Handle} (hget : (r.register name content).2.cache.get? k = some h) :
    r.cache.get? k = some h ∧
      (k.identity = memoryScheme ++ name → r.buffers.lookup k.identity = none) := by
  change (if (r.buffers.lookup (memoryScheme ++ name)).isSome then
    r.cache.evictBacking (memoryScheme ++ name) else r.cache).get? k = some h at hget
  -- Only a buffer that is replaced has its archives dropped, and for a new one there are none.
  by_cases hknown : (r.buffers.lookup (memoryScheme ++ name)).isSome
  · rw [if_pos hknown] at hget
    rcases get?_of_evictBacking hget with ⟨hkept, hne⟩
    exact ⟨hkept, fun heq => absurd heq hne⟩
  · rw [if_neg hknown] at hget
    refine ⟨hget, fun heq => ?_⟩
    rw [heq, ← Option.not_isSome_iff_eq_none]
    exact hknown

/-- Whatever has become of its source, an archive stays where it is. -/
theorem identity_present (r : Resolver) (h : Handle) :
    (r.present h).window.identity = h.archive.window.identity := by
  unfold present
  rcases h.address.map r.outside.read with _ | _ | content
  · rfl
  · rfl
  · rfl

/-- What is nested in a handle has the source of the handle. -/
theorem identity_of_nestedSource {r : Resolver} {h : Handle} {name : Bytes} {data : Window}
    (hdata : ((r.present h).nestedSource name).outcome = .ok data) :
    data.identity = h.archive.window.identity := by
  rcases Archive.nestedSource_eq_ok hdata with ⟨offset, length, _, _, hpart⟩
  rw [hpart]
  exact identity_present r h

/-- Buffers do not change, so neither does what is read of an archive in one. -/
theorem present_of_buffer (r : Resolver) {h : Handle} (hbuffer : h.address = none) :
    r.present h = h.archive := by
  unfold present
  rw [hbuffer]
  rfl

theorem memory_prefix (name : String) :
    memoryScheme.toList.isPrefixOf (memoryScheme ++ name).toList = true := by
  rw [String.toList_append, List.isPrefixOf_iff_prefix]
  exact List.prefix_append _ _

/-- The name of a source on another machine starts as no other one does. -/
theorem isRemote_iff {root : String} :
    Locator.isRemote root = true ↔
      "http://".toList <+: root.toList ∨ "https://".toList <+: root.toList := by
  unfold Locator.isRemote Locator.remoteSchemes
  simp only [List.any_cons, List.any_nil, Bool.or_false, Bool.or_eq_true,
    List.isPrefixOf_iff_prefix]

/-- A source outside has the bytes that are found at its address. -/
theorem content_backingAt (address : Address) (content : ByteArray) :
    (backingAt address content).content = content := by
  cases address with
  | file path => rfl
  | remote url h => rfl

/-- No source outside has the name of a buffer. -/
theorem not_memory_outside (address : Address) (content : ByteArray) :
    ¬ memoryScheme.toList.isPrefixOf (backingAt address content).identity.toList := by
  rw [Bool.not_eq_true]
  cases address with
  | file path =>
      rw [backingAt, fileBacking, String.toList_append]
      rfl
  | remote url h =>
      change memoryScheme.toList.isPrefixOf url.toList = false
      -- An address on another machine starts with one of two schemes.
      rcases isRemote_iff.mp h with ⟨rest, hurl⟩ | ⟨rest, hurl⟩
      · rw [← hurl]
        rfl
      · rw [← hurl]
        rfl

/-- A root that does not start like the schemes of other machines is on none. -/
theorem not_isRemote_of_cons {root : String} {c : Char} {rest : List Char}
    (hchars : root.toList = c :: rest) (hc : c ≠ 'h') : Locator.isRemote root = false := by
  rw [← Bool.not_eq_true, isRemote_iff, hchars]
  rintro (⟨tail, htail⟩ | ⟨tail, htail⟩)
  · exact hc (List.cons.inj htail).1.symm
  · exact hc (List.cons.inj htail).1.symm

/-- A file has no name that starts as the name of a source on another machine does. -/
theorem not_isRemote_scheme (text : String) : Locator.isRemote (fileScheme ++ text) = false :=
  not_isRemote_of_cons String.toList_append (by decide)

/-- The name of a source outside tells its address. -/
theorem address_of_identity {first second : Address} {content other : ByteArray}
    (h : (backingAt first content).identity = (backingAt second other).identity) :
    first = second := by
  -- A file is named by its scheme, which no remote source has.
  cases first with
  | file path =>
      cases second with
      | file path' =>
          have hencoded := Percent.encode_injective (String.append_right_inj _ |>.mp h)
          exact congrArg Address.file (Text.encode_injective hencoded)
      | remote url hurl =>
          rw [← show (fileBacking path content).identity = url from h,
            fileBacking, not_isRemote_scheme] at hurl
          exact absurd hurl Bool.false_ne_true
  | remote url hurl =>
      cases second with
      | file path =>
          rw [show url = (fileBacking path other).identity from h,
            fileBacking, not_isRemote_scheme] at hurl
          exact absurd hurl Bool.false_ne_true
      | remote url' hurl' =>
          have hsame : url = url' := h
          subst hsame
          rfl

/-- Sources are known under their names, and are not outside. -/
def Named (buffers : List (String × Source)) : Prop :=
  ∀ container source, buffers.lookup container = some source →
    source.backing.identity = container ∧ source.address = none

/-- What is kept is kept under its source and its offset, and its source is
    known if it is a buffer. -/
structure FromKnown (buffers : List (String × Source)) (key : CacheKey) (h : Handle) :
    Prop where
  identity : h.archive.window.identity = key.identity
  offset : h.archive.window.offset = key.offset
  known : memoryScheme.toList.isPrefixOf key.identity.toList →
    (buffers.lookup key.identity).isSome

/-- An archive whose identity is that of a buffer comes from one that is known. -/
theorem fromKnown_closed {start : Resolver} (hnamed : Named start.buffers) :
    Closed start (FromKnown start.buffers) where
  root := by
    intro container source number a hopens ha
    rcases Archive.ofWindow_eq_ok ha with ⟨_, _, _, hwindow, _⟩
    refine ⟨congrArg Window.identity hwindow, congrArg Window.offset hwindow, fun hmemory => ?_⟩
    cases hopens with
    | buffer _ hlookup =>
        simp only [(hnamed container source hlookup).1, hlookup, Option.isSome_some]
    | found number _ _ _ =>
        exact absurd hmemory (not_memory_outside _ _)
  nested := by
    intro key parent r name data number a hparent _ hdata ha
    rcases Archive.ofWindow_eq_ok ha with ⟨_, _, _, hwindow, _⟩
    have hidentity := (identity_of_nestedSource hdata).trans hparent.identity
    refine ⟨congrArg Window.identity hwindow, congrArg Window.offset hwindow, fun hmemory => ?_⟩
    -- What is nested lies in the same source.
    simp only [hidentity] at hmemory ⊢
    exact hparent.known hmemory

/-- A resolver whose buffers are named and whose handles come from known
    sources. -/
def Sane (r : Resolver) : Prop := Upholds Named FromKnown r

/-- A new buffer stands under its own name. -/
theorem named_register {r : Resolver} (h : Named r.buffers) (name : String)
    (content : ByteArray) : Named (r.register name content).2.buffers := by
  intro container source hlookup
  rw [lookup_register] at hlookup
  by_cases hcontainer : container = memoryScheme ++ name
  · rw [if_pos hcontainer, Option.some.injEq] at hlookup
    rw [← hlookup, hcontainer]
    exact ⟨rfl, rfl⟩
  · rw [if_neg hcontainer] at hlookup
    exact h container source hlookup

/-- A resolver stays sane when a buffer is registered. -/
theorem sane_register {r : Resolver} (h : r.Sane) (name : String) (content : ByteArray) :
    (r.register name content).2.Sane := by
  refine ⟨named_register h.order name content, rfl, rfl, Nat.le_refl _, fun key handle hget => ?_⟩
  have hkept := h.knows.kept key handle (get?_of_register hget).1
  refine ⟨hkept.identity, hkept.offset, fun hmemory => ?_⟩
  rw [lookup_register]
  -- A buffer that was known stays known, if only as another one of its name.
  by_cases hidentity : key.identity = memoryScheme ++ name
  · rw [if_pos hidentity]
    rfl
  · rw [if_neg hidentity]
    exact hkept.known hmemory

/-- A resolver stays sane, whatever happens to it. -/
theorem sane_of_run {free : String → Prop} {r s : Resolver} (hrun : Run free r s)
    (h : r.Sane) : s.Sane :=
  upholds_of_run fromKnown_closed (fun name content _ h => sane_register h name content) hrun h

theorem named_nil : Named [] := fun _ _ hlookup =>
  absurd hlookup (by simp only [List.lookup_nil, reduceCtorEq, not_false_eq_true])

theorem sane_new (directory : String) (outside : Surroundings) :
    ({ libraryDirectory := directory, outside } : Resolver).Sane :=
  upholds_new directory outside named_nil

/-- Right after a buffer was registered, nothing is kept of it. -/
theorem get?_register_eq_none {r : Resolver} (h : r.Sane) (name : String) (content : ByteArray)
    {key : CacheKey} (hkey : key.identity = memoryScheme ++ name) :
    (r.register name content).2.cache.get? key = none := by
  rw [Option.eq_none_iff_forall_ne_some]
  intro handle hget
  rcases get?_of_register hget with ⟨hkept, hunknown⟩
  -- What is kept comes from a known buffer, and then this one was dropped.
  have hknown := (h.knows.kept key handle hkept).known (by rw [hkey]; exact memory_prefix name)
  rw [hunknown hkey] at hknown
  exact absurd hknown Bool.false_ne_true

end Resolver

end NestedZip
