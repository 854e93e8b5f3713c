import NestedZip.Proofs.Resolving.Walk

/-!
# Resolving Again

What was opened once is found again, for the price of the local headers.

An entry is looked up by the place of its data, and to learn that place its
local header has to be read. So a locator whose archives are all kept still
costs one local header for each of them, and nothing else: no archive is
indexed, no handle is made and nothing is kept that was not kept before. A
`Trail` says that this is the situation. It is laid when a locator is resolved,
and what is kept later does not break it, since a kept handle is never
replaced by another one.

That the handles on a trail have one source between them is part of it, for
otherwise the costs would be counted against several. It is so when nothing was
kept before. `Alone` is the invariant for this: everything that is kept starts no
further back than the archive in hand, so the next level is opened and not taken
for one that was there.

## Main definitions

* `Window.key`: Where an archive in a window is kept.
* `Resolver.Extends`: What was kept is kept, and buffers and what is outside are the
  same.
* `Resolver.Trail`: Each handle is kept where the one before says.
* `Resolver.Alone`, `Resolver.AloneAt`: A handle with nothing kept behind it, and one
  named after the names that led to it.
* `Resolver.Laid`: What resolving some names has left behind.

## Theorems

* `Resolver.keep_eq_ok`, `Resolver.openRoot_eq_ok`, `Resolver.openNested_eq_ok`: All that
  a step can have done if it succeeded.
* `Resolver.Trail.again`: Following a trail answers its last handle.
* `Resolver.trail_of_steps`: Resolving names lays a trail, if each step finds the next
  level where it is kept.
* `Resolver.Alone.step`, `Resolver.laid_alone`: So it does if nothing is kept behind the
  handle.
-/

namespace NestedZip

/-- Where an archive in a window is kept. -/
def Window.key (w : Window) : CacheKey := { identity := w.identity, offset := w.offset }

namespace Resolver

/-- Nothing but the cache and what is counted has changed, and what was kept is
    kept. -/
structure Extends (r s : Resolver) : Prop where
  outside : s.outside = r.outside
  buffers : s.buffers = r.buffers
  kept : ∀ key h, r.cache.get? key = some h → s.cache.get? key = some h

theorem Extends.refl (r : Resolver) : Extends r r := ⟨rfl, rfl, fun _ _ hget => hget⟩

theorem Extends.trans {r s t : Resolver} (hrs : Extends r s) (hst : Extends s t) : Extends r t :=
  ⟨hst.outside.trans hrs.outside, hst.buffers.trans hrs.buffers,
    fun key h hget => hst.kept key h (hrs.kept key h hget)⟩

/-- What is kept where nothing was does not change what is kept elsewhere. -/
theorem Extends.of_insert {r s : Resolver} {key : CacheKey} {h : Handle}
    (houtside : s.outside = r.outside) (hbuffers : s.buffers = r.buffers)
    (hnone : r.cache.get? key = none) (hcache : s.cache = r.cache.insert key h) :
    Extends r s := by
  refine ⟨houtside, hbuffers, fun k kept hget => ?_⟩
  rw [hcache, Cache.get?_insert, if_neg, hget]
  rintro rfl
  rw [hnone] at hget
  exact absurd hget (by simp only [reduceCtorEq, not_false_eq_true])

/-- All that can have happened if an archive was answered: it was kept, or it has
    been opened and is kept from now on. -/
theorem keep_eq_ok {key : CacheKey} {source : Nat} {address : Option Address}
    {opening : Metered Error Archive} {r s : Resolver} {h : Handle}
    (hkeep : keep key source address opening r = .ok h s) :
    s.outside = r.outside ∧ s.buffers = r.buffers ∧
      (r.cache.get? key = some h ∧ s.cache = r.cache ∨
       r.cache.get? key = none ∧ s.cache = r.cache.insert key h ∧
        ∃ number a, opening.outcome = .ok a ∧ h = { number, source, address, archive := a }) := by
  rw [keep_apply] at hkeep
  rcases hget : r.cache.get? key with _ | kept
  · -- Opening may fail, but then no handle is answered.
    rw [hget] at hkeep
    unfold charge at hkeep
    rcases houtcome : opening.outcome with e | a
    · simp only [houtcome] at hkeep
      exact nomatch hkeep
    · simp only [houtcome] at hkeep
      rcases hkeep with ⟨⟩
      exact ⟨rfl, rfl, Or.inr ⟨rfl, rfl, _, a, rfl, rfl⟩⟩
  · rw [hget] at hkeep
    rcases hkeep with ⟨⟩
    exact ⟨rfl, rfl, Or.inl ⟨rfl, rfl⟩⟩

/-- All that can have happened if an entry was answered as an archive. -/
theorem openNested_eq_ok {parent inner : Handle} {name : Bytes} {r s : Resolver}
    (hpresent : r.present parent = parent.archive)
    (hopen : openNested parent name r = .ok inner s) :
    ∃ data, (parent.archive.nestedSource name).outcome = .ok data ∧
      s.outside = r.outside ∧ s.buffers = r.buffers ∧
      (r.cache.get? data.key = some inner ∧ s.cache = r.cache ∨
       r.cache.get? data.key = none ∧ s.cache = r.cache.insert data.key inner ∧
        ∃ number a, (Archive.ofWindow data (parent.archive.entryUrl name)).outcome = .ok a ∧
          inner = { number, source := parent.source, address := parent.address, archive := a }) := by
  rw [openNested_apply, hpresent] at hopen
  rcases Resolving.bind_eq_ok_iff.mp hopen with ⟨data, t, hcharge, hkeep⟩
  unfold charge at hcharge
  -- Where its data is not found, no handle is answered.
  rcases hdata : (parent.archive.nestedSource name).outcome with e | found
  · simp only [hdata] at hcharge
    exact nomatch hcharge
  · simp only [hdata] at hcharge
    rcases hcharge with ⟨⟩
    rcases keep_eq_ok hkeep with ⟨houtside, hbuffers, hcase⟩
    exact ⟨data, rfl, houtside, hbuffers, hcase⟩

/-- All that can have happened if a root was answered that was not kept as it is
    written, on a resolver that keeps nothing. -/
theorem openRoot_eq_ok {container : String} {r s : Resolver} {h : Handle}
    (hempty : ∀ key, r.cache.get? key = none) (hopen : openRoot container r = .ok h s) :
    ∃ (source : Source) (number : Nat) (a : Archive),
      Opens r.outside r.buffers container source ∧
      (Archive.ofBacking source.backing).outcome = .ok a ∧
      h = { number, source := source.number, address := source.address, archive := a } ∧
      s.outside = r.outside ∧ s.buffers = r.buffers ∧
      ∀ key k, s.cache.get? key = some k ↔
        key = { identity := source.backing.identity, offset := 0 } ∧ k = h := by
  rw [openRoot_apply, hempty] at hopen
  rcases Resolving.bind_eq_ok_iff.mp hopen with ⟨source, t, hsource, hkeep⟩
  -- Opening a source keeps nothing, so there is nothing yet when the archive is opened.
  have hstep := @preserves_openSource r (fun _ _ => False) container r
    ⟨rfl, rfl, Nat.le_refl _, fun key k hget => by
      rw [hempty] at hget
      exact nomatch hget⟩
  rw [hsource] at hstep
  rcases hstep with ⟨hknows, hopens⟩
  rcases keep_eq_ok hkeep with ⟨houtside, hbuffers, hcase⟩
  rcases hcase with ⟨hget, _⟩ | ⟨_, hcache, number, a, ha, rfl⟩
  · exact (hknows.kept _ _ hget).elim
  · refine ⟨source, number, a, hopens, ha, rfl, houtside.trans hknows.outside,
      hbuffers.trans hknows.buffers, fun key k => ?_⟩
    have hnone : t.cache.get? key = none := by
      rw [Option.eq_none_iff_forall_ne_some]
      exact fun k hget => hknows.kept key k hget
    rw [hcache, Cache.get?_insert, hnone]
    by_cases hkey : key = { identity := source.backing.identity, offset := 0 }
    · rw [if_pos hkey, Option.some.injEq]
      exact ⟨fun heq => ⟨hkey, heq.symm⟩, fun heq => heq.2.symm⟩
    · rw [if_neg hkey]
      exact ⟨fun heq => (nomatch heq), fun heq => absurd heq.1 hkey⟩

/-- From a handle on, each next one is kept at the place of the entry that the name
    is of, and all are read from one source. -/
inductive Trail (s : Resolver) : Handle → List Bytes → Handle → Prop
  | nil (h : Handle) : Trail s h [] h
  | cons {h inner last : Handle} {name : Bytes} {names : List Bytes} {data : Window} :
      s.present h = h.archive →
      h.archive.nestedSource name = { outcome := .ok data, fetched := LocalHeader.length } →
      s.cache.get? data.key = some inner → inner.source = h.source →
      Trail s inner names last → Trail s h (name :: names) last

/-- A trail is not broken by what is kept later. -/
theorem Trail.extend {s t : Resolver} (hst : Extends s t) {h last : Handle} {names : List Bytes}
    (htrail : Trail s h names last) : Trail t h names last := by
  induction htrail with
  | nil h => exact .nil h
  | cons hpresent hsource hkept hsame _ ih =>
      refine .cons ?_ hsource (hst.kept _ _ hkept) hsame ih
      unfold present at hpresent ⊢
      rw [hst.outside]
      exact hpresent

theorem Trail.source {s : Resolver} {h last : Handle} {names : List Bytes}
    (htrail : Trail s h names last) : last.source = h.source := by
  induction htrail with
  | nil h => rfl
  | cons _ _ _ hsame _ ih => exact ih.trans hsame

/-- The resolver after this many bytes were fetched from a source, and nothing else. -/
def fetching (s : Resolver) (source count : Nat) : Resolver :=
  { s with fetched := s.fetched.modify source (· + count) }

theorem extends_fetching (s : Resolver) (source count : Nat) :
    Extends s (s.fetching source count) := ⟨rfl, rfl, fun _ _ hget => hget⟩

theorem fetching_zero (s : Resolver) (source : Nat) : s.fetching source 0 = s := by
  have hsame : s.fetched.modify source (· + 0) = s.fetched := by
    refine Array.ext Array.size_modify fun i _ _ => ?_
    rw [Array.getElem_modify, Nat.add_zero, ite_self]
  unfold fetching
  rw [hsame]

/-- Bytes fetched from one source one after the other add up. -/
theorem fetching_fetching (s : Resolver) (source first second : Nat) :
    (s.fetching source first).fetching source second = s.fetching source (first + second) := by
  have hsum : (s.fetched.modify source (· + first)).modify source (· + second) =
      s.fetched.modify source (· + (first + second)) := by
    refine Array.ext (by simp only [Array.size_modify]) fun i _ _ => ?_
    simp only [Array.getElem_modify]
    by_cases hi : source = i
    · simp only [if_pos hi, Nat.add_assoc]
    · simp only [if_neg hi]
  unfold fetching
  rw [hsum]

/-- One step on a trail costs a local header. -/
theorem openNested_again {s : Resolver} {h inner : Handle} {name : Bytes} {data : Window}
    (hpresent : s.present h = h.archive)
    (hsource : h.archive.nestedSource name =
      { outcome := .ok data, fetched := LocalHeader.length })
    (hkept : s.cache.get? data.key = some inner) :
    openNested h name s = .ok inner (s.fetching h.source LocalHeader.length) := by
  rw [openNested_apply, hpresent, hsource]
  -- The header is read again to find the data, and that is all that is.
  have hcharge : charge h.source
      ({ outcome := .ok data, fetched := LocalHeader.length } : Metered Error Window) s =
        .ok data (s.fetching h.source LocalHeader.length) := rfl
  rw [Resolving.bind_of_ok hcharge, keep_apply]
  have hget : (s.fetching h.source LocalHeader.length).cache.get?
      { identity := data.identity, offset := data.offset } = some inner := hkept
  rw [hget]

/-- Following a trail answers its last handle and costs a local header for each
    step. Nothing is opened, and what is kept stays as it is. -/
theorem Trail.again {s : Resolver} {h last : Handle} {names : List Bytes}
    (htrail : Trail s h names last) :
    names.foldlM openNested h s =
      .ok last (s.fetching h.source (names.length * LocalHeader.length)) := by
  induction names generalizing s h with
  | nil =>
      rcases htrail with ⟨⟩
      rw [List.length_nil, Nat.zero_mul, fetching_zero]
      rfl
  | cons name names ih =>
      rcases htrail with _ | ⟨hpresent, hsource, hkept, hsame, hrest⟩
      -- The step has changed a counter only, so what is left of the trail is still there.
      rw [List.foldlM_cons, Resolving.bind_of_ok (openNested_again hpresent hsource hkept),
        ih (hrest.extend (extends_fetching s _ _)), hsame, fetching_fetching, List.length_cons,
        Nat.succ_mul, Nat.add_comm]

/-- A handle that was walked to, and nothing that is kept starts behind it. -/
structure Alone (r : Resolver) (h : Handle) : Prop where
  named : Named r.buffers
  walked : Walked r.outside r.buffers h.archive.key h
  intact : h.archive.window.Intact
  front : ∀ key k, r.cache.get? key = some k → key.offset ≤ h.archive.window.offset

/-- It is read as it was opened, also later. -/
theorem Alone.present {r s : Resolver} {h : Handle} (halone : Alone r h)
    (houtside : s.outside = r.outside) : s.present h = h.archive :=
  present_of_walked halone.named halone.walked houtside

/-- If an entry of such a handle is answered as an archive, that has been opened in
    it and named after the entry, and is again one with nothing kept behind it. -/
theorem Alone.step {r t : Resolver} {h inner : Handle} {name : Bytes} (halone : Alone r h)
    (hopen : openNested h name r = .ok inner t) :
    ∃ data, h.archive.nestedSource name = { outcome := .ok data, fetched := LocalHeader.length } ∧
      t.cache.get? data.key = some inner ∧ inner.source = h.source ∧
      inner.archive.container = h.archive.entryUrl name ∧ Extends r t ∧ Alone t inner := by
  have hpresent := halone.present rfl
  rcases openNested_eq_ok hpresent hopen with ⟨data, hdata, houtside, hbuffers, hcase⟩
  have hbehind : h.archive.window.offset < data.offset := by
    rcases Archive.nestedSource_eq_ok hdata with ⟨offset, length, hpositive, _, rfl⟩
    exact Nat.lt_add_of_pos_right hpositive
  rcases hcase with ⟨hget, _⟩ | ⟨hnone, hcache, number, a, ha, rfl⟩
  · -- What is nested starts behind all that is kept.
    have hle := halone.front _ _ hget
    simp only [Window.key] at hle
    omega
  · rcases Archive.ofWindow_eq_ok ha with ⟨hintact, _, _, hwindow, hcontainer⟩
    have hkey : a.key = data.key := by
      rw [Archive.key, hwindow]
      rfl
    have hwalked := (walked_closed halone.named).nested _ _ r name data number a halone.walked rfl
      (by rw [hpresent]; exact hdata) ha
    refine ⟨data, Archive.nestedSource_eq halone.intact hdata, ?_, rfl, hcontainer,
      .of_insert houtside hbuffers hnone hcache, ?_, ?_, ?_, ?_⟩
    · rw [hcache, Cache.get?_insert, if_pos rfl]
    · rw [hbuffers]
      exact halone.named
    · rw [houtside, hbuffers, hkey]
      exact hwalked
    · rw [hwindow]
      exact hintact
    · -- It is the last in the source now.
      intro key k hget
      rw [hcache, Cache.get?_insert] at hget
      rw [hwindow]
      by_cases hsame : key = data.key
      · rw [hsame]
        exact Nat.le_refl _
      · rw [if_neg hsame] at hget
        have hle := halone.front key k hget
        omega

/-- If what is good about a handle is kept by every step to the next level, and each
    step finds that level where it is kept from then on, then resolving names lays a
    trail. What is good may speak of the names so far. -/
theorem trail_of_steps (good : Resolver → List Bytes → Handle → Prop)
    (hpresent : ∀ {r s : Resolver} {done : List Bytes} {h : Handle}, good r done h →
      s.outside = r.outside → s.present h = h.archive)
    (hstep : ∀ {r t : Resolver} {done : List Bytes} {h inner : Handle} {name : Bytes},
      good r done h → openNested h name r = .ok inner t →
      ∃ data, h.archive.nestedSource name =
          { outcome := .ok data, fetched := LocalHeader.length } ∧
        t.cache.get? data.key = some inner ∧ inner.source = h.source ∧ Extends r t ∧
        good t (done ++ [name]) inner)
    (done : List Bytes) {names : List Bytes} {h last : Handle} {r s : Resolver}
    (hgood : good r done h) (hresolve : names.foldlM openNested h r = .ok last s) :
    Trail s h names last ∧ Extends r s ∧ good s (done ++ names) last := by
  induction names generalizing done h r with
  | nil =>
      rcases hresolve with ⟨⟩
      exact ⟨.nil _, .refl _, by rw [List.append_nil]; exact hgood⟩
  | cons name names ih =>
      rw [List.foldlM_cons] at hresolve
      rcases Resolving.bind_eq_ok_iff.mp hresolve with ⟨inner, t, hinner, hrest⟩
      rcases hstep hgood hinner with ⟨data, hsource, hkept, hsame, hextends, hnext⟩
      -- The trail is one of the resolver at the end, to which every handle so far is carried.
      rcases ih _ hnext hrest with ⟨htrail, hextended, hlast⟩
      rw [List.append_assoc, List.singleton_append] at hlast
      have hall := hextends.trans hextended
      exact ⟨.cons (hpresent hgood hall.outside) hsource (hextended.kept _ _ hkept) hsame htrail,
        hall, hlast⟩

/-- What resolving names from a handle on has left behind. -/
structure Laid (r s : Resolver) (h : Handle) (names : List Bytes) (last : Handle) : Prop where
  trail : Trail s h names last
  extended : Extends r s
  container : last.archive.container =
    names.foldl (fun text name => text ++ Locator.separator ++ Percent.encode name)
      h.archive.container

/-- Such a handle that is named after the names that led to it, from an archive named
    `text` on. -/
structure AloneAt (text : String) (r : Resolver) (done : List Bytes) (h : Handle) : Prop where
  alone : Alone r h
  container : h.archive.container =
    done.foldl (fun text name => text ++ Locator.separator ++ Percent.encode name) text

/-- One name further on, the archive is again the last one kept, under the text of all names. -/
theorem AloneAt.step {text : String} {r t : Resolver} {done : List Bytes} {h inner : Handle}
    {name : Bytes} (hat : AloneAt text r done h) (hopen : openNested h name r = .ok inner t) :
    ∃ data, h.archive.nestedSource name = { outcome := .ok data, fetched := LocalHeader.length } ∧
      t.cache.get? data.key = some inner ∧ inner.source = h.source ∧ Extends r t ∧
      AloneAt text t (done ++ [name]) inner := by
  rcases hat.alone.step hopen with ⟨data, hsource, hkept, hsame, hcontainer, hextends, hnext⟩
  refine ⟨data, hsource, hkept, hsame, hextends, hnext, ?_⟩
  rw [hcontainer, List.foldl_append, ← hat.container]
  rfl

/-- As long as nothing is kept behind the archive in hand, each level is opened,
    named after its entry, and kept. -/
theorem laid_alone {names : List Bytes} {h last : Handle} {r s : Resolver} (halone : Alone r h)
    (hresolve : names.foldlM openNested h r = .ok last s) : Laid r s h names last := by
  have hstart : AloneAt h.archive.container r [] h := ⟨halone, rfl⟩
  rcases trail_of_steps (AloneAt h.archive.container)
    (fun hat houtside => hat.alone.present houtside) AloneAt.step [] hstart hresolve with
    ⟨htrail, hextended, hlast⟩
  exact ⟨htrail, hextended, hlast.container⟩

/-- The root of a source is such a handle, if nothing was kept before. -/
theorem alone_of_openRoot {container : String} {r s : Resolver} {root : Handle}
    (hnamed : Named r.buffers) (hempty : ∀ key, r.cache.get? key = none)
    (hopen : openRoot container r = .ok root s) :
    Alone s root ∧ ∃ source : Source, Opens r.outside r.buffers container source ∧
      root.archive.container = source.backing.identity ∧
      s.cache.get? { identity := source.backing.identity, offset := 0 } = some root := by
  rcases openRoot_eq_ok hempty hopen with
    ⟨source, number, a, hopens, ha, rfl, houtside, hbuffers, hkept⟩
  rcases Archive.ofWindow_eq_ok ha with ⟨hintact, _, _, hwindow, hcontainer⟩
  have hkey : a.key = { identity := source.backing.identity, offset := 0 } := by
    rw [Archive.key, hwindow]
    rfl
  have hwalked := (walked_closed hnamed).root container source number a hopens ha
  -- The cache was empty, so the root is all there is in it.
  refine ⟨⟨?_, ?_, ?_, fun key k hget => ?_⟩, source, hopens, hcontainer,
    (hkept _ _).mpr ⟨rfl, rfl⟩⟩
  · rw [hbuffers]
    exact hnamed
  · rw [houtside, hbuffers, hkey]
    exact hwalked
  · rw [hwindow]
    exact hintact
  · rw [((hkept key k).mp hget).1]
    exact Nat.zero_le _

end Resolver

end NestedZip
