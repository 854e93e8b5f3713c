import NestedZip.Proofs.Resolving.EntryUrl
import NestedZip.Proofs.Resolving.Settled
import NestedZip.Proofs.Resolving.Transparency

/-!
# Resolving Twice

A locator of a buffer that was just resolved is resolved again for the price of
its local headers, whatever else is kept.

That this is so when nothing was kept before is `resolve_again`. Here the resolver
may be in any state that asking it can lead to. Then a level of the locator may be
kept already, opened through other names that lead to the same place, and the
handle in hand may be older than the resolution. So nothing can be said of where a
handle comes from, but only of what every kept handle is. `Grounded` is that: what
is kept of a buffer is read from the one that is known now, inside it, and its costs
are counted against it. Registering a buffer again drops all that was kept of it, so
this survives every event.

A handle of that kind does not change under its reader. The step from it to the next
level is then determined by the name alone, and the key that it leads to is the same
both times. Whether the first time the next level was kept or had to be opened, it
is kept from then on, and that is a trail.

## Main definitions

* `Resolver.ReadFrom`: A handle that is read from a buffer.
* `Resolver.Grounded`: What is kept of a buffer is read from the one known now.
* `Resolver.OnTrack`: A grounded resolver, and a handle below some root in a buffer.

## Theorems

* `Resolver.grounded_run`, `Resolver.numbered_events`: What survives every event.
* `Resolver.OnTrack.step`: The next level is kept where its entry is.
* `Resolver.trail_of_resolve`: What a resolution of a buffer leaves behind.
* `Resolver.resolve_twice`: The second resolution, over every run.
-/

namespace NestedZip

namespace Resolver

open Connection (Event)

/-- A handle on an archive in a buffer, whose costs are counted against that buffer. -/
structure ReadFrom (source : Source) (h : Handle) : Prop where
  source : h.source = source.number
  address : h.address = none
  intact : h.archive.window.Intact

/-- What is kept of a buffer is read from the one that is known now. -/
structure Grounded (buffers : List (String × Source)) (key : CacheKey) (h : Handle) : Prop where
  identity : h.archive.window.identity = key.identity
  buffer : memoryScheme.toList.isPrefixOf key.identity.toList →
    ∃ source, buffers.lookup key.identity = some source ∧ ReadFrom source h

/-- Whatever is opened in a buffer lies in it and reads the counter of its source. -/
theorem grounded_closed {start : Resolver} (hnamed : Named start.buffers) :
    Closed start (Grounded start.buffers) where
  root := by
    intro container source number a hopens ha
    rcases Archive.ofWindow_eq_ok ha with ⟨hintact, _, _, hwindow, _⟩
    refine ⟨congrArg Window.identity hwindow, fun hmemory => ?_⟩
    cases hopens with
    | buffer _ hlookup =>
        rcases hnamed container source hlookup with ⟨hname, hbuffer⟩
        exact ⟨source, by rw [hname]; exact hlookup, rfl, hbuffer, by rw [hwindow]; exact hintact⟩
    | found number _ _ _ =>
        exact absurd hmemory (not_memory_outside _ _)
  nested := by
    intro key parent r name data number a hparent _ hdata ha
    rcases Archive.ofWindow_eq_ok ha with ⟨hintact, _, _, hwindow, _⟩
    have hidentity := (identity_of_nestedSource hdata).trans hparent.identity
    refine ⟨congrArg Window.identity hwindow, fun hmemory => ?_⟩
    -- The buffer is the one of the parent, and so is the source.
    simp only [hidentity] at hmemory ⊢
    rcases hparent.buffer hmemory with ⟨source, hlookup, hread⟩
    exact ⟨source, hlookup, hread.source, hread.address, by rw [hwindow]; exact hintact⟩

/-- Registering drops what is kept of a buffer that it replaces. -/
theorem grounded_register {r : Resolver} (h : Upholds Named Grounded r) (name : String)
    (content : ByteArray) : Upholds Named Grounded (r.register name content).2 := by
  refine ⟨named_register h.order name content, rfl, rfl, Nat.le_refl _, fun key handle hget => ?_⟩
  rcases get?_of_register hget with ⟨hkept, hunknown⟩
  have hgrounded := h.knows.kept key handle hkept
  refine ⟨hgrounded.identity, fun hmemory => ?_⟩
  rcases hgrounded.buffer hmemory with ⟨source, hlookup, hread⟩
  refine ⟨source, ?_, hread⟩
  rw [lookup_register, if_neg]
  · exact hlookup
  · intro hsame
    rw [hunknown hsame] at hlookup
    exact nomatch hlookup

theorem grounded_run (directory : String) (outside : Surroundings)
    (c : Connection) (events : List Event) :
    Upholds Named Grounded (Connection.run events (c, new directory outside)).2 :=
  Connection.upholds_run grounded_closed (fun name content h => grounded_register h name content)
    (upholds_new directory outside named_nil) events

/-- The buffers stay among the sources so far, whatever happens. -/
theorem numbered_event {s : Connection × Resolver} (h : s.2.Numbered) (event : Event) :
    (event.run s).2.Numbered := by
  intro container source hlookup
  rcases Connection.event_cases event s with ⟨name, content, hrun⟩ | ⟨outside, hrun⟩ | hopens
  · rw [hrun] at hlookup ⊢
    exact numbered_run h (.register name content) container source hlookup
  · rw [hrun] at hlookup ⊢
    exact h container source hlookup
  · have hknows := hopens _ (closed_trivial s.2) (knows_trivial s.2)
    rw [hknows.buffers] at hlookup
    exact Nat.lt_of_lt_of_le (h container source hlookup) hknows.sources

theorem numbered_events {s : Connection × Resolver} (h : s.2.Numbered) (events : List Event) :
    (Connection.run events s).2.Numbered := by
  induction events generalizing s with
  | nil => exact h
  | cons event events ih => exact ih (numbered_event h event)

theorem numbered_new (directory : String) (outside : Surroundings) :
    (new directory outside).Numbered := fun _ _ hlookup =>
  absurd hlookup (by simp only [new, List.lookup_nil, reduceCtorEq, not_false_eq_true])

/-- A resolver with only grounded handles, and a handle below the root of a buffer. -/
structure OnTrack (container : String) (source : Source) (r : Resolver) (h : Handle) : Prop where
  upholds : Upholds Named Grounded r
  memory : memoryScheme.toList.isPrefixOf container.toList
  known : r.buffers.lookup container = some source
  identity : h.archive.window.identity = container
  read : ReadFrom source h

variable {container : String} {source : Source} {r s t : Resolver} {h inner : Handle}

/-- What is kept under a known buffer is on track. -/
theorem onTrack_of_kept (hupholds : Upholds Named Grounded r)
    (hmemory : memoryScheme.toList.isPrefixOf container.toList)
    (hknown : r.buffers.lookup container = some source) {key : CacheKey}
    (hkey : key.identity = container) (hget : r.cache.get? key = some h) :
    OnTrack container source r h := by
  subst hkey
  have hgrounded := hupholds.knows.kept key h hget
  rcases hgrounded.buffer hmemory with ⟨other, hlookup, hread⟩
  obtain rfl : other = source := Option.some.inj (hlookup.symm.trans hknown)
  exact ⟨hupholds, hmemory, hknown, hgrounded.identity, hread⟩

/-- It is read as it was opened, whatever becomes of the resolver. -/
theorem OnTrack.present (htrack : OnTrack container source r h) (s : Resolver) :
    s.present h = h.archive := present_of_buffer s htrack.read.address

/-- Where the entry is that the name is of, the next level is kept after the step, from
    whichever names it was opened. -/
theorem OnTrack.step {name : Bytes} (htrack : OnTrack container source r h)
    (hopen : openNested h name r = .ok inner t) :
    ∃ data, h.archive.nestedSource name = { outcome := .ok data, fetched := LocalHeader.length } ∧
      t.cache.get? data.key = some inner ∧ inner.source = h.source ∧ Extends r t ∧
      OnTrack container source t inner := by
  have hpresent := htrack.present r
  rcases openNested_eq_ok hpresent hopen with ⟨data, hdata, houtside, hbuffers, hcase⟩
  -- It was kept there, or it has just been opened there, and this one is answered.
  have hkept : t.cache.get? data.key = some inner ∧ Extends r t := by
    rcases hcase with ⟨hget, hcache⟩ | ⟨hnone, hcache, _⟩
    · rw [hcache]
      exact ⟨hget, houtside, hbuffers, fun key k hk => by rw [hcache]; exact hk⟩
    · refine ⟨?_, .of_insert houtside hbuffers hnone hcache⟩
      rw [hcache, Cache.get?_insert, if_pos rfl]
  -- Opening keeps all handles grounded, the next level among them, wherever it is from.
  have hparent : Grounded r.buffers ⟨container, 0⟩ h :=
    ⟨htrack.identity, fun _ => ⟨source, htrack.known, htrack.read⟩⟩
  have hstep := preserves_openNested (grounded_closed htrack.upholds.order) ⟨_, hparent⟩ name r
    htrack.upholds.knows
  rw [hopen] at hstep
  have hidentity : data.identity = container :=
    (identity_of_nestedSource (r := r) (by rw [hpresent]; exact hdata)).trans htrack.identity
  have hnext := onTrack_of_kept (htrack.upholds.of_knows hstep.1) htrack.memory
    (hbuffers ▸ htrack.known) hidentity hkept.1
  exact ⟨data, Archive.nestedSource_eq htrack.read.intact hdata, hkept.1,
    hnext.read.source.trans htrack.read.source.symm, hkept.2, hnext⟩

/-- A root in a known buffer that is answered is on track, and kept as it is written. -/
theorem onTrack_of_openRoot (hupholds : Upholds Named Grounded r)
    (hmemory : memoryScheme.toList.isPrefixOf container.toList)
    (hknown : r.buffers.lookup container = some source)
    (hopen : openRoot container r = .ok h t) :
    t.cache.get? { identity := container, offset := 0 } = some h ∧
      OnTrack container source t h := by
  have hstep := preserves_openRoot (grounded_closed hupholds.order) container r hupholds.knows
  rw [hopen] at hstep
  have hkept : t.cache.get? { identity := container, offset := 0 } = some h := by
    rw [openRoot_apply] at hopen
    rcases hget : r.cache.get? { identity := container, offset := 0 } with _ | kept
    · -- The source of the buffer has the name of the root, so it is kept under that.
      rw [hget] at hopen
      simp only at hopen
      rw [Resolving.bind_of_ok (openSource_of_known hmemory hknown),
        (hupholds.order container source hknown).1] at hopen
      rcases keep_eq_ok hopen with ⟨_, _, ⟨hkept, hcache⟩ | ⟨_, hcache, _⟩⟩
      · rw [hcache]
        exact hkept
      · rw [hcache, Cache.get?_insert, if_pos rfl]
    · rw [hget] at hopen
      rcases hopen with ⟨⟩
      exact hget
  -- What is kept under the name of the buffer lies in it.
  exact ⟨hkept, onTrack_of_kept (hupholds.of_knows hstep.1) hmemory
    (hstep.1.buffers ▸ hknown) rfl hkept⟩

/-- What a resolution below a known buffer leaves behind: the root is kept as it is
    written, and from it a trail leads to the archive that is answered. -/
theorem trail_of_resolve {l : Locator} (hupholds : Upholds Named Grounded r)
    (hmemory : memoryScheme.toList.isPrefixOf l.root.toList)
    (hknown : r.buffers.lookup l.root = some source) (hresolve : resolve l r = .ok h s) :
    ∃ root : Handle, s.cache.get? { identity := l.root, offset := 0 } = some root ∧
      Trail s root l.archives h ∧ OnTrack l.root source s h := by
  unfold resolve at hresolve
  rcases Resolving.bind_eq_ok_iff.mp hresolve with ⟨root, t, hroot, hnames⟩
  rcases onTrack_of_openRoot hupholds hmemory hknown hroot with ⟨hkept, htrack⟩
  rcases trail_of_steps (fun r _ h => OnTrack l.root source r h)
    (fun {_ s _ _} htrack _ => htrack.present s) OnTrack.step [] htrack hnames with
    ⟨htrail, hextended, hlast⟩
  exact ⟨root, hextended.kept _ _ hkept, htrail, hlast⟩

/-- What is fetched from a source is counted there and nowhere else. -/
theorem fetchedFrom_fetching {number : Nat} (hnumber : number < s.fetched.size)
    (count other : Nat) :
    (s.fetching number count).fetchedFrom other =
      s.fetchedFrom other + if other = number then count else 0 := by
  unfold fetchedFrom fetching
  rw [Array.getD_eq_getD_getElem?, Array.getD_eq_getD_getElem?, Array.getElem?_modify]
  by_cases hsame : number = other
  · subst hsame
    rw [if_pos rfl, if_pos rfl, Array.getElem?_eq_getElem hnumber]
    rfl
  · rw [if_neg hsame, if_neg (Ne.symm hsame), Nat.add_zero]

/-- Whatever the resolver was asked before, and whatever it has dropped since, if a
    locator of a known buffer is resolved, then resolving it once more answers the
    same handle. Nothing is opened, kept or dropped by that. What has changed is that
    one local header for each nested archive was fetched from the buffer. -/
theorem resolve_twice (directory : String) (outside : Surroundings)
    (c : Connection) (events : List Event) (l : Locator) (name : String) (source : Source)
    (h : Handle) (s : Resolver) :
    let r := (Connection.run events (c, new directory outside)).2
    let t := { s with fetched := s.fetched.modify source.number (· + 30 * l.depth) }
    l.root = memoryScheme ++ name → r.buffers.lookup l.root = some source →
    resolve l r = .ok h s →
    resolve l s = .ok h t ∧
      ∀ number, t.fetchedFrom number =
        s.fetchedFrom number + if number = source.number then 30 * l.depth else 0 := by
  intro r t hroot hknown hresolve
  have hupholds : Upholds Named Grounded r := grounded_run directory outside c events
  have hnumbered : r.Numbered := numbered_events (numbered_new directory outside) events
  have hmemory : memoryScheme.toList.isPrefixOf l.root.toList := by
    rw [hroot]
    exact memory_prefix name
  rcases trail_of_resolve hupholds hmemory hknown hresolve with ⟨root, hkept, htrail, htrack⟩
  have hcost : l.archives.length * LocalHeader.length = 30 * l.depth := Nat.mul_comm _ _
  -- No source is lost on the way, so the counter of the buffer is there.
  have hstep := preserves_resolve (grounded_closed hupholds.order) l r hupholds.knows
  rw [hresolve] at hstep
  have hnumber : source.number < s.fetched.size :=
    Nat.lt_of_lt_of_le (hnumbered _ _ hknown) hstep.1.sources
  refine ⟨?_, fetchedFrom_fetching hnumber _⟩
  have hagain := resolve_again hkept htrail l.entry
  rw [htrack.read.source, hcost] at hagain
  exact hagain

/-- An archive inside a buffer that was opened before, while the buffer itself has to be
    opened again. -/
theorem resolve_twice_nest :
    let l := Locator.ofArchivePath "mem:app" [[0x62]]
    let events : List Event := [.other (.register "app" ⟨(nest [7]).bytes.toArray⟩),
      .other (.resolve l), .other (.evict { identity := "mem:app", offset := 0 })]
    let r := (Connection.run events ({ locator := l }, new "lib/" {})).2
    l.root = memoryScheme ++ "app" ∧ r.cache.size = 1 ∧
    ∃ source h s, r.buffers.lookup l.root = some source ∧ resolve l r = .ok h s ∧
      resolve l s = .ok h { s with fetched := s.fetched.modify source.number (· + 30) } := by
  intro l events r
  have hroot : l.root = memoryScheme ++ "app" := rfl
  have hkept : r.cache.size = 1 := by decide +kernel
  have hbuffers : r.buffers = (register (new "lib/" {}) "app"
      ⟨(nest [7]).bytes.toArray⟩).2.buffers := buffers_after_resolve l _
  have hlookup := lookup_register (new "lib/" {}) "app"
    ⟨(nest [7]).bytes.toArray⟩ l.root
  rw [← hbuffers, if_pos hroot] at hlookup
  have hanswer : (Resolving.answer (resolve l) r).map (fun a => a.window.offset) = .ok 31 := by
    decide +kernel
  rcases Resolving.of_answer hanswer with ⟨h, s, hresolve, _⟩
  exact ⟨hroot, hkept, _, h, s, hlookup, hresolve,
    (resolve_twice "lib/" _ { locator := l } events l "app" _ h s hroot hlookup hresolve).1⟩

end Resolver

end NestedZip
