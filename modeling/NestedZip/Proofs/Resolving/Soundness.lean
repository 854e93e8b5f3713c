import NestedZip.Proofs.Packing.RoundTrip
import NestedZip.Proofs.Resolving.Opening

/-!
# What Is Kept Is True

Over every history, what a resolver keeps is what would be found now.

A handle is opened once and answered many times, and in between buffers are
replaced, walks fail half way, and connections hold on to handles that the
resolver dropped long ago. `Sound` says what a handle must still be worth: it
is on the place that it is kept under, its directory is what indexing that
place brings now, and a buffer that it reads from is the one that is known now.
Handles are walked to (`Walked`), and whatever a walk from a known source leads
to has all of these.

Replacing a buffer needs a second thought. Equal bytes would hide a handle on
the old buffer, so the sources themselves are told apart, by their numbers. A
source that is opened gets a number that no source had before, so all that a
later resolution reads from has a number that the old buffer cannot have.

## Main definitions

* `Resolver.Sound`: A handle that is worth what it was.
* `Resolver.Gives`: A handle that is asked for from now on.
* `Resolver.Numbered`, `Resolver.Newer`: When the known buffers were opened.

## Theorems

* `Resolver.sound_of_walked`: What a walk leads to is sound.
* `Resolver.newer_play`: A buffer that was replaced does not come back.
* `Resolver.kept_sound`: All that is kept and given is sound, over every history.
-/

namespace NestedZip

/-- An archive that was indexed where it is. -/
structure Archive.Indexed (a : Archive) : Prop where
  plain : a.window.isCompressed = false
  index : (Index.parse a.window).outcome = .ok a.index

namespace Archive

theorem indexed_ofWindow {w : Window} {container : String} {a : Archive}
    (h : (ofWindow w container).outcome = .ok a) : a.Indexed := by
  rcases ofWindow_eq_ok h with ⟨hw, _, hindex, hwindow, _⟩
  subst hwindow
  refine ⟨?_, hindex⟩
  rw [Window.isCompressed, hw.plain, Option.isSome_none]

/-- Every archive that is reached through its names has the index of its own bytes. -/
theorem indexed_descend {a b : Archive} {names : List Bytes} (ha : a.Indexed)
    (h : (a.descend names).outcome = .ok b) : b.Indexed := by
  induction names generalizing a with
  | nil =>
      rw [← Except.ok.inj h]
      exact ha
  | cons name names ih =>
      rcases descend_cons_eq_ok_iff.mp h with ⟨inner, hnested, hnames⟩
      rcases nestedArchive_eq_ok_iff.mp hnested with ⟨data, _, hinner⟩
      exact ih (indexed_ofWindow hinner) hnames

theorem indexed_walk {source : Backing} {names : List Bytes} {a : Archive}
    (h : (walk source names).outcome = .ok a) : a.Indexed := by
  rcases Metered.bind_outcome_eq_ok_iff.mp h with ⟨root, hroot, hnames⟩
  exact indexed_descend (indexed_ofWindow hroot) hnames

end Archive

namespace Resolver

/-- A handle that is on the place it is kept under, with the directory that is
    found there now. A buffer that it reads from is known now. -/
structure Sound (r : Resolver) (key : CacheKey) (h : Handle) : Prop where
  identity : (r.present h).window.identity = key.identity
  offset : (r.present h).window.offset = key.offset
  plain : (r.present h).window.isCompressed = false
  index : (Index.parse (r.present h).window).outcome = .ok h.archive.index
  current : ∀ name, key.identity = memoryScheme ++ name →
    ∃ source, r.buffers.lookup key.identity = some source ∧ h.source = source.number ∧
      (r.present h).window.backing = source.backing

/-- A handle that is given from now on, directly or by a connection that was not
    connected before. -/
inductive Gives (r : Resolver) : Handle → Resolver → Prop
  | openRoot {container : String} {h : Handle} {s : Resolver} :
      Resolver.openRoot container r = .ok h s → Gives r h s
  | resolve {l : Locator} {h : Handle} {s : Resolver} :
      Resolver.resolve l r = .ok h s → Gives r h s
  | connect {l : Locator} {t : Connection.Target} {c : Connection} {s : Resolver} :
      Connection.target ({ locator := l }, r) = .ok t (c, s) → Gives r t.handle s

/-- A handle that was reached by a walk from a source is sound. -/
theorem sound_of_walked {r : Resolver} (hnamed : Named r.buffers) {key : CacheKey} {h : Handle}
    (hh : Walked r.outside r.buffers key h) : Sound r key h := by
  have hpresent := present_of_walked hnamed hh rfl
  rcases hh.walk with ⟨container, source, names, hopens, hwalk, hnumber, _⟩
  have hindexed := Archive.indexed_walk hwalk
  have hbacking := (Archive.walk_inside hwalk).1
  have hidentity := hh.identity hwalk
  refine ⟨?_, ?_, ?_, ?_, fun name hname => ?_⟩
  · rw [hpresent, hh.key]
    rfl
  · rw [hpresent, hh.key]
    rfl
  · rw [hpresent]
    exact hindexed.plain
  · rw [hpresent]
    exact hindexed.index
  · rw [hpresent]
    cases hopens with
    | buffer _ hlookup =>
        have hcontainer := (hnamed container source hlookup).1
        exact ⟨source, by rw [hidentity, hcontainer, hlookup], hnumber, hbacking⟩
    | found number _ _ _ =>
        -- Nothing outside has the name of a buffer.
        have hmemory := memory_prefix name
        rw [← hname, hidentity] at hmemory
        exact absurd hmemory (not_memory_outside _ _)

/-- What is given was walked to as well, and the resolver has only opened archives. -/
theorem walked_of_gives {r s : Resolver} (hr : r.Faithful) {h : Handle} (hgives : Gives r h s) :
    Knows r (Walked r.outside r.buffers) s ∧ ∃ key, Walked r.outside r.buffers key h := by
  have hclosed := walked_closed hr.order
  cases hgives with
  | @openRoot container _ _ hopen =>
      -- Whichever way the handle was given, the step that gave it keeps what is known.
      have hstep := preserves_openRoot hclosed container r hr.knows
      rw [hopen] at hstep
      exact hstep
  | @resolve l _ _ hresolve =>
      have hstep := preserves_resolve hclosed l r hr.knows
      rw [hresolve] at hstep
      exact hstep
  | @connect l t c _ htarget =>
      have hstep := Connection.preserves_locate hclosed l r hr.knows
      rcases hlocate : Connection.locate l r with ⟨found, s'⟩ | ⟨e, s'⟩
      · rw [hlocate] at hstep
        rw [Connection.target_of_ok hlocate] at htarget
        cases htarget
        exact hstep
      · rw [Connection.target_of_error hlocate] at htarget
        cases htarget

theorem sound_of_gives {r s : Resolver} (hr : r.Faithful) {h : Handle} (hgives : Gives r h s) :
    Sound s h.archive.key h := by
  rcases walked_of_gives hr hgives with ⟨hknows, key, hwalked⟩
  have hkey := hwalked.key
  subst hkey
  rw [← hknows.outside, ← hknows.buffers] at hwalked
  exact sound_of_walked (by rw [hknows.buffers]; exact hr.order) hwalked

/-- An action registers a buffer, or it leaves the buffers and loses no source. -/
theorem register_or_same (action : Action) (r : Resolver) :
    (∃ name content, action.run r = (r.register name content).2 ∧
      action = .register name content) ∨
    (action.run r).buffers = r.buffers ∧ r.fetched.size ≤ (action.run r).fetched.size := by
  refine (register_or_knows action r).imp_right fun hopens => ?_
  have hknows := hopens _ (closed_trivial r) (knows_trivial r)
  exact ⟨hknows.buffers, hknows.sources⟩

theorem size_register (r : Resolver) (name : String) (content : ByteArray) :
    (r.register name content).2.fetched.size = r.fetched.size + 1 := Array.size_push _

theorem size_run (action : Action) (r : Resolver) :
    r.fetched.size ≤ (action.run r).fetched.size := by
  rcases register_or_same action r with ⟨name, content, hrun, _⟩ | ⟨_, hsize⟩
  · rw [hrun, size_register]
    exact Nat.le_succ _
  · exact hsize

/-- A buffer that is known after an action was known before, or it has the number of
    a source that there was not before. -/
theorem lookup_run {action : Action} {r : Resolver} {container : String} {source : Source}
    (h : (action.run r).buffers.lookup container = some source) :
    r.buffers.lookup container = some source ∨
      r.fetched.size ≤ source.number ∧ source.number < (action.run r).fetched.size := by
  rcases register_or_same action r with ⟨name, content, hrun, _⟩ | ⟨hbuffers, _⟩
  · rw [hrun, lookup_register] at h
    by_cases hcontainer : container = memoryScheme ++ name
    · rw [if_pos hcontainer, Option.some.injEq] at h
      subst h
      -- The new source has the number next in turn.
      rw [hrun, size_register]
      exact Or.inr ⟨Nat.le_refl _, Nat.lt_succ_self _⟩
    · rw [if_neg hcontainer] at h
      exact Or.inl h
  · rw [hbuffers] at h
    exact Or.inl h

/-- The buffers are among the sources so far. -/
def Numbered (r : Resolver) : Prop :=
  ∀ container source, r.buffers.lookup container = some source → source.number < r.fetched.size

theorem numbered_run {r : Resolver} (h : r.Numbered) (action : Action) :
    (action.run r).Numbered := by
  intro container source hlookup
  rcases lookup_run hlookup with hbefore | ⟨_, hnew⟩
  · exact Nat.lt_of_lt_of_le (h container source hbefore) (size_run action r)
  · exact hnew

theorem numbered_play {r : Resolver} (h : r.Numbered) (actions : List Action) :
    (play actions r).Numbered := by
  induction actions generalizing r with
  | nil => exact h
  | cons action actions ih => exact ih (numbered_run h action)

/-- There were `count` sources before, and the buffer of a name is not one of them. -/
structure Newer (count : Nat) (container : String) (r : Resolver) : Prop where
  size : count ≤ r.fetched.size
  number : ∀ source, r.buffers.lookup container = some source → count ≤ source.number

theorem newer_run {count : Nat} {container : String} {r : Resolver} (h : Newer count container r)
    (action : Action) : Newer count container (action.run r) := by
  refine ⟨Nat.le_trans h.size (size_run action r), fun source hlookup => ?_⟩
  rcases lookup_run hlookup with hbefore | ⟨hnew, _⟩
  · exact h.number source hbefore
  · exact Nat.le_trans h.size hnew

theorem newer_play {count : Nat} {container : String} {r : Resolver} (h : Newer count container r)
    (actions : List Action) : Newer count container (play actions r) := by
  induction actions generalizing r with
  | nil => exact h
  | cons action actions ih => exact ih (newer_run h action)

theorem newer_register (r : Resolver) (name : String) (content : ByteArray) :
    Newer r.fetched.size (memoryScheme ++ name) (r.register name content).2 := by
  refine ⟨by rw [size_register]; omega, fun source hlookup => ?_⟩
  rw [lookup_register, if_pos rfl, Option.some.injEq] at hlookup
  rw [← hlookup]

/-- A buffer stays known until one is registered under its name. -/
theorem lookup_play {name : String} {actions : List Action}
    (hactions : ∀ content, .register name content ∉ actions) (r : Resolver) :
    (play actions r).buffers.lookup (memoryScheme ++ name) =
      r.buffers.lookup (memoryScheme ++ name) := by
  induction actions generalizing r with
  | nil => rfl
  | cons action actions ih =>
      have hrest : ∀ content, .register name content ∉ actions :=
        fun content hmem => hactions content (List.mem_cons_of_mem _ hmem)
      refine (ih hrest (action.run r)).trans ?_
      rcases register_or_same action r with ⟨other, content, hrun, rfl⟩ | ⟨hbuffers, _⟩
      · rw [hrun, lookup_register, if_neg]
        -- Another name is bound, so this one is looked up as before.
        intro hsame
        rw [String.append_right_inj] at hsame
        subst hsame
        exact hactions content List.mem_cons_self
      · rw [hbuffers]

theorem play_append (first rest : List Action) (r : Resolver) :
    play (first ++ rest) r = play rest (play first r) := List.foldl_append

/-- Over every history, all that is kept and all that is given is sound. After a
    buffer was replaced, nothing that is given reads from the old one, at any depth
    and whatever bytes the two have, and as long as the name is not taken again it
    reads from the new one. -/
theorem kept_sound (directory : String) (outside : Surroundings)
    (actions : List Action) :
    let r := play actions (new directory outside)
    (∀ key h, r.cache.get? key = some h → Sound r key h) ∧
    (∀ h s, Gives r h s → Sound s h.archive.key h) ∧
    ∀ (name : String) (content : ByteArray) (later : List Action) (h : Handle) (s : Resolver),
      let t := play later (r.register name content).2
      Gives t h s → h.archive.window.identity = memoryScheme ++ name →
      Sound s h.archive.key h ∧
      (∀ old, r.buffers.lookup (memoryScheme ++ name) = some old → h.source ≠ old.number) ∧
      ((∀ other, .register name other ∉ later) →
        (s.present h).window.backing = .memory name content) := by
  intro r
  have hfaithful := (faithful_play directory outside actions).2
  refine ⟨fun key h hget => ?_, fun h s hgives => sound_of_gives hfaithful hgives, ?_⟩
  · exact sound_of_walked hfaithful.order (hfaithful.knows.kept key h hget)
  intro name content later h s t hgives hidentity
  -- What comes later is one more history.
  have hlater : t.Faithful := by
    have hplay := (faithful_play directory outside (actions ++ .register name content :: later)).2
    rw [play_append] at hplay
    exact hplay
  have hsound := sound_of_gives hlater hgives
  have hbuffers := (walked_of_gives hlater hgives).1.buffers
  rcases hsound.current name hidentity with ⟨source, hlookup, hnumber, hbacking⟩
  have hkey : h.archive.key.identity = memoryScheme ++ name := hidentity
  rw [hkey, hbuffers] at hlookup
  refine ⟨hsound, fun old hold => ?_, fun hkept => ?_⟩
  · -- The old buffer was opened before the new one was registered, and this one after.
    have hnew := (newer_play (newer_register r name content) later).number source hlookup
    have hnumbered : r.Numbered := numbered_play (fun container source hnone =>
      absurd hnone (by simp only [new, List.lookup_nil, reduceCtorEq, not_false_eq_true])) actions
    have holder := hnumbered _ _ hold
    omega
  · rw [lookup_play hkept, lookup_register, if_pos rfl, Option.some.injEq] at hlookup
    rw [hbacking, ← hlookup]

/-- An archive `b` with one file `a`. -/
def nest (content : Bytes) : Node :=
  .archive [(Node.plainLabel [0x62], .archive [(Node.plainLabel [0x61], .file content)])]

/-- A buffer replaced by one of the same layout, while an archive inside the old one
    is kept. -/
theorem kept_sound_nest :
    let old : ByteArray := ⟨(nest [7]).bytes.toArray⟩
    let content : ByteArray := ⟨(nest [9]).bytes.toArray⟩
    let l := Locator.ofArchivePath "mem:app" [[0x62]]
    let r := play [.register "app" old, .resolve l] (new "lib/" {})
    let t := play [] (r.register "app" content).2
    old.size = content.size ∧ r.cache.size = 2 ∧ ∃ h s, Gives t h s ∧
      h.archive.window.identity = memoryScheme ++ "app" ∧ Sound s h.archive.key h ∧
      (s.present h).window.backing = .memory "app" content := by
  intro old content l r t
  have hsize : old.size = content.size := by decide +kernel
  have hkept : r.cache.size = 2 := by decide +kernel
  have hanswer : (Resolving.answer (resolve l) t).map (fun a => a.window.identity) =
      .ok "mem:app" := by decide +kernel
  rcases Resolving.of_answer hanswer with ⟨h, s, hresolve, hidentity⟩
  rcases (kept_sound "lib/" _ [.register "app" old, .resolve l]).2.2 "app" content [] h s
    (.resolve hresolve) hidentity with ⟨hsound, _, hbacking⟩
  exact ⟨hsize, hkept, h, s, .resolve hresolve, hidentity, hsound,
    hbacking fun other => List.not_mem_nil⟩

end Resolver

end NestedZip
