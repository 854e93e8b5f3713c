import Mathlib.Data.List.Infix
import Mathlib.Data.List.Nodup
import NestedZip.Proofs.InPlace.Archive
import NestedZip.Proofs.Resolving.History

/-!
# Walking Without Keeping

What the archives that a resolver keeps are, said without the resolver.

A locator names a source and then one entry after the other. Opening the whole
source and then each entry in the archive before is a walk. It needs no cache,
and where it leads depends on the bytes of the source alone. Every handle that
a resolver keeps, whatever it was asked so far, is on an archive that some walk
leads to, from a source as it is known now. This is the invariant of all
histories: what is opened is walked to, and replacing a buffer drops all that
was walked to in it.

A walk moves forward. An entry has its local header in front of its data, so a
nested archive starts behind the start of the one around it, however hostile
the declared places are. No two archives on one walk start at the same place.

## Main definitions

* `Archive.walk`: The archive that names lead to in a source.
* `Archive.key`: What an archive is kept under.
* `Archive.levels`: The archives that are opened along some names.
* `Resolver.Walked`: A handle on an archive that a walk leads to.
* `Resolver.Faithful`: A resolver that keeps only such handles.

## Theorems

* `Archive.nestedArchive_inside`: A nested archive starts behind the one around it.
* `Archive.keys_nodup`: The archives along some names have different keys.
* `Resolver.present_of_walked`: A handle that was walked to is read as it was opened.
* `Resolver.walked_closed`, `Resolver.walked_register`: Opening and registering keep
  the invariant.
* `Resolver.faithful_play`: Over every history, all that is kept is walked to.
-/

namespace NestedZip

/-- Bytes that have not changed are read as before. -/
theorem Window.rereading_same {w : Window} {content : ByteArray} (h : w.backing.content = content) :
    w.rereading content = w := by
  subst h
  rfl

namespace Archive

variable {a b inner : Archive} {name : Bytes} {names front rest : List Bytes}

/-- The archive that names lead to, from the whole of a source on. -/
def walk (source : Backing) (names : List Bytes) : Metered Error Archive := do
  (← ofBacking source).descend names

/-- What an archive is kept under: its source, and where it starts there. -/
def key (a : Archive) : CacheKey := { identity := a.window.identity, offset := a.window.offset }

/-- The archives that are opened along some names, as far as that goes. -/
def levels (a : Archive) (names : List Bytes) : List Archive :=
  names.inits.filterMap fun path => (a.descend path).outcome.toOption

theorem descend_cons_of_ok (h : (a.nestedArchive name).outcome = .ok inner) :
    (a.descend (name :: names)).outcome = (inner.descend names).outcome := by
  unfold descend
  rw [List.foldlM_cons, Metered.bind_of_ok h]

theorem descend_cons_of_error {e : Error} (h : (a.nestedArchive name).outcome = .error e) :
    (a.descend (name :: names)).outcome = .error e := by
  unfold descend
  rw [List.foldlM_cons, Metered.bind_of_error h]

/-- Names that lead somewhere lead there by way of the first of them. -/
theorem descend_cons_eq_ok_iff :
    (a.descend (name :: names)).outcome = .ok b ↔
      ∃ inner, (a.nestedArchive name).outcome = .ok inner ∧
        (inner.descend names).outcome = .ok b := by
  unfold descend
  rw [List.foldlM_cons]
  exact Metered.bind_outcome_eq_ok_iff

theorem descend_append_of_ok (h : (a.descend front).outcome = .ok b) :
    (a.descend (front ++ rest)).outcome = (b.descend rest).outcome := by
  unfold descend at h ⊢
  rw [List.foldlM_append, Metered.bind_of_ok h]

theorem walk_of_ok {source : Backing} (h : (ofBacking source).outcome = .ok a)
    (names : List Bytes) : (walk source names).outcome = (a.descend names).outcome := by
  unfold walk
  rw [Metered.bind_of_ok h]

theorem walk_of_error {source : Backing} {e : Error} (h : (ofBacking source).outcome = .error e)
    (names : List Bytes) : (walk source names).outcome = .error e := by
  unfold walk
  rw [Metered.bind_of_error h]

theorem walk_append_of_ok {source : Backing} (h : (walk source front).outcome = .ok a) :
    (walk source (front ++ rest)).outcome = (a.descend rest).outcome := by
  rcases Metered.bind_outcome_eq_ok_iff.mp h with ⟨root, hroot, hfront⟩
  rw [walk_of_ok hroot]
  exact descend_append_of_ok hfront

theorem descend_singleton (a : Archive) (name : Bytes) :
    (a.descend [name]).outcome = (a.nestedArchive name).outcome := by
  rcases hnested : (a.nestedArchive name).outcome with e | inner
  · exact descend_cons_of_error hnested
  · exact descend_cons_of_ok hnested

theorem nestedArchive_eq_ok_iff :
    (a.nestedArchive name).outcome = .ok inner ↔
      ∃ data, (a.nestedSource name).outcome = .ok data ∧
        (ofWindow data (a.entryUrl name)).outcome = .ok inner :=
  Metered.bind_outcome_eq_ok_iff

/-- A nested archive is in the same source, and starts behind the start of the one
    around it. -/
theorem nestedArchive_inside (h : (a.nestedArchive name).outcome = .ok inner) :
    inner.window.backing = a.window.backing ∧ a.window.offset < inner.window.offset := by
  rcases nestedArchive_eq_ok_iff.mp h with ⟨data, hdata, hinner⟩
  rcases nestedSource_eq_ok hdata with ⟨offset, length, hpositive, _, rfl⟩
  rw [(ofWindow_eq_ok hinner).2.2.2.1]
  exact ⟨rfl, Nat.lt_add_of_pos_right hpositive⟩

/-- Only an entry leads further down. -/
theorem name_mem_entries (h : (a.nestedArchive name).outcome = .ok inner) :
    name ∈ a.entries.map Entry.name := by
  rcases nestedArchive_eq_ok_iff.mp h with ⟨data, hdata, _⟩
  unfold nestedSource at hdata
  rcases hentry : a.entry? name with _ | e
  · rw [hentry] at hdata
    exact absurd hdata error_ne_ok
  · unfold entry? Index.find? at hentry
    have hname := List.find?_some hentry
    rw [beq_iff_eq] at hname
    exact List.mem_map.mpr ⟨e, List.mem_of_find?_eq_some hentry, hname⟩

/-- Every name leads on to the right, within the same backing. -/
theorem descend_inside (h : (a.descend names).outcome = .ok b) :
    b.window.backing = a.window.backing ∧ a.window.offset ≤ b.window.offset ∧
      (names ≠ [] → a.window.offset < b.window.offset) := by
  induction names generalizing a with
  | nil =>
      rw [show a = b from Except.ok.inj h]
      exact ⟨rfl, Nat.le_refl _, fun hne => absurd rfl hne⟩
  | cons name names ih =>
      rcases descend_cons_eq_ok_iff.mp h with ⟨inner, hnested, hnames⟩
      rcases nestedArchive_inside hnested with ⟨hbacking, hlt⟩
      rcases ih hnames with ⟨hrest, hle, _⟩
      exact ⟨hrest.trans hbacking, by omega, fun _ => by omega⟩

theorem ofBacking_eq_ok {source : Backing} (h : (ofBacking source).outcome = .ok a) :
    a.window = .whole source := (ofWindow_eq_ok h).2.2.2.1

/-- A walk stays in its source, and only the empty one ends at its start. -/
theorem walk_inside {source : Backing} (h : (walk source names).outcome = .ok a) :
    a.window.backing = source ∧ (a.window.offset = 0 ↔ names = []) := by
  rcases Metered.bind_outcome_eq_ok_iff.mp h with ⟨root, hroot, hnames⟩
  have hwindow := ofBacking_eq_ok hroot
  rcases descend_inside hnames with ⟨hbacking, _, hlt⟩
  refine ⟨by rw [hbacking, hwindow]; rfl, fun hzero => ?_, fun hnil => ?_⟩
  · by_contra hne
    have hpositive := hlt hne
    omega
  · subst hnil
    rw [← Except.ok.inj hnames, hwindow]
    rfl

/-- What is on the way of a walk is walked to, and has an entry for the next name. -/
theorem walk_on_the_way {source : Backing}
    (h : (walk source (front ++ name :: rest)).outcome = .ok b) :
    ∃ a, (walk source front).outcome = .ok a ∧ name ∈ a.entries.map Entry.name := by
  rcases Metered.bind_outcome_eq_ok_iff.mp h with ⟨root, hroot, hnames⟩
  rw [walk_of_ok hroot]
  clear h hroot
  -- From here on the source plays no part, and every archive is a root for what follows.
  induction front generalizing root with
  | nil =>
      rcases descend_cons_eq_ok_iff.mp hnames with ⟨inner, hnested, _⟩
      exact ⟨root, rfl, name_mem_entries hnested⟩
  | cons first front ih =>
      rcases descend_cons_eq_ok_iff.mp hnames with ⟨inner, hnested, hrest⟩
      rw [descend_cons_of_ok hnested]
      exact ih inner hrest

theorem levels_cons (a : Archive) (name : Bytes) (names : List Bytes) :
    a.levels (name :: names) =
      a :: names.inits.filterMap fun path => (a.descend (name :: path)).outcome.toOption := by
  unfold levels
  rw [List.inits_cons, List.filterMap_cons, List.filterMap_map]
  rfl

/-- The archive itself comes first. -/
theorem levels_eq_cons (a : Archive) (names : List Bytes) :
    a.levels names = a :: (a.levels names).tail := by
  cases names with
  | nil => rfl
  | cons name names => rw [levels_cons, List.tail_cons]

theorem levels_cons_of_ok (h : (a.nestedArchive name).outcome = .ok inner) :
    a.levels (name :: names) = a :: inner.levels names := by
  rw [levels_cons]
  refine congrArg (a :: ·) (List.filterMap_congr fun path _ => ?_)
  exact congrArg Except.toOption (descend_cons_of_ok h)

theorem levels_cons_of_error {e : Error} (h : (a.nestedArchive name).outcome = .error e) :
    a.levels (name :: names) = [a] := by
  rw [levels_cons]
  refine congrArg (a :: ·) (List.filterMap_eq_nil_iff.mpr fun path _ => ?_)
  exact congrArg Except.toOption (descend_cons_of_error h)

/-- Along names that lead somewhere, every level is opened. -/
theorem length_levels (h : (a.descend names).outcome = .ok b) :
    (a.levels names).length = names.length + 1 := by
  induction names generalizing a with
  | nil => rfl
  | cons name names ih =>
      rcases descend_cons_eq_ok_iff.mp h with ⟨inner, hnested, hnames⟩
      rw [levels_cons_of_ok hnested, List.length_cons, ih hnames, List.length_cons]

/-- The levels of a walk are those below its root, -/
theorem filterMap_walk_of_ok {source : Backing} (h : (ofBacking source).outcome = .ok a)
    (names : List Bytes) :
    (names.inits.filterMap fun path => (walk source path).outcome.toOption) = a.levels names :=
  List.filterMap_congr fun path _ => congrArg Except.toOption (walk_of_ok h path)

/-- and without a root there are none. -/
theorem filterMap_walk_of_error {source : Backing} {e : Error}
    (h : (ofBacking source).outcome = .error e) (names : List Bytes) :
    (names.inits.filterMap fun path => (walk source path).outcome.toOption) = [] :=
  List.filterMap_eq_nil_iff.mpr fun path _ => congrArg Except.toOption (walk_of_error h path)

/-- All archives further down start behind the first one. -/
theorem le_of_mem_levels (h : b ∈ a.levels names) : a.window.offset ≤ b.window.offset := by
  rcases List.mem_filterMap.mp h with ⟨path, _, hpath⟩
  rcases houtcome : (a.descend path).outcome with e | c
  · rw [houtcome] at hpath
    exact absurd hpath (by simp only [Except.toOption, reduceCtorEq, not_false_eq_true])
  · rw [houtcome, Except.toOption, Option.some.injEq] at hpath
    subst hpath
    exact (descend_inside houtcome).2.1

theorem keys_nodup (a : Archive) (names : List Bytes) : ((a.levels names).map key).Nodup := by
  induction names generalizing a with
  | nil => exact List.nodup_singleton _
  | cons name names ih =>
      rcases hnested : (a.nestedArchive name).outcome with e | inner
      · rw [levels_cons_of_error hnested]
        exact List.nodup_singleton _
      · rw [levels_cons_of_ok hnested, List.map_cons, List.nodup_cons]
        refine ⟨fun hmem => ?_, ih inner⟩
        -- All that follows starts behind the nested archive, and that behind this one.
        rcases List.mem_map.mp hmem with ⟨b, hb, hkey⟩
        have hoffset : b.window.offset = a.window.offset := congrArg CacheKey.offset hkey
        have hle := le_of_mem_levels hb
        have hlt := (nestedArchive_inside hnested).2
        omega

end Archive

namespace Resolver

/-- A handle that is kept where its archive is, and a walk leads to that archive
    from a source that a root names. -/
structure Walked (outside : Surroundings) (buffers : List (String × Source))
    (key : CacheKey) (h : Handle) : Prop where
  key : key = h.archive.key
  walk : ∃ (container : String) (source : Source) (names : List Bytes),
    Opens outside buffers container source ∧
    (Archive.walk source.backing names).outcome = .ok h.archive ∧
    h.source = source.number ∧ h.address = source.address

/-- A resolver that keeps only what walks lead to. -/
def Faithful (r : Resolver) : Prop := Upholds Named (Walked r.outside) r

variable {outside : Surroundings} {buffers : List (String × Source)}
  {key : CacheKey} {h : Handle}

/-- While all outside stays as it is, such a handle is read as it was opened. -/
theorem present_of_walked (hnamed : Named buffers) (hh : Walked outside buffers key h)
    {r : Resolver} (houtside : r.outside = outside) : r.present h = h.archive := by
  rcases hh.walk with ⟨container, source, names, hopens, hwalk, _, haddress⟩
  have hbacking := (Archive.walk_inside hwalk).1
  cases hopens with
  | buffer _ hlookup => exact present_of_buffer r (haddress.trans (hnamed _ _ hlookup).2)
  | @found number address content _ _ hcontent =>
      -- The source is read again, and what is read is what was there.
      have hsame : h.archive.window.rereading content = h.archive.window :=
        Window.rereading_same ((congrArg Backing.content hbacking).trans (content_backingAt _ _))
      simp only [present, haddress, Option.map_some, houtside, hcontent, hsame]

/-- What was walked to is kept under the name of its source. -/
theorem Walked.identity (hh : Walked outside buffers key h) {source : Backing} {names : List Bytes}
    (hwalk : (Archive.walk source names).outcome = .ok h.archive) :
    key.identity = source.identity := by
  rw [hh.key, Archive.key, Window.identity, (Archive.walk_inside hwalk).1]

/-- Whatever is opened is walked to. -/
theorem walked_closed {start : Resolver} (hnamed : Named start.buffers) :
    Closed start (Walked start.outside start.buffers) where
  root := by
    intro container source number a hopens ha
    have hwindow := Archive.ofBacking_eq_ok ha
    refine ⟨?_, container, source, [], hopens, Archive.walk_of_ok ha [], rfl, rfl⟩
    rw [Archive.key, hwindow]
    rfl
  nested := by
    intro key parent r name data number a hparent houtside hdata ha
    rw [present_of_walked hnamed hparent houtside] at hdata
    have hnested := Archive.nestedArchive_eq_ok_iff.mpr ⟨data, hdata, ha⟩
    rcases hparent.walk with ⟨container, source, names, hopens, hwalk, hsource, haddress⟩
    -- The walk goes on from where that of the parent ended.
    refine ⟨?_, container, source, names ++ [name], hopens, ?_, hsource, haddress⟩
    · rw [Archive.key, (Archive.ofWindow_eq_ok ha).2.2.2.1]
    · rw [Archive.walk_append_of_ok hwalk, Archive.descend_singleton]
      exact hnested

/-- Replacing a buffer drops just what walks in it led to. -/
theorem walked_register {r : Resolver} (h : Upholds Named (Walked outside) r) (name : String)
    (content : ByteArray) : Upholds Named (Walked outside) (r.register name content).2 := by
  refine ⟨named_register h.order name content, rfl, rfl, Nat.le_refl _, fun key handle hget => ?_⟩
  rcases get?_of_register hget with ⟨hkept, hunknown⟩
  have hwalked := h.knows.kept key handle hkept
  rcases hwalked.walk with ⟨container, source, names, hopens, hwalk, hrest⟩
  refine ⟨hwalked.key, container, source, names, ?_, hwalk, hrest⟩
  cases hopens with
  | buffer hmemory hlookup =>
      -- A buffer of which something is still kept is not the one that was replaced.
      have hidentity : key.identity = container :=
        (hwalked.identity hwalk).trans (h.order _ _ hlookup).1
      refine .buffer hmemory ?_
      rw [lookup_register, if_neg, hlookup]
      intro hname
      -- Only of a buffer that was not known before is something left.
      have hnone := hunknown (hidentity.trans hname)
      rw [hidentity, hlookup] at hnone
      exact absurd hnone (by simp only [reduceCtorEq, not_false_eq_true])
  | found number hmemory haddress hcontent => exact .found number hmemory haddress hcontent

/-- A resolver stays faithful over every history, and what is outside stays the same. -/
theorem faithful_play (directory : String) (outside : Surroundings)
    (actions : List Action) :
    (play actions (new directory outside)).outside = outside ∧
      (play actions (new directory outside)).Faithful := by
  have hclosed : ∀ {start : Resolver}, start.outside = outside → Named start.buffers →
      Closed start (Walked outside start.buffers) := by
    rintro start rfl hnamed
    exact walked_closed hnamed
  -- Nothing is kept yet, so all that is kept was walked to.
  have hnew : Upholds Named (Walked outside) (new directory outside) :=
    upholds_new directory outside named_nil
  rcases upholds_play hclosed (fun name content h => walked_register h name content) rfl hnew
    actions with ⟨houtside, hupholds⟩
  refine ⟨houtside, ?_⟩
  unfold Faithful
  rw [houtside]
  exact hupholds

end Resolver

end NestedZip
