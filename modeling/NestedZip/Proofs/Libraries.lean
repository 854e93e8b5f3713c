import Mathlib.Data.List.Infix
import NestedZip.Proofs.EntryData
import NestedZip.Proofs.Resolving.EntryUrl

/-!
# Libraries

Which entries are listed as libraries, and what opening one by its name then
brings.

The two go different ways. The list is made record by record: it leaves out what
the directory rules out and looks at the first bytes of the rest. A library is
opened by name, which first means finding a record of that name. A directory may
have several records of one name, of which an archive answers the first, so a
name that was listed for a later one leads to other data, or to none if the first
is compressed.

This is the only difference. Both filters agree on everything else, because a
record has its name, and so being a directory or not, in common with the first of
its name. Where names do not repeat, every library that is listed is opened as
just the window in which its first bytes were found.

## Main definitions

* `Entry.MayBeLibrary`, `Archive.IsLibrary`: What is looked at, and what is listed.
* `Archive.OpensByName`: Resolving the locator of an entry asks for its name.
* `Archive.librariesArchive`: An archive with two libraries of one name.

## Theorems

* `Archive.librariesAmong_eq_ok_iff`: What making the list comes to, by induction on
  the records.
* `Archive.nestedSource_of_entry`: What is opened for a name that an entry has.
* `Archive.libraries_exact`: What is listed, and what is opened for it.
* `Archive.libraries_of_one_name`: A listed library that is not opened by its name.
-/

namespace NestedZip

/-- By what the directory tells, the entry may be a library below `directory`. -/
structure Entry.MayBeLibrary (directory : Bytes) (e : Entry) : Prop where
  file : e.isDirectory = false
  stored : e.method = .stored
  below : directory <+: e.name
  room : 4 ≤ e.uncompressedSize

/-- However an opened archive is read now, it has the name it was opened with. -/
theorem Resolver.container_present (r : Resolver) (h : Handle) :
    (r.present h).container = h.archive.container := by
  unfold present
  split <;> rfl

namespace Archive

/-- The entry may be a library, and its data starts as that of an archive. -/
structure IsLibrary (a : Archive) (directory : Bytes) (e : Entry) : Prop
    extends e.MayBeLibrary directory where
  start : (a.window.bytes.drop (a.dataStart e)).take 4 = [0x50, 0x4B, 0x03, 0x04]

variable {a : Archive} {e first : Entry} {data w : Window} {directory : Bytes}

theorem mayBeLibrary_iff : mayBeLibrary directory e = true ↔ e.MayBeLibrary directory := by
  unfold mayBeLibrary
  rw [Bool.and_eq_true, Bool.and_eq_true, Bool.and_eq_true, decide_eq_true_iff,
    Bool.not_eq_true', beq_iff_eq, List.isPrefixOf_iff_prefix]
  exact ⟨fun ⟨⟨⟨hfile, hstored⟩, hbelow⟩, hroom⟩ => ⟨hfile, hstored, hbelow, hroom⟩,
    fun h => ⟨⟨⟨h.file, h.stored⟩, h.below⟩, h.room⟩⟩

instance (directory : Bytes) (e : Entry) : Decidable (e.MayBeLibrary directory) :=
  decidable_of_iff _ mayBeLibrary_iff

instance (a : Archive) (directory : Bytes) (e : Entry) : Decidable (a.IsLibrary directory e) :=
  decidable_of_iff
    (e.MayBeLibrary directory ∧
      (a.window.bytes.drop (a.dataStart e)).take 4 = [0x50, 0x4B, 0x03, 0x04])
    ⟨fun h => ⟨h.1, h.2⟩, fun h => ⟨h.toMayBeLibrary, h.start⟩⟩

/-- Data is only ever found behind a local header. -/
theorem dataOffset_eq_ok (hw : a.window.Intact) {offset : Nat}
    (h : (a.dataOffset e).outcome = .ok offset) : a.Headed e ∧ offset = a.dataStart e := by
  have hheaded : a.Headed e := by
    rcases Nat.lt_or_ge a.size (e.headerOffset + 30) with hout | hinside
    · exact absurd ((dataOffset_of_past hw hout).symm.trans h) error_ne_ok
    · refine ⟨hinside, ?_⟩
      by_contra hunsigned
      exact absurd ((dataOffset_of_unsigned hw hinside hunsigned).symm.trans h) error_ne_ok
  rw [dataOffset_of_headed hw hheaded] at h
  exact ⟨hheaded, (Except.ok.inj h).symm⟩

/-- What is found for an entry that may be a library starts with the bytes that stand
    where the data starts. -/
theorem take_recordData (hw : a.window.Intact) (hmay : e.MayBeLibrary directory)
    (hdata : (a.recordData e).outcome = .ok data) :
    data.bytes.take 4 = (a.window.bytes.drop (a.dataStart e)).take 4 := by
  obtain ⟨offset, hoffset, hfits, rfl, _⟩ := recordData_eq_ok hmay.stored hdata
  rw [(dataOffset_eq_ok hw hoffset).2] at hfits ⊢
  rw [Window.bytes_part _ _ _ hfits, List.take_take, Nat.min_eq_left hmay.room]

/-- The first bytes of data that is found are those that decide. -/
theorem startsAsArchive_of_ok (hw : a.window.Intact) (hmay : e.MayBeLibrary directory)
    (hdata : (a.recordData e).outcome = .ok data) :
    (a.startsAsArchive e).outcome = .ok (decide (a.IsLibrary directory e)) := by
  obtain ⟨hintact, hlength⟩ := intact_recordData hw hmay.stored hdata
  -- A library has at least the four bytes of a signature, so these can be read.
  have hroom : 0 + 4 ≤ data.length := by
    rw [hlength]
    exact hmay.room
  unfold startsAsArchive
  rw [Metered.bind_of_ok hdata, LocalHeader.signature, List.length_cons, List.length_cons,
    List.length_cons, List.length_cons, List.length_nil,
    Window.readExactAt_of_intact hintact 0 4 hroom, Metered.bind_of_ok rfl, List.drop_zero,
    take_recordData hw hmay hdata, Metered.outcome_pure, beq_eq_decide]
  refine congrArg Except.ok (decide_eq_decide.mpr ?_)
  exact ⟨fun h => ⟨hmay, h⟩, fun h => h.start⟩

/-- An entry that may be a library is looked at, which takes its data. -/
theorem librariesAmong_cons_eq_ok_iff (hw : a.window.Intact) (hmay : e.MayBeLibrary directory)
    {found out rest : List Entry} :
    (a.librariesAmong directory found (e :: rest)).outcome = .ok out ↔
      (∃ data, (a.recordData e).outcome = .ok data) ∧
        (a.librariesAmong directory
          (if a.IsLibrary directory e then e :: found else found) rest).outcome = .ok out := by
  rw [librariesAmong, if_pos (mayBeLibrary_iff.mpr hmay)]
  -- The answer for this entry decides what is kept, and the rest of the list goes on from there.
  constructor
  · intro h
    obtain ⟨starts, hstarts, hrest⟩ := Metered.bind_outcome_eq_ok_iff.mp h
    obtain ⟨data, hdata, _⟩ := Metered.bind_outcome_eq_ok_iff.mp hstarts
    rw [startsAsArchive_of_ok hw hmay hdata, Except.ok.injEq] at hstarts
    subst hstarts
    simp only [decide_eq_true_eq] at hrest
    exact ⟨⟨data, hdata⟩, hrest⟩
  · rintro ⟨⟨data, hdata⟩, hrest⟩
    rw [Metered.bind_of_ok (startsAsArchive_of_ok hw hmay hdata)]
    simp only [decide_eq_true_eq]
    exact hrest

/-- The list is made if all data can be found that is looked at, and it then has all
    libraries in their order. -/
theorem librariesAmong_eq_ok_iff (hw : a.window.Intact) {entries found out : List Entry} :
    (a.librariesAmong directory found entries).outcome = .ok out ↔
      (∀ e ∈ entries, e.MayBeLibrary directory → ∃ data, (a.recordData e).outcome = .ok data) ∧
        out = found.reverse ++ entries.filter (a.IsLibrary directory) := by
  -- What was found so far grows from record to record, and in the end it is in front.
  induction entries generalizing found with
  | nil =>
      rw [librariesAmong, Metered.outcome_pure, Except.ok.injEq, List.filter_nil, List.append_nil]
      simp only [List.not_mem_nil, false_imp_iff, implies_true, true_and, eq_comm]
  | cons e rest ih =>
      rw [List.forall_mem_cons]
      by_cases hmay : e.MayBeLibrary directory
      · rw [librariesAmong_cons_eq_ok_iff hw hmay, ih]
        by_cases hlibrary : a.IsLibrary directory e
        · rw [if_pos hlibrary, List.filter_cons, if_pos (decide_eq_true hlibrary),
            List.reverse_cons, List.append_assoc, List.singleton_append]
          simp only [hmay, true_imp_iff, and_assoc]
        · rw [if_neg hlibrary, List.filter_cons, if_neg (decide_eq_true_iff.not.mpr hlibrary)]
          simp only [hmay, true_imp_iff, and_assoc]
      · have hother : ¬ a.IsLibrary directory e := fun h => hmay h.toMayBeLibrary
        rw [librariesAmong, if_neg (mayBeLibrary_iff.not.mpr hmay), ih, List.filter_cons,
          if_neg (decide_eq_true_iff.not.mpr hother)]
        simp only [hmay, false_imp_iff, true_and]

/-- The first entry of a name has that name, so it is a directory if any other entry of
    the name is. -/
theorem entry?_of_mem (he : e ∈ a.entries) :
    ∃ first, Archive.entry? a e.name = some first ∧ first ∈ a.entries ∧
      first.name = e.name := by
  have hsome : (Archive.entry? a e.name).isSome :=
    List.find?_isSome.mpr ⟨e, he, beq_self_eq_true e.name⟩
  obtain ⟨first, hfirst⟩ := Option.isSome_iff_exists.mp hsome
  have hname := List.find?_some (p := fun other : Entry => other.name == e.name) hfirst
  exact ⟨first, hfirst, List.mem_of_find?_eq_some hfirst, eq_of_beq hname⟩

/-- What is opened for a name depends on the first entry of the name alone. -/
theorem nestedSource_of_entry {name : Bytes} (hentry : Archive.entry? a name = some first)
    (hfile : first.isDirectory = false) :
    (a.nestedSource name).outcome =
      if first.method = .stored then (a.recordData first).outcome
      else .error (.compressedNestedArchive a.url first.displayName) := by
  unfold nestedSource
  rw [hentry]
  simp only [hfile, Bool.false_eq_true, if_false]
  by_cases hstored : first.method = .stored
  · rw [if_neg (not_not.mpr hstored), if_pos hstored]
  · rw [if_pos hstored, if_neg hstored]
    rfl

/-- The locator of an entry of this name, taken as that of an archive, can be read, and
    whoever resolves it asks the archive for the name. -/
structure OpensByName (a : Archive) (name : Bytes) : Prop where
  decode : ∀ (root : String) (names : List Bytes), Locator.Rooted root →
    (∀ n ∈ names, n ≠ []) →
    a.container =
      names.foldl (fun text name => text ++ Locator.separator ++ Percent.encode name) root →
    Locator.decode (a.entryUrl name ++ Locator.separator) =
      .ok { root, archives := names ++ [name] }
  resolve : ∀ (root : String) (names : List Bytes) (h : Handle) (r s : Resolver),
    Resolver.resolve { root, archives := names } r = .ok h s → s.present h = a →
    Resolver.resolve { root, archives := names ++ [name] } r =
      (Resolver.charge h.source (a.nestedSource name) >>= fun data =>
        Resolver.keep { identity := data.identity, offset := data.offset } h.source h.address
          (ofWindow data (a.entryUrl name))) s

theorem opensByName (a : Archive) {name : Bytes} (hname : name ≠ []) : a.OpensByName name where
  decode root names hroot hnames hcontainer := by
    have htext : a.entryUrl name ++ Locator.separator =
        ({ root, archives := names ++ [name] } : Locator).toString := by
      rw [entryUrl, url, hcontainer, Locator.toString, List.foldl_append]
      exact String.append_empty.symm
    rw [htext]
    refine Locator.decode_toString ⟨hroot.nonempty, hroot.unsplit, hroot.unschemed, ?_, ?_⟩
    · simp only [List.mem_append, List.mem_singleton]
      rintro n (hn | rfl)
      · exact hnames n hn
      · exact hname
    · intro n hn
      exact absurd hn.symm (Option.some_ne_none n)
  resolve root names h r s hresolve hpresent := by
    have hurl : h.archive.entryUrl name = a.entryUrl name := by
      rw [entryUrl, url, entryUrl, url, ← hpresent, Resolver.container_present]
    unfold Resolver.resolve at hresolve ⊢
    obtain ⟨top, t, htop, hnames⟩ := Resolving.bind_eq_ok_iff.mp hresolve
    -- The names in front lead to the archive as before, and there the last one is asked for.
    rw [Resolving.bind_of_ok htop, List.foldlM_append, Resolving.bind_of_ok hnames,
      List.foldlM_cons, ← hurl, ← hpresent, ← Resolver.openNested_apply]
    simp only [List.foldlM_nil, bind_pure]

/-- Where names do not repeat, an entry is the first of its name. -/
theorem entry?_of_nodup (hnames : (a.entries.map Entry.name).Nodup) (he : e ∈ a.entries) :
    Archive.entry? a e.name = some e := by
  obtain ⟨first, hentry, hfirst, hname⟩ := entry?_of_mem he
  rw [hentry, List.inj_on_of_nodup_map hnames hfirst he hname]

/-- In an opened archive just the libraries are listed, each where it stands in the
    directory, once the data can be found of all that may be one. Each comes with a
    window that starts as an archive does. Its locator leads to its name, and for
    the name the data of the first entry of that name is opened, unless that entry
    is compressed. So a library is opened as the window that was looked at if it is
    the first of its name, and otherwise just if the first one has the same window. -/
theorem libraries_exact {container : String} (hopen : (ofWindow w container).outcome = .ok a)
    (directory : String) :
    ((∃ found, (a.libraries directory).outcome = .ok found) ↔
      ∀ e ∈ a.entries, e.MayBeLibrary (Text.encode directory) →
        ∃ data, (a.recordData e).outcome = .ok data) ∧
    ∀ found, (a.libraries directory).outcome = .ok found →
      found = a.entries.filter (a.IsLibrary (Text.encode directory)) ∧
      ∀ e ∈ found, ∃ (data : Window) (first : Entry),
        (a.recordData e).outcome = .ok data ∧ data.isCompressed = false ∧ 4 ≤ data.size ∧
        data.bytes.take 4 = [0x50, 0x4B, 0x03, 0x04] ∧
        (e.name ≠ [] → a.OpensByName e.name) ∧
        Archive.entry? a e.name = some first ∧
        (a.nestedSource e.name).outcome =
          (if first.method = .stored then (a.recordData first).outcome
          else .error (.compressedNestedArchive a.url first.displayName)) ∧
        ((a.nestedSource e.name).outcome = .ok data ↔
          first.method = .stored ∧ (a.recordData first).outcome = .ok data) ∧
        (first = e ∨ (a.entries.map Entry.name).Nodup →
          (a.nestedSource e.name).outcome = .ok data) := by
  obtain ⟨hw, _, _, rfl, _⟩ := ofWindow_eq_ok hopen
  refine ⟨⟨?_, ?_⟩, ?_⟩
  · rintro ⟨found, hfound⟩
    exact ((librariesAmong_eq_ok_iff hw).mp hfound).1
  · intro hall
    exact ⟨_, (librariesAmong_eq_ok_iff hw).mpr ⟨hall, rfl⟩⟩
  intro found hfound
  obtain ⟨hall, hlist⟩ := (librariesAmong_eq_ok_iff hw).mp hfound
  rw [List.reverse_nil, List.nil_append] at hlist
  refine ⟨hlist, fun e he => ?_⟩
  -- What is listed is a library, and so its data was found.
  rw [hlist, List.mem_filter, decide_eq_true_iff] at he
  obtain ⟨hentries, hlibrary⟩ := he
  obtain ⟨data, hdata⟩ := hall e hentries hlibrary.toMayBeLibrary
  obtain ⟨hintact, hlength⟩ := intact_recordData hw hlibrary.stored hdata
  obtain ⟨first, hentry, _, hname⟩ := entry?_of_mem hentries
  have hfile : first.isDirectory = false := by
    rw [Entry.isDirectory, hname]
    exact hlibrary.file
  have hsource := nestedSource_of_entry hentry hfile
  have hsame : (a.nestedSource e.name).outcome = .ok data ↔
      first.method = .stored ∧ (a.recordData first).outcome = .ok data := by
    rw [hsource]
    by_cases hstored : first.method = .stored
    · rw [if_pos hstored, and_iff_right hstored]
    · rw [if_neg hstored]
      exact ⟨fun h => absurd h error_ne_ok, fun h => absurd h.1 hstored⟩
  refine ⟨data, first, hdata, ?_, ?_, ?_, a.opensByName, hentry, hsource, hsame, ?_⟩
  · rw [Window.isCompressed, hintact.plain]
    rfl
  · rw [Window.size_of_intact hintact, hlength]
    exact hlibrary.room
  · rw [take_recordData hw hlibrary.toMayBeLibrary hdata]
    exact hlibrary.start
  · intro hfirst
    have heq : first = e := by
      rcases hfirst with hfirst | hnodup
      · exact hfirst
      · exact Option.some.inj (hentry.symm.trans (entry?_of_nodup hnodup hentries))
    exact hsame.mpr ⟨heq ▸ hlibrary.stored, heq ▸ hdata⟩

/-- Three libraries, the first two of which have one name. -/
def threeLibraries : List Member :=
  [⟨Node.plainLabel [0x6C], LocalHeader.signature ++ [1]⟩,
    ⟨Node.plainLabel [0x6C], LocalHeader.signature ++ [2]⟩,
    ⟨Node.plainLabel [0x6D], LocalHeader.signature ++ [3]⟩]

/-- Their archive as a buffer. -/
def librariesWindow : Window :=
  .whole (.memory "t" ⟨(Member.archive threeLibraries).toBytes.toArray⟩)

/-- What the directory tells of the library of a name at a place. -/
def libraryEntry (name : UInt8) (place : Nat) : Entry where
  name := [name]
  method := .stored
  compressedSize := 5
  uncompressedSize := 5
  headerOffset := place
  packedDate := 0x21

def librariesArchive : Archive where
  window := librariesWindow
  index := (Member.archive threeLibraries).index
  container := "t"

theorem entries_librariesArchive : librariesArchive.entries =
    [libraryEntry 0x6C 0, libraryEntry 0x6C 36, libraryEntry 0x6D 72] := by
  decide +kernel

theorem ofWindow_librariesArchive :
    (ofWindow librariesWindow "t").outcome = .ok librariesArchive := by
  have hnarrow : (Member.archive threeLibraries).Narrow :=
    ⟨by decide +kernel, by decide +kernel, by decide +kernel, by decide +kernel⟩
  exact ofWindow_of_parse rfl (PackedArchive.parse_toBytes
    (Member.packs_of_narrow (by decide) hnarrow) (Window.intact_whole_memory _ _)
    (Window.bytes_whole_memory _ _)) "t"

theorem entry?_librariesArchive :
    librariesArchive.entry? [0x6C] = some (libraryEntry 0x6C 0) := by
  decide

theorem recordData_first : (librariesArchive.recordData (libraryEntry 0x6C 0)).outcome =
    .ok (librariesWindow.part 31 5) :=
  recordData_of_dataOffset (Window.intact_whole_memory _ _) 31 rfl (by decide +kernel)
    (by decide +kernel)

theorem recordData_second : (librariesArchive.recordData (libraryEntry 0x6C 36)).outcome =
    .ok (librariesWindow.part 67 5) :=
  recordData_of_dataOffset (Window.intact_whole_memory _ _) 67 rfl (by decide +kernel)
    (by decide +kernel)

/-- All three are listed below the empty name. The last is opened by its name, the
    second is not. -/
theorem libraries_exact_three :
    ∃ a, (ofWindow librariesWindow "t").outcome = .ok a ∧
      a.entries = [libraryEntry 0x6C 0, libraryEntry 0x6C 36, libraryEntry 0x6D 72] ∧
      (a.libraries "").outcome = .ok a.entries ∧
      (∃ data, (a.recordData (libraryEntry 0x6D 72)).outcome = .ok data ∧
        (a.nestedSource [0x6D]).outcome = .ok data) ∧
      ∃ data, (a.recordData (libraryEntry 0x6C 36)).outcome = .ok data ∧
        (a.nestedSource [0x6C]).outcome ≠ .ok data := by
  have hlist : (librariesArchive.libraries "").outcome = .ok librariesArchive.entries := by
    decide +kernel
  have heach := ((libraries_exact ofWindow_librariesArchive "").2 _ hlist).2
  refine ⟨_, ofWindow_librariesArchive, entries_librariesArchive, hlist, ?_, ?_⟩
  · obtain ⟨data, first, hdata, _, _, _, _, hentry, _, _, hopened⟩ :=
      heach (libraryEntry 0x6D 72) (by decide)
    have hfirst : librariesArchive.entry? [0x6D] = some (libraryEntry 0x6D 72) := by decide
    exact ⟨data, hdata, hopened (.inl (Option.some.inj (hentry.symm.trans hfirst)))⟩
  · obtain ⟨data, first, hdata, _, _, _, _, hentry, _, hsame, _⟩ :=
      heach (libraryEntry 0x6C 36) (by decide)
    obtain rfl := Option.some.inj (hentry.symm.trans entry?_librariesArchive)
    refine ⟨data, hdata, fun hopened => ?_⟩
    -- The two headers are at different places, and so is what is behind them.
    have hother := (hsame.mp hopened).2
    rw [recordData_second, Except.ok.injEq] at hdata
    rw [recordData_first, ← hdata, Except.ok.injEq] at hother
    exact absurd (congrArg Window.offset hother) (by decide)

/-- The second of two libraries of one name is listed, but its name opens the first. -/
theorem libraries_of_one_name :
    ∃ a found e data opened, (ofWindow librariesWindow "t").outcome = .ok a ∧
      (a.libraries "l").outcome = .ok found ∧ e ∈ found ∧
      (a.recordData e).outcome = .ok data ∧ (a.nestedSource e.name).outcome = .ok opened ∧
      data.bytes = [0x50, 0x4B, 0x03, 0x04, 2] ∧ opened.bytes = [0x50, 0x4B, 0x03, 0x04, 1] := by
  have hlist : (librariesArchive.libraries "l").outcome =
      .ok [libraryEntry 0x6C 0, libraryEntry 0x6C 36] := by decide +kernel
  have hopened := (nestedSource_of_entry entry?_librariesArchive (by decide)).trans
    (if_pos (by decide))
  exact ⟨_, _, libraryEntry 0x6C 36, _, _, ofWindow_librariesArchive, hlist, by decide,
    recordData_second, hopened.trans recordData_first, by decide +kernel, by decide +kernel⟩

end Archive

end NestedZip
