import NestedZip.Proofs.Checked.Arithmetic
import NestedZip.Proofs.Libraries

/-!
# Looking Entries Up in a Table

The first entry of a name is found without going through the directory, by a
table of names that is filled while the records are read.

`Index.find?` searches the entries in their order, which says what is found. A
reader does not search. It keeps the entries in an array and beside it, in a
hash map, the position of each name, and it trusts that a position it finds
there is one of the array. Nothing in the types says that the two belong
together. `EntryTable` is this pair, and to look a name up in it is a checked
computation that traps where the position found is none.

What keeps the two together is `EntryTable.Coherent`: the map answers for every
name what a search of the array would. One more record keeps that, whether its
name is new or has been there, for a name that has been there stays at its old
place while the record is added all the same. So the table is coherent after
any number of records and whichever names repeat.

## Main definitions

* `Index.FirstAt`: The first entry of a name and its position.
* `EntryTable`, `EntryTable.add`, `EntryTable.find?`: The entries and the places of
  their names.
* `EntryTable.Coherent`: The map answers what a search of the array would.
* `EntryTable.readEntries`, `TabledIndex.parse`: Indexing that fills a table.

## Theorems

* `EntryTable.coherent_add`, `EntryTable.coherent_ofEntries`: One record keeps the table
  coherent, and so do all of them.
* `EntryTable.find?_of_coherent`: Looking up meets no trap, and finds what a search
  does.
* `TabledIndex.parse_eq`: Indexing that fills a table is indexing.
* `Index.lookup_finds_first`: What the table of an accepted directory finds.
-/

namespace NestedZip

namespace Index

/-- The entry at a position has the name, and no entry in front of it has. -/
structure FirstAt (x : Index) (name : Bytes) (i : Nat) (e : Entry) : Prop where
  here : x.entries[i]? = some e
  named : e.name = name
  first : ∀ j < i, ∀ other, x.entries[j]? = some other → other.name ≠ name

/-- The position that is found is that of the first entry of the name. -/
theorem position?_eq_some_iff {x : Index} {name : Bytes} {i : Nat} :
    x.position? name = some i ↔ ∃ e, x.FirstAt name i e := by
  unfold position?
  rw [List.findIdx?_eq_some_iff_getElem]
  constructor
  · rintro ⟨hi, hnamed, hfirst⟩
    refine ⟨x.entries[i], List.getElem?_eq_getElem hi, eq_of_beq hnamed, ?_⟩
    intro j hj other hother hname
    obtain ⟨hlt, rfl⟩ := List.getElem?_eq_some_iff.mp hother
    exact hfirst j hj (beq_iff_eq.mpr hname)
  · rintro ⟨e, hhere, hnamed, hfirst⟩
    obtain ⟨hi, rfl⟩ := List.getElem?_eq_some_iff.mp hhere
    exact ⟨hi, beq_iff_eq.mpr hnamed, fun j hj hname =>
      hfirst j hj _ (List.getElem?_eq_getElem (Nat.lt_trans hj hi)) (eq_of_beq hname)⟩

/-- The entry that a search finds is the one at the position it finds. -/
theorem find?_eq_bind_position? (x : Index) (name : Bytes) :
    x.find? name = (x.position? name).bind (x.entries[·]?) :=
  List.find?_eq_bind_findIdx?_getElem?

/-- So is the entry. -/
theorem find?_eq_some_iff {x : Index} {name : Bytes} {e : Entry} :
    x.find? name = some e ↔ ∃ i, x.FirstAt name i e := by
  rw [find?_eq_bind_position?, Option.bind_eq_some_iff]
  constructor
  · rintro ⟨i, hi, hhere⟩
    obtain ⟨e', hfirst⟩ := position?_eq_some_iff.mp hi
    obtain rfl : e' = e := Option.some.inj (hfirst.here.symm.trans hhere)
    exact ⟨i, hfirst⟩
  · rintro ⟨i, hfirst⟩
    exact ⟨i, position?_eq_some_iff.mpr ⟨e, hfirst⟩, hfirst.here⟩

theorem isSome_find?_iff {x : Index} {name : Bytes} :
    (x.find? name).isSome ↔ ∃ e ∈ x.entries, e.name = name := by
  unfold find?
  rw [List.find?_isSome]
  simp only [beq_iff_eq]

end Index

/-- The entries that were read so far, and for each name a position to find it at. -/
structure EntryTable where
  entries : Array Entry := #[]
  places : Std.HashMap Bytes Nat := {}

namespace EntryTable

/-- Adds an entry behind the others. A name that has a place keeps it. -/
def add (t : EntryTable) (e : Entry) : EntryTable where
  entries := t.entries.push e
  places :=
    match t.places[e.name]? with
    | none => t.places.insert e.name t.entries.size
    | some _ => t.places

/-- The entry at the place of a name. A place that is no position of an entry is a
    trap. -/
def find? (t : EntryTable) (name : Bytes) : Checked Error (Option Entry) :=
  match t.places[name]? with
  | none => .ok none
  | some i =>
    match t.entries[i]? with
    | some e => .ok (some e)
    | none => Checked.trap .outOfRange

/-- The place of a name is the one that a search of the entries would find. -/
def Coherent (t : EntryTable) : Prop :=
  ∀ name : Bytes, t.places[name]? = t.entries.findIdx? fun e => e.name == name

/-- The table of some entries, added one by one. -/
def ofEntries (entries : List Entry) : EntryTable := entries.foldl add {}

theorem coherent_empty : Coherent {} := by
  intro name
  rw [Std.HashMap.getElem?_empty, Array.findIdx?_empty]

/-- One more entry keeps the table coherent, whether its name is new or not. -/
theorem coherent_add {t : EntryTable} (h : t.Coherent) (e : Entry) : (t.add e).Coherent := by
  intro name
  -- The search goes on to the new entry only if it has found nothing in front.
  simp only [add, Array.findIdx?_push, ← h name]
  cases hplace : t.places[e.name]? with
  | none =>
    -- A new name gets the place behind all others, and no other name moves.
    simp only [Std.HashMap.getElem?_insert]
    by_cases hname : e.name = name
    · subst hname
      rw [if_pos (BEq.rfl), if_pos (BEq.rfl), hplace, Option.none_or]
    · rw [if_neg (mt eq_of_beq hname), if_neg (mt eq_of_beq hname), Option.or_none]
  | some i =>
    -- A name that has been there has its place from an entry further in front.
    by_cases hname : e.name = name
    · subst hname
      rw [hplace, Option.some_or]
    · rw [if_neg (mt eq_of_beq hname), Option.or_none]

/-- So does a whole run of entries. -/
theorem coherent_foldl {t : EntryTable} (h : t.Coherent) (entries : List Entry) :
    (entries.foldl add t).Coherent := by
  induction entries generalizing t with
  | nil => exact h
  | cons e rest ih => exact ih (coherent_add h e)

theorem coherent_ofEntries (entries : List Entry) : (ofEntries entries).Coherent :=
  coherent_foldl coherent_empty entries

/-- No entry is left out, also none whose name has been there. -/
theorem toList_entries_foldl (t : EntryTable) (entries : List Entry) :
    (entries.foldl add t).entries.toList = t.entries.toList ++ entries := by
  induction entries generalizing t with
  | nil => exact (List.append_nil _).symm
  | cons e rest ih =>
    rw [List.foldl_cons, ih, add, Array.toList_push, List.append_assoc, List.singleton_append]

theorem toList_entries_ofEntries (entries : List Entry) :
    (ofEntries entries).entries.toList = entries := by
  rw [ofEntries, toList_entries_foldl, List.nil_append]

/-- In a coherent table every place is a position of an entry. -/
theorem lt_size_of_coherent {t : EntryTable} (h : t.Coherent) {name : Bytes} {i : Nat}
    (hplace : t.places[name]? = some i) : i < t.entries.size := by
  rw [h name] at hplace
  exact (Array.findIdx?_eq_some_iff_getElem.mp hplace).1

/-- So looking up meets no trap, and finds what a search of the entries does. -/
theorem find?_of_coherent {t : EntryTable} (h : t.Coherent) (name : Bytes) :
    t.find? name = .ok (t.entries.find? fun e => e.name == name) := by
  unfold find?
  rw [Array.find?_eq_bind_findIdx?_getElem?, ← h name]
  cases hplace : t.places[name]? with
  | none => rfl
  | some i =>
    have hi := lt_size_of_coherent h hplace
    simp only [Option.bind_some, Array.getElem?_eq_getElem hi]

/-- Reads `count` records from the directory bytes left at `position` of the directory,
    and adds their entries to a table. -/
def readEntries (w : Window) (start base : Nat) :
    (count index position : Nat) → Bytes → EntryTable → Except Error (EntryTable × Nat)
  | 0, _, position, _, table => .ok (table, position)
  | count + 1, index, position, bytes, table =>
    match Entry.read bytes with
    | .error e => .error (Index.fault w (start + position) (.badRecord index e))
    | .ok (entry, span, rest) =>
      let headerOffset := entry.headerOffset + base
      if wordLimit ≤ headerOffset then
        .error (Index.fault w (start + position) (.headerOffsetOverflow entry.displayName))
      else
        readEntries w start base count (index + 1) (position + span) rest
          (table.add { entry with headerOffset })

/-- The table is filled with the entries in the order in which they are read. -/
theorem readEntries_eq (w : Window) (start base count index position : Nat) (bytes : Bytes)
    (done : List Entry) :
    readEntries w start base count index position bytes (ofEntries done.reverse) =
      (Index.readEntries w start base count index position bytes done).map
        fun (entries, span) => (ofEntries entries, span) := by
  induction count generalizing index position bytes done with
  | zero => rfl
  | succ count ih =>
    simp only [readEntries, Index.readEntries]
    -- The two loops part only where a record is sound and its entry is added.
    rcases Entry.read bytes with fault | ⟨entry, span, rest⟩
    · rfl
    simp only
    split
    · rfl
    · rw [← ih, List.reverse_cons, ofEntries, ofEntries, List.foldl_append]
      rfl

end EntryTable

/-- An index that looks its entries up in a table. -/
structure TabledIndex extends EntryTable where
  baseOffset : Nat
  directoryOffset : Nat

namespace TabledIndex

/-- An index with its table. -/
def ofIndex (x : Index) : TabledIndex :=
  { EntryTable.ofEntries x.entries with
    baseOffset := x.baseOffset, directoryOffset := x.directoryOffset }

/-- The index of the archive in a window, with a table that is filled while the records
    are read. -/
def parse (w : Window) : Metered Error TabledIndex := do
  let (bounds, endOffset) ← Index.findBounds w
  if bounds.stop < bounds.size then
    .fail (Index.fault w endOffset (.directoryTooLarge bounds.size bounds.stop))
  else
    let start := bounds.stop - bounds.size
    if start < bounds.declaredOffset then
      .fail (Index.fault w endOffset (.offsetPastDirectory bounds.declaredOffset start))
    else
      let base := start - bounds.declaredOffset
      if bounds.size < min (bounds.totalEntries * RecordHeader.length) (wordLimit - 1) then
        .fail (Index.fault w start (.tooManyEntries bounds.totalEntries bounds.size))
      else
        let bytes ← w.readExactAt start bounds.size
        let (table, span) ←
          .ofExcept (EntryTable.readEntries w start base bounds.totalEntries 0 0 bytes {})
        if span ≠ bounds.size then
          .fail (Index.fault w start (.directorySpan bounds.totalEntries span bounds.size))
        else
          return { table with baseOffset := base, directoryOffset := start }

/-- Indexing with a table accepts the same windows for the same reads, and fails alike. -/
theorem parse_eq (w : Window) : parse w = (Index.parse w).map ofIndex := by
  unfold parse Index.parse
  refine Metered.map_bind fun (bounds, endOffset) _ => ?_
  simp only
  split
  · rfl
  split
  · rfl
  split
  · rfl
  refine Metered.map_bind fun bytes _ => ?_
  -- The loop fills the table of the entries that the other loop collects.
  have hloop := EntryTable.readEntries_eq w (bounds.stop - bounds.size)
    (bounds.stop - bounds.size - bounds.declaredOffset) bounds.totalEntries 0 0 bytes []
  rw [List.reverse_nil, EntryTable.ofEntries, List.foldl_nil] at hloop
  rw [hloop, ← Metered.map_ofExcept, Metered.bind_of_map]
  refine Metered.map_bind fun (entries, span) _ => ?_
  simp only
  split <;> rfl

/-- The table finds what the index does, at places that are positions of entries. -/
structure Tables (t : TabledIndex) (x : Index) : Prop where
  entries : t.entries.toList = x.entries
  inside : ∀ (name : Bytes) (i : Nat), t.places[name]? = some i → i < t.entries.size
  places : ∀ (name : Bytes) (i : Nat), t.places[name]? = some i ↔ ∃ e, x.FirstAt name i e
  finds : ∀ name : Bytes, t.find? name = .ok (x.find? name)

/-- A table made from an index answers as the index does, and no place in it is past its entries. -/
theorem tables_ofIndex (x : Index) : (ofIndex x).Tables x := by
  have hcoherent := EntryTable.coherent_ofEntries x.entries
  have hentries := EntryTable.toList_entries_ofEntries x.entries
  refine ⟨hentries, fun _ _ => EntryTable.lt_size_of_coherent hcoherent, fun name i => ?_,
    fun name => ?_⟩
  · rw [← Index.position?_eq_some_iff, Index.position?, ← hentries, ← List.findIdx?_toArray,
      Array.toArray_toList]
    exact iff_of_eq (congrArg (· = some i) (hcoherent name))
  · rw [Index.find?, ← hentries, Array.find?_toList]
    exact EntryTable.find?_of_coherent hcoherent name

end TabledIndex

namespace Archive

theorem entryData_of_first (a : Archive) {name : Bytes} {i : Nat} {e : Entry}
    (h : a.index.FirstAt name i e) :
    a.entryData name = do return some (← a.recordData e) := by
  have hentry : a.entry? name = some e := Index.find?_eq_some_iff.mpr ⟨i, h⟩
  unfold entryData
  rw [hentry]

/-- Without an entry of the name nothing is read. -/
theorem entryData_of_absent (a : Archive) {name : Bytes}
    (h : ∀ e ∈ a.entries, e.name ≠ name) :
    a.entryData name = pure none := by
  have hentry : a.entry? name = none := by
    refine Option.not_isSome_iff_eq_none.mp fun hsome => ?_
    obtain ⟨e, he, hname⟩ := Index.isSome_find?_iff.mp hsome
    exact h e he hname
  unfold entryData
  rw [hentry]

end Archive

namespace Index

/-- Records that span all the bytes there are leave none between them or behind. -/
theorem readEntries_fills {w : Window} {start base count span : Nat} {bytes : Bytes}
    {entries : List Entry}
    (h : readEntries w start base count 0 0 bytes [] = .ok (entries, span))
    (hspan : bytes.length ≤ span) :
    ∃ slices : List Bytes, entries.length = count ∧ slices.flatten = bytes ∧
      List.Forall₂ (fun slice e => ∃ header : RecordHeader, header.Describes base slice e)
        slices entries := by
  obtain ⟨slices, rest, read, rfl, rfl, hcount, rfl, hall⟩ := readEntries_eq_ok h
  -- The records were read from all the bytes there are, so none are left behind them.
  rw [List.length_append] at hspan
  obtain rfl : rest = [] := List.eq_nil_of_length_eq_zero (by omega)
  rw [List.append_nil]
  exact ⟨slices, hcount, rfl, hall⟩

/-- Whatever window is accepted and whichever names repeat in it, the table that is
    filled on the way finds the first entry of every name without a trap, the entries
    are those of all the records, and the data of a name is the data of that entry. -/
theorem lookup_finds_first {w : Window} {x : Index} (h : (parse w).outcome = .ok x) :
    (∃ t : TabledIndex, t.Tables x ∧
      TabledIndex.parse w = { outcome := .ok t, fetched := (parse w).fetched }) ∧
    (∀ name, (x.find? name).isSome ↔ ∃ e ∈ x.entries, e.name = name) ∧
    (∀ name e, x.find? name = some e ↔ ∃ i, x.FirstAt name i e) ∧
    (∃ (b : Bounds) (position : Nat) (slices : List Bytes),
      (findBounds w).outcome = .ok (b, position) ∧ x.entries.length = b.totalEntries ∧
      slices.flatten = (w.bytes.drop x.directoryOffset).take b.size ∧
      List.Forall₂ (fun slice e => ∃ header : RecordHeader,
        header.Describes x.baseOffset slice e) slices x.entries) ∧
    ∀ container, ∃ a : Archive, (Archive.ofWindow w container).outcome = .ok a ∧
      a.index = x ∧ ∀ name,
        (∀ i e, x.FirstAt name i e → a.entryData name = do return some (← a.recordData e)) ∧
        ((∀ e ∈ x.entries, e.name ≠ name) → a.entryData name = pure none) := by
  obtain ⟨hw, r, position, b, hlast, hb, hstop, -, -, hentries⟩ := parse_eq_ok_iff.mp h
  refine ⟨⟨TabledIndex.ofIndex x, TabledIndex.tables_ofIndex x, ?_⟩, fun _ => isSome_find?_iff,
    fun _ _ => find?_eq_some_iff, ?_, fun container => ?_⟩
  · rw [TabledIndex.parse_eq, Metered.map, h]
    rfl
  · obtain ⟨slices, hcount, hfills, hall⟩ := readEntries_fills hentries (List.length_take_le _ _)
    exact ⟨b, position, slices, findBounds_of_takenFrom hw hlast hb, hcount, hfills, hall⟩
  · let a : Archive := { window := w, index := x, container }
    exact ⟨a, Archive.ofWindow_of_parse hw.plain h container, rfl, fun _ =>
      ⟨fun _ _ => a.entryData_of_first, a.entryData_of_absent⟩⟩

/-- The second of two libraries of one name keeps its row in the table, and is not the
    one that the name finds, nor is its data read by the name. -/
theorem lookup_finds_first_of_two :
    let first := Archive.libraryEntry 0x6C 0
    (parse Archive.librariesWindow).outcome = .ok Archive.librariesArchive.index ∧
    (∃ t : TabledIndex, TabledIndex.parse Archive.librariesWindow =
        { outcome := .ok t, fetched := (parse Archive.librariesWindow).fetched } ∧
      t.entries.toList = Archive.librariesArchive.entries ∧
      t.find? [0x6C] = .ok (some first) ∧ t.find? [0x6E] = .ok none) ∧
    ∃ a : Archive, (Archive.ofWindow Archive.librariesWindow "t").outcome = .ok a ∧
      a.entryData [0x6C] = (do return some (← a.recordData first)) ∧
      a.entryData [0x6E] = pure none := by
  intro first
  obtain ⟨-, -, hparse, -⟩ := Archive.ofWindow_eq_ok Archive.ofWindow_librariesArchive
  obtain ⟨⟨t, htables, hparsed⟩, -, hfind, -, hdata⟩ := lookup_finds_first hparse
  have habsent : Archive.librariesArchive.entry? [0x6E] = none := by decide
  obtain ⟨i, hfirst⟩ := (hfind [0x6C] first).mp Archive.entry?_librariesArchive
  obtain ⟨a, ha, -, hread⟩ := hdata "t"
  refine ⟨hparse, ⟨t, hparsed, htables.entries, ?_, ?_⟩, a, ha, (hread _).1 i first hfirst,
    (hread _).2 (by decide +kernel)⟩
  · rw [htables.finds]
    exact congrArg Except.ok Archive.entry?_librariesArchive
  · rw [htables.finds]
    exact congrArg Except.ok habsent

end Index

end NestedZip
