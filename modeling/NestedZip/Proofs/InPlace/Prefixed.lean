import NestedZip.Proofs.Directory.Layout
import NestedZip.Proofs.InPlace.Archive

/-!
# Bytes in Front of an Archive

What becomes of an archive when bytes are put in front of it.

A launch script may be put in front of an archive, and the numbers in the
archive then know nothing of it. They are all too small by the length of the
script. The directory is found by its end, so how far it has moved is known,
and every entry is moved as far. `Index.moved` is the index that should come
out of this, and `Index.parse_of_front` says that it does: the records are the
same, in the same order, and only their places differ.

Nothing is assumed of the archive but that it was accepted. It may have bytes
in front already, and it may be no archive that any tool would write. Two
things are asked of the bytes in front. The places of the entries must stay
below 64 bits, or a record would be refused. And the ZIP64 end record must
still be found, though the place that its locator names is stale: it must lie
right in front of the locator, and nothing may look like one at the stale
place. `Index.Movable` is this second condition.

What is read by an entry is the same as well. The two reads differ in the place
they tell, and so do their failures, by the number of bytes in front.

## Main definitions

* `Entry.moved`, `Index.moved`: An entry and an index, some bytes further behind.
* `Error.moved`: The failure of reading some bytes further behind.
* `Index.Movable`: The ZIP64 end record is still found behind other bytes.
* `Window.Prefixed`: The same window with more bytes in front.
* `Window.FoundBehind`: A part of it before and after it was moved.

## Theorems

* `Index.takenFrom_front`: The bounds of the directory move along.
* `Index.readEntries_moved`: So do the records, one after the other.
* `Index.parse_of_front`: The index behind other bytes.
* `Archive.recordData_moved`: The data of an entry behind other bytes.
* `Archive.prefixed_agrees`: All of this for buffers in memory.
-/

namespace NestedZip

/-- The entry when it is `count` bytes further behind. -/
def Entry.moved (count : Nat) (e : Entry) : Entry :=
  { e with headerOffset := e.headerOffset + count }

/-- The index when the archive is `count` bytes further behind. -/
def Index.moved (count : Nat) (x : Index) : Index where
  entries := x.entries.map (Entry.moved count)
  baseOffset := x.baseOffset + count
  directoryOffset := x.directoryOffset + count

/-- The failure of reading an archive when `count` bytes more are in front of it, which
    are then part of what can be read. -/
def Error.moved (count : Nat) : Error → Error
  | .outOfBounds name offset length available =>
    .outOfBounds name (min (offset + count) (wordLimit - 1)) length (available + count)
  | .malformedArchive archive offset fault => .malformedArchive archive (offset + count) fault
  | e => e

theorem drop_front (front bytes : Bytes) (p : Nat) :
    (front ++ bytes).drop (p + front.length) = bytes.drop p := by
  rw [Nat.add_comm, ← List.drop_drop, List.drop_left]

namespace EndRecord

variable {r : EndRecord} {front bytes : Bytes} {p : Nat}

theorem closesAt_front_iff :
    r.ClosesAt (front ++ bytes) (p + front.length) ↔ r.ClosesAt bytes p := by
  unfold ClosesAt
  rw [drop_front, List.length_append]
  refine and_congr_right fun _ => ?_
  omega

/-- What is put in front of the bytes cannot hold the last end record. -/
theorem isLastAt_front (h : r.IsLastAt bytes p) :
    r.IsLastAt (front ++ bytes) (p + front.length) := by
  refine ⟨closesAt_front_iff.mpr h.1, fun q other hq hcloses => ?_⟩
  have hq' : q - front.length + front.length = q := by omega
  rw [← hq', closesAt_front_iff] at hcloses
  exact h.2 (q - front.length) other (by omega) hcloses

end EndRecord

namespace Index

/-- If the end record is saturated, the ZIP64 end record that counts lies right in front
    of its locator. Behind `front` no other one seems to stand where the locator says. -/
def Movable (front bytes : Bytes) : Prop :=
  ∀ (r : EndRecord) (position : Nat) (l : Zip64Locator) (z : Zip64EndRecord) (stop : Nat),
    r.IsLastAt bytes position → r.isSaturated →
    l.toBytes <+: bytes.drop (position - Zip64Locator.length) →
    z.IsNamedAt l bytes (position - Zip64Locator.length) stop →
    stop + Zip64EndRecord.length = position - Zip64Locator.length ∧
      (Zip64EndRecord.signature <+: (front ++ bytes).drop l.endRecordOffset.toNat →
        l.endRecordOffset.toNat = stop + front.length)

variable {front bytes : Bytes} {position : Nat} {r : EndRecord} {b : Bounds}

/-- The bounds of the directory move along. -/
theorem takenFrom_front (hmovable : Movable front bytes) (hlast : r.IsLastAt bytes position)
    (hb : b.TakenFrom r bytes position) :
    Bounds.TakenFrom { b with stop := b.stop + front.length } r (front ++ bytes)
      (position + front.length) := by
  unfold Bounds.TakenFrom at hb ⊢
  by_cases hwide : r.isSaturated
  · rw [if_pos hwide] at hb ⊢
    rcases hb with ⟨l, z, hroom, hl, hz, hnumbers⟩
    rcases hmovable r position l z b.stop hlast hwide hl hz with ⟨hadjacent, hstale⟩
    have hposition : position + front.length - Zip64Locator.length =
        position - Zip64Locator.length + front.length := by omega
    rw [hposition, drop_front]
    refine ⟨l, z, by omega, hl, ⟨?_, by simp only; omega, ?_⟩, hnumbers⟩
    · rw [drop_front]
      exact hz.1
    · -- Where the locator points there is this record, or none.
      by_cases hplace : l.endRecordOffset.toNat = b.stop + front.length
      · exact Or.inl hplace.symm
      · refine Or.inr ⟨by simp only; omega, fun other _ hother => hplace (hstale ?_)⟩
        exact other.signature_starts.trans hother
  · rw [if_neg hwide] at hb ⊢
    rcases hb with ⟨htotal, hsize, hdeclared, hstop⟩
    exact ⟨htotal, hsize, hdeclared, congrArg (· + front.length) hstop⟩

/-- Every record is read as before, and its entry is moved along, as long as the places
    of the entries stay below 64 bits. -/
theorem readEntries_moved {w : Window} (w' : Window) {start base count index place span : Nat}
    {records : Bytes} {done entries : List Entry} (start' shift : Nat)
    (h : readEntries w start base count index place records done = .ok (entries, span))
    (hroom : ∀ e ∈ entries, e.headerOffset + shift < wordLimit) :
    readEntries w' start' (base + shift) count index place records
        (done.map (Entry.moved shift)) =
      .ok (entries.map (Entry.moved shift), span) := by
  induction count generalizing index place records done with
  | zero =>
      simp only [readEntries, Except.ok.injEq, Prod.mk.injEq] at h ⊢
      rcases h with ⟨rfl, rfl⟩
      exact ⟨(List.map_reverse).symm, rfl⟩
  | succ count ih =>
      unfold readEntries at h ⊢
      rcases hread : Entry.read records with fault | ⟨e, length, after⟩
      · rw [hread] at h
        exact absurd h error_ne_ok
      simp only [hread] at h ⊢
      by_cases hplace : wordLimit ≤ e.headerOffset + base
      · rw [if_pos hplace] at h
        exact absurd h error_ne_ok
      rw [if_neg hplace] at h
      -- The entry of this record is among those that are answered, so it has room to move.
      rcases readEntries_eq_ok h with ⟨_, _, rest, _, hentries, _⟩
      have hmem : { e with headerOffset := e.headerOffset + base } ∈ entries := by
        rw [hentries, List.reverse_cons, List.append_assoc]
        exact List.mem_append_right _ List.mem_cons_self
      have hplace' := hroom _ hmem
      simp only at hplace'
      rw [if_neg (by omega)]
      have hrest := ih h
      rw [List.map_cons] at hrest
      simp only [Entry.moved, Nat.add_assoc] at hrest ⊢
      exact hrest

/-- An archive that is accepted is accepted behind other bytes, and its index moves along. -/
theorem parse_of_front {w w' : Window} {x : Index} (hparse : (parse w).outcome = .ok x)
    (hw' : w'.Intact) (hbytes : w'.bytes = front ++ w.bytes)
    (hroom : ∀ e ∈ x.entries, e.headerOffset + front.length < wordLimit)
    (hmovable : Movable front w.bytes) : (parse w').outcome = .ok (x.moved front.length) := by
  rcases parse_eq_ok_iff.mp hparse with
    ⟨_, r, position, b, hlast, hb, hstop, hbase, hmany, hentries⟩
  have hentries' := readEntries_moved w' (x.directoryOffset + front.length) front.length
    hentries hroom
  -- The same end record is the last one, and the bounds it tells end later by the front.
  refine parse_eq_ok_iff.mpr ⟨hw', r, position + front.length,
    { b with stop := b.stop + front.length }, ?_, ?_, ?_, ?_, hmany, ?_⟩
  · rw [hbytes]
    exact EndRecord.isLastAt_front hlast
  · rw [hbytes]
    exact takenFrom_front hmovable hlast hb
  · simp only [moved]
    omega
  · simp only [moved]
    omega
  · simp only [moved, hbytes, drop_front]
    exact hentries'

/-- The first entry of a name stays the first one. -/
theorem find?_moved (x : Index) (count : Nat) (name : Bytes) :
    (x.moved count).find? name = (x.find? name).map (Entry.moved count) := by
  unfold find? moved
  rw [List.find?_map]
  rfl

end Index

/-- The second window shows the bytes of the first one behind `front`. They start at the
    same place in sources of one name. -/
structure Window.Prefixed (front : Bytes) (w v : Window) : Prop where
  identity : v.identity = w.identity
  offset : v.offset = w.offset
  bytes : v.bytes = front ++ w.bytes
  perRead : v.backing.perRead = w.backing.perRead
  intact : w.Intact
  intact' : v.Intact

/-- A part of one window and the same part of the other: windows of the same bytes, or
    the same failure. -/
inductive Window.FoundBehind (count : Nat) : Except Error Window → Except Error Window → Prop
  | found {data data' : Window} : data'.Mirrors count data →
      FoundBehind count (.ok data) (.ok data')
  | failed (e : Error) : FoundBehind count (.error e) (.error (e.moved count))

namespace Window.Prefixed

variable {front : Bytes} {w v : Window}

theorem length (h : w.Prefixed front v) : v.length = w.length + front.length := by
  rw [← length_bytes h.intact', h.bytes, List.length_append, length_bytes h.intact, Nat.add_comm]

/-- A range that leaves the one window leaves the other one. -/
theorem carve_of_past (h : w.Prefixed front v) {offset length : Nat}
    (hpast : ¬ offset + length ≤ w.length) :
    ∃ e : Error, w.carve offset length = .error e ∧
      v.carve (offset + front.length) length = .error (e.moved front.length) := by
  have hlength := h.length
  refine ⟨_, Window.carve_of_past h.intact.plain hpast, ?_⟩
  rw [Window.carve_of_past h.intact'.plain (by omega), h.identity, h.offset, hlength]
  simp only [Error.moved, Except.error.injEq, Error.outOfBounds.injEq, true_and, and_true]
  omega

/-- Each window is carved from where the other one is, or both refuse. -/
theorem carve (h : w.Prefixed front v) (offset length : Nat) :
    FoundBehind front.length (w.carve offset length)
      (v.carve (offset + front.length) length) := by
  have hlength := h.length
  by_cases hfits : offset + length ≤ w.length
  · have hfits' : offset + front.length + length ≤ v.length := by omega
    rw [carve_of_plain h.intact.plain _ _ hfits, carve_of_plain h.intact'.plain _ _ hfits']
    refine .found (Mirrors.of_intact (h.intact'.part _ _ hfits') (h.intact.part _ _ hfits)
      h.identity ?_ ?_ h.perRead)
    · simp only [part, h.offset, Nat.add_assoc]
    · rw [bytes_part v _ _ hfits', bytes_part w _ _ hfits, h.bytes, drop_front]
  · rcases h.carve_of_past hfits with ⟨e, hw, hv⟩
    rw [hw, hv]
    exact .failed e

/-- Behind the front the same bytes are read, or the failure names a position behind it. -/
theorem readExactAt (h : w.Prefixed front v) (offset count : Nat) :
    (v.readExactAt (offset + front.length) count).outcome =
      (w.readExactAt offset count).outcome.mapError (.moved front.length) := by
  have hlength := h.length
  by_cases hfits : offset + count ≤ w.length
  · rw [readExactAt_of_intact h.intact _ _ hfits,
      readExactAt_of_intact h.intact' _ _ (by omega), h.bytes, drop_front]
    rfl
  · rcases h.carve_of_past hfits with ⟨e, hw, hv⟩
    unfold Window.readExactAt
    rw [hw, hv]
    rfl

end Window.Prefixed

namespace Archive

variable {front : Bytes} {a b : Archive}

/-- The local header says the same, and the data is as much further behind as it is. -/
theorem dataOffset_moved (h : a.window.Prefixed front b.window) (e : Entry) :
    (b.dataOffset (e.moved front.length)).outcome =
      ((a.dataOffset e).outcome.map (· + front.length)).mapError (.moved front.length) := by
  have hread := h.readExactAt e.headerOffset LocalHeader.length
  unfold dataOffset
  simp only [Entry.moved]
  -- The header is read behind the front, and the data starts where it says.
  rcases hbytes : (a.window.readExactAt e.headerOffset LocalHeader.length).outcome with e' | bytes
  · rw [hbytes] at hread
    rw [Metered.bind_of_error hbytes, Metered.bind_of_error hread]
    rfl
  · rw [hbytes] at hread
    rw [Metered.bind_of_ok hbytes, Metered.bind_of_ok hread]
    rcases LocalHeader.ofBytes? bytes with _ | header
    · simp only [h.identity, Metered.outcome_fail]
      rfl
    · simp only [Metered.outcome_pure, Except.map, Except.mapError, Except.ok.injEq]
      omega

/-- The data of an entry is the same bytes, or it is missing for the same reason. -/
theorem recordData_moved (h : a.window.Prefixed front b.window)
    (hcontainer : b.container = a.container) (e : Entry) :
    Window.FoundBehind front.length (a.recordData e).outcome
      (b.recordData (e.moved front.length)).outcome := by
  have hoffset := dataOffset_moved h e
  unfold recordData
  rcases hdata : (a.dataOffset e).outcome with e' | offset
  · rw [hdata] at hoffset
    rw [Metered.bind_of_error hdata, Metered.bind_of_error hoffset]
    exact .failed e'
  · rw [hdata] at hoffset
    rw [Metered.bind_of_ok hdata, Metered.bind_of_ok hoffset]
    simp only [Entry.moved]
    -- For each method another size is carved, or none.
    cases e.method with
    | stored => exact h.carve offset e.uncompressedSize
    | deflated =>
        have hcarve := h.carve offset e.compressedSize
        generalize a.window.carve offset e.compressedSize = here at hcarve ⊢
        generalize b.window.carve (offset + front.length) e.compressedSize = there at hcarve ⊢
        cases hcarve with
        | found hpart => exact .found (hpart.inflating e.uncompressedSize)
        | failed e' => exact .failed e'
    | unsupported number =>
        have hurl : b.url = a.url := congrArg (· ++ Locator.separator) hcontainer
        simp only [hurl, Metered.outcome_fail]
        exact .failed _

/-- A buffer with some bytes put in front of it. -/
theorem prefixed_memory (name : String) (front content : ByteArray) :
    (Window.whole (.memory name content)).Prefixed front.data.toList
      (.whole (.memory name (front ++ content))) where
  identity := rfl
  offset := rfl
  bytes := by
    rw [Window.bytes_whole_memory, Window.bytes_whole_memory, ByteArray.data_append,
      Array.toList_append]
  perRead := rfl
  intact := Window.intact_whole_memory _ _
  intact' := Window.intact_whole_memory _ _

/-- Bytes in front of an archive only move it. Every entry is as much further behind,
    and nothing else about the index is another. A name is looked up alike, and the data
    of every entry is the same bytes, or is missing for the same reason. -/
theorem prefixed_agrees (name : String) (front content : ByteArray) (x : Index)
    (hparse : (Index.parse (.whole (.memory name content))).outcome = .ok x)
    (hroom : ∀ e ∈ x.entries, e.headerOffset + front.size < wordLimit)
    (hmovable : Index.Movable front.data.toList content.data.toList) :
    let w := Window.whole (.memory name content)
    let v := Window.whole (.memory name (front ++ content))
    let y := x.moved front.size
    (Index.parse v).outcome = .ok y ∧
    (∀ key : Bytes, y.find? key = (x.find? key).map (.moved front.size)) ∧
    ∀ (container : String) (e : Entry),
      let before := (recordData ⟨w, x, container⟩ e).outcome
      let after := (recordData ⟨v, y, container⟩ (e.moved front.size)).outcome
      (∃ data data' : Window, before = .ok data ∧ after = .ok data' ∧
        data'.Agrees front.size data ∧ data'.bytes = data.bytes) ∨
      ∃ f : Error, before = .error f ∧ after = .error (f.moved front.size) := by
  intro w v y
  have hsize : front.data.toList.length = front.size := Array.length_toList
  have hprefixed : w.Prefixed front.data.toList v := prefixed_memory name front content
  have hbytes : w.bytes = content.data.toList := Window.bytes_whole_memory name content
  refine ⟨?_, Index.find?_moved x front.size, fun container e => ?_⟩
  · rw [← hsize] at hroom
    rw [← hbytes] at hmovable
    have hmoved := Index.parse_of_front hparse hprefixed.intact' hprefixed.bytes hroom hmovable
    rw [hsize] at hmoved
    exact hmoved
  · intro before after
    -- Any archives with these windows will do, so the data is compared as that of two archives.
    have hfound := recordData_moved (a := ⟨w, x, container⟩) (b := ⟨v, y, container⟩)
      hprefixed rfl e
    rw [hsize] at hfound
    change Window.FoundBehind front.size before after at hfound
    generalize before = first at hfound ⊢
    generalize after = second at hfound ⊢
    cases hfound with
    | found hdata => exact Or.inl ⟨_, _, rfl, rfl, hdata.agrees, hdata.bytes⟩
    | failed f => exact Or.inr ⟨f, rfl, rfl⟩

/-- An archive with ZIP64 records. Its one entry is named `a` and holds two bytes. -/
def twoBytes : PackedArchive where
  body :=
    LocalHeader.toBytes {
      needed := 45, flags := 0, method := 0, packedTime := 0, packedDate := 0, crc := 0
      compressedSize := 2, uncompressedSize := 2, nameLength := 1, extraLength := 0 } ++
    [0x61, 0x68, 0x69]
  records := [{
    header := {
      madeBy := 45, needed := 45, flags := 0, method := 0, packedTime := 0, packedDate := 0
      crc := 0, compressedSize := 2, uncompressedSize := 2, nameLength := 1, extraLength := 0
      commentLength := 0, startDisk := 0, internalAttributes := 0, externalAttributes := 0
      headerOffset := 0 }
    name := [0x61] }]
  trailer := some {
    record := {
      recordSize := 44, madeBy := 45, needed := 45, diskNumber := 0, directoryDisk := 0
      diskEntries := 1, totalEntries := 1, directorySize := 47, directoryOffset := 33 }
    extension := []
    locator := { endRecordDisk := 0, endRecordOffset := 80, totalDisks := 1 } }
  endRecord := {
    diskNumber := 0, directoryDisk := 0, diskEntries := 0xFFFF, totalEntries := 0xFFFF
    directorySize := 0xFFFFFFFF, directoryOffset := 0xFFFFFFFF, commentLength := 0 }

/-- What is found in it. -/
def twoBytesIndex : Index where
  entries := [{
    name := [0x61], method := .stored, compressedSize := 2, uncompressedSize := 2, crc := 0
    headerOffset := 0, packedTime := 0, packedDate := 0 }]
  baseOffset := 0
  directoryOffset := 33

/-- Behind three bytes, the place that the locator names is three bytes in front of the
    ZIP64 end record. -/
theorem movable_twoBytes : Index.Movable [0x23, 0x21, 0x0A] twoBytes.toBytes := by
  intro r position l z stop hlast _ hl hz
  have hstart : twoBytes.toBytes.length - EndRecord.length = 156 := by decide +kernel
  have hend : twoBytes.endRecord.IsLastAt twoBytes.toBytes 156 := by
    rw [← hstart]
    exact Index.isLastAt_of_closesAt_end ⟨by decide +kernel, by decide +kernel⟩
  rcases EndRecord.isLastAt_unique hend hlast with ⟨rfl, rfl⟩
  have hlocator : Zip64Locator.toBytes
      { endRecordDisk := 0, endRecordOffset := 80, totalDisks := 1 } <+:
      twoBytes.toBytes.drop (156 - Zip64Locator.length) := by
    decide +kernel
  rw [← eq_of_stand Zip64Locator.ofBytes?_eq_some_iff hlocator hl] at hz ⊢
  -- The record at the declared place is the one next to the locator.
  have hstop : stop = 80 := by
    rcases hz with ⟨_, _, hdeclared | ⟨hadjacent, _⟩⟩
    · exact hdeclared
    · simp only [Zip64EndRecord.length, Zip64Locator.length] at hadjacent
      omega
  rw [hstop]
  refine ⟨by decide, fun hstale => absurd hstale ?_⟩
  decide +kernel

/-- A script of three bytes in front of an archive with ZIP64 records. -/
theorem prefixed_agrees_script :
    let front : ByteArray := ⟨#[0x23, 0x21, 0x0A]⟩
    let content : ByteArray := ⟨twoBytes.toBytes.toArray⟩
    let w := Window.whole (.memory "t" content)
    let v := Window.whole (.memory "t" (front ++ content))
    (Index.parse w).outcome = .ok twoBytesIndex ∧
    (∀ e ∈ twoBytesIndex.entries, e.headerOffset + front.size < wordLimit) ∧
    Index.Movable front.data.toList content.data.toList ∧
    (Index.parse v).outcome = .ok (twoBytesIndex.moved 3) ∧
    ∀ e ∈ twoBytesIndex.entries, ∃ data data' : Window,
      (recordData ⟨w, twoBytesIndex, "mem:t"⟩ e).outcome = .ok data ∧
      (recordData ⟨v, twoBytesIndex.moved 3, "mem:t"⟩ (e.moved 3)).outcome = .ok data' ∧
      data'.bytes = data.bytes ∧ data.bytes = [0x68, 0x69] := by
  intro front content w v
  have hparse : (Index.parse w).outcome = .ok twoBytesIndex := by decide +kernel
  have hroom : ∀ e ∈ twoBytesIndex.entries, e.headerOffset + front.size < wordLimit := by decide
  have hmoved := prefixed_agrees "t" front content twoBytesIndex hparse hroom movable_twoBytes
  refine ⟨hparse, hroom, movable_twoBytes, hmoved.1, fun e he => ?_⟩
  rw [List.mem_singleton.mp he]
  -- Two bytes are read from the archive as it was, so neither of the two fails.
  have hfound : ((recordData ⟨w, twoBytesIndex, "mem:t"⟩ twoBytesIndex.entries[0]).outcome.map
      Window.bytes) = .ok [0x68, 0x69] := by
    decide +kernel
  rcases hmoved.2.2 "mem:t" twoBytesIndex.entries[0] with
    ⟨data, data', hdata, hdata', _, hbytes⟩ | ⟨f, hfails, _⟩
  · rw [hdata] at hfound
    exact ⟨data, data', hdata, hdata', hbytes, Except.ok.inj hfound⟩
  · rw [hfails] at hfound
    exact absurd hfound (by simp only [Except.map, reduceCtorEq, not_false_eq_true])

end Archive

end NestedZip
