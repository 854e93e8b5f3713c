import NestedZip.Proofs.Checked.Record
import NestedZip.Proofs.Directory.Recognised
import NestedZip.Proofs.Directory.Soundness

/-!
# Indexing in Checked Computations

Whatever bytes are taken for an archive, indexing them meets no trap.

Every number that an archive declares may be wrong, and each of them is put
to use: as a place to read at, as the size of a buffer, as a term of a sum, as
the number of rounds of a loop. `Checked.parse` is indexing with words and
buffers, each use with its question in front of it. That it follows
`Index.parse` means that the checks on the numbers come early enough: before
the read, the buffer or the sum they are for, and on every path, also where
the ZIP64 records lead.

The end record is searched from the back here, a position at a time, and the
first match ends the search. `Index.lastEndRecord` goes through the same bytes
from the front and keeps the last match. There is one last record, so the two
find the same.

## Main definitions

* `Checked.endRecordAt`, `Checked.scanBack`: The search from the back.
* `Checked.findEndRecord`, `Checked.findZip64EndRecord`, `Checked.findBounds`:
  Where the directory is.
* `Checked.readEntries`: The records of a directory, one after the other.
* `Checked.parse`: The index of the archive in a window.

## Theorems

* `Checked.scanBack_eq`: The two searches find the same record.
* `Checked.findBounds_follows`: The directory is looked for without a trap.
* `Checked.readEntries_follows`: The position stays in the directory.
* `Checked.parse_follows`: Checked indexing does what indexing does.
* `Checked.parse_ends_well`: An index or a fault of the archive, and no trap.
-/

namespace NestedZip

namespace Checked

open Index

/-- The end record at a position of a buffer, if its comment ends with the buffer. -/
def endRecordAt (tail : Bytes) (position : Nat) : Checked Error (Option EndRecord) := do
  let signatureEnd ← add position 4
  let signature ← slice tail position signatureEnd
  if signature ≠ EndRecord.signature then return none
  else
    let lengthStart ← add position 20
    let lengthEnd ← add position 22
    let commentLength ← slice tail lengthStart lengthEnd
    let behind ← sub tail.length position
    let behind ← sub behind EndRecord.length
    if commentLength.toNatLE ≠ behind then return none
    else
      let recordEnd ← add position EndRecord.length
      let record ← slice tail position recordEnd
      return EndRecord.ofBytes? record

/-- The last end record at one of the first `count` positions of a buffer that
    starts at `start`, tried from the last position on. -/
def scanBack (tail : Bytes) (start : Nat) :
    (count : Nat) → Checked Error (Option (EndRecord × Nat))
  | 0 => return none
  | position + 1 => do
    match ← endRecordAt tail position with
    | some record =>
      let found ← add start position
      return some (record, found)
    | none => scanBack tail start position

/-- The end record of the archive in a window, and its position. -/
def findEndRecord (w : Window) : Checked Error (EndRecord × Nat) := do
  if w.size < EndRecord.length then fail (fault w 0 (.tooSmall w.size))
  else
    let offset ← sub w.size EndRecord.length
    let last ← read w offset EndRecord.length
    let commentLength ← slice last 20 22
    match if commentLength = [0, 0] then EndRecord.ofBytes? last else none with
    | some record => return (record, offset)
    | none =>
      let most ← add maxCommentLength EndRecord.length
      let start ← sub w.size (min most w.size)
      let tail ← read w start (min most w.size)
      let last ← sub tail.length EndRecord.length
      match ← scanBack tail start (last + 1) with
      | some found => return found
      | none => fail (fault w start .noEndRecord)

/-- The first of some positions at which a ZIP64 end record lies in front of `stop`.
    Whether it would is asked of the sum, which may leave the words. -/
def firstZip64EndRecord (w : Window) (stop : Nat) :
    (positions : List Nat) → Checked Error (Option (Zip64EndRecord × Nat))
  | [] => return none
  | position :: positions =>
    if stop < position + Zip64EndRecord.length then firstZip64EndRecord w stop positions
    else do
      let bytes ← read w position Zip64EndRecord.length
      match Zip64EndRecord.ofBytes? bytes with
      | some record => return some (record, position)
      | none => firstZip64EndRecord w stop positions

/-- The ZIP64 end record of the archive whose end record is at `endOffset`, and its
    position. -/
def findZip64EndRecord (w : Window) (endOffset : Nat) :
    Checked Error (Zip64EndRecord × Nat) := do
  if endOffset < Zip64Locator.length then fail (fault w endOffset .noZip64Locator)
  else
    let locatorOffset ← sub endOffset Zip64Locator.length
    let bytes ← read w locatorOffset Zip64Locator.length
    match Zip64Locator.ofBytes? bytes with
    | none => fail (fault w locatorOffset .badZip64Locator)
    | some locator =>
      let declared := locator.endRecordOffset.toNat
      let adjacent :=
        if Zip64EndRecord.length ≤ locatorOffset then [locatorOffset - Zip64EndRecord.length]
        else []
      match ← firstZip64EndRecord w locatorOffset (declared :: adjacent) with
      | some found => return found
      | none => fail (fault w declared .noZip64EndRecord)

/-- The bounds of the directory of the archive in a window, and the position of the
    end record. -/
def findBounds (w : Window) : Checked Error (Bounds × Nat) := do
  let (record, endOffset) ← findEndRecord w
  if record.isSaturated then
    let (wide, stop) ← findZip64EndRecord w endOffset
    let bounds : Bounds := {
      totalEntries := wide.totalEntries.toNat
      size := wide.directorySize.toNat
      declaredOffset := wide.directoryOffset.toNat
      stop }
    return (bounds, endOffset)
  else
    let bounds : Bounds := {
      totalEntries := record.totalEntries.toNat
      size := record.directorySize.toNat
      declaredOffset := record.directoryOffset.toNat
      stop := endOffset }
    return (bounds, endOffset)

/-- Reads `count` records from a position of the directory, which starts at `start`,
    and adds `base` to the place of every entry. Whether that sum leaves the words
    is asked, and is a fault of the archive. -/
def readEntries (w : Window) (start base : Nat) (buffer : Bytes) :
    (count index position : Nat) → (done : List Entry) → Checked Error (List Entry × Nat)
  | 0, _, position, done => return (done.reverse, position)
  | count + 1, index, position, done => do
    let recordOffset ← add start position
    let (entry, next) ← mapFailure (fun e => fault w recordOffset (.badRecord index e))
      (readRecord buffer position)
    let headerOffset := entry.headerOffset + base
    if wordLimit ≤ headerOffset then
      fail (fault w recordOffset (.headerOffsetOverflow entry.displayName))
    else
      readEntries w start base buffer count (index + 1) next ({ entry with headerOffset } :: done)

/-- The index of the archive in a window. -/
def parse (w : Window) : Checked Error Index := do
  let (bounds, endOffset) ← findBounds w
  if bounds.stop < bounds.size then
    fail (fault w endOffset (.directoryTooLarge bounds.size bounds.stop))
  else
    let start ← sub bounds.stop bounds.size
    if start < bounds.declaredOffset then
      fail (fault w endOffset (.offsetPastDirectory bounds.declaredOffset start))
    else
      let base ← sub start bounds.declaredOffset
      -- The product stays at the largest word where it would leave the words.
      if bounds.size < min (bounds.totalEntries * RecordHeader.length) (wordLimit - 1) then
        fail (fault w start (.tooManyEntries bounds.totalEntries bounds.size))
      else
        let buffer ← read w start bounds.size
        reserve w bounds.totalEntries
        let (entries, span) ← readEntries w start base buffer bounds.totalEntries 0 0 []
        if span ≠ bounds.size then
          fail (fault w start (.directorySpan bounds.totalEntries span bounds.size))
        else
          return { entries, baseOffset := base, directoryOffset := start }

theorem commentLength_of_stands {r : EndRecord} {bytes : Bytes} (h : r.toBytes <+: bytes) :
    (bytes.drop 20).take 2 = Bytes.ofNatLE 2 r.commentLength.toNat := by
  rcases h with ⟨rest, rfl⟩
  simp only [EndRecord.toBytes, EndRecord.signature, Bytes.ofNatLE, List.append_assoc]
  rfl

theorem toNatLE_commentLength (r : EndRecord) :
    Bytes.toNatLE (Bytes.ofNatLE 2 r.commentLength.toNat) = r.commentLength.toNat :=
  Bytes.toNatLE_ofNatLE r.commentLength.toNat_lt

/-- Looking at a position of a buffer is looking at the bytes from there on. -/
theorem endRecordAt_eq {tail : Bytes} (hwords : tail.length < wordLimit) {position : Nat}
    (hposition : position + EndRecord.length ≤ tail.length) :
    endRecordAt tail position =
      .ok (endRecordAtFront? (tail.length - position) (tail.drop position)) := by
  have hlength : EndRecord.length = 22 := rfl
  have hslice : EndRecord.ofBytes? ((tail.drop position).take EndRecord.length) =
      EndRecord.ofBytes? (tail.drop position) := by
    ext r
    rw [EndRecord.ofBytes?_eq_some_iff, EndRecord.ofBytes?_eq_some_iff,
      prefix_slice_iff r.length_toBytes]
  unfold endRecordAt endRecordAtFront?
  -- There is room for a whole record, so every question here is answered with yes.
  rw [add_of_lt (by omega), except_ok_bind, slice_of_le (by omega) (by omega), except_ok_bind,
    Nat.add_sub_cancel_left]
  rw [add_of_lt (by omega), add_of_lt (by omega), except_ok_bind, except_ok_bind,
    slice_of_le (by omega) (by omega), except_ok_bind, sub_of_le (by omega), except_ok_bind,
    sub_of_le (by omega), except_ok_bind, add_of_lt (by omega), except_ok_bind,
    slice_of_le (by omega) (by omega), except_ok_bind, Nat.add_sub_cancel_left, hslice,
    show position + 22 - (position + 20) = 2 by omega, ← List.drop_drop]
  rcases hrecord : EndRecord.ofBytes? (tail.drop position) with _ | r
  · -- Without a record the answer is the same, whatever the questions in front of it say.
    simp only [Option.bind_eq_bind, Option.bind_none]
    split
    · rfl
    · split
      · rfl
      · rfl
  · have hstands := EndRecord.ofBytes?_eq_some_iff.mp hrecord
    rw [EndRecord.signature_of_stands hstands, commentLength_of_stands hstands,
      toNatLE_commentLength, if_neg (not_not_intro rfl)]
    simp only [Option.bind_eq_bind, Option.bind_some]
    by_cases hcloses : r.commentLength.toNat + EndRecord.length = tail.length - position
    · rw [if_pos hcloses, if_neg (not_not_intro (by omega))]
      rfl
    · rw [if_neg hcloses, if_pos (by omega)]
      rfl

theorem endRecordAtFront?_drop {tail : Bytes} {position : Nat} (hle : position ≤ tail.length)
    {r : EndRecord} :
    endRecordAtFront? (tail.length - position) (tail.drop position) = some r ↔
      r.ClosesAt tail position := by
  rw [endRecordAtFront?_eq_some_iff List.length_drop, EndRecord.closesAt_drop hle, Nat.add_zero]

/-- The search from the back stops at the last record of the part it has gone
    through. -/
theorem scanBack_spec {tail : Bytes} {start : Nat} (hwords : start + tail.length < wordLimit)
    {count : Nat} (hcount : count + EndRecord.length ≤ tail.length + 1) :
    (∃ (r : EndRecord) (p : Nat), r.ClosesAt tail p ∧
      (∀ (q : Nat) (other : EndRecord), p < q → q < count → ¬ other.ClosesAt tail q) ∧
      scanBack tail start count = .ok (some (r, start + p))) ∨
    ((∀ (r : EndRecord) (p : Nat), p < count → ¬ r.ClosesAt tail p) ∧
      scanBack tail start count = .ok none) := by
  -- The invariant: what is found among the first positions is the last among them.
  induction count with
  | zero => exact Or.inr ⟨fun r p hp => absurd hp (Nat.not_lt_zero p), rfl⟩
  | succ position ih =>
      have hle : position ≤ tail.length := by omega
      have hlook := @endRecordAt_eq tail (by omega) position (by omega)
      rw [scanBack, hlook, except_ok_bind]
      rcases hhere : endRecordAtFront? (tail.length - position) (tail.drop position) with _ | r
      · -- Nothing closes the buffer here, so it is the positions in front that count.
        have hnot : ∀ r : EndRecord, ¬ r.ClosesAt tail position := by
          intro r hcloses
          rw [← endRecordAtFront?_drop hle, hhere] at hcloses
          exact absurd hcloses (by simp only [reduceCtorEq, not_false_eq_true])
        rcases ih (by omega) with ⟨r, p, hcloses, hlast, hscan⟩ | ⟨hnone, hscan⟩
        · refine Or.inl ⟨r, p, hcloses, fun q other hlt hq => ?_, hscan⟩
          rcases Nat.lt_succ_iff_lt_or_eq.mp hq with hq | rfl
          · exact hlast q other hlt hq
          · exact hnot other
        · refine Or.inr ⟨fun r p hp => ?_, hscan⟩
          rcases Nat.lt_succ_iff_lt_or_eq.mp hp with hp | rfl
          · exact hnone r p hp
          · exact hnot r
      · have hcloses := (endRecordAtFront?_drop hle).mp hhere
        refine Or.inl ⟨r, position, hcloses, fun q other hlt hq => ?_, ?_⟩
        · omega
        · simp only
          rw [add_of_lt (by omega)]
          rfl

/-- From the back or from the front, the same record is found. -/
theorem scanBack_eq {tail : Bytes} {start : Nat} (hwords : start + tail.length < wordLimit)
    (hroom : EndRecord.length ≤ tail.length) :
    scanBack tail start (tail.length - EndRecord.length + 1) =
      .ok (lastEndRecord tail.length start tail none) := by
  -- No record closes the buffer from a position that leaves no room for it.
  have hinside : ∀ (r : EndRecord) (p : Nat), r.ClosesAt tail p →
      p < tail.length - EndRecord.length + 1 := by
    intro r p hcloses
    have hlength := hcloses.2
    omega
  rcases @scanBack_spec tail start hwords (tail.length - EndRecord.length + 1) (by omega) with
    ⟨r, p, hcloses, hlast, hscan⟩ | ⟨hnone, hscan⟩
  · have hback : r.IsLastAt tail p := ⟨hcloses, fun q other hlt hother =>
      hlast q other hlt (hinside other q hother) hother⟩
    rcases lastEndRecord_spec tail start none with ⟨r', p', hfront, hfound⟩ | ⟨hnone, _⟩
    · rcases EndRecord.isLastAt_unique hback hfront with ⟨rfl, rfl⟩
      rw [hscan, hfound]
    · exact absurd hcloses (hnone r p)
  · rcases lastEndRecord_spec tail start none with ⟨r', p', hfront, _⟩ | ⟨_, hfound⟩
    · exact absurd hfront.1 (hnone r' p' (hinside r' p' hfront.1))
    · rw [hscan, hfound]

/-- The last bytes are an end record without a comment if the length of the comment
    is two zeros. -/
theorem endRecordAtFront?_of_last {last : Bytes} :
    (if (last.drop 20).take 2 = [0, 0] then EndRecord.ofBytes? last else none) =
      endRecordAtFront? EndRecord.length last := by
  unfold endRecordAtFront?
  rcases hrecord : EndRecord.ofBytes? last with _ | r
  · simp only [ite_self, Option.bind_eq_bind, Option.bind_none]
  rw [commentLength_of_stands (EndRecord.ofBytes?_eq_some_iff.mp hrecord)]
  simp only [Option.bind_eq_bind, Option.bind_some]
  -- Both ask for a comment of no length, once by its bytes and once by the number.
  have hzero : Bytes.ofNatLE 2 r.commentLength.toNat = [0, 0] ↔
      r.commentLength.toNat + EndRecord.length = EndRecord.length := by
    have hlength := toNatLE_commentLength r
    constructor
    · intro h
      rw [h] at hlength
      rw [← hlength]
      rfl
    · intro h
      rw [show r.commentLength.toNat = 0 by omega]
      rfl
  by_cases hlength : Bytes.ofNatLE 2 r.commentLength.toNat = [0, 0]
  · rw [if_pos hlength, if_pos (hzero.mp hlength)]
  · rw [if_neg hlength, if_neg (fun h => hlength (hzero.mpr h))]

/-- A failure that says what is wrong with the archive in a window. -/
def IsFault (w : Window) (e : Error) : Prop :=
  ∃ (offset : Nat) (f : ArchiveFault), e = .malformedArchive w.identity offset f

theorem fail_fault {α β : Type} {R : α → β → Prop} (w : Window) (offset : Nat)
    (f : ArchiveFault) :
    Follows (IsFault w) R (.error (fault w offset f)) (fail (fault w offset f)) :=
  .fail ⟨offset, f, rfl⟩

section

variable {w : Window} (hw : w.Intact) (hwords : w.backing.bytes.length < wordLimit)

include hw hwords

/-- The search for the end record, with every sum, slice and buffer checked, is the search without.
    The last bytes are tried first, and the rest of the range from its end. -/
theorem findEndRecord_follows :
    Follows (IsFault w) Eq (Index.findEndRecord w).outcome (findEndRecord w) := by
  have hwithin := hw.within
  have hsize := Window.size_of_intact hw
  have hbytes := Window.length_bytes hw
  unfold Index.findEndRecord findEndRecord
  by_cases hsmall : w.size < EndRecord.length
  · simp only [if_pos hsmall]
    exact fail_fault w _ _
  simp only [if_neg hsmall]
  rw [sub_of_le (by omega), except_ok_bind]
  refine (read_follows hw hwords (by omega)).bind_outcome ?_
  rintro _ last _ ⟨hlast, rfl⟩
  -- A buffer of just the size of a record is sliced, which has to be shown.
  have hlength : last.length = 22 := by
    rw [hlast, List.length_take, List.length_drop, hbytes, hsize]
    exact Nat.min_eq_left (by omega)
  rw [slice_of_le (by omega) (by omega), except_ok_bind, endRecordAtFront?_of_last]
  rcases endRecordAtFront? EndRecord.length last with _ | r
  · -- The last bytes alone do not say it, so the record is searched for.
    simp only
    have hmost : maxCommentLength + EndRecord.length = 65557 := rfl
    have hword : wordLimit = 18446744073709551616 := rfl
    rw [add_of_lt (by omega), except_ok_bind, sub_of_le (Nat.min_le_right _ _), except_ok_bind]
    refine (read_follows hw hwords (by omega)).bind_outcome ?_
    rintro _ tail _ ⟨htail, rfl⟩
    have hcount : tail.length = min (maxCommentLength + EndRecord.length) w.size := by
      rw [htail, List.length_take, List.length_drop, hbytes, hsize]
      omega
    -- The search runs over the buffer that was read, which has the smaller of the two lengths.
    rw [sub_of_le (by omega), except_ok_bind, scanBack_eq (by omega) (by omega), except_ok_bind,
      hcount]
    rcases lastEndRecord _ _ tail none with _ | found
    · exact fail_fault w _ _
    · exact .ok rfl
  · exact .ok rfl

/-- At each position it is checked that the record ends in front of the locator, so there is room to
    read it. -/
theorem firstZip64EndRecord_follows {stop : Nat} (hstop : stop ≤ w.length)
    (positions : List Nat) :
    Follows (IsFault w) Eq (Index.firstZip64EndRecord w stop positions).outcome
      (firstZip64EndRecord w stop positions) := by
  induction positions with
  | nil => exact .ok rfl
  | cons position positions ih =>
      rw [Index.firstZip64EndRecord, firstZip64EndRecord]
      -- The same question decides in both whether the position is passed over.
      by_cases hpast : stop < position + Zip64EndRecord.length
      · rw [if_pos hpast, if_pos hpast]
        exact ih
      rw [if_neg hpast, if_neg hpast]
      refine (read_follows hw hwords (by omega)).bind_outcome ?_
      rintro _ bytes _ ⟨_, rfl⟩
      rcases Zip64EndRecord.ofBytes? bytes with _ | record
      · exact ih
      · exact .ok rfl

/-- In front of the end record there may be too little room for a locator, which is seen before the
    position of one is computed. -/
theorem findZip64EndRecord_follows {endOffset : Nat} (hend : endOffset ≤ w.length) :
    Follows (IsFault w) Eq (Index.findZip64EndRecord w endOffset).outcome
      (findZip64EndRecord w endOffset) := by
  unfold Index.findZip64EndRecord findZip64EndRecord
  by_cases hroom : endOffset < Zip64Locator.length
  · rw [if_pos hroom, if_pos hroom]
    exact fail_fault w _ _
  rw [if_neg hroom, if_neg hroom, sub_of_le (by omega), except_ok_bind]
  refine (read_follows hw hwords (by omega)).bind_outcome ?_
  rintro _ bytes _ ⟨_, rfl⟩
  rcases Zip64Locator.ofBytes? bytes with _ | locator
  · exact fail_fault w _ _
  refine (firstZip64EndRecord_follows hw hwords (by omega) _).bind_outcome ?_
  rintro found _ _ rfl
  cases found with
  | none => exact fail_fault w _ _
  | some found => exact .ok rfl

/-- The bounds come from the end record, or from the wide one if it is saturated. -/
theorem findBounds_follows :
    Follows (IsFault w) Eq (Index.findBounds w).outcome (findBounds w) := by
  have hbytes := Window.length_bytes hw
  unfold Index.findBounds findBounds
  refine (findEndRecord_follows hw hwords).bind_outcome ?_
  rintro ⟨record, endOffset⟩ _ hfound rfl
  -- A record that was found lies inside the window.
  have hlength := (findEndRecord_eq_ok hfound).2.1.2
  by_cases hwide : record.isSaturated
  · simp only [hwide, if_true]
    refine (findZip64EndRecord_follows hw hwords (by omega)).bind_outcome ?_
    rintro ⟨wide, stop⟩ _ _ rfl
    exact .ok rfl
  · simp only [hwide]
    exact .ok rfl

end

/-- The entries are the same, and the position stays inside the directory. -/
theorem readEntries_follows {w : Window} {start base : Nat} {buffer : Bytes}
    (hwords : start + buffer.length + 131074 < wordLimit) {count index position : Nat}
    (hposition : position ≤ buffer.length) (done : List Entry) :
    Follows (IsFault w) Eq
      (Index.readEntries w start base count index position (buffer.drop position) done)
      (readEntries w start base buffer count index position done) := by
  induction count generalizing index position done with
  | zero => exact .ok rfl
  | succ count ih =>
      rw [Index.readEntries, readEntries, add_of_lt (by omega), except_ok_bind]
      have hrecord := @readRecord_follows buffer (by omega) position hposition
      generalize Entry.read (buffer.drop position) = x at hrecord
      generalize readRecord buffer position = c at hrecord
      cases hrecord with
      | fail _ => exact fail_fault w _ _
      | @ok read next hbehind =>
          obtain ⟨entry, span, rest⟩ := read
          obtain ⟨entry', next⟩ := next
          obtain ⟨hentry, hmoved, hrest, hwithin⟩ := hbehind
          simp only at hentry hmoved hrest hwithin
          subst hentry hmoved hrest
          change Follows _ _ _ (if _ then _ else _)
          simp only
          -- The one sum that an archive can make too large is a fault on both sides.
          by_cases hlarge : wordLimit ≤ entry.headerOffset + base
          · rw [if_pos hlarge, if_pos hlarge]
            exact fail_fault w _ _
          · rw [if_neg hlarge, if_neg hlarge]
            exact ih hwithin _

/-- Indexing with words and buffers, and what it checks, does what indexing with
    numbers and lists does. -/
theorem parse_follows {w : Window} (hw : w.Intact)
    (hwords : w.backing.bytes.length + 131074 < wordLimit) :
    Follows (IsFault w) Eq (Index.parse w).outcome (parse w) := by
  have hwithin := hw.within
  have hbytes := Window.length_bytes hw
  have hsize := Window.size_of_intact hw
  unfold Index.parse parse
  refine (findBounds_follows hw (by omega)).bind_outcome ?_
  rintro ⟨bounds, endOffset⟩ _ hbounds rfl
  rcases findBounds_eq_ok hbounds with ⟨_, r, hlast, htaken⟩
  -- The directory stops in front of the end record, which is inside the window.
  have hend := hlast.1.2
  have hstop := stop_le_of_takenFrom htaken
  simp only
  by_cases hlarge : bounds.stop < bounds.size
  · rw [if_pos hlarge, if_pos hlarge]
    exact fail_fault w _ _
  rw [if_neg hlarge, if_neg hlarge, sub_of_le (by omega), except_ok_bind]
  by_cases hpast : bounds.stop - bounds.size < bounds.declaredOffset
  · rw [if_pos hpast, if_pos hpast]
    exact fail_fault w _ _
  rw [if_neg hpast, if_neg hpast, sub_of_le (by omega), except_ok_bind]
  by_cases hmany : bounds.size < min (bounds.totalEntries * RecordHeader.length) (wordLimit - 1)
  · rw [if_pos hmany, if_pos hmany]
    exact fail_fault w _ _
  rw [if_neg hmany, if_neg hmany]
  refine (read_follows hw (by omega) (by omega)).bind_outcome ?_
  rintro _ buffer _ ⟨hbuffer, rfl⟩
  have hlength : buffer.length = bounds.size := by
    rw [hbuffer, List.length_take, List.length_drop]
    omega
  -- The directory has room for its records, so there is a byte for every one of them.
  have hroom : bounds.totalEntries ≤ w.size := by
    rw [show RecordHeader.length = 46 from rfl] at hmany
    omega
  rw [reserve_of_le hroom, except_ok_bind]
  have hentries := @readEntries_follows w (bounds.stop - bounds.size)
    (bounds.stop - bounds.size - bounds.declaredOffset) buffer (by omega) bounds.totalEntries 0 0
    (Nat.zero_le _) []
  refine Follows.bind_outcome hentries ?_
  rintro ⟨entries, span⟩ _ _ rfl
  simp only
  by_cases hspan : span ≠ bounds.size
  · rw [if_pos hspan, if_pos hspan]
    exact fail_fault w _ _
  · rw [if_neg hspan, if_neg hspan]
    exact .ok rfl

/-- Whatever an intact window shows, indexing it ends: with an index, or with a
    fault of the archive under the name of the source. Computing with words and
    buffers ends the same way, without a trap. No buffer and no file is larger
    than a signed word can say. -/
theorem parse_ends_well {w : Window} (hw : w.Intact) (hsize : w.backing.bytes.length < 2 ^ 63) :
    (∃ x, (Index.parse w).outcome = .ok x ∧ parse w = .ok x) ∨
    ∃ (offset : Nat) (f : ArchiveFault),
      (Index.parse w).outcome = .error (.malformedArchive w.identity offset f) ∧
      parse w = fail (.malformedArchive w.identity offset f) := by
  have hwords : w.backing.bytes.length + 131074 < wordLimit := by
    have hlimit : wordLimit = 2 ^ 64 := rfl
    omega
  have hfollows := parse_follows hw hwords
  -- A failure is followed by the same one and a trap by none, so none of the two can trap.
  rcases hx : (Index.parse w).outcome with e | x
  · rw [hx] at hfollows
    generalize parse w = c at hfollows
    cases hfollows with
    | fail he =>
        rcases he with ⟨offset, f, rfl⟩
        exact Or.inr ⟨offset, f, rfl, rfl⟩
  · rw [hx] at hfollows
    generalize parse w = c at hfollows
    cases hfollows with
    | ok h => exact Or.inl ⟨x, rfl, congrArg Except.ok h.symm⟩

/-- An archive behind a byte that its end record does not know of. -/
theorem parse_shifted_ends_well :
    let w := Window.whole (.memory "shifted" ⟨shifted.toArray⟩)
    w.Intact ∧ w.backing.bytes.length < 2 ^ 63 ∧
    ((∃ x, (Index.parse w).outcome = .ok x ∧ parse w = .ok x) ∨
    ∃ (offset : Nat) (f : ArchiveFault),
      (Index.parse w).outcome = .error (.malformedArchive w.identity offset f) ∧
      parse w = fail (.malformedArchive w.identity offset f)) := by
  intro w
  have hw : w.Intact := Window.intact_whole_memory _ _
  have hsize : w.backing.bytes.length < 2 ^ 63 := by decide +kernel
  exact ⟨hw, hsize, parse_ends_well hw hsize⟩

end Checked

end NestedZip
