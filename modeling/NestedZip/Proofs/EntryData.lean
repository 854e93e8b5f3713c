import NestedZip.Proofs.Directory.Recognised
import NestedZip.Proofs.Resolving.Walk

/-!
# Where the Data of an Entry Is

When the data of an entry is found, where it then is, and what is said where
it is not found.

A directory tells where the local header of an entry is and how long its data
is, but not where the data starts: the local header has a name and an extra
field of its own, whose lengths are its own as well. So every number is
checked against the archive before anything is read by it, and the checks have
an order, which decides the failure if more than one thing is wrong: the
header has to lie in the archive, it has to be one, the method has to be
known, and the data has to lie in the archive.

`dataStart` is the sum that this comes to, written with the two lengths as
they stand in the bytes. It is never cut off: once the header lies in the
archive the sum is at most two lengths behind the end of the source.

A window inside a window is `Within` it, and this goes on through any number
of archives. What is found therefore lies in every archive around it, and it
never reaches the start of one: a header is in front of it.

## Main definitions

* `Window.Within`: A window inside another one.
* `Entry.storedLength?`: How many bytes the data of an entry takes up.
* `Archive.dataStart`: Where the data starts, by the lengths in the bytes.
* `Archive.Headed`: A local header stands where the entry says.
* `Archive.FoundAt`: What is found is the data of the entry.

## Theorems

* `Archive.descend_within`: A nested archive lies in all archives around it.
* `Archive.dataOffset_of_headed` and its like: What reading the header answers.
* `Archive.recordData_of_fits` and its like: What looking for the data answers.
* `Archive.recordData_exact`: When the data is found and where, and otherwise
  the first thing that is wrong.
-/

namespace NestedZip

namespace Window

/-- A window that lies inside another one of the same source. -/
structure Within (inner outer : Window) : Prop where
  backing : inner.backing = outer.backing
  start : outer.offset ≤ inner.offset
  stop : inner.offset + inner.length ≤ outer.offset + outer.length

theorem Within.refl (w : Window) : w.Within w := ⟨rfl, Nat.le_refl _, Nat.le_refl _⟩

theorem Within.trans {inner middle outer : Window} (h : inner.Within middle)
    (h' : middle.Within outer) : inner.Within outer where
  backing := h.backing.trans h'.backing
  start := Nat.le_trans h'.start h.start
  stop := Nat.le_trans h.stop h'.stop

theorem within_part (w : Window) (offset length : Nat) (h : offset + length ≤ w.length) :
    (w.part offset length).Within w where
  backing := rfl
  start := Nat.le_add_right _ _
  stop := by
    change w.offset + offset + length ≤ w.offset + w.length
    omega

end Window

/-- The number of bytes that the data of an entry takes up in its archive, if its
    method is known. -/
def Entry.storedLength? (e : Entry) : Option Nat :=
  match e.method with
  | .stored => some e.uncompressedSize
  | .deflated => some e.compressedSize
  | .unsupported _ => none

namespace Archive

variable {a b : Archive} {e : Entry}

/-- Where the data of an entry starts in the archive, with the lengths that stand at
    the end of its local header. -/
def dataStart (a : Archive) (e : Entry) : Nat :=
  e.headerOffset + 30 + a.window.bytes.numberAt 2 (e.headerOffset + 26) +
    a.window.bytes.numberAt 2 (e.headerOffset + 28)

/-- The local header of an entry lies in the archive and starts with its signature. -/
structure Headed (a : Archive) (e : Entry) : Prop where
  inside : e.headerOffset + 30 ≤ a.size
  signature : (a.window.bytes.drop e.headerOffset).take 4 = [0x50, 0x4B, 0x03, 0x04]

/-- The window is that of the data of an entry of an archive. It starts behind the
    local header, is as long as the directory says, and lies in the archive, and so
    in its source and in every archive around it. -/
structure FoundAt (a : Archive) (e : Entry) (data : Window) : Prop where
  offset : data.offset = a.window.offset + a.dataStart e
  length : e.storedLength? = some data.length
  within : data.Within a.window
  behind : a.window.offset < data.offset
  inSource : data.offset + data.length ≤ a.window.backing.bytes.length
  inAll : ∀ (outer : Archive) (names : List Bytes),
    (outer.descend names).outcome = .ok a → data.Within outer.window
  compressed : data.isCompressed = true ↔ e.method = .deflated
  size : data.size = e.uncompressedSize

/-- A nested archive lies in the one around it, and however far down an archive is,
    it lies in the one that the way started from. -/
theorem descend_within {names : List Bytes} (h : (a.descend names).outcome = .ok b) :
    b.window.Within a.window := by
  induction names generalizing a with
  | nil =>
      rw [show a = b from Except.ok.inj h]
      exact Window.Within.refl _
  | cons name names ih =>
      obtain ⟨inner, hnested, hnames⟩ := descend_cons_eq_ok_iff.mp h
      obtain ⟨data, hdata, hinner⟩ := nestedArchive_eq_ok_iff.mp hnested
      -- Its window was cut out of the one around it.
      obtain ⟨offset, length, _, hfits, rfl⟩ := nestedSource_eq_ok hdata
      have hone := Window.within_part a.window offset length hfits
      rw [← (ofWindow_eq_ok hinner).2.2.2.1] at hone
      exact (ih hnames).trans hone

theorem size_of_intact (hw : a.window.Intact) : a.size = a.window.length :=
  Window.size_of_intact hw

/-- A header that would leave the archive is not read. -/
theorem dataOffset_of_past (hw : a.window.Intact) (h : a.size < e.headerOffset + 30) :
    (a.dataOffset e).outcome =
      .error (.outOfBounds a.window.identity
        (min (a.window.offset + e.headerOffset) (wordLimit - 1)) 30 a.size) := by
  rw [size_of_intact hw] at h ⊢
  have hcarve := Window.carve_of_past hw.plain (Nat.not_le_of_lt h)
  have hread : (a.window.readExactAt e.headerOffset LocalHeader.length).outcome =
      .error (.outOfBounds a.window.identity
        (min (a.window.offset + e.headerOffset) (wordLimit - 1)) 30 a.window.length) := by
    unfold Window.readExactAt
    rw [LocalHeader.length, hcarve, Metered.bind_of_error (Metered.outcome_ofExcept _)]
  unfold dataOffset
  rw [Metered.bind_of_error hread]

/-- Bytes that do not start with the signature are no header. -/
theorem dataOffset_of_unsigned (hw : a.window.Intact) (hinside : e.headerOffset + 30 ≤ a.size)
    (h : (a.window.bytes.drop e.headerOffset).take 4 ≠ [0x50, 0x4B, 0x03, 0x04]) :
    (a.dataOffset e).outcome =
      .error (.malformedArchive a.window.identity e.headerOffset
        (.badLocalHeader e.displayName)) := by
  rw [size_of_intact hw] at hinside
  have hread := Window.readExactAt_of_intact hw e.headerOffset LocalHeader.length hinside
  unfold dataOffset
  rw [Metered.bind_of_ok (congrArg Metered.outcome hread)]
  -- A header that could be read would have the signature in front.
  rcases hheader : LocalHeader.ofBytes?
    ((a.window.bytes.drop e.headerOffset).take LocalHeader.length) with _ | header
  · rfl
  · rw [LocalHeader.ofBytes?_eq_some_iff, Index.prefix_slice_iff header.length_toBytes] at hheader
    exact absurd (LocalHeader.signature_of_stands hheader) h

/-- All else is a header, and the data starts behind what it declares. -/
theorem dataOffset_of_headed (hw : a.window.Intact) (h : a.Headed e) :
    (a.dataOffset e).outcome = .ok (a.dataStart e) := by
  have hinside := h.inside
  rw [size_of_intact hw] at hinside
  have hroom : LocalHeader.length ≤ (a.window.bytes.drop e.headerOffset).length := by
    rw [List.length_drop, Window.length_bytes hw, LocalHeader.length]
    omega
  -- The two lengths of that header are the numbers in the bytes of the archive.
  obtain ⟨header, hstands⟩ := LocalHeader.exists_stands_iff.mpr ⟨h.signature, hroom⟩
  have hname := LocalHeader.numberAt_nameLength hstands
  have hextra := LocalHeader.numberAt_extraLength hstands
  rw [Bytes.numberAt_drop] at hname hextra
  rw [dataOffset_of_stands hw hinside hstands, dataStart, hname, hextra]
  simp only [LocalHeader.dataOffset, LocalHeader.length, Nat.add_assoc]

theorem recordData_of_error {err : Error} (h : (a.dataOffset e).outcome = .error err) :
    (a.recordData e).outcome = .error err := by
  unfold recordData
  rw [Metered.bind_of_error h]

theorem recordData_of_unsupported (hw : a.window.Intact) (h : a.Headed e) {number : UInt16}
    (hmethod : e.method = .unsupported number) :
    (a.recordData e).outcome =
      .error (.unsupportedCompression a.url e.displayName number) := by
  unfold recordData
  rw [Metered.bind_of_ok (dataOffset_of_headed hw h), hmethod]
  rfl

/-- Data of a known method that would leave the archive is not found. -/
theorem recordData_of_past (hw : a.window.Intact) (h : a.Headed e) {length : Nat}
    (hlength : e.storedLength? = some length) (hpast : a.size < a.dataStart e + length) :
    (a.recordData e).outcome =
      .error (.outOfBounds a.window.identity
        (min (a.window.offset + a.dataStart e) (wordLimit - 1)) length a.size) := by
  rw [size_of_intact hw] at hpast ⊢
  have hcarve := Window.carve_of_past hw.plain (Nat.not_le_of_lt hpast)
  -- Whether the data is compressed is not asked before it has been cut out.
  unfold Entry.storedLength? at hlength
  unfold recordData
  rw [Metered.bind_of_ok (dataOffset_of_headed hw h)]
  cases hmethod : e.method with
  | stored =>
      rw [hmethod, Option.some.injEq] at hlength
      simp only [hlength, hcarve, Metered.outcome_ofExcept]
  | deflated =>
      rw [hmethod, Option.some.injEq] at hlength
      simp only [hlength, hcarve, Metered.bind_of_error (Metered.outcome_ofExcept _)]
  | unsupported number =>
      rw [hmethod] at hlength
      exact absurd hlength (Option.some_ne_none length).symm

/-- Data that lies in the archive is found. -/
theorem recordData_of_fits (hw : a.window.Intact) (h : a.Headed e) {length : Nat}
    (hlength : e.storedLength? = some length) (hfits : a.dataStart e + length ≤ a.size) :
    ∃ data, (a.recordData e).outcome = .ok data ∧ a.FoundAt e data := by
  rw [size_of_intact hw] at hfits
  have hcarve := Window.carve_of_plain hw.plain _ _ hfits
  have hwithin := Window.within_part a.window _ _ hfits
  -- What is said of the place is the same for both methods.
  have hsource := (hw.part _ _ hfits).within
  have hbehind : a.window.offset < a.window.offset + a.dataStart e := by
    unfold dataStart
    omega
  have houter : ∀ (outer : Archive) (names : List Bytes), (outer.descend names).outcome = .ok a →
      (a.window.part (a.dataStart e) length).Within outer.window :=
    fun _ _ hdescend => hwithin.trans (descend_within hdescend)
  have hstored := hlength
  unfold Entry.storedLength? at hlength
  unfold recordData
  rw [Metered.bind_of_ok (dataOffset_of_headed hw h)]
  -- The two known methods find the same range, and differ in what is said of its bytes.
  cases hmethod : e.method with
  | stored =>
      rw [hmethod, Option.some.injEq] at hlength
      refine ⟨a.window.part (a.dataStart e) length, ?_, ?_⟩
      · simp only [hlength, hcarve, Metered.outcome_ofExcept]
      · exact {
          offset := rfl
          length := hstored
          within := hwithin
          behind := hbehind
          inSource := hsource
          inAll := houter
          compressed := by simp only [hmethod, Window.isCompressed, Window.part,
            Option.isSome_none, Bool.false_eq_true, reduceCtorEq]
          size := hlength.symm }
  | deflated =>
      rw [hmethod, Option.some.injEq] at hlength
      refine ⟨(a.window.part (a.dataStart e) length).inflating e.uncompressedSize, ?_, ?_⟩
      · simp only [hlength, hcarve, Metered.bind_of_ok (Metered.outcome_ofExcept _),
          Metered.outcome_pure]
      · exact {
          offset := rfl
          length := hstored
          within := ⟨hwithin.backing, hwithin.start, hwithin.stop⟩
          behind := hbehind
          inSource := hsource
          inAll := fun outer names hdescend =>
            ⟨(houter outer names hdescend).backing, (houter outer names hdescend).start,
              (houter outer names hdescend).stop⟩
          compressed := by simp only [hmethod, Window.isCompressed, Window.inflating,
            Option.isSome_some]
          size := rfl }
  | unsupported number =>
      rw [hmethod] at hlength
      exact absurd hlength (Option.some_ne_none length).symm

/-- Once the local header of an entry lies in a source of less than half as many
    bytes as there are words, the place of the data is a word. -/
theorem dataStart_lt (hw : a.window.Intact) (hsmall : a.window.backing.bytes.length < 2 ^ 63)
    (hinside : e.headerOffset + 30 ≤ a.size) : a.window.offset + a.dataStart e < wordLimit := by
  have hwithin := hw.within
  have hlength : ∀ position, a.window.bytes.numberAt 2 position < 2 ^ 16 := by
    intro position
    have hlt := Bytes.toNatLE_lt ((a.window.bytes.drop position).take 2)
    have hle := List.length_take_le 2 (a.window.bytes.drop position)
    have hpow := Nat.pow_le_pow_right (show 0 < 256 by decide) hle
    exact Nat.lt_of_lt_of_le hlt hpow
  -- The header ends in the source, and the two lengths are words of two bytes.
  have hname := hlength (e.headerOffset + 26)
  have hextra := hlength (e.headerOffset + 28)
  rw [size_of_intact hw] at hinside
  unfold dataStart
  rw [wordLimit, UInt64.size]
  omega

/-- In an opened archive the data of an entry is found exactly if its local header
    lies in the archive and is one, the method is known, and the data lies in the
    archive. No sum leaves the words on the way there. Otherwise the first of these
    that does not hold is what is complained of. -/
theorem recordData_exact {w : Window} {container : String}
    (hopen : (ofWindow w container).outcome = .ok a)
    (hsmall : w.backing.bytes.length < 2 ^ 63) (e : Entry) :
    ((∃ data, (a.recordData e).outcome = .ok data) ↔
      a.Headed e ∧ ∃ length, e.storedLength? = some length ∧ a.dataStart e + length ≤ a.size) ∧
    (∀ data, (a.recordData e).outcome = .ok data → a.FoundAt e data) ∧
    (e.headerOffset + 30 ≤ a.size → w.offset + a.dataStart e < wordLimit) ∧
    (a.size < e.headerOffset + 30 →
      (a.recordData e).outcome = .error (.outOfBounds w.identity
        (min (w.offset + e.headerOffset) (wordLimit - 1)) 30 a.size)) ∧
    (e.headerOffset + 30 ≤ a.size → ¬ a.Headed e →
      (a.recordData e).outcome = .error (.malformedArchive w.identity e.headerOffset
        (.badLocalHeader e.displayName))) ∧
    (a.Headed e → ∀ number, e.method = .unsupported number →
      (a.recordData e).outcome =
        .error (.unsupportedCompression a.url e.displayName number)) ∧
    (a.Headed e → ∀ length, e.storedLength? = some length →
      a.size < a.dataStart e + length →
      (a.recordData e).outcome = .error (.outOfBounds w.identity
        (w.offset + a.dataStart e) length a.size)) := by
  obtain ⟨hw, _, _, rfl, _⟩ := ofWindow_eq_ok hopen
  have hpast := fun h => recordData_of_error (@dataOffset_of_past a e hw h)
  have hunsigned : e.headerOffset + 30 ≤ a.size → ¬ a.Headed e →
      (a.recordData e).outcome = .error (.malformedArchive a.window.identity e.headerOffset
        (.badLocalHeader e.displayName)) := fun hinside hnot =>
    recordData_of_error (dataOffset_of_unsigned hw hinside fun h => hnot ⟨hinside, h⟩)
  have hover : a.Headed e → ∀ length, e.storedLength? = some length →
      a.size < a.dataStart e + length →
      (a.recordData e).outcome = .error (.outOfBounds a.window.identity
        (a.window.offset + a.dataStart e) length a.size) := by
    intro hheaded length hlength hlong
    have hword := dataStart_lt hw hsmall hheaded.inside
    rw [recordData_of_past hw hheaded hlength hlong, Nat.min_eq_left (by omega)]
  have hunsupported : a.Headed e → ∀ number, e.method = .unsupported number →
      (a.recordData e).outcome = .error (.unsupportedCompression a.url e.displayName number) :=
    fun hheaded number hmethod => recordData_of_unsupported hw hheaded hmethod
  -- A success leaves none of the four failures.
  have hsuccess : ∀ data, (a.recordData e).outcome = .ok data →
      a.Headed e ∧ ∃ length, e.storedLength? = some length ∧
        a.dataStart e + length ≤ a.size := by
    intro data hdata
    have hheaded : a.Headed e := by
      by_contra hnot
      rcases Nat.lt_or_ge a.size (e.headerOffset + 30) with hout | hinside
      · exact absurd ((hpast hout).symm.trans hdata) error_ne_ok
      · exact absurd ((hunsigned hinside hnot).symm.trans hdata) error_ne_ok
    rcases hlength : e.storedLength? with _ | length
    · rcases hmethod : e.method with _ | _ | number
      · rw [Entry.storedLength?, hmethod] at hlength
        exact absurd hlength (Option.some_ne_none _)
      · rw [Entry.storedLength?, hmethod] at hlength
        exact absurd hlength (Option.some_ne_none _)
      · exact absurd ((hunsupported hheaded number hmethod).symm.trans hdata) error_ne_ok
    · refine ⟨hheaded, length, rfl, Nat.le_of_not_lt fun hlong => ?_⟩
      exact absurd ((hover hheaded length hlength hlong).symm.trans hdata) error_ne_ok
  refine ⟨⟨?_, ?_⟩, ?_, dataStart_lt hw hsmall, hpast, hunsigned, hunsupported, hover⟩
  · rintro ⟨data, hdata⟩
    exact hsuccess data hdata
  · rintro ⟨hheaded, length, hlength, hfits⟩
    obtain ⟨data, hdata, _⟩ := recordData_of_fits hw hheaded hlength hfits
    exact ⟨data, hdata⟩
  · intro data hdata
    obtain ⟨hheaded, length, hlength, hfits⟩ := hsuccess data hdata
    obtain ⟨found, hfound, hat⟩ := recordData_of_fits hw hheaded hlength hfits
    rw [hdata, Except.ok.injEq] at hfound
    exact hfound ▸ hat

/-- A byte in front of an archive of one entry, and one behind it. The entry has no
    extra field in the directory, and one of two bytes in its local header. -/
def framedArchive : Bytes :=
  [9] ++
    [0x50, 0x4B, 0x03, 0x04, 20, 0, 0, 0, 8, 0, 0, 0, 0, 0, 0, 0, 0, 0, 3, 0, 0, 0,
      9, 0, 0, 0, 1, 0, 2, 0] ++ [0x61] ++ [5, 5] ++ [1, 2, 3] ++
    [0x50, 0x4B, 0x01, 0x02, 20, 0, 20, 0, 0, 0, 8, 0, 0, 0, 0, 0, 0, 0, 0, 0, 3, 0, 0, 0,
      9, 0, 0, 0, 1, 0, 0, 0, 0, 0, 0, 0, 0, 0, 0, 0, 0, 0, 0, 0, 0, 0] ++ [0x61] ++
    [0x50, 0x4B, 0x05, 0x06, 0, 0, 0, 0, 1, 0, 1, 0, 47, 0, 0, 0, 36, 0, 0, 0, 0, 0] ++ [9]

/-- The data starts behind the two bytes that the directory does not know of, and one
    byte further on in the source than in the archive. One byte more is not there to
    be found, nor is any of an unknown method, without the signature, or behind the end. -/
theorem recordData_framedArchive :
    let w := (Window.whole (.memory "f" ⟨framedArchive.toArray⟩)).part 1 105
    ∃ a, (ofWindow w "f").outcome = .ok a ∧ w.backing.bytes.length < 2 ^ 63 ∧
      ∃ e ∈ a.entries, e.method = .deflated ∧ e.compressedSize = 3 ∧
        (∃ data, (a.recordData e).outcome = .ok data ∧ data.offset = 34 ∧
          data.length = 3 ∧ data.size = 9 ∧ data.isCompressed = true) ∧
        (a.recordData { e with compressedSize := 73 }).outcome =
          .error (.outOfBounds "mem:f" 34 73 105) ∧
        (a.recordData { e with method := .unsupported 12 }).outcome =
          .error (.unsupportedCompression "f!/" "a" 12) ∧
        (a.recordData { e with headerOffset := 1 }).outcome =
          .error (.malformedArchive "mem:f" 1 (.badLocalHeader "a")) ∧
        (a.recordData { e with headerOffset := 76 }).outcome =
          .error (.outOfBounds "mem:f" 77 30 105) := by
  intro w
  let e : Entry := {
    name := [0x61], method := .deflated, compressedSize := 3, uncompressedSize := 9
    crc := 0, headerOffset := 0, packedTime := 0, packedDate := 0 }
  let a : Archive := {
    window := w
    index := { entries := [e], baseOffset := 0, directoryOffset := 36 }
    container := "f" }
  have hindex : (Index.parse w).outcome = .ok a.index := by decide +kernel
  have hopen : (ofWindow w "f").outcome = .ok a := by
    unfold ofWindow
    rw [if_neg (by decide), Metered.bind_of_ok hindex]
    rfl
  have hsmall : w.backing.bytes.length < 2 ^ 63 := by decide +kernel
  have hname : w.identity = "mem:f" := by decide +kernel
  have hsize : a.size = 105 := rfl
  have hsigned : (a.window.bytes.drop 0).take 4 = [0x50, 0x4B, 0x03, 0x04] := by decide +kernel
  -- The entries asked for differ from the one in the directory, but most of them in no more than a
  -- number behind the place.
  have hstart : ∀ other : Entry, other.headerOffset = 0 → a.dataStart other = 33 := by
    intro other hother
    rw [dataStart, hother]
    decide +kernel
  have hheaded : ∀ other : Entry, other.headerOffset = 0 → a.Headed other := by
    intro other hother
    refine ⟨?_, ?_⟩
    · rw [hother, hsize]
      decide
    · rw [hother]
      exact hsigned
  refine ⟨a, hopen, hsmall, e, List.mem_singleton_self e, rfl, rfl, ?_, ?_, ?_, ?_, ?_⟩
  · have hexact := recordData_exact hopen hsmall e
    have hfits : a.dataStart e + 3 ≤ a.size := by rw [hstart e rfl, hsize]; decide
    obtain ⟨data, hdata⟩ := hexact.1.mpr ⟨hheaded e rfl, 3, rfl, hfits⟩
    have hat := hexact.2.1 data hdata
    refine ⟨data, hdata, ?_, (Option.some.inj hat.length).symm, hat.size, hat.compressed.mpr rfl⟩
    rw [hat.offset, hstart e rfl]
    rfl
  · have hexact := recordData_exact hopen hsmall { e with compressedSize := 73 }
    have hlong := hexact.2.2.2.2.2.2 (hheaded _ rfl) 73 rfl
      (by rw [hstart _ rfl, hsize]; decide)
    rw [hstart _ rfl, hname] at hlong
    exact hlong
  · have hexact := recordData_exact hopen hsmall { e with method := .unsupported 12 }
    exact hexact.2.2.2.2.2.1 (hheaded _ rfl) 12 rfl
  · have hexact := recordData_exact hopen hsmall { e with headerOffset := 1 }
    have hfault := hexact.2.2.2.2.1 (by rw [hsize]; decide) (by
      intro hwrong
      exact absurd hwrong.signature (by decide +kernel))
    rw [hname] at hfault
    exact hfault
  · have hexact := recordData_exact hopen hsmall { e with headerOffset := 76 }
    have hout := hexact.2.2.2.1 (by rw [hsize]; decide)
    rw [hname] at hout
    exact hout

end Archive

end NestedZip
