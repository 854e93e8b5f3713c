import NestedZip.Archive
import NestedZip.Deflate.Stream
import NestedZip.Proofs.InPlace.Index

/-!
# Archives in Place

Reading an archive where it lies in a source and reading a copy of it that was
taken out first are the same.

An archive inside another one is a window of the source around both. If any
position in it counted from the start of that source, nothing would be wrong
as long as the archive lies at its start, so only the comparison with a copy
shows it. `Mirrors` relates the two archives and every operation keeps it:
windows that come out of related archives are related, and so are the archives
nested in them. `Window.Agrees` and `Archive.Agrees` then say the same of what
a caller sees, without looking into a window.

The two runs cannot be equal, since a window tells its place and so do the
failures of reading past its end. The places differ by just the number of
bytes in front of the archive, and of the failures everything else is equal.
Opening has no such exception.

## Main definitions

* `Archive.Mirrors`: The same archive at two places.
* `Archive.descend`: The archive at the end of a path of nested archives.
* `Window.Agrees`, `Archive.Agrees`: The same as far as a caller sees.

## Theorems

* `Archive.recordData_mirrors`, `Archive.nestedArchive_mirrors`,
  `Archive.libraries_mirrors`, `Archive.manifest_mirrors`: One operation each.
* `Archive.descend_mirrors`: Any number of archives further down.
* `Archive.in_place_agrees`: An archive in a buffer, and a copy of it.
-/

namespace NestedZip

/-- The same archive at two places. -/
structure Archive.Mirrors (shift : Nat) (a b : Archive) : Prop where
  window : a.window.Mirrors shift b.window
  index : a.index = b.index
  container : a.container = b.container

namespace Archive

open Metered

variable {shift : Nat} {a b : Archive}

namespace Mirrors

theorem url (h : a.Mirrors shift b) : a.url = b.url := by
  unfold Archive.url
  rw [h.container]

theorem entryUrl (h : a.Mirrors shift b) (name : Bytes) : a.entryUrl name = b.entryUrl name := by
  unfold Archive.entryUrl
  rw [h.url]

theorem entry? (h : a.Mirrors shift b) (name : Bytes) : a.entry? name = b.entry? name := by
  unfold Archive.entry?
  rw [h.index]

end Mirrors

/-- The header is read in the same place of both. -/
theorem dataOffset_mirrors (h : a.Mirrors shift b) (e : Entry) :
    Agree Eq (a.dataOffset e) (b.dataOffset e) := by
  refine (h.window.readExactAt e.headerOffset LocalHeader.length).bind ?_
  rintro bytes _ rfl
  rw [h.window.identity]
  exact agree_refl _

/-- The data of an entry is at the same place of the archive. -/
theorem recordData_mirrors (h : a.Mirrors shift b) (e : Entry) :
    Agree (Window.Mirrors shift) (a.recordData e) (b.recordData e) := by
  refine (dataOffset_mirrors h e).bind ?_
  rintro offset _ rfl
  rw [h.url]
  cases e.method with
  | stored => exact agree_ofExcept (h.window.carve offset e.uncompressedSize)
  -- Deflated data is cut by the compressed size, and only then wrapped.
  | deflated =>
      refine (agree_ofExcept (h.window.carve offset e.compressedSize)).bind ?_
      intro part part' hpart
      exact agree_pure (hpart.inflating e.uncompressedSize)
  | unsupported number => exact agree_fail rfl

/-- A name leads to the same entry, and its data is at the same place of the archive. -/
theorem entryData_mirrors (h : a.Mirrors shift b) (name : Bytes) :
    Agree (Option.Rel (Window.Mirrors shift)) (a.entryData name) (b.entryData name) := by
  unfold entryData
  rw [h.entry?]
  cases b.entry? name with
  | none => exact agree_pure .none
  | some e =>
      refine (recordData_mirrors h e).bind ?_
      intro data data' hdata
      exact agree_pure (.some hdata)

/-- A nested archive is at the same place, or it is refused for the same reason. -/
theorem nestedSource_mirrors (h : a.Mirrors shift b) (name : Bytes) :
    Agree (Window.Mirrors shift) (a.nestedSource name) (b.nestedSource name) := by
  unfold nestedSource
  rw [h.entry?, h.url]
  cases b.entry? name with
  | none => exact agree_fail rfl
  | some e =>
      -- Both refusals depend on the entry alone.
      by_cases hdirectory : e.isDirectory
      · simp only [if_pos hdirectory]
        exact agree_fail rfl
      · simp only [if_neg hdirectory]
        by_cases hstored : e.method ≠ .stored
        · simp only [if_pos hstored]
          exact agree_fail rfl
        · simp only [if_neg hstored]
          exact recordData_mirrors h e

/-- Windows of the same bytes open as the same archive. -/
theorem ofWindow_mirrors {w v : Window} (h : w.Mirrors shift v) (container : String) :
    Agree (Archive.Mirrors shift) (ofWindow w container) (ofWindow v container) := by
  unfold ofWindow
  rw [h.isCompressed, h.identity]
  rcases hplain : v.inflatedSize with _ | size
  · have hnot : ¬ v.isCompressed := by
      rw [Window.isCompressed, hplain, Option.isSome_none]
      exact Bool.false_ne_true
    rw [if_neg hnot, if_neg hnot, Index.parse_mirrors h hplain]
    refine (agree_refl (Index.parse v)).bind ?_
    rintro index _ rfl
    exact agree_pure ⟨h, rfl, rfl⟩
  · -- Compressed data is refused before it is read.
    have hcompressed : v.isCompressed := by
      rw [Window.isCompressed, hplain, Option.isSome_some]
    rw [if_pos hcompressed, if_pos hcompressed]
    exact agree_fail rfl

/-- An archive nested in related archives is at related places again, with the
    same number of bytes too many in front of it. -/
theorem nestedArchive_mirrors (h : a.Mirrors shift b) (name : Bytes) :
    Agree (Archive.Mirrors shift) (a.nestedArchive name) (b.nestedArchive name) := by
  refine (nestedSource_mirrors h name).bind ?_
  intro data data' hdata
  rw [h.entryUrl]
  exact ofWindow_mirrors hdata _

/-- Whether data starts as an archive is read off its first bytes, which are the same. -/
theorem startsAsArchive_mirrors (h : a.Mirrors shift b) (e : Entry) :
    Agree Eq (a.startsAsArchive e) (b.startsAsArchive e) := by
  refine (recordData_mirrors h e).bind ?_
  intro data data' hdata
  refine (hdata.readExactAt 0 LocalHeader.signature.length).bind ?_
  rintro start _ rfl
  exact agree_pure rfl

/-- Libraries are told by the entries and their first bytes, which are the same. -/
theorem librariesAmong_mirrors (h : a.Mirrors shift b) (directory : Bytes)
    (found entries : List Entry) :
    Agree Eq (a.librariesAmong directory found entries)
      (b.librariesAmong directory found entries) := by
  induction entries generalizing found with
  | nil => exact agree_pure rfl
  | cons e rest ih =>
      unfold librariesAmong
      by_cases hmay : mayBeLibrary directory e
      · rw [if_pos hmay, if_pos hmay]
        -- What is in the directory is looked into, and the answers are the same.
        refine (startsAsArchive_mirrors h e).bind ?_
        rintro starts _ rfl
        exact ih _
      · rw [if_neg hmay, if_neg hmay]
        exact ih found

/-- So the libraries are the same. -/
theorem libraries_mirrors (h : a.Mirrors shift b) (directory : String) :
    Agree Eq (a.libraries directory) (b.libraries directory) := by
  unfold libraries entries
  rw [h.index]
  exact librariesAmong_mirrors h _ _ _

/-- The same manifest is read, whatever the decompressor makes of its bytes. -/
theorem manifest_mirrors (h : a.Mirrors shift b) (inflate : Decompressor) :
    Agree Eq (a.manifest inflate) (b.manifest inflate) := by
  refine (entryData_mirrors h _).bind ?_
  intro data data' hdata
  cases hdata with
  | none => exact agree_pure rfl
  | some hdata =>
      simp only
      rw [hdata.readAll, h.url]
      exact agree_refl _

/-- The archive at the end of a path of nested archives. -/
def descend (a : Archive) (names : List Bytes) : Metered Error Archive :=
  names.foldlM nestedArchive a

/-- Further down the two archives stay the same, one name at a time. -/
theorem descend_mirrors (h : a.Mirrors shift b) (names : List Bytes) :
    Agree (Archive.Mirrors shift) (a.descend names) (b.descend names) := by
  induction names generalizing a b with
  | nil => exact agree_pure h
  | cons name names ih =>
      unfold descend
      rw [List.foldlM_cons, List.foldlM_cons]
      exact (nestedArchive_mirrors h name).bind fun _ _ hnested => ih hnested

end Archive

/-- Two windows that cannot be told apart by reading. Their places differ by
    `shift`. They hold the same bytes, compressed or not, and inflate alike whatever way
    of inflating there is. -/
structure Window.Agrees (shift : Nat) (w v : Window) : Prop where
  offset : w.offset = v.offset + shift
  length : w.length = v.length
  size : w.size = v.size
  isCompressed : w.isCompressed = v.isCompressed
  bytes : w.bytes = v.bytes
  raw : w.stream.raw = v.stream.raw
  readAll : ∀ inflate : Decompressor, w.readAll inflate = v.readAll inflate
  deliver : ∀ (inflate : Decompressor) (sink : Sink),
    w.deliver inflate sink = v.deliver inflate sink
  readExactAt : ∀ offset count : Nat,
    Metered.Agree Eq (w.readExactAt offset count) (v.readExactAt offset count)

/-- Two archives that cannot be told apart by any operation. -/
structure Archive.Agrees (shift : Nat) (a b : Archive) : Prop where
  window : a.window.Agrees shift b.window
  index : a.index = b.index
  container : a.container = b.container
  recordData : ∀ e : Entry, Metered.Agree (Window.Agrees shift) (a.recordData e) (b.recordData e)
  entryData : ∀ name : Bytes,
    Metered.Agree (Option.Rel (Window.Agrees shift)) (a.entryData name) (b.entryData name)
  nestedSource : ∀ name : Bytes,
    Metered.Agree (Window.Agrees shift) (a.nestedSource name) (b.nestedSource name)
  libraries : ∀ directory : String,
    Metered.Agree Eq (a.libraries directory) (b.libraries directory)
  manifest : ∀ inflate : Decompressor,
    Metered.Agree Eq (a.manifest inflate) (b.manifest inflate)

theorem Window.Mirrors.agrees {shift : Nat} {w v : Window} (h : w.Mirrors shift v) :
    w.Agrees shift v :=
  ⟨h.offset, h.length, h.size, h.isCompressed, h.bytes, h.stream.raw, h.readAll, h.deliver,
    h.readExactAt⟩

namespace Archive

/-- The same archive at two places is the same as far as a caller sees. -/
theorem Mirrors.agrees {shift : Nat} {a b : Archive} (h : a.Mirrors shift b) :
    a.Agrees shift b where
  window := h.window.agrees
  index := h.index
  container := h.container
  recordData e := (recordData_mirrors h e).mono fun _ _ hdata => hdata.agrees
  entryData name := (entryData_mirrors h name).mono fun _ _ hdata => by
    cases hdata with
    | none => exact .none
    | some hdata => exact .some hdata.agrees
  nestedSource name := (nestedSource_mirrors h name).mono fun _ _ hdata => hdata.agrees
  libraries := libraries_mirrors h
  manifest := manifest_mirrors h

/-- A window of a buffer in memory mirrors a buffer of the same name that holds
    just what the window shows. -/
theorem mirrors_extract {name : String} {content : ByteArray} {offset length : Nat} {w : Window}
    (hw : (Window.whole (.memory name content)).carve offset length = .ok w) :
    w.Mirrors offset (.whole (.memory name (content.extract offset (offset + length)))) := by
  -- The part is only a range, while the copy is a backing of its own.
  rcases Window.carve_eq_ok_iff.mp hw with ⟨_, hfits, rfl⟩
  have hwhole := Window.intact_whole_memory name content
  refine Window.Mirrors.of_intact (hwhole.part offset length hfits)
    (Window.intact_whole_memory _ _) rfl rfl ?_ rfl
  change ((Window.whole (.memory name content)).part offset length).bytes = _
  rw [Window.bytes_part _ _ _ hfits, Window.bytes_whole_memory, Window.bytes_whole_memory,
    ByteArray.data_extract, Array.toList_extract, List.extract_eq_take_drop,
    Nat.add_sub_cancel_left]

/-- Reading an archive in place equals taking it out first. Opening both fails
    alike to the letter or gives equal indices, and then all that is asked of
    them, or of archives any number of levels further down, is answered alike. -/
theorem in_place_agrees (name : String) (content : ByteArray) (offset length : Nat) (w : Window)
    (hw : (Window.whole (.memory name content)).carve offset length = .ok w)
    (container : String) :
    let copy := Window.whole (.memory name (content.extract offset (offset + length)))
    (∃ e : Error, (ofWindow w container).outcome = .error e ∧
      (ofWindow copy container).outcome = .error e) ∨
    ∃ a b : Archive, (ofWindow w container).outcome = .ok a ∧
      (ofWindow copy container).outcome = .ok b ∧ a.index = b.index ∧
      ∀ names : List Bytes,
        Metered.Agree (Archive.Agrees offset) (a.descend names) (b.descend names) := by
  intro copy
  have h := mirrors_extract hw
  have hcopy : copy.inflatedSize = none := rfl
  have hparse : Index.parse w = Index.parse copy := Index.parse_mirrors h hcopy
  have hplain : w.inflatedSize = none := h.inflatedSize
  unfold ofWindow Window.isCompressed
  rw [hplain, hcopy, Option.isSome_none, if_neg Bool.false_ne_true, if_neg Bool.false_ne_true,
    hparse]
  -- There is one answer for both, and its price does not matter for what is opened.
  rcases hindex : (Index.parse copy).outcome with e | index
  · rw [Metered.bind_of_error hindex, Metered.bind_of_error hindex]
    exact Or.inl ⟨e, rfl, rfl⟩
  · have hopened : Mirrors offset ⟨w, index, container⟩ ⟨copy, index, container⟩ := ⟨h, rfl, rfl⟩
    rw [Metered.bind_of_ok hindex, Metered.bind_of_ok hindex]
    refine Or.inr ⟨_, _, rfl, rfl, rfl, fun names => ?_⟩
    exact (descend_mirrors hopened names).mono fun _ _ hab => hab.agrees

/-- Three bytes, and behind them an archive that has one byte in front itself. Its one entry has
    two bytes, which are compressed to four. -/
def outer : ByteArray :=
  let inFront : Bytes := [0x50, 0x4B, 0x03, 0x04, 20, 0, 0, 0, 8, 0, 0, 0, 0, 0, 0, 0, 0, 0,
    4, 0, 0, 0, 2, 0, 0, 0, 1, 0, 0, 0]
  let directory : Bytes := [0x50, 0x4B, 0x01, 0x02, 20, 0, 20, 0, 0, 0, 8, 0, 0, 0, 0, 0,
    0, 0, 0, 0, 4, 0, 0, 0, 2, 0, 0, 0, 1, 0, 0, 0, 0, 0, 0, 0, 0, 0, 0, 0, 0, 0, 0, 0, 0, 0]
  let atEnd : Bytes := [0x50, 0x4B, 0x05, 0x06, 0, 0, 0, 0, 1, 0, 1, 0, 47, 0, 0, 0,
    35, 0, 0, 0, 0, 0]
  ⟨([1, 2, 3, 0x23] ++ inFront ++ [0x61] ++ [0xCB, 0xC8, 0x04, 0x00] ++
    directory ++ [0x61] ++ atEnd).toArray⟩

/-- The entry inflates alike in place and in the copy. -/
theorem in_place_agrees_outer :
    let w : Window := { backing := .memory "outer" outer, offset := 3, length := 105 }
    let copy := Window.whole (.memory "outer" (outer.extract 3 (3 + 105)))
    (Window.whole (.memory "outer" outer)).carve 3 105 = .ok w ∧
    ∃ a b : Archive, (ofWindow w "mem:outer").outcome = .ok a ∧
      (ofWindow copy "mem:outer").outcome = .ok b ∧ a.index = b.index ∧
      (∀ names : List Bytes,
        Metered.Agree (Archive.Agrees 3) (a.descend names) (b.descend names)) ∧
      ∃ data data' : Window, (a.entryData [0x61]).outcome = .ok (some data) ∧
        (b.entryData [0x61]).outcome = .ok (some data') ∧ data.isCompressed = true ∧
        data.Agrees 3 data' ∧ (data.readAll Deflate.inflate).outcome = .ok [0x68, 0x69] ∧
        (data'.readAll Deflate.inflate).outcome = .ok [0x68, 0x69] := by
  intro w copy
  have hw : (Window.whole (.memory "outer" outer)).carve 3 105 = .ok w :=
    Window.carve_eq_ok_iff.mpr ⟨rfl, by decide +kernel, rfl⟩
  have hinflates : ((ofWindow copy "mem:outer").outcome.bind fun b =>
      (b.entryData [0x61]).outcome.map fun data => data.map fun data =>
        (data.isCompressed, (data.readAll Deflate.inflate).outcome)) =
      .ok (some (true, .ok [0x68, 0x69])) := by decide +kernel
  obtain ⟨b, hopens, hentry⟩ := except_bind_eq_ok_iff.mp hinflates
  rcases in_place_agrees "outer" outer 3 105 w hw "mem:outer" with ⟨e, _, hfails⟩ | hagree
  · exact absurd (hfails.symm.trans hopens) error_ne_ok
  obtain ⟨a, b', ha, hb, hindex, hdescend⟩ := hagree
  obtain rfl : b' = b := Except.ok.inj (hb.symm.trans hopens)
  refine ⟨hw, a, b', ha, hb, hindex, hdescend, ?_⟩
  -- Without a name to go down, the archives themselves agree.
  have hsame : a.Agrees 3 b' := by
    have houtcome := (hdescend []).outcome
    cases houtcome with
    | ok hab => exact hab
  have hdata := (hsame.entryData [0x61]).outcome
  rcases houtcome : (b'.entryData [0x61]).outcome with e | found
  · rw [houtcome] at hentry
    exact absurd hentry error_ne_ok
  rw [houtcome] at hentry hdata
  obtain ⟨data', rfl, hread⟩ := Option.map_eq_some_iff.mp (Except.ok.inj hentry)
  obtain ⟨hcompressed, hbytes⟩ := Prod.mk.inj hread
  generalize hfound : (a.entryData [0x61]).outcome = found at hdata
  cases hdata with
  | ok hrel =>
      cases hrel with
      | some hwindow =>
          exact ⟨_, data', rfl, rfl, hwindow.isCompressed.trans hcompressed, hwindow,
            by rw [hwindow.readAll]; exact hbytes, hbytes⟩

end Archive

end NestedZip
