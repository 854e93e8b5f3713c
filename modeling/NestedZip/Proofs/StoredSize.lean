import Mathlib.Data.List.Infix
import NestedZip.CommandLine.Listing
import NestedZip.Proofs.Archive
import NestedZip.Proofs.Connection

/-!
# The Size of a Stored Entry

What is told of the size of stored data, and when it is all the same.

A directory has two numbers for the size of an entry, that of the data as it is
stored and that of the data once inflated. For stored data they mean the same
thing, but they are written independently, in four bytes each or in the extra
field, and reading a record does not compare them.

The second of them decides: the data is cut out by it, a connection promises it,
and so many bytes are read. The first is only shown, in the column beside it. So
the sizes that are told of a stored entry are one number exactly if its record
says so, and where it does not, the data that is read may end in front of what
was stored or reach into what lies behind it.

## Main definitions

* `Entry.OneSize`: Every size of an entry and of its data is the same.
* `Archive.sizedArchive`: An archive of three bytes of stored data that says any two
  sizes of them.

## Theorems

* `Listing.alignRight_toString_inj`: A column shows one number.
* `Listing.row_starts`: The two sizes in the row of an entry.
* `Archive.oneSize_iff`: When all sizes of a stored entry are the same.
* `Archive.not_oneSize_longer`: An archive in which they are not.
-/

namespace NestedZip

namespace Listing

/-- Behind the spaces in front of it a number stands as it is. -/
theorem dropWhile_alignRight (width n : Nat) :
    (alignRight width (toString n)).toList.dropWhile (· == ' ') = (toString n).toList := by
  -- No digit is a space, so dropping spaces ends where the number starts.
  have hdigits : ∀ c ∈ (toString n).toList, (c == ' ') = false := by
    intro c hc
    rw [show toString n = n.repr from rfl, Nat.toList_repr] at hc
    have hdigit := Nat.isDigit_of_mem_toDigits (by decide) (by decide) hc
    rw [beq_eq_false_iff_ne]
    rintro rfl
    exact absurd hdigit (by decide)
  have hspaces : ∀ c ∈ List.replicate (width - (toString n).length) ' ', (c == ' ') = true := by
    intro c hc
    rw [List.eq_of_mem_replicate hc]
    rfl
  rw [alignRight, String.toList_append, String.toList_ofList,
    List.dropWhile_append_of_pos hspaces]
  cases hlist : (toString n).toList with
  | nil => rfl
  | cons c rest =>
      have hfirst := hdigits c (hlist ▸ List.mem_cons_self)
      exact List.dropWhile_cons_of_neg (ne_true_of_eq_false hfirst)

/-- A column shows one number. -/
theorem alignRight_toString_inj {width m n : Nat} :
    alignRight width (toString m) = alignRight width (toString n) ↔ m = n := by
  refine ⟨fun h => ?_, fun h => h ▸ rfl⟩
  have hdigits := congrArg (List.dropWhile (· == ' ')) (congrArg String.toList h)
  rw [dropWhile_alignRight, dropWhile_alignRight, Nat.toString_eq_ofList_toDigits,
    Nat.toString_eq_ofList_toDigits, String.toList_ofList, String.toList_ofList] at hdigits
  -- The digits are read back as the number that they were written for.
  calc
    m = Nat.ofDigitChars 10 (Nat.toDigits 10 m) 0 := Nat.ofDigitChars_ten_toDigits.symm
    _ = Nat.ofDigitChars 10 (Nat.toDigits 10 n) 0 := by rw [hdigits]
    _ = n := Nat.ofDigitChars_ten_toDigits

/-- The row of an entry starts with its two sizes. -/
theorem row_starts {arithmetic : Arithmetic} {e : Entry} {line : String}
    (h : row arithmetic e = .ok line) :
    ∃ columns : List String,
      line = "  ".intercalate (alignRight 10 (toString e.uncompressedSize) ::
        alignRight 10 (toString e.compressedSize) :: columns) := by
  unfold row at h
  obtain ⟨saved, _, hline⟩ := except_bind_eq_ok_iff.mp h
  exact ⟨_, (Except.ok.inj hline).symm⟩

end Listing

/-- The data of an entry is not compressed, and its size, the length of its range
    and the two sizes in the directory are the same. -/
structure Entry.OneSize (e : Entry) (data : Window) : Prop where
  plain : data.isCompressed = false
  size : data.size = data.length
  uncompressed : data.length = e.uncompressedSize
  compressed : e.uncompressedSize = e.compressedSize

namespace Archive

variable {a : Archive} {e : Entry} {data w : Window} {container : String}

/-- In an opened archive the second size of a stored entry is the size of its data,
    the number of bytes that are read, however they are read, and what a connection
    to it promises and brings. The first size stands beside it in the listing. All of
    them are one number exactly if the two sizes in the directory are. Data of a size
    that no buffer can have is read as well, but not into a buffer. -/
theorem oneSize_iff (hopen : (ofWindow w container).outcome = .ok a)
    (hstored : e.method = .stored) (hdata : (a.recordData e).outcome = .ok data) :
    (data.isCompressed = false ∧ data.size = e.uncompressedSize ∧
      data.length = e.uncompressedSize) ∧
    (data.bytes.length = e.uncompressedSize ∧
      (∀ inflate, (data.readAll inflate).outcome =
        if e.uncompressedSize < Buffer.limit then .ok data.bytes
        else .error (.overflow .capacity)) ∧
      ∀ inflate sink, data.deliver inflate sink =
        { bytes := data.bytes, fetched := e.uncompressedSize }) ∧
    (∀ (h : Handle) (l : Locator) (r s : Resolver), h.archive = a → h.address = none →
      e.isDirectory = false → Connection.locate l r = .ok { handle := h, entry := some e } s →
      ∀ inflate sink, ∃ after, Connection.readToEnd inflate sink ({ locator := l }, r) =
        .ok (e.uncompressedSize, { bytes := data.bytes, fetched := e.uncompressedSize }) after) ∧
    (∀ arithmetic line, Listing.row arithmetic e = .ok line → ∃ columns,
      line = "  ".intercalate (Listing.alignRight 10 (toString data.size) ::
        Listing.alignRight 10 (toString e.compressedSize) :: columns)) ∧
    (Listing.alignRight 10 (toString e.compressedSize) =
        Listing.alignRight 10 (toString data.size) ↔ e.OneSize data) ∧
    (e.OneSize data ↔ e.compressedSize = e.uncompressedSize) := by
  obtain ⟨hw, _, _, rfl, _⟩ := ofWindow_eq_ok hopen
  obtain ⟨hintact, hlength⟩ := intact_recordData hw hstored hdata
  have hplain : data.isCompressed = false := by
    rw [Window.isCompressed, hintact.plain]
    rfl
  have hsize : data.size = e.uncompressedSize := (Window.size_of_intact hintact).trans hlength
  have hbytes : data.bytes.length = e.uncompressedSize :=
    (Window.length_bytes hintact).trans hlength
  have hdeliver : ∀ inflate sink, data.deliver inflate sink =
      { bytes := data.bytes, fetched := e.uncompressedSize } := by
    intro inflate sink
    rw [Window.deliver_of_intact hintact inflate sink, hlength]
  -- The window is cut by the uncompressed size, so the one question left is about the other size.
  have hone : e.OneSize data ↔ e.compressedSize = e.uncompressedSize :=
    ⟨fun h => h.compressed.symm, fun h =>
      ⟨hplain, hsize.trans hlength.symm, hlength, h.symm⟩⟩
  refine ⟨⟨hplain, hsize, hlength⟩, ⟨hbytes, fun inflate => ?_, hdeliver⟩, ?_, ?_, ?_, hone⟩
  · rw [Window.readAll_of_intact hintact, hlength]
  · rintro h l r s rfl hbuffer hdirectory hlocate inflate sink
    have hcost : h.archive.recordData e =
        { outcome := .ok data, fetched := (h.archive.recordData e).fetched } :=
      Metered.ext hdata rfl
    have hread := Connection.readToEnd_of_window hlocate
      (Connection.contentWindow_entry l hbuffer hdirectory hcost) hintact hlength.symm inflate sink
    rw [hbytes] at hread
    exact ⟨_, hread⟩
  · intro arithmetic line hrow
    rw [hsize]
    exact Listing.row_starts hrow
  · rw [hone, Listing.alignRight_toString_inj, hsize]

/-- An archive of one stored entry with three bytes of data. The directory has these
    two sizes for it. -/
def sizedArchive (first second : UInt8) : Bytes :=
  [0x50, 0x4B, 0x03, 0x04, 20, 0, 0, 0, 0, 0, 0, 0, 0, 0, 0, 0, 0, 0, first, 0, 0, 0,
    second, 0, 0, 0, 1, 0, 0, 0] ++ [0x61] ++ [1, 2, 3] ++
    [0x50, 0x4B, 0x01, 0x02, 20, 0, 20, 0, 0, 0, 0, 0, 0, 0, 0, 0, 0, 0, 0, 0, first, 0, 0, 0,
      second, 0, 0, 0, 1, 0, 0, 0, 0, 0, 0, 0, 0, 0, 0, 0, 0, 0, 0, 0, 0, 0] ++ [0x61] ++
    [0x50, 0x4B, 0x05, 0x06, 0, 0, 0, 0, 1, 0, 1, 0, 47, 0, 0, 0, 34, 0, 0, 0, 0, 0]

/-- The archive as a buffer. -/
def sizedWindow (first second : UInt8) : Window :=
  .whole (.memory "s" ⟨(sizedArchive first second).toArray⟩)

/-- What the directory tells about the entry. -/
def sizedEntry (first second : UInt8) : Entry where
  name := [0x61]
  method := .stored
  compressedSize := first.toNat
  uncompressedSize := second.toNat

def sizedIndex (first second : UInt8) : Index where
  entries := [sizedEntry first second]
  baseOffset := 0
  directoryOffset := 34

/-- Once the directory and the local header are read, the data is found by the
    second size. -/
theorem recordData_sizedArchive {first second : UInt8} {a : Archive}
    (ha : a = ⟨sizedWindow first second, sizedIndex first second, "s"⟩)
    (hindex : (Index.parse (sizedWindow first second)).outcome =
      .ok (sizedIndex first second))
    (hheader : (a.dataOffset (sizedEntry first second)).outcome = .ok 31)
    (hfits : 31 + second.toNat ≤ a.window.length) :
    (ofWindow (sizedWindow first second) "s").outcome = .ok a ∧
      sizedEntry first second ∈ a.entries ∧
      (a.recordData (sizedEntry first second)).outcome =
        .ok ((sizedWindow first second).part 31 second.toNat) := by
  have hw : a.window.Intact := ha ▸ Window.intact_whole_memory _ _
  have hdata := recordData_of_dataOffset hw 31 rfl hheader hfits
  -- The archive is a variable up to here, so that no step above computes it.
  subst ha
  exact ⟨ofWindow_of_parse rfl hindex "s", List.mem_singleton_self _, hdata⟩

/-- Of three bytes that are said to be three all sizes are the same. -/
theorem oneSize_three :
    ∃ a, (ofWindow (sizedWindow 3 3) "s").outcome = .ok a ∧
      ∃ e ∈ a.entries, e.method = .stored ∧
        ∃ data, (a.recordData e).outcome = .ok data ∧ e.OneSize data ∧
          ∀ inflate, (data.readAll inflate).outcome = .ok [1, 2, 3] := by
  obtain ⟨hopen, hentry, hdata⟩ :=
    @recordData_sizedArchive 3 3 _ rfl (by decide +kernel) (by decide +kernel) (by decide +kernel)
  have hsizes := oneSize_iff hopen rfl hdata
  refine ⟨_, hopen, sizedEntry 3 3, hentry, rfl, _, hdata, hsizes.2.2.2.2.2.mpr rfl,
    fun inflate => ?_⟩
  rw [hsizes.2.1.2.1, if_pos (by decide)]
  decide +kernel

/-- Three bytes that are said to be five are read as five, the last two of which
    belong to the directory, while three is shown beside that. -/
theorem not_oneSize_longer :
    ∃ a, (ofWindow (sizedWindow 3 5) "s").outcome = .ok a ∧
      ∃ e ∈ a.entries, e.method = .stored ∧ e.compressedSize = 3 ∧
        ∃ data, (a.recordData e).outcome = .ok data ∧ data.size = 5 ∧
          (∀ inflate, (data.readAll inflate).outcome = .ok [1, 2, 3, 0x50, 0x4B]) ∧
          ¬ e.OneSize data := by
  obtain ⟨hopen, hentry, hdata⟩ :=
    @recordData_sizedArchive 3 5 _ rfl (by decide +kernel) (by decide +kernel) (by decide +kernel)
  refine ⟨_, hopen, sizedEntry 3 5, hentry, rfl, rfl, _, hdata, rfl,
    fun inflate => ?_, ?_⟩
  · -- What is read runs on into the record behind the data.
    have hw := (ofWindow_eq_ok hopen).1
    rw [Window.readAll_of_intact (intact_recordData hw rfl hdata).1, if_pos (by decide)]
    decide +kernel
  intro h
  exact absurd h.compressed (by decide)

end Archive

end NestedZip
