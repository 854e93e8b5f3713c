import NestedZip.Archive
import NestedZip.Proofs.Directory.Soundness

/-!
# Opening Archives and Finding Data

What must hold for an archive to be opened and for the data of an entry to be
found, and where that data is.

An opened archive is the window it was opened in, and a nested one lies in the
window of the archive around it. So whatever is opened from a source, however
deep, stays inside the ranges it was carved from. In the other direction, the
data of an entry is found as soon as its local header is known to stand where
the entry says.

## Theorems

* `Archive.ofWindow_eq_ok`: What an opened archive is.
* `Archive.nestedSource_eq_ok`: A nested archive lies inside the one around it, and
  not at its start.
* `Archive.nestedSource_eq`: It is found for the price of one local header.
* `Archive.dataOffset_of_stands`: The local header tells where the data starts.
* `Archive.recordData_of_stored`: Stored data is the window of its size there.
-/

namespace NestedZip

namespace Archive

/-- The local header at the place that the entry tells leads to the data. Only
    the header is read for it. -/
theorem dataOffset_of_stands {a : Archive} (hw : a.window.Intact) {e : Entry} {h : LocalHeader}
    (hfits : e.headerOffset + LocalHeader.length ≤ a.window.length)
    (hstands : h.toBytes <+: a.window.bytes.drop e.headerOffset) :
    a.dataOffset e =
      { outcome := .ok (e.headerOffset + h.dataOffset), fetched := LocalHeader.length } := by
  rw [← Index.prefix_slice_iff h.length_toBytes, ← LocalHeader.ofBytes?_eq_some_iff] at hstands
  unfold dataOffset
  rw [Window.readExactAt_of_intact hw _ _ hfits, Metered.bind_of_ok rfl, hstands]
  rfl

/-- A stored entry that fits into its archive is cut out of it, and its header is read for that. -/
theorem recordData_of_stored {a : Archive} (hw : a.window.Intact) {e : Entry} {offset cost : Nat}
    (hmethod : e.method = .stored)
    (hoffset : a.dataOffset e = { outcome := .ok offset, fetched := cost })
    (hfits : offset + e.uncompressedSize ≤ a.window.length) :
    a.recordData e =
      { outcome := .ok (a.window.part offset e.uncompressedSize), fetched := cost } := by
  unfold recordData
  rw [hoffset, hmethod, Metered.bind_of_ok rfl]
  simp only [Window.carve_of_plain hw.plain _ _ hfits, Metered.outcome_ofExcept]
  rfl

/-- Stored data starts where its local header says and is as long as the directory
    says. -/
theorem recordData_of_dataOffset {a : Archive} (hw : a.window.Intact) {e : Entry} (offset : Nat)
    (hmethod : e.method = .stored) (hoffset : (a.dataOffset e).outcome = .ok offset)
    (hfits : offset + e.uncompressedSize ≤ a.window.length) :
    (a.recordData e).outcome = .ok (a.window.part offset e.uncompressedSize) :=
  congrArg Metered.outcome (recordData_of_stored hw hmethod (Metered.ext hoffset rfl) hfits)

/-- Indexing a window that is not compressed is all there is to opening it. -/
theorem ofWindow_of_parse {w : Window} {index : Index} (hplain : w.inflatedSize = none)
    (hindex : (Index.parse w).outcome = .ok index) (container : String) :
    (ofWindow w container).outcome = .ok { window := w, index, container } := by
  unfold ofWindow Window.isCompressed
  rw [hplain, Option.isSome_none, if_neg Bool.false_ne_true, Metered.bind_of_ok hindex]
  rfl

/-- An opened archive is the window it was opened in, which holds at least an end
    record. -/
theorem ofWindow_eq_ok {w : Window} {container : String} {a : Archive}
    (h : (ofWindow w container).outcome = .ok a) :
    w.Intact ∧ EndRecord.length ≤ w.length ∧ (Index.parse w).outcome = .ok a.index ∧
      a.window = w ∧ a.container = container := by
  unfold ofWindow at h
  by_cases hcompressed : w.isCompressed
  · rw [if_pos hcompressed] at h
    exact absurd h error_ne_ok
  · rw [if_neg hcompressed] at h
    rcases Metered.bind_outcome_eq_ok_iff.mp h with ⟨index, hindex, hopened⟩
    rw [Metered.outcome_pure, Except.ok.injEq] at hopened
    subst hopened
    rcases Index.parse_eq_ok_iff.mp hindex with ⟨hw, r, position, _, hlast, _⟩
    -- The end record has its length within the window, or it would not have been found.
    have hlength := hlast.1.2
    rw [Window.length_bytes hw] at hlength
    exact ⟨hw, by omega, hindex, rfl, rfl⟩

/-- The data of an entry starts behind its local header, whatever that declares. -/
theorem dataOffset_pos {a : Archive} {e : Entry} {offset : Nat}
    (h : (a.dataOffset e).outcome = .ok offset) : 0 < offset := by
  unfold dataOffset at h
  rcases Metered.bind_outcome_eq_ok_iff.mp h with ⟨bytes, _, hheader⟩
  rcases hlocal : LocalHeader.ofBytes? bytes with _ | header
  · rw [hlocal] at hheader
    exact absurd hheader error_ne_ok
  · rw [hlocal] at hheader
    simp only [Metered.outcome_pure, Except.ok.injEq, LocalHeader.dataOffset,
      LocalHeader.length] at hheader
    omega

/-- Whatever a local header says, only its fixed part is read. -/
theorem fetched_dataOffset {a : Archive} (hw : a.window.Intact) {e : Entry} {offset : Nat}
    (h : (a.dataOffset e).outcome = .ok offset) :
    (a.dataOffset e).fetched = LocalHeader.length := by
  unfold dataOffset at h ⊢
  rcases Metered.bind_outcome_eq_ok_iff.mp h with ⟨bytes, hbytes, hheader⟩
  have hfits := (Window.readExactAt_eq_ok hbytes).2.1
  rw [Metered.bind_of_ok hbytes, Window.readExactAt_of_intact hw _ _ hfits]
  rcases hlocal : LocalHeader.ofBytes? bytes with _ | header
  · rw [hlocal] at hheader
    exact absurd hheader error_ne_ok
  · rfl

/-- A nested archive is the data of a stored entry. -/
theorem nestedSource_of_ok {a : Archive} {name : Bytes} {data : Window}
    (h : (a.nestedSource name).outcome = .ok data) :
    ∃ e, Archive.entry? a name = some e ∧ e.isDirectory = false ∧ e.method = .stored ∧
      a.nestedSource name = a.recordData e := by
  unfold nestedSource at h ⊢
  rcases hentry : Archive.entry? a name with _ | e
  · -- Each guard that is passed says one thing about the entry.
    rw [hentry] at h
    exact absurd h error_ne_ok
  · simp only [hentry] at h
    by_cases hdirectory : e.isDirectory
    · rw [if_pos hdirectory] at h
      exact absurd h error_ne_ok
    rw [if_neg hdirectory] at h
    by_cases hstored : e.method ≠ .stored
    · rw [if_pos hstored] at h
      exact absurd h error_ne_ok
    refine ⟨e, rfl, eq_false_of_ne_true hdirectory, Decidable.not_not.mp hstored, ?_⟩
    simp only [if_neg hdirectory, if_neg hstored]

/-- The data of a stored entry lies behind its local header, for the price of
    which it is found. -/
theorem recordData_eq_ok {a : Archive} {e : Entry} {data : Window} (hmethod : e.method = .stored)
    (h : (a.recordData e).outcome = .ok data) :
    ∃ offset : Nat, (a.dataOffset e).outcome = .ok offset ∧
      offset + e.uncompressedSize ≤ a.window.length ∧
      data = a.window.part offset e.uncompressedSize ∧
      (a.recordData e).fetched = (a.dataOffset e).fetched := by
  unfold recordData at h ⊢
  rw [hmethod] at h ⊢
  rcases Metered.bind_outcome_eq_ok_iff.mp h with ⟨offset, hoffset, hcarve⟩
  rcases Window.carve_eq_ok_iff.mp hcarve with ⟨_, hfits, hdata⟩
  refine ⟨offset, hoffset, hfits, hdata, ?_⟩
  rw [Metered.bind_of_ok hoffset]
  rfl

/-- The data of a stored entry can be read at any place, and is as long as the
    directory says. -/
theorem intact_recordData {a : Archive} (hw : a.window.Intact) {e : Entry} {data : Window}
    (hmethod : e.method = .stored) (h : (a.recordData e).outcome = .ok data) :
    data.Intact ∧ data.length = e.uncompressedSize := by
  rcases recordData_eq_ok hmethod h with ⟨offset, _, hfits, rfl, _⟩
  exact ⟨hw.part offset e.uncompressedSize hfits, rfl⟩

/-- A nested archive lies inside the one around it, and not at its start. -/
theorem nestedSource_eq_ok {a : Archive} {name : Bytes} {data : Window}
    (h : (a.nestedSource name).outcome = .ok data) :
    ∃ offset length : Nat, 0 < offset ∧ offset + length ≤ a.window.length ∧
      data = a.window.part offset length := by
  rcases nestedSource_of_ok h with ⟨e, _, _, hmethod, hsource⟩
  rw [hsource] at h
  rcases recordData_eq_ok hmethod h with ⟨offset, hoffset, hfits, hdata, _⟩
  exact ⟨offset, e.uncompressedSize, dataOffset_pos hoffset, hfits, hdata⟩

/-- A nested archive is found for the price of one local header. -/
theorem nestedSource_eq {a : Archive} (hw : a.window.Intact) {name : Bytes} {data : Window}
    (h : (a.nestedSource name).outcome = .ok data) :
    a.nestedSource name = { outcome := .ok data, fetched := LocalHeader.length } := by
  refine Metered.ext h ?_
  rcases nestedSource_of_ok h with ⟨e, _, _, hmethod, hsource⟩
  rw [hsource] at h ⊢
  rcases recordData_eq_ok hmethod h with ⟨offset, hoffset, _, _, hfetched⟩
  rw [hfetched, fetched_dataOffset hw hoffset]

end Archive

end NestedZip
