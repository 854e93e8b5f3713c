import NestedZip.Proofs.CommandLine.Table
import NestedZip.Proofs.Directory.Sizes

/-!
# Tables of Extreme Sizes

Computing a whole table with words, for whatever sizes an archive tells.

A table is computed with four operations that may leave the words: the sums and
the number of files, the hundredfold of a size, and what is left of a hundred.
`Checked.rows` asks for each of them first. Compared with the table in numbers
that know no bound, it either arrives at just that table or runs into a trap,
and the sizes alone tell which of the two it is.

The sizes are any words, since that is what a directory can tell. Sums that are
words do not keep the hundredfold of a size within the words, so the table of an
accepted archive may trap even then. What is needed for it not to is that the
stored sizes of which a percentage is taken, that of the totals among them, are
small enough. Then all percentages in it are exact, and it is the table that
every build prints. If not, a checked build ends where the trap is, and one with
wrapping arithmetic prints a whole table in which some percentage is too large.

## Main definitions

* `Checked.rows`: A table, with every step asked for.
* `Listing.Small`: All percentages of a table can be computed.

## Theorems

* `Checked.rows_eq`: A checked table follows the other one.
* `Listing.percentages_exact`: The sizes and the tables of all accepted archives.
* `Listing.percentage_overflows`: An accepted archive whose table is a trap.
-/

namespace NestedZip

namespace Checked

variable {ε : Type}

/-- The column for what is saved. -/
def savedColumn (compressed size : Nat) : Checked ε String := do
  let percent ← percentSaved compressed size
  if 0 < size ∧ compressed ≤ size then
    return Listing.alignRight 4 (toString percent) ++ "%"
  else return Listing.alignRight 3 (toString percent) ++ "%"

/-- The totals with one more entry. -/
def addTotals (t : Listing.Totals) (e : Entry) : Checked ε Listing.Totals :=
  if e.isDirectory then .ok t
  else do
    let size ← add t.size e.uncompressedSize
    let compressed ← add t.compressed e.compressedSize
    let files ← add t.files 1
    return { size, compressed, files }

/-- The rows of some entries, behind the totals `t`, and the summary. `done` holds the lines so
    far, last first. -/
def rows (t : Listing.Totals) (done : List String) : List Entry → Checked ε (List String)
  | [] => do
    let saved ← savedColumn t.compressed t.size
    return (Listing.summaryWith saved t :: Listing.rule :: done).reverse
  | e :: rest => do
    let saved ← savedColumn e.compressedSize e.uncompressedSize
    let t ← addTotals t e
    rows t (Listing.rowWith saved e :: done) rest

/-- A listing that was not ended, or the trap that ended it. -/
def ofListing (l : Listing) : Checked ε (List String) :=
  match l.overflow with
  | none => .ok l.lines
  | some _ => trap .overflow

/-- The column computed with traps ends where a checked build does. -/
theorem savedColumn_eq (compressed size : Nat) :
    (savedColumn compressed size : Checked ε String) =
      ofWord (Listing.savedColumn .checked compressed size) := by
  rw [savedColumn, Listing.savedColumn, ofWord_bind, percentSaved_eq]
  by_cases hsaves : 0 < size ∧ compressed ≤ size
  · simp only [if_pos hsaves]
    rfl
  · simp only [if_neg hsaves]
    rfl

/-- Counting files never fails, as long as there are not too many entries. -/
theorem addTotals_eq {t : Listing.Totals} (hfiles : t.files + 1 < wordLimit) (e : Entry) :
    (addTotals t e : Checked ε Listing.Totals) = ofWord (t.add .checked e) := by
  rw [addTotals, Listing.Totals.add]
  by_cases hdirectory : e.isDirectory = true
  · rw [if_pos hdirectory, if_pos hdirectory, ofWord_ok]
  · rw [if_neg hdirectory, if_neg hdirectory, add_of_lt hfiles, add_eq .sizeSum,
      add_eq .compressedSum]
    simp only [ofWord_bind, except_ok_bind]
    rfl

/-- An entry adds at most one to the number of files, which is counted without a check. -/
theorem files_add_le {t t' : Listing.Totals} {e : Entry} (h : t.add .checked e = .ok t') :
    t'.files ≤ t.files + 1 := by
  unfold Listing.Totals.add at h
  by_cases hdirectory : e.isDirectory = true
  · rw [if_pos hdirectory, Except.ok.injEq] at h
    rw [← h]
    exact Nat.le_succ _
  · rw [if_neg hdirectory] at h
    rcases except_bind_eq_ok_iff.mp h with ⟨size, _, h⟩
    rcases except_bind_eq_ok_iff.mp h with ⟨compressed, _, h⟩
    exact Nat.le_of_eq (congrArg Listing.Totals.files (Except.ok.inj h).symm)

/-- Line by line the checked table is the one of a checked build, and it traps where that one is
    ended. -/
theorem rows_eq {t : Listing.Totals} {entries : List Entry}
    (hfiles : t.files + entries.length < wordLimit) (done : List String) :
    (rows t done entries : Checked ε (List String)) =
      ofListing (Listing.rows .checked t done entries) := by
  induction entries generalizing t done with
  | nil =>
      rw [rows, Listing.rows, Listing.summary, savedColumn_eq]
      cases Listing.savedColumn .checked t.compressed t.size <;> rfl
  | cons e rest ih =>
      rw [List.length_cons] at hfiles
      rw [rows, Listing.rows, Listing.row, savedColumn_eq, addTotals_eq (by omega)]
      rcases Listing.savedColumn .checked e.compressedSize e.uncompressedSize with _ | saved
      · rfl
      rcases hadd : t.add .checked e with _ | t'
      · rfl
      · -- The number of files stays a word, since there are at least as many entries behind it.
        have hle := files_add_le hadd
        exact ih (by omega) _

end Checked

namespace Listing

/-- All stored sizes of which a percentage is taken have a word as their hundredfold. -/
structure Small (entries : List Entry) : Prop where
  saved : ∀ e ∈ entries, Fits e.compressedSize e.uncompressedSize
  summary : Fits (totals entries).compressed (totals entries).size

theorem small_iff {entries : List Entry} : Small entries ↔
    (∀ e ∈ entries, Fits e.compressedSize e.uncompressedSize) ∧
      Fits (totals entries).compressed (totals entries).size :=
  ⟨fun h => ⟨h.saved, h.summary⟩, fun h => ⟨h.1, h.2⟩⟩

instance (entries : List Entry) : Decidable (Small entries) := decidable_of_iff _ small_iff.symm

/-- Where the sums are words, the percentages decide whether the table fits. -/
theorem tableFits_iff_small {entries : List Entry} (hsums : (totals entries).Words) :
    TableFits entries ↔ Small entries := by
  rw [tableFits_iff, rowsFit_iff, small_iff]
  constructor
  · exact fun h => ⟨h.1.1, h.2⟩
  · exact fun h => ⟨⟨h.1, hsums⟩, h.2⟩

/-- In an accepted archive all sizes are words, and they may be any words. Where the sums over
    the entries that are shown are words as well, the percentages of all of them and of the sums
    are exact, and the table can be computed without leaving the words just if the stored sizes are
    small enough. Then it is the table that every build prints. If not, a checked build ends at a
    hundredfold, and a wrapping one prints a whole table with wrapped percentages. -/
theorem percentages_exact {w : Window} {x : Index} (h : (Index.parse w).outcome = .ok x)
    (patterns : List String)
    (hsums : (totals (x.entries.filter fun e => Wanted patterns e)).Words) :
    let shown := x.entries.filter fun e => Wanted patterns e
    (∀ e ∈ x.entries, e.Sized) ∧
    (∀ compressed size : Nat, compressed < 2 ^ 64 → size < 2 ^ 64 →
      ∃ (w : Window) (x : Index) (e : Entry), (Index.parse w).outcome = .ok x ∧ e ∈ x.entries ∧
        e.compressedSize = compressed ∧ e.uncompressedSize = size) ∧
    (∀ e ∈ shown, 0 < e.uncompressedSize → e.compressedSize ≤ e.uncompressedSize →
      Exact e.compressedSize e.uncompressedSize) ∧
    (0 < (totals shown).size → (totals shown).compressed ≤ (totals shown).size →
      Exact (totals shown).compressed (totals shown).size) ∧
    (Small shown →
      (Checked.rows {} [rule, header] shown : Checked Error (List String)) = .ok (table shown) ∧
      ∀ a : Arithmetic, verbose a patterns x.entries = { lines := table shown }) ∧
    (¬ Small shown →
      (Checked.rows {} [rule, header] shown : Checked Error (List String)) =
        Checked.trap .overflow ∧
      (verbose .checked patterns x.entries).overflow = some .hundredfold ∧
      verbose .wrapping patterns x.entries =
        { lines := tableWith wrappedText (totals shown) shown }) := by
  intro shown
  -- A directory has fewer records than there are words, so the files can be counted.
  have hfiles : ({} : Totals).files + shown.length < wordLimit := by
    have hcount := Index.length_entries_lt h
    have hshown : shown.length ≤ x.entries.length := List.length_filter_le _ _
    change 0 + shown.length < wordLimit
    omega
  have hsized := Index.sized_of_parse h
  have hverbose : ∀ a : Arithmetic,
      verbose a patterns x.entries = rows a {} [rule, header] shown := by
    intro a
    rw [verbose, select_eq]
  have hchecked := @Checked.rows_eq Error {} shown hfiles [rule, header]
  refine ⟨hsized, ?_, ?_, ?_, ?_, ?_⟩
  · exact fun compressed size hcompressed hsize =>
      Index.exists_sizes_iff.mpr ⟨hcompressed, hsize⟩
  · exact fun e he hsize hle =>
      exact_of_le hsize (hsized e (List.mem_of_mem_filter he)).uncompressed hle
  · exact fun hsize hle => exact_of_le hsize hsums.1 hle
  · intro hsmall
    have hrows := fun a => rows_of_fits a ((tableFits_iff_small hsums).mpr hsmall)
    rw [hchecked, hrows]
    exact ⟨rfl, fun a => (hverbose a).trans (hrows a)⟩
  · intro hlarge
    have hnot : ¬ TableFits shown := fun hfits => hlarge ((tableFits_iff_small hsums).mp hfits)
    -- The sums are words, so what ends the table can only be a percentage.
    rcases rows_of_not_fits hnot with ⟨printed, o, hrows, ho, _⟩
    rw [hverbose, hverbose, hchecked, hrows, rows_wrapping, Totals.wrapped_of_words hsums,
      ho hsums]
    exact ⟨rfl, rfl, rfl⟩

/-- Two entries whose sizes add up to the largest word and to the largest number whose
    hundredfold is one. -/
theorem percentages_exact_largest :
    let sizes : List (UInt64 × UInt64) := [(3, 7), (184467440737095513, 18446744073709551608)]
    let w := Window.whole (.memory "m" ⟨(PackedArchive.ofSizes sizes).toBytes.toArray⟩)
    ∃ x, (Index.parse w).outcome = .ok x ∧
      totals x.entries = { size := 2 ^ 64 - 1, compressed := maxHundredth, files := 2 } ∧
      (∀ e ∈ x.entries, Exact e.compressedSize e.uncompressedSize) ∧
      Exact maxHundredth (2 ^ 64 - 1) ∧
      (Checked.rows {} [rule, header] x.entries : Checked Error (List String)) = .ok [header, rule,
        "         7           3    58%  1980-00-00  00:00  a",
        "18446744073709551608  184467440737095513   100%  1980-00-00  00:00  a",
        rule,
        "18446744073709551615  184467440737095516   100%                         2 files"] := by
  intro sizes w
  have hindex := PackedArchive.parse_ofSizes (show sizes.length < 0xFFFF by decide) "m"
  rcases percentages_exact hindex [] (by decide +kernel) with
    ⟨_, _, hsaved, htotals, hsmall, _⟩
  refine ⟨_, hindex, by decide +kernel, ?_, ?_, ?_⟩
  · intro e he
    have hsizes : 0 < e.uncompressedSize ∧ e.compressedSize ≤ e.uncompressedSize := by
      revert e
      decide +kernel
    exact hsaved e (List.mem_filter.mpr ⟨he, decide_eq_true (Or.inl rfl)⟩) hsizes.1 hsizes.2
  · exact htotals (by decide +kernel) (by decide +kernel)
  · exact (hsmall (by decide +kernel)).1.trans (congrArg Except.ok (by decide +kernel))

/-- The smallest sizes that are too large: nothing is saved, but a hundred times the stored
    size is not a word. The archive is accepted. A checked build ends in front of its only row, and
    a wrapping one says that everything was saved. -/
theorem percentage_overflows :
    let size : UInt64 := 184467440737095517
    let w := Window.whole
      (.memory "m" ⟨(PackedArchive.ofSizes [(size, size)]).toBytes.toArray⟩)
    ∃ x e, (Index.parse w).outcome = .ok x ∧ x.entries = [e] ∧ (totals x.entries).Words ∧
      0 < e.uncompressedSize ∧ e.compressedSize ≤ e.uncompressedSize ∧
      percent e.compressedSize e.uncompressedSize = 0 ∧
      (Checked.percentSaved e.compressedSize e.uncompressedSize : Checked Error Nat) =
        Checked.trap .overflow ∧
      verbose .checked [] x.entries =
        { lines := [header, rule], overflow := some .hundredfold } ∧
      verbose .wrapping [] x.entries = { lines := [header, rule,
        "184467440737095517  184467440737095517   100%  1980-00-00  00:00  a",
        rule,
        "184467440737095517  184467440737095517   100%                         1 files"] } := by
  intro size w
  have hindex := PackedArchive.parse_ofSizes (show [(size, size)].length < 0xFFFF by decide) "m"
  have hsize : 0 < size.toNat := by decide
  have hoverflows := (exact_of_le hsize size.toNat_lt (Nat.le_refl _)).overflows (by decide)
  exact ⟨_, _, hindex, rfl, by decide +kernel, hsize, Nat.le_refl _, by decide, hoverflows.1,
    by decide +kernel, by decide +kernel⟩

end Listing

end NestedZip
