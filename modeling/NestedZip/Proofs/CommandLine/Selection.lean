import NestedZip.CommandLine.Report
import NestedZip.Proofs.CommandLine.Table
import NestedZip.Proofs.Directory.Sizes
import NestedZip.Proofs.Resolver

/-!
# What a Run Lists

What a run prints that is asked for a listing, whatever archive it comes to.

A run lists if it is asked for nothing else: not for the manifest, not for the
libraries, and not for the content of an entry, unless it is told to list all
the same. Which of the two forms it prints depends on one switch, and nothing
else does. Both show the entries that are wanted, in the order of the directory
and as often as they stand there: one has a line with the name for each of them,
the other a row, and behind the rows the sums over those that are no directories.

The names are always printed. The table needs the sizes to be small enough to be
computed with, and what becomes of one that is not is a matter of how the
program was built. With checked arithmetic a run that comes to such a size ends
there, with status 101. The sums being words is not enough for it not to, since
the percentages need more room than the sums. With wrapping arithmetic the whole
table is printed, with all the rows and with the sums if they are words, and
only percentages go wrong.

## Main definitions

* `Arguments.Lists`: A run with these arguments prints a listing.

## Theorems

* `Arguments.answer_lists`: A run that lists prints one of the two forms.
* `Arguments.listing_exact`: What is printed of any archive.
* `Arguments.listing_cut_off`: A table that a checked build ends early, although the sums
  are words.
-/

namespace NestedZip

namespace Arguments

/-- A run with these arguments prints a listing of the archive that is meant, or that holds
    the entry that is meant. -/
structure Lists (a : Arguments) (l : Locator) : Prop where
  manifest : a.has .manifest = false
  classpath : a.has .classpath = false
  content : l.entry.isSome = true → a.has .list = true ∨ a.has .verbose = true

theorem lists_iff {a : Arguments} {l : Locator} : a.Lists l ↔
    a.has .manifest = false ∧ a.has .classpath = false ∧
      (l.entry.isSome = true → a.has .list = true ∨ a.has .verbose = true) :=
  ⟨fun h => ⟨h.manifest, h.classpath, h.content⟩, fun h => ⟨h.1, h.2.1, h.2.2⟩⟩

instance (a : Arguments) (l : Locator) : Decidable (a.Lists l) := decidable_of_iff _ lists_iff.symm

/-- A run that lists finds the archive and prints one of the two forms. -/
theorem answer_lists {a : Arguments} (p : Platform) {l : Locator} {s t : Connection × Resolver}
    {h : Handle} (hasked : a.Lists l) (harchive : Connection.archive s = .ok h t) :
    a.answer p l s = .ok (.ofListing (if a.has .verbose then
      .verbose p.arithmetic a.patterns h.archive.entries
      else .plain a.patterns h.archive.entries)) t := by
  have hcontent : (l.entry.isSome && !(a.has .list || a.has .verbose)) = false := by
    rw [Bool.and_eq_false_iff, Bool.not_eq_false', Bool.or_eq_true]
    by_cases hentry : l.entry.isSome = true
    · exact Or.inr (hasked.content hentry)
    · exact Or.inl (eq_false_of_ne_true hentry)
  -- Neither the manifest nor libraries nor content is asked for, so a listing is left.
  unfold answer
  rw [if_neg (ne_true_of_eq_false hasked.manifest),
    if_neg (ne_true_of_eq_false hasked.classpath), if_neg (ne_true_of_eq_false hcontent),
    Resolving.bind_of_ok harchive]
  rfl

/-- A run that lists takes the entries whose names some pattern matches, or all if there are no
    patterns, in the order of the directory and as often as they stand there. Their names are
    printed, or else one row for each of them and the sums over those that are no directories.
    If not all of these rows can be computed, a build with checked arithmetic ends the table in
    front of the first that cannot be, or at a row with which the sums leave the words. One with
    wrapping arithmetic prints all of it, with wrapped percentages, and with the sums if they are
    words. -/
theorem listing_exact {a : Arguments} (p : Platform) {l : Locator} {s t : Connection × Resolver}
    {h : Handle} (hasked : a.Lists l) (harchive : Connection.archive s = .ok h t) :
    let entries := h.archive.entries
    let shown := entries.filter fun e => Listing.Wanted a.patterns e
    let sums := Listing.totals shown
    ∃ report, a.answer p l s = .ok report t ∧
      report = .ofListing (Listing.scan p.arithmetic a.patterns (a.has .verbose) {}
        (if a.has .verbose then [Listing.rule, Listing.header] else []) entries) ∧
      (a.has .verbose = false → report = .ofLines (shown.map Entry.displayName)) ∧
      (a.has .verbose = true → Listing.TableFits shown →
        report = .ofLines (Listing.table shown)) ∧
      (a.has .verbose = true → p.arithmetic = .wrapping →
        report = .ofLines (Listing.tableWith Listing.wrappedText sums.wrapped shown) ∧
        (sums.Words → sums.wrapped = sums)) ∧
      (a.has .verbose = true → p.arithmetic = .checked → ¬ Listing.TableFits shown →
        ∃ printed o,
          report = { Report.ofOverflow o with output := (Report.ofLines printed).output } ∧
          report.status = 101 ∧ (sums.Words → o = .hundredfold) ∧
          printed <+: Listing.table shown ∧
          ∀ front, front <+: shown → Listing.RowsFit front →
            Listing.header :: Listing.rule :: front.map Listing.rowText <+: printed) := by
  intro entries shown sums
  refine ⟨_, answer_lists p hasked harchive, ?_, ?_, ?_, ?_, ?_⟩
  · rw [Listing.scan_eq]
  · intro hplain
    rw [if_neg (ne_true_of_eq_false hplain), Listing.plain, Listing.select_eq]
    rfl
  · intro hverbose hfits
    rw [if_pos hverbose, Listing.verbose, Listing.select_eq, Listing.rows_of_fits _ hfits]
    rfl
  · intro hverbose hwrapping
    refine ⟨?_, Listing.Totals.wrapped_of_words⟩
    rw [if_pos hverbose, hwrapping, Listing.verbose, Listing.select_eq, Listing.rows_wrapping]
    rfl
  · intro hverbose hchecked hfits
    rcases Listing.rows_of_not_fits hfits with ⟨printed, o, hrows, ho, hprefix, hfront⟩
    rw [if_pos hverbose, hchecked, Listing.verbose, Listing.select_eq, hrows]
    exact ⟨printed, o, rfl, rfl, ho, hprefix, hfront⟩

end Arguments

/-- A step answers if a function of its answer is known. -/
theorem Resolving.exists_of_run' {σ α β : Type} {x : EStateM Error σ α} {f : α → β} {s : σ}
    {b : β} (h : EStateM.run' (f <$> x) s = some b) : ∃ a t, x s = .ok a t ∧ f a = b := by
  unfold EStateM.run' EStateM.run at h
  rcases hx : x s with ⟨a, t⟩ | ⟨e, t⟩
  · have hmap : (f <$> x) s = .ok (f a) t := by
      change EStateM.map f x s = _
      rw [EStateM.map, hx]
    rw [hmap, Option.some.injEq] at h
    exact ⟨a, t, rfl, h⟩
  · have hmap : (f <$> x) s = .error e t := by
      change EStateM.map f x s = _
      rw [EStateM.map, hx]
    rw [hmap] at h
    exact absurd h.symm (Option.some_ne_none b)

namespace Arguments

/-- A record of a directory whose header tells a name and two sizes. -/
def shortRecord (name : Bytes) (compressed size : UInt8) : Bytes :=
  [0x50, 0x4B, 0x01, 0x02, 20, 0, 20, 0, 0, 0, 0, 0, 0, 0, 0x21, 0, 0, 0, 0, 0, compressed, 0, 0, 0,
    size, 0, 0, 0, .ofNat name.length, 0, 0, 0, 0, 0, 0, 0, 0, 0, 0, 0, 0, 0, 0, 0, 0, 0] ++ name

/-- An archive with a directory in it, a name that stands there twice, and one that is not
    ASCII. -/
def shelf : Bytes :=
  shortRecord [0x61] 5 8 ++ shortRecord [0x64, 0x2F] 3 3 ++ shortRecord [0x62] 1 1 ++
    shortRecord [0x61] 9 4 ++ shortRecord [0xFF] 0 2 ++
    [0x50, 0x4B, 0x05, 0x06, 0, 0, 0, 0, 5, 0, 5, 0, 236, 0, 0, 0, 0, 0, 0, 0, 0, 0]

/-- Before a run with these bytes as the buffer `mem:m`. -/
def before (bytes : Bytes) : Connection × Resolver :=
  let l : Locator := { root := "mem:m", archives := [], entry := none }
  ({ locator := l }, (({} : Resolver).register "m" ⟨bytes.toArray⟩).2)

/-- A build with this arithmetic. A listing depends on nothing else around it. -/
def built (arithmetic : Arithmetic) : Platform :=
  { directory := "/", inflate := fun raw _ => { bytes := raw.bytes }, arithmetic }

/-- What the directory tells about an entry. -/
def shortEntry (name : Bytes) (compressed size : UInt8) : Entry where
  name
  method := .stored
  compressedSize := compressed.toNat
  uncompressedSize := size.toNat
  packedDate := 0x21

/-- Names are listed with their patterns, and rows with sums that leave out the directory. The
    sizes are small, so every build prints the same. -/
theorem listing_exact_shelf :
    let names : Arguments := { locator := "mem:m", patterns := ["a", "?/", "\uFFFD"] }
    let tables : Arguments := { names with switches := [.verbose] }
    let l : Locator := { root := "mem:m", archives := [], entry := none }
    ∀ arithmetic : Arithmetic,
      (∃ t, names.answer (built arithmetic) l (before shelf) =
        .ok (.ofLines ["a", "d/", "a", "\uFFFD"]) t) ∧
      ∃ t, tables.answer (built arithmetic) l (before shelf) =
        .ok (.ofLines [Listing.header, Listing.rule,
          "         8           5    38%  1980-01-01  00:00  a",
          "         3           3     0%  1980-01-01  00:00  d/",
          "         4           9    0%  1980-01-01  00:00  a",
          "         2           0   100%  1980-01-01  00:00  \uFFFD",
          Listing.rule,
          "        14          14     0%                         3 files"]) t := by
  intro names tables l arithmetic
  have hentries : EStateM.run' ((fun h => h.archive.entries) <$> Connection.archive)
      (before shelf) = some [shortEntry [0x61] 5 8, shortEntry [0x64, 0x2F] 3 3,
        shortEntry [0x62] 1 1, shortEntry [0x61] 9 4, shortEntry [0xFF] 0 2] := by
    decide +kernel
  -- Both runs start from the same connection, so they list the same entries.
  rcases Resolving.exists_of_run' hentries with ⟨h, t, harchive, hentries⟩
  have hnames : names.Lists l := by decide
  have htables : tables.Lists l := by decide
  rcases listing_exact (built arithmetic) hnames harchive with ⟨_, hanswer, _, hplain, _⟩
  rcases listing_exact (built arithmetic) htables harchive with ⟨_, hreport, _, _, hverbose, _⟩
  rw [hentries] at hplain hverbose
  rw [hplain (by decide)] at hanswer
  rw [hverbose (by decide) (by decide +kernel)] at hreport
  refine ⟨⟨t, hanswer.trans ?_⟩, ⟨t, hreport.trans ?_⟩⟩
  · exact congrArg (EStateM.Result.ok · t) (congrArg Report.ofLines (by decide +kernel))
  · exact congrArg (EStateM.Result.ok · t) (congrArg Report.ofLines (by decide +kernel))

/-- A directory with two entries whose sizes have words as their sums. All percentages can be
    computed but that of the second entry. So a checked build prints no row for it, and no sums. A
    wrapping one prints both, and a percentage that is too large. -/
theorem listing_cut_off :
    let sizes : List (UInt64 × UInt64) := [(2, 4), (0x1000000000000000, 0x1000000000000000)]
    let s := before (PackedArchive.ofSizes sizes).toBytes
    let names : Arguments := { locator := "mem:m" }
    let tables : Arguments := { names with switches := [.verbose] }
    let l : Locator := { root := "mem:m", archives := [], entry := none }
    (∃ h t, Connection.archive s = .ok h t ∧ h.archive.entries.length = 2 ∧
      (Listing.totals h.archive.entries).Words) ∧
    EStateM.run' (names.answer (built .checked) l) s = some (.ofLines ["a", "a"]) ∧
    EStateM.run' (tables.answer (built .checked) l) s = some {
      Report.ofLines [Listing.header, Listing.rule,
        "         4           2    50%  1980-00-00  00:00  a"] with
      status := 101
      complaint := "attempt to multiply with overflow"
      overflow := some .hundredfold } ∧
    EStateM.run' (tables.answer (built .wrapping) l) s = some (.ofLines [
      Listing.header, Listing.rule,
      "         4           2    50%  1980-00-00  00:00  a",
      "1152921504606846976  1152921504606846976    96%  1980-00-00  00:00  a",
      Listing.rule,
      "1152921504606846980  1152921504606846978    96%                         2 files"]) := by
  intro sizes s names tables l
  refine ⟨?_, by decide +kernel, by decide +kernel, by decide +kernel⟩
  have hentries : EStateM.run' ((fun h => h.archive.entries) <$> Connection.archive) s =
      some [{ name := [0x61], method := .stored, compressedSize := 2, uncompressedSize := 4 },
        { name := [0x61], method := .stored, compressedSize := 0x1000000000000000,
          uncompressedSize := 0x1000000000000000 }] := by
    decide +kernel
  -- The run shows the entries only, but there is a handle that has them.
  rcases Resolving.exists_of_run' hentries with ⟨h, t, harchive, hentries⟩
  refine ⟨h, t, harchive, ?_, ?_⟩
  · rw [hentries]
    rfl
  · rw [hentries]
    decide

end Arguments

end NestedZip
