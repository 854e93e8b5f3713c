import Mathlib.Algebra.GroupWithZero.Nat
import Mathlib.Data.List.Induction
import NestedZip.Proofs.CommandLine.Glob
import NestedZip.Proofs.CommandLine.Percentage

/-!
# The Table of a Listing

What the two forms of a listing show, and when the table is complete.

Both forms can be had from one loop over all entries: it passes over those that
are not wanted, prints a name and goes on, or prints a row, adds the entry to
the totals if it is no directory, and goes on. `scan` is that loop. That it
takes the entries one at a time makes no difference to what is shown, which is
the wanted entries in the order of the directory, as often as they stand there.

The totals at any place of the loop are the sums over the entries in front of
it. So one step is a statement about a list with one more entry at its end, and
the whole loop follows by induction on what is left. With checked arithmetic the
loop goes on as long as the sums are words and the percentages can be taken. If
it stops, it does so at the first entry where that is no longer so, and
everything in front of this entry has been printed.

With wrapping arithmetic the loop never stops. Then it is the remainders of the
sums that it has at any place, and what it prints differs from the table at most
in the percentages, and in sums that are no words.

## Main definitions

* `Listing.Wanted`: An entry that the patterns ask for.
* `Listing.scan`: Both forms, in one loop.
* `Listing.totals`: The sums, in numbers that know no bound.
* `Listing.tableWith`, `Listing.table`: A whole table, and the right one.
* `Listing.Totals.wrapped`: The sums as wrapping arithmetic has them.
* `Listing.RowsFit`, `Listing.TableFits`: Entries whose rows, and whose table, can be
  printed.

## Theorems

* `Listing.select_eq`: Which entries are shown.
* `Listing.scan_eq`: The loop prints what the two forms say.
* `Listing.rows_append`: The checked loop goes on as long as the rows fit.
* `Listing.rows_wrapping`: The wrapping one prints a table, whatever the sizes.
* `Listing.rows_of_fits`: A table that fits is printed as a whole.
* `Listing.rows_of_not_fits`: Another one is cut off, where it has to be.
-/

namespace NestedZip

namespace Listing

/-- Some pattern matches the name of the entry, or there are no patterns. -/
def Wanted (patterns : List String) (e : Entry) : Prop :=
  patterns = [] ∨ ∃ pattern ∈ patterns, Glob.Cut pattern.toList e.displayName.toList

theorem wanted_iff {patterns : List String} {e : Entry} :
    Wanted patterns e ↔
      (patterns.isEmpty || patterns.any fun pattern => Glob.isMatch pattern e.displayName) =
        true := by
  simp only [Wanted, Bool.or_eq_true, List.isEmpty_iff, List.any_eq_true, Glob.isMatch_iff]

instance (patterns : List String) : DecidablePred (Wanted patterns) :=
  fun _ => decidable_of_iff _ wanted_iff.symm

/-- What is shown is every entry that is wanted, in the order of the directory. -/
theorem select_eq (patterns : List String) (entries : List Entry) :
    select patterns entries = entries.filter fun e => Wanted patterns e := by
  refine List.filter_congr fun e _ => ?_
  rw [Bool.eq_iff_iff, decide_eq_true_iff]
  exact wanted_iff.symm

/-- Both forms in one loop over all entries, behind the totals `t`. `done` holds the lines so
    far, last first. -/
def scan (a : Arithmetic) (patterns : List String) (inFull : Bool) (t : Totals)
    (done : List String) : List Entry → Listing
  | [] =>
    if inFull then
      match summary a t with
      | .ok line => { lines := (line :: rule :: done).reverse }
      | .error overflow => { lines := (rule :: done).reverse, overflow }
    else { lines := done.reverse }
  | e :: rest =>
    if !patterns.isEmpty &&
        !patterns.any fun pattern => Glob.search pattern.toList e.displayName.toList then
      scan a patterns inFull t done rest
    else if !inFull then scan a patterns inFull t (e.displayName :: done) rest
    else
      match row a e with
      | .error overflow => { lines := done.reverse, overflow }
      | .ok line =>
        match t.add a e with
        | .error overflow => { lines := (line :: done).reverse, overflow }
        | .ok t => scan a patterns inFull t (line :: done) rest

section

variable (a : Arithmetic) (patterns : List String)

/-- The loop passes over an entry just if it is not selected. -/
theorem select_cons (e : Entry) (rest : List Entry) :
    select patterns (e :: rest) =
      if !patterns.isEmpty &&
          !patterns.any fun pattern => Glob.search pattern.toList e.displayName.toList then
        select patterns rest
      else e :: select patterns rest := by
  have hsearch : ∀ pattern : String,
      Glob.search pattern.toList e.displayName.toList = Glob.isMatch pattern e.displayName :=
    fun pattern => Glob.search_eq _ _
  simp only [select, List.filter_cons, hsearch, ← Bool.not_or, Bool.not_eq_true']
  by_cases hwanted :
      (patterns.isEmpty || patterns.any fun pattern => Glob.isMatch pattern e.displayName) = true
  · rw [if_pos hwanted, if_neg (ne_true_of_eq_false · hwanted)]
  · rw [if_neg hwanted, if_pos (eq_false_of_ne_true hwanted)]

/-- Asked for names, the loop leaves the totals alone and prints the plain form. -/
theorem scan_plain (t : Totals) (done : List String) (entries : List Entry) :
    scan a patterns false t done entries =
      { lines := done.reverse ++ (select patterns entries).map Entry.displayName } := by
  induction entries generalizing done with
  | nil => rw [select, List.filter_nil, List.map_nil, List.append_nil]; rfl
  | cons e rest ih =>
      rw [scan, select_cons]
      -- An entry that is passed over is not selected either.
      split
      · exact ih done
      · change scan a patterns false t (e.displayName :: done) rest = _
        rw [ih, List.reverse_cons, List.append_assoc, List.map_cons]
        rfl

/-- Asked for rows, it prints the verbose form, behind any totals. -/
theorem scan_full (t : Totals) (done : List String) (entries : List Entry) :
    scan a patterns true t done entries = rows a t done (select patterns entries) := by
  induction entries generalizing t done with
  | nil => rfl
  | cons e rest ih =>
      rw [scan, select_cons]
      split
      · exact ih t done
      · rw [if_neg (by decide), rows]
        rcases row a e with _ | line
        · rfl
        rcases t.add a e with _ | t'
        · rfl
        · exact ih t' (line :: done)

/-- The loop over all entries prints what the two forms say of those that are selected. -/
theorem scan_eq (inFull : Bool) (entries : List Entry) :
    scan a patterns inFull {} (if inFull then [rule, header] else []) entries =
      if inFull then verbose a patterns entries else plain patterns entries := by
  cases inFull with
  | false => exact scan_plain a patterns {} [] entries
  | true => exact scan_full a patterns {} [rule, header] entries

end

/-- The row of an entry, given what the column for the percentage says. -/
def rowWith (saved : String) (e : Entry) : String :=
  let (year, month, day) := e.date
  let (hour, minute, _) := e.time
  let date := "-".intercalate [zeroPadded 4 year, zeroPadded 2 month, zeroPadded 2 day]
  let time := ":".intercalate [zeroPadded 2 hour, zeroPadded 2 minute]
  "  ".intercalate [alignRight 10 (toString e.uncompressedSize),
    alignRight 10 (toString e.compressedSize), saved, date, time, e.displayName]

/-- The row that an entry should have. -/
def rowText (e : Entry) : String := rowWith (savedText e.compressedSize e.uncompressedSize) e

/-- The row of the totals, given what the column for the percentage says. -/
def summaryWith (saved : String) (t : Totals) : String :=
  "  ".intercalate [alignRight 10 (toString t.size), alignRight 10 (toString t.compressed),
    saved, alignRight 21 "", s!"{t.files} files"]

/-- The row that the totals should have. -/
def summaryText (t : Totals) : String := summaryWith (savedText t.compressed t.size) t

/-- The sums over all entries that are no directories, and how many there are. -/
def totals (entries : List Entry) : Totals :=
  let files := entries.filter fun e => !e.isDirectory
  { size := (files.map Entry.uncompressedSize).sum
    compressed := (files.map Entry.compressedSize).sum
    files := files.length }

/-- A table of some entries, given what the column for the percentage says about two sizes,
    and the sums. -/
def tableWith (saved : Nat → Nat → String) (sums : Totals) (entries : List Entry) : List String :=
  header :: rule ::
    (entries.map (fun e => rowWith (saved e.compressedSize e.uncompressedSize) e) ++
      [rule, summaryWith (saved sums.compressed sums.size) sums])

/-- The table of some entries. -/
def table (entries : List Entry) : List String := tableWith savedText (totals entries) entries

theorem table_eq (entries : List Entry) :
    table entries =
      header :: rule :: (entries.map rowText ++ [rule, summaryText (totals entries)]) := rfl

/-- The sums with one more entry, which is no directory. -/
def Totals.plus (t : Totals) (e : Entry) : Totals where
  size := t.size + e.uncompressedSize
  compressed := t.compressed + e.compressedSize
  files := t.files + 1

/-- What is left of sums that need not be words. -/
def Totals.wrapped (t : Totals) : Totals where
  size := t.size % wordLimit
  compressed := t.compressed % wordLimit
  files := t.files

/-- Both sums are words. -/
def Totals.Words (t : Totals) : Prop := t.size < wordLimit ∧ t.compressed < wordLimit

instance (t : Totals) : Decidable t.Words := inferInstanceAs (Decidable (_ ∧ _))

/-- Every percentage can be taken, and the sums are words. -/
structure RowsFit (entries : List Entry) : Prop where
  saved : ∀ e ∈ entries, Fits e.compressedSize e.uncompressedSize
  totals : (totals entries).Words

/-- The percentage of the totals can be taken as well. -/
structure TableFits (entries : List Entry) : Prop extends RowsFit entries where
  summary : Fits (Listing.totals entries).compressed (Listing.totals entries).size

variable {front entries : List Entry} {e : Entry}

theorem rowsFit_iff : RowsFit entries ↔
    (∀ e ∈ entries, Fits e.compressedSize e.uncompressedSize) ∧ (totals entries).Words :=
  ⟨fun h => ⟨h.saved, h.totals⟩, fun h => ⟨h.1, h.2⟩⟩

theorem tableFits_iff : TableFits entries ↔
    RowsFit entries ∧ Fits (totals entries).compressed (totals entries).size :=
  ⟨fun h => ⟨h.toRowsFit, h.summary⟩, fun h => ⟨h.1, h.2⟩⟩

instance (entries : List Entry) : Decidable (RowsFit entries) := decidable_of_iff _ rowsFit_iff.symm

instance (entries : List Entry) : Decidable (TableFits entries) :=
  decidable_of_iff _ tableFits_iff.symm

/-- A checked row is the right one, unless its percentage cannot be taken. -/
theorem row_checked (e : Entry) :
    row .checked e =
      if Fits e.compressedSize e.uncompressedSize then .ok (rowText e)
      else .error .hundredfold := by
  rw [row]
  by_cases hfits : Fits e.compressedSize e.uncompressedSize
  · rw [savedColumn_of_fits _ hfits, if_pos hfits]
    rfl
  · rw [savedColumn_of_not_fits hfits, if_neg hfits]
    rfl

theorem row_wrapping (e : Entry) :
    row .wrapping e = .ok (rowWith (wrappedText e.compressedSize e.uncompressedSize) e) := by
  rw [row, savedColumn_wrapping]
  rfl

/-- So is a checked summary. -/
theorem summary_checked (t : Totals) :
    summary .checked t =
      if Fits t.compressed t.size then .ok (summaryText t) else .error .hundredfold := by
  rw [summary]
  by_cases hfits : Fits t.compressed t.size
  · rw [savedColumn_of_fits _ hfits, if_pos hfits]
    rfl
  · rw [savedColumn_of_not_fits hfits, if_neg hfits]
    rfl

theorem summary_wrapping (t : Totals) :
    summary .wrapping t = .ok (summaryWith (wrappedText t.compressed t.size) t) := by
  rw [summary, savedColumn_wrapping]
  rfl

/-- Sums that are words are what wrapping makes of them. -/
theorem Totals.wrapped_of_words {t : Totals} (h : t.Words) : t.wrapped = t := by
  rw [wrapped, Nat.mod_eq_of_lt h.1, Nat.mod_eq_of_lt h.2]

theorem words_totals_nil : (totals []).Words := ⟨by decide, by decide⟩

theorem rowsFit_nil : RowsFit [] := ⟨fun _ he => absurd he List.not_mem_nil, words_totals_nil⟩

/-- One more entry counts for the totals if it is no directory. -/
theorem totals_concat (front : List Entry) (e : Entry) :
    totals (front ++ [e]) = if e.isDirectory then totals front else (totals front).plus e := by
  unfold totals Totals.plus
  rw [List.filter_append]
  by_cases hdirectory : e.isDirectory = true
  · rw [if_pos hdirectory, List.filter_cons_of_neg (by simp only [hdirectory]; decide),
      List.filter_nil, List.append_nil]
  · rw [if_neg hdirectory, List.filter_cons_of_pos (by simp only [hdirectory]; decide),
      List.filter_nil]
    simp only [List.map_append, List.map_cons, List.map_nil, List.sum_append, List.sum_cons,
      List.sum_nil, Nat.add_zero, List.length_append, List.length_singleton]

/-- The sum that is no word once an entry is added, if one is not. -/
def sumOverflow (t : Totals) (e : Entry) : Overflow :=
  if t.size + e.uncompressedSize < wordLimit then .compressedSum else .sizeSum

/-- The checked loop adds an entry just if the sums are words with it, and then has the sums
    over one entry more. -/
theorem add_totals (hfront : (totals front).Words) (e : Entry) :
    (totals front).add .checked e =
      if (totals (front ++ [e])).Words then .ok (totals (front ++ [e]))
      else .error (sumOverflow (totals front) e) := by
  rw [totals_concat, Totals.add]
  by_cases hdirectory : e.isDirectory = true
  · rw [if_pos hdirectory, if_pos hdirectory, if_pos hfront]
  -- The size is added first, so it is the one to blame if neither sum is a word.
  rw [if_neg hdirectory, if_neg hdirectory, Arithmetic.word_checked, Arithmetic.word_checked,
    sumOverflow]
  by_cases hsize : (totals front).size + e.uncompressedSize < wordLimit
  · rw [if_pos hsize, if_pos hsize]
    by_cases hcompressed : (totals front).compressed + e.compressedSize < wordLimit
    · have hwords : ((totals front).plus e).Words := ⟨hsize, hcompressed⟩
      rw [if_pos hcompressed, if_pos hwords]
      rfl
    · have hwords : ¬ ((totals front).plus e).Words := fun h => hcompressed h.2
      rw [if_neg hcompressed, if_neg hwords]
      rfl
  · have hwords : ¬ ((totals front).plus e).Words := fun h => hsize h.1
    rw [if_neg hsize, if_neg hsize, if_neg hwords]
    rfl

/-- The wrapping loop adds every entry, and has what is left of the sums. -/
theorem add_wrapped (front : List Entry) (e : Entry) :
    (totals front).wrapped.add .wrapping e = .ok (totals (front ++ [e])).wrapped := by
  rw [totals_concat, Totals.add]
  by_cases hdirectory : e.isDirectory = true
  · rw [if_pos hdirectory, if_pos hdirectory]
  · rw [if_neg hdirectory, if_neg hdirectory, Arithmetic.word_wrapping, Arithmetic.word_wrapping]
    simp only [Totals.wrapped, Totals.plus, Nat.mod_add_mod]
    rfl

theorem totals_mono {more : List Entry} :
    (totals front).size ≤ (totals (front ++ more)).size ∧
      (totals front).compressed ≤ (totals (front ++ more)).compressed := by
  simp only [totals, List.filter_append, List.map_append, List.sum_append]
  omega

/-- Sums that are words are words without those behind. -/
theorem words_of_prefix (h : (totals entries).Words) (hfront : front <+: entries) :
    (totals front).Words := by
  rcases hfront with ⟨more, rfl⟩
  have hmono := @totals_mono front more
  exact ⟨Nat.lt_of_le_of_lt hmono.1 h.1, Nat.lt_of_le_of_lt hmono.2 h.2⟩

/-- Rows that fit fit without those behind. -/
theorem RowsFit.of_prefix (h : RowsFit entries) (hfront : front <+: entries) : RowsFit front :=
  ⟨fun e he => h.saved e (hfront.subset he), words_of_prefix h.totals hfront⟩

/-- The rows of one entry more fit if those in front do, its percentage can be taken and the sums
    are words still. -/
theorem rowsFit_concat_iff : RowsFit (front ++ [e]) ↔
    RowsFit front ∧ Fits e.compressedSize e.uncompressedSize ∧
      (totals (front ++ [e])).Words := by
  constructor
  · intro h
    exact ⟨h.of_prefix (List.prefix_append _ _),
      h.saved e (List.mem_append_right _ (List.mem_singleton_self e)), h.totals⟩
  · rintro ⟨hfront, hsaved, htotals⟩
    refine ⟨fun other hother => ?_, htotals⟩
    rcases List.mem_append.mp hother with hmem | hmem
    · exact hfront.saved other hmem
    · rw [List.mem_singleton.mp hmem]
      exact hsaved

/-- One round of the checked loop behind some entries: it prints the row and goes on behind one
    entry more, if the rows fit with it. -/
theorem rows_cons (hfront : RowsFit front) (done : List String) (rest : List Entry) :
    rows .checked (totals front) done (e :: rest) =
      if RowsFit (front ++ [e]) then
        rows .checked (totals (front ++ [e])) (rowText e :: done) rest
      else if Fits e.compressedSize e.uncompressedSize then
        { lines := done.reverse ++ [rowText e], overflow := sumOverflow (totals front) e }
      else { lines := done.reverse, overflow := some .hundredfold } := by
  rw [rows, row_checked, add_totals hfront.totals]
  -- The percentage is taken before the row is printed, and the sums are made behind it.
  by_cases hsaved : Fits e.compressedSize e.uncompressedSize
  · rw [if_pos hsaved, if_pos hsaved]
    by_cases htotals : (totals (front ++ [e])).Words
    · rw [if_pos htotals, if_pos (rowsFit_concat_iff.mpr ⟨hfront, hsaved, htotals⟩)]
    · rw [if_neg htotals, if_neg (fun h => htotals h.totals)]
      simp only [List.reverse_cons]
  · rw [if_neg hsaved, if_neg (fun h => hsaved (rowsFit_concat_iff.mp h).2.1), if_neg hsaved]

/-- As long as the rows fit the loop goes on, and has the sums over all that it has printed. -/
theorem rows_append {rest : List Entry} (h : RowsFit (front ++ entries)) (done : List String) :
    rows .checked (totals front) done (entries ++ rest) =
      rows .checked (totals (front ++ entries)) ((entries.map rowText).reverse ++ done) rest := by
  induction entries generalizing front done with
  | nil => rw [List.append_nil]; rfl
  | cons e entries ih =>
      -- The first of them becomes the last of those in front.
      rw [List.append_cons] at h ⊢
      have hmore := h.of_prefix (List.prefix_append (front ++ [e]) entries)
      have hfront := hmore.of_prefix (List.prefix_append front [e])
      rw [List.cons_append, rows_cons hfront, if_pos hmore, ih h]
      simp only [List.map_cons, List.reverse_cons, List.append_assoc, List.cons_append,
        List.nil_append]

/-- The same from the start of the table. -/
theorem rows_start (h : RowsFit entries) (rest : List Entry) :
    rows .checked {} [rule, header] (entries ++ rest) =
      rows .checked (totals entries) ((entries.map rowText).reverse ++ [rule, header]) rest :=
  @rows_append [] entries rest h [rule, header]

theorem reverse_lines (entries : List Entry) :
    ((entries.map rowText).reverse ++ [rule, header]).reverse =
      header :: rule :: entries.map rowText := by
  rw [List.reverse_append, List.reverse_reverse]
  rfl

/-- Behind the last entry there are a rule and the summary, if its percentage can be taken. -/
theorem rows_nil (t : Totals) (done : List String) :
    rows .checked t done [] =
      if Fits t.compressed t.size then { lines := done.reverse ++ [rule, summaryText t] }
      else { lines := done.reverse ++ [rule], overflow := some .hundredfold } := by
  rw [rows, summary_checked]
  by_cases hfits : Fits t.compressed t.size
  · rw [if_pos hfits, if_pos hfits]
    simp only [List.reverse_cons, List.append_assoc]
    rfl
  · rw [if_neg hfits, if_neg hfits]
    simp only [List.reverse_cons]

/-- The wrapping loop prints a row for every entry and comes to the summary, whatever the
    sizes. Behind some entries it has what is left of their sums. -/
theorem rows_wrapped (front entries : List Entry) (done : List String) :
    let sums := (totals (front ++ entries)).wrapped
    rows .wrapping (totals front).wrapped done entries = {
      lines := done.reverse ++
        entries.map (fun e => rowWith (wrappedText e.compressedSize e.uncompressedSize) e) ++
        [rule, summaryWith (wrappedText sums.compressed sums.size) sums] } := by
  -- The invariant: the totals are the remainders of the sums over what is in front.
  induction entries generalizing front done with
  | nil =>
      rw [rows, summary_wrapping, List.append_nil]
      simp only [List.reverse_cons, List.map_nil, List.append_assoc]
      rfl
  | cons e entries ih =>
      rw [rows, row_wrapping, add_wrapped, List.append_cons]
      simp only [ih, List.reverse_cons, List.map_cons, List.append_assoc, List.cons_append,
        List.nil_append]

/-- A table printed with wrapping arithmetic is whole, whatever the sizes. -/
theorem rows_wrapping (entries : List Entry) :
    rows .wrapping {} [rule, header] entries =
      { lines := tableWith wrappedText (totals entries).wrapped entries } := by
  have hall := rows_wrapped [] entries [rule, header]
  have hstart : (totals []).wrapped = {} := rfl
  rw [hstart] at hall
  rw [hall, tableWith]
  simp only [List.reverse_cons, List.nil_append, List.reverse_nil, List.cons_append]

/-- For entries whose table fits, wrapping arithmetic makes no difference. -/
theorem tableWith_wrapped (h : TableFits entries) :
    tableWith wrappedText (totals entries).wrapped entries = table entries := by
  have hrow : ∀ e ∈ entries, rowWith (wrappedText e.compressedSize e.uncompressedSize) e =
      rowWith (savedText e.compressedSize e.uncompressedSize) e := by
    intro e he
    rw [wrappedText_of_fits (h.saved e he)]
  rw [Totals.wrapped_of_words h.totals, table, tableWith, tableWith, List.map_congr_left hrow,
    wrappedText_of_fits h.summary]

/-- A property of the empty list that a list does not have is lost at one of its members. -/
theorem exists_first_not {α : Type} {P : List α → Prop} (hnil : P []) {xs : List α}
    (h : ¬ P xs) : ∃ front x rest, xs = front ++ x :: rest ∧ P front ∧ ¬ P (front ++ [x]) := by
  induction xs using List.reverseRecOn with
  | nil => exact absurd hnil h
  | append_singleton xs x ih =>
      by_cases hxs : P xs
      · exact ⟨xs, x, [], rfl, hxs, h⟩
      · rcases ih hxs with ⟨front, y, rest, rfl, hfront, hy⟩
        exact ⟨front, y, rest ++ [x], by rw [List.append_assoc, List.cons_append], hfront, hy⟩

/-- A table that fits is printed as a whole, in every build. -/
theorem rows_of_fits (a : Arithmetic) (h : TableFits entries) :
    rows a {} [rule, header] entries = { lines := table entries } := by
  cases a with
  | wrapping => rw [rows_wrapping, tableWith_wrapped h]
  | checked =>
      have hall := rows_start h.toRowsFit []
      rw [List.append_nil] at hall
      rw [hall, rows_nil, if_pos h.summary, reverse_lines]
      rfl

/-- Where all rows fit and the percentage of the totals cannot be taken, only that line is
    missing. -/
theorem rows_of_rowsFit (h : RowsFit entries)
    (hsummary : ¬ Fits (totals entries).compressed (totals entries).size) :
    rows .checked {} [rule, header] entries = {
      lines := header :: rule :: (entries.map rowText ++ [rule])
      overflow := some .hundredfold } := by
  have hall := rows_start h []
  rw [List.append_nil] at hall
  rw [hall, rows_nil, if_neg hsummary, reverse_lines]
  rfl

/-- At the first entry with which the rows no longer fit the table ends, behind the row of that
    entry if it is a sum that is no word. -/
theorem rows_of_misfit (hfront : RowsFit front) (he : ¬ RowsFit (front ++ [e]))
    (rest : List Entry) :
    rows .checked {} [rule, header] (front ++ e :: rest) =
      if Fits e.compressedSize e.uncompressedSize then {
        lines := header :: rule :: (front ++ [e]).map rowText
        overflow := some (sumOverflow (totals front) e) }
      else {
        lines := header :: rule :: front.map rowText
        overflow := some .hundredfold } := by
  rw [rows_start hfront, rows_cons hfront, if_neg he, reverse_lines, List.map_append]
  rfl

/-- Rows that fit do not reach beyond that entry. -/
theorem RowsFit.prefix_of_misfit {other rest : List Entry} (hother : RowsFit other)
    (he : ¬ RowsFit (front ++ [e])) (hwithin : other <+: front ++ e :: rest) : other <+: front := by
  have hreach : front ++ [e] <+: front ++ e :: rest :=
    ⟨rest, by rw [List.append_assoc, List.singleton_append]⟩
  rcases List.prefix_or_prefix_of_prefix hwithin hreach with hbefore | hbeyond
  · rcases List.prefix_concat_iff.mp hbefore with rfl | hfront
    · exact absurd hother he
    · exact hfront
  · exact absurd (hother.of_prefix hbeyond) he

/-- The rows of the first entries are the start of the table. -/
theorem rows_prefix_table (hfront : front <+: entries) :
    header :: rule :: front.map rowText <+: table entries := by
  rcases hfront with ⟨more, rfl⟩
  refine ⟨more.map rowText ++ [rule, summaryText (totals (front ++ more))], ?_⟩
  rw [table_eq]
  simp only [List.map_append, List.cons_append, List.append_assoc]

theorem rows_prefix_rows (hfront : front <+: entries) :
    header :: rule :: front.map rowText <+: header :: rule :: entries.map rowText := by
  rcases hfront with ⟨more, rfl⟩
  exact ⟨more.map rowText, by simp only [List.map_append, List.cons_append]⟩

/-- A table that does not fit is cut off by a checked build, and not before it has to be: as
    long as the rows fit they are printed. If the sums are words, it is a percentage that cannot
    be taken. -/
theorem rows_of_not_fits (h : ¬ TableFits entries) :
    ∃ printed o, rows .checked {} [rule, header] entries =
        { lines := printed, overflow := some o } ∧
      ((totals entries).Words → o = .hundredfold) ∧ printed <+: table entries ∧
      ∀ front, front <+: entries → RowsFit front →
        header :: rule :: front.map rowText <+: printed := by
  by_cases hrows : RowsFit entries
  · have hsummary : ¬ Fits (totals entries).compressed (totals entries).size :=
      fun hfits => h (tableFits_iff.mpr ⟨hrows, hfits⟩)
    refine ⟨_, _, rows_of_rowsFit hrows hsummary, fun _ => rfl,
      ⟨[summaryText (totals entries)], ?_⟩, ?_⟩
    · rw [table_eq]
      simp only [List.cons_append, List.append_assoc, List.nil_append]
    · intro front hfront _
      exact (rows_prefix_rows hfront).trans ⟨[rule], rfl⟩
  · rcases exists_first_not rowsFit_nil hrows with ⟨front, e, rest, rfl, hfront, he⟩
    have hbefore : front <+: front ++ [e] := List.prefix_append _ _
    have hbehind : front ++ [e] <+: front ++ e :: rest :=
      ⟨rest, by rw [List.append_assoc, List.singleton_append]⟩
    have hmisfit := rows_of_misfit hfront he rest
    -- The row of the first entry that does not fit may be printed or not.
    by_cases hsaved : Fits e.compressedSize e.uncompressedSize
    · rw [if_pos hsaved] at hmisfit
      refine ⟨_, _, hmisfit, fun hwords => ?_, rows_prefix_table hbehind, ?_⟩
      · -- It is a sum that is no word here, and the sums only grow.
        have hsums := words_of_prefix hwords hbehind
        exact absurd (rowsFit_concat_iff.mpr ⟨hfront, hsaved, hsums⟩) he
      · intro other hother hfits
        exact rows_prefix_rows ((hfits.prefix_of_misfit he hother).trans hbefore)
    · rw [if_neg hsaved] at hmisfit
      refine ⟨_, _, hmisfit, fun _ => rfl, rows_prefix_table (hbefore.trans hbehind), ?_⟩
      intro other hother hfits
      exact rows_prefix_rows (hfits.prefix_of_misfit he hother)

end Listing

end NestedZip
