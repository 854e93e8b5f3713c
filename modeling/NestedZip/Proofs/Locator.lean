import NestedZip.Locator
import NestedZip.Proofs.Metered
import NestedZip.Proofs.Percent

/-!
# Written Locators are Read Back

A locator that can be written at all is read back from its written form.

The written form is the root and then each name behind a separator. Splitting
it at the separators gives the root and the written names again, for no written
name holds an exclamation mark. A root may hold some, as long as none of them
has a slash behind it; it may even end in one, since the separator that follows
it starts with another. `segments_append` is the step in which that matters.

A locator without an entry ends in a separator, so its last segment is empty.
That is why an entry with the empty name cannot be written, and neither can an
archive with one.

## Main definitions

* `Locator.Readable`: A locator that can be written.
* `Locator.ofPath`: The locator of the entry at the end of a path of names.
* `Locator.ofArchivePath`: The locator of the archive at the end of one.

## Theorems

* `Locator.ofPath_concat`: What joining a path of names gives.
* `Locator.segments_append`: Splitting in front of the first separator.
* `Locator.segments_written`: The segments of a written locator.
* `Locator.decode_toString`: A locator that can be written is read back.
-/

namespace NestedZip

namespace Locator

/-- The characters of the separator. -/
def separatorChars : List Char := ['!', '/']

/-- A locator that can be written: no name is empty, and the root is not empty
    nor taken for something else. -/
structure Readable (l : Locator) : Prop where
  root : l.root.toList ≠ []
  unsplit : ¬ separatorChars <:+: l.root.toList
  unschemed : ¬ ['j', 'a', 'r', ':'] <+: l.root.toList
  archives : ∀ name ∈ l.archives, name ≠ []
  entry : ∀ name, l.entry = some name → name ≠ []

/-- The locator of the entry at the end of a path of names below a root, or of
    the root itself. -/
def ofPath (root : String) (names : List Bytes) : Locator := names.foldl join { root }

/-- The locator of the archive at the end of a path of names below a root. -/
def ofArchivePath (root : String) (names : List Bytes) : Locator := { root, archives := names }

/-- Joining names one by one leaves the root alone, and each name comes behind the others. -/
theorem foldl_join (l : Locator) (names : List Bytes) :
    (names.foldl join l).root = l.root ∧
      (names.foldl join l).archives ++ (names.foldl join l).entry.toList =
        l.archives ++ (l.entry.toList ++ names) := by
  induction names generalizing l with
  | nil => exact ⟨rfl, by rw [List.foldl_nil, List.append_nil]⟩
  | cons name names ih =>
      rcases ih (l.join name) with ⟨hroot, hnames⟩
      refine ⟨hroot, hnames.trans ?_⟩
      simp only [join, Option.toList_some, List.append_assoc, List.singleton_append]

/-- All names of a path but the last are archives to descend through. -/
theorem ofPath_concat (root : String) (names : List Bytes) (name : Bytes) :
    ofPath root (names ++ [name]) = { root, archives := names, entry := some name } := by
  rcases foldl_join { root } names with ⟨hroot, hnames⟩
  rw [ofPath, List.foldl_append, List.foldl_cons, List.foldl_nil, join, hnames]
  simp only [hroot, List.nil_append, Option.toList_none]

/-- The locator of an archive is that of the entry it is stored as, and a
    separator. -/
theorem toString_ofArchivePath (root : String) {names : List Bytes} (h : names ≠ []) :
    (ofArchivePath root names).toString = (ofPath root names).toString ++ separator := by
  rcases List.eq_nil_or_concat names with rfl | ⟨front, last, rfl⟩
  · exact absurd rfl h
  · rw [List.concat_eq_append, ofPath_concat, toString, toString, ofArchivePath, List.foldl_append]
    exact String.append_empty

theorem segments_cons {c : Char} {rest first : List Char} {others : List (List Char)}
    (h : ¬ separatorChars <+: c :: rest) (hrest : segments rest = first :: others) :
    segments (c :: rest) = (c :: first) :: others := by
  rw [segments.eq_3, hrest]
  rintro tail rfl rfl
  exact h ⟨tail, rfl⟩

theorem segments_separator (rest : List Char) :
    segments ('!' :: '/' :: rest) = [] :: segments rest := rfl

/-- A text without a separator is one segment. -/
theorem segments_of_unsplit {text : List Char} (h : ¬ separatorChars <:+: text) :
    segments text = [text] := by
  induction text with
  | nil => rfl
  | cons c text ih =>
      refine segments_cons (fun hfront => h hfront.isInfix) (ih fun hinside => h ?_)
      exact hinside.trans (List.suffix_cons c text).isInfix

/-- In front of the first separator there may be anything that does not hold
    one, even the sign that a separator starts with. -/
theorem segments_append {front : List Char} (h : ¬ separatorChars <:+: front)
    (rest : List Char) : segments (front ++ '!' :: '/' :: rest) = front :: segments rest := by
  -- No separator starts inside of the front, so each of its characters is passed.
  induction front with
  | nil => exact segments_separator rest
  | cons c front ih =>
      refine segments_cons ?_ (ih fun hinside => h ?_)
      · -- A separator at the front would lie in the front itself, or start with a slash.
        rintro ⟨tail, htail⟩
        cases front with
        | nil =>
            change '!' :: '/' :: tail = c :: '!' :: '/' :: rest at htail
            rw [List.cons.injEq, List.cons.injEq] at htail
            exact absurd htail.2.1 (by decide)
        | cons d front =>
            change '!' :: '/' :: tail = c :: d :: (front ++ '!' :: '/' :: rest) at htail
            rw [List.cons.injEq, List.cons.injEq] at htail
            rcases htail with ⟨rfl, rfl, _⟩
            exact h ⟨[], front, rfl⟩
      · exact hinside.trans (List.suffix_cons c front).isInfix

theorem unsplit_of_not_mem {text : List Char} (h : '!' ∉ text) : ¬ separatorChars <:+: text :=
  fun hinside => h (hinside.subset List.mem_cons_self)

/-- The names of a written locator, each behind its separator. -/
def written (names : List Bytes) : List Char :=
  names.flatMap fun name => '!' :: '/' :: (Percent.encode name).toList

/-- What the names are written as stands behind the root. -/
theorem toList_foldl (root : String) (names : List Bytes) :
    (names.foldl (fun text name => text ++ separator ++ Percent.encode name) root).toList =
      root.toList ++ written names := by
  induction names generalizing root with
  | nil => rw [List.foldl_nil, written, List.flatMap_nil, List.append_nil]
  | cons name names ih =>
      rw [List.foldl_cons, ih, String.toList_append, String.toList_append, List.append_assoc,
        List.append_assoc]
      rfl

/-- The last segment of a written locator: its entry, or nothing. -/
def lastChars (l : Locator) : List Char := ((l.entry.map Percent.encode).getD "").toList

theorem toList_toString (l : Locator) :
    l.toString.toList = l.root.toList ++ (written l.archives ++ ('!' :: '/' :: l.lastChars)) := by
  rw [toString, String.toList_append, String.toList_append, toList_foldl, List.append_assoc,
    List.append_assoc]
  rfl

theorem lastChars_unsplit (l : Locator) : ¬ separatorChars <:+: l.lastChars := by
  unfold lastChars
  cases l.entry with
  | none => exact unsplit_of_not_mem List.not_mem_nil
  | some name => exact unsplit_of_not_mem (Percent.not_mem_encode name)

/-- Splitting a written locator gives back the root and the written names. -/
theorem segments_written {front last : List Char} (hfront : ¬ separatorChars <:+: front)
    (hlast : ¬ separatorChars <:+: last) (names : List Bytes) :
    segments (front ++ (written names ++ ('!' :: '/' :: last))) =
      front :: (names.map (fun name => (Percent.encode name).toList) ++ [last]) := by
  induction names generalizing front with
  | nil =>
      rw [written, List.flatMap_nil, List.nil_append, segments_append hfront,
        segments_of_unsplit hlast, List.map_nil, List.nil_append]
  | cons name names ih =>
      rw [written, List.flatMap_cons, List.append_assoc, List.cons_append, List.cons_append,
        segments_append hfront, ← written,
        ih (unsplit_of_not_mem (Percent.not_mem_encode name)), List.map_cons, List.cons_append]

/-- A root that does not start with the scheme does not become one that does by
    what is written behind it. -/
theorem dropScheme_append {root : List Char} (h : ¬ ['j', 'a', 'r', ':'] <+: root)
    (rest : List Char) : dropScheme (root ++ ('!' :: rest)) = root ++ ('!' :: rest) := by
  rw [dropScheme.eq_2]
  intro tail htext
  have hscheme : ['j', 'a', 'r', ':'] <+: root ++ ('!' :: rest) := ⟨tail, htext.symm⟩
  rcases List.prefix_or_prefix_of_prefix hscheme (List.prefix_append root _) with
    hroot | ⟨middle, hmiddle⟩
  · exact h hroot
  · -- What the root lacks of the scheme would have to start with an exclamation mark.
    have hbehind : middle ++ tail = '!' :: rest := by
      refine @List.append_cancel_left _ root _ _ ?_
      rw [← List.append_assoc, hmiddle, htext]
      rfl
    cases middle with
    | nil =>
        rw [List.append_nil] at hmiddle
        exact h ⟨[], by rw [List.append_nil, hmiddle]⟩
    | cons c middle =>
        rw [List.cons_append, List.cons.injEq] at hbehind
        have hmem : '!' ∈ ['j', 'a', 'r', ':'] := by
          rw [← hmiddle, hbehind.1]
          exact List.mem_append_right root List.mem_cons_self
        exact absurd hmem (by decide)

theorem written_append (names : List Bytes) (last : List Char) :
    ∃ rest, written names ++ ('!' :: '/' :: last) = '!' :: rest := by
  cases names with
  | nil => exact ⟨'/' :: last, rfl⟩
  | cons name names =>
      rw [written, List.flatMap_cons, List.cons_append, List.cons_append]
      exact ⟨_, rfl⟩

/-- Names that are written one by one are read back. -/
theorem decodeNames_written {text : String} {names : List Bytes} {entry : Option Bytes}
    (hnames : ∀ name ∈ names, name ≠ []) (hentry : ∀ name, entry = some name → name ≠ []) :
    decodeNames text (names.map (fun name => (Percent.encode name).toList) ++
      [((entry.map Percent.encode).getD "").toList]) = .ok (names, entry) := by
  induction names with
  | nil =>
      rw [List.map_nil, List.nil_append, decodeNames]
      -- Only the last name may be missing, which is how an archive is meant.
      cases entry with
      | none => rfl
      | some name =>
          have hne := Percent.encode_ne_nil (hentry name rfl)
          rw [Option.map_some, Option.getD_some, if_neg (by rw [List.isEmpty_iff]; exact hne),
            String.ofList_toList, Percent.decode_encode]
          rfl
  | cons name names ih =>
      have hne := Percent.encode_ne_nil (hnames name List.mem_cons_self)
      rw [List.map_cons, List.cons_append, decodeNames.eq_3 _ _ _ (by simp),
        if_neg (by rw [List.isEmpty_iff]; exact hne), String.ofList_toList,
        Percent.decode_encode, ih (fun n hn => hnames n (List.mem_cons_of_mem name hn))]
      rfl

/-- A locator that can be written is read back. -/
theorem decode_toString {l : Locator} (hl : l.Readable) : decode l.toString = .ok l := by
  have hsegments := segments_written hl.unsplit l.lastChars_unsplit l.archives
  have hnames := @decodeNames_written l.toString l.archives l.entry hl.archives hl.entry
  rcases written_append l.archives l.lastChars with ⟨rest, hrest⟩
  have hroot : l.root.toList.isEmpty = false := by
    rw [List.isEmpty_eq_false_iff]
    exact hl.root
  rw [← lastChars] at hnames
  unfold decode
  rw [toList_toString, hrest, dropScheme_append hl.unschemed, ← hrest, hsegments]
  -- There is always a last piece, if only an empty one.
  generalize hlist : l.archives.map (fun name => (Percent.encode name).toList) ++ [l.lastChars] =
    names at hnames
  cases names with
  | nil => exact absurd hlist (List.append_ne_nil_of_right_ne_nil _ (List.cons_ne_nil _ _))
  | cons name names =>
      simp only [hroot, Bool.false_eq_true, if_false, hnames, String.ofList_toList]
      rfl

end Locator

end NestedZip
