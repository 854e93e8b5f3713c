import NestedZip.Proofs.Manifest.Lines
import NestedZip.Proofs.Metered
import NestedZip.Proofs.Text

/-!
# Manifests as They Are Written

Which manifests can be written, how, and that they are read back.

An attribute is written as one line, and what is too long for a line goes on
in lines that start with a space more. Where a value is folded is up to the
writer, so what is written is not a function of the manifest. `WrittenManifest`
has the choices in it, every one of them: the pieces of each value, and the
number of blank lines in front of each section.

Reading keeps what it has read of the section at hand, and nobody tells it
that the section is over but a blank line or the end of the text. So one lemma
is about the lines of an attribute, which only add to what has been read, and
the induction over the sections starts from any progress of which it is known
what ending the section at hand would make of it.

A section needs a name to be read at all, and it is the value of its first
attribute that is called `Name` in any spelling.

## Main definitions

* `Attributes.Printable`, `Attributes.NamedBy`, `Manifest.Printable`: What can
  be written.
* `WrittenAttribute`, `WrittenSection`, `WrittenManifest`: What is written.
* `WrittenManifest.Writes`: Which manifest it is that was written.

## Theorems

* `Attributes.get?_name_eq_some_iff`: Looking up the name of a section.
* `Manifest.Progress.readLines_attributes`: Attributes are added to what has been read.
* `Manifest.Progress.readLines_sections`: Sections are read one by one.
* `WrittenManifest.parse_bytes`: What was written is read back.
-/

namespace NestedZip

namespace Attributes

/-- A key that is not empty, does not start with a space, and has neither a colon nor a
    line end in it. -/
structure PrintableKey (key : List Char) : Prop where
  nonempty : key ≠ []
  noSpace : key.head? ≠ some ' '
  noColon : ':' ∉ key
  plain : Manifest.Plain key

instance (key : List Char) : Decidable (PrintableKey key) :=
  decidable_of_iff (key ≠ [] ∧ key.head? ≠ some ' ' ∧ ':' ∉ key ∧ Manifest.Plain key)
    ⟨fun h => ⟨h.1, h.2.1, h.2.2.1, h.2.2.2⟩,
      fun h => ⟨h.nonempty, h.noSpace, h.noColon, h.plain⟩⟩

/-- All keys and all values can be written. -/
def Printable (a : Attributes) : Prop :=
  ∀ p ∈ a, PrintableKey p.1.toList ∧ Manifest.Plain p.2.toList

instance (a : Attributes) : Decidable a.Printable :=
  inferInstanceAs (Decidable (∀ p ∈ a, PrintableKey p.1.toList ∧ Manifest.Plain p.2.toList))

/-- The attributes have a name, and it is the value of the first one that is called so. -/
def NamedBy (a : Attributes) (name : String) : Prop :=
  ∃ before key after, a = before ++ (key, name) :: after ∧
    key.toList.map Char.toUpper = ['N', 'A', 'M', 'E'] ∧
    ∀ p ∈ before, p.1.toList.map Char.toUpper ≠ ['N', 'A', 'M', 'E']

/-- Case is folded as the core library does it. -/
theorem foldCase_eq_toUpper : foldCase = Char.toUpper := by
  funext c
  unfold foldCase Char.toUpper
  by_cases h : 'a' ≤ c ∧ c ≤ 'z'
  · have hlow : 97 ≤ c.val.toNat := UInt32.le_iff_toNat_le.mp h.1
    have hhigh : c.val.toNat ≤ 122 := UInt32.le_iff_toNat_le.mp h.2
    -- The distance of the two cases is a word below zero, so the sum wraps around.
    have hshift : ('A'.val - 'a'.val).toNat = 2 ^ 32 - 32 := by decide
    have hval : 'a'.val ≤ c.val ∧ c.val ≤ 'z'.val := h
    rw [if_pos h, dif_pos hval]
    apply Char.ext
    apply UInt32.toNat_inj.mp
    rw [Text.val_ofNat (Or.inl (by rw [Char.toNat]; omega)), UInt32.toNat_add, hshift, Char.toNat]
    omega
  · have hval : ¬ ('a'.val ≤ c.val ∧ c.val ≤ 'z'.val) := h
    rw [if_neg h, dif_neg hval]

theorem sameName_name_iff {key : String} :
    sameName key "Name" = true ↔ key.toList.map Char.toUpper = ['N', 'A', 'M', 'E'] := by
  rw [sameName, foldCase_eq_toUpper, beq_iff_eq]
  exact Iff.rfl

/-- Looking up a name finds the one that the attributes are named by. -/
theorem get?_name_eq_some_iff {a : Attributes} {name : String} :
    a.get? "Name" = some name ↔ a.NamedBy name := by
  unfold get? NamedBy
  rw [Option.map_eq_some_iff]
  constructor
  · rintro ⟨⟨key, value⟩, hfind, rfl⟩
    obtain ⟨hkey, before, after, ha, hbefore⟩ := List.find?_eq_some_iff_append.mp hfind
    refine ⟨before, key, after, ha, sameName_name_iff.mp hkey, fun p hp hname => ?_⟩
    have hother : (!sameName p.1 "Name") = true := hbefore p hp
    rw [sameName_name_iff.mpr hname] at hother
    exact absurd hother (by decide)
  · rintro ⟨before, key, after, ha, hkey, hbefore⟩
    refine ⟨(key, name), List.find?_eq_some_iff_append.mpr ?_, rfl⟩
    refine ⟨sameName_name_iff.mpr hkey, before, after, ha, fun p hp => ?_⟩
    change (!sameName p.1 "Name") = true
    rw [Bool.not_eq_true', ← Bool.not_eq_true]
    intro hname
    exact hbefore p hp (sameName_name_iff.mp hname)

instance (a : Attributes) (name : String) : Decidable (a.NamedBy name) :=
  decidable_of_iff (a.get? "Name" = some name) get?_name_eq_some_iff

end Attributes

/-- A manifest that can be written. -/
structure Manifest.Printable (m : Manifest) : Prop where
  main : m.main.Printable
  sections : ∀ s ∈ m.sections, s.2.Printable ∧ s.2.NamedBy s.1

instance (m : Manifest) : Decidable m.Printable :=
  decidable_of_iff (m.main.Printable ∧ ∀ s ∈ m.sections, s.2.Printable ∧ s.2.NamedBy s.1)
    ⟨fun h => ⟨h.1, h.2⟩, fun h => ⟨h.main, h.sections⟩⟩

/-- An attribute as it is written: its key, and its value in pieces, the first of which
    stands in the same line. -/
structure WrittenAttribute where
  key : String
  first : List Char
  more : List (List Char)

namespace WrittenAttribute

/-- The attribute that was written. -/
def pair (w : WrittenAttribute) : String × String :=
  (w.key, String.ofList (w.first ++ w.more.flatten))

def lines (w : WrittenAttribute) : List (List Char) :=
  (w.key.toList ++ ':' :: ' ' :: w.first) :: w.more.map fun piece => ' ' :: piece

/-- The lines of an attribute without line ends have none either. -/
theorem plain_of_mem_lines {w : WrittenAttribute} (hkey : Manifest.Plain w.key.toList)
    (hvalue : Manifest.Plain w.pair.2.toList) {line : List Char} (hline : line ∈ w.lines) :
    Manifest.Plain line := by
  have hspace : Manifest.Plain [' '] := ⟨by decide, by decide⟩
  have hcolon : Manifest.Plain [':', ' '] := ⟨by decide, by decide⟩
  rw [pair, String.toList_ofList, Manifest.plain_append_iff] at hvalue
  -- Every piece is part of the value, and the value has no line end.
  rcases List.mem_cons.mp hline with rfl | hmore
  · exact Manifest.plain_append_iff.mpr
      ⟨hkey, Manifest.plain_append_iff.mpr ⟨hcolon, hvalue.1⟩⟩
  · obtain ⟨piece, hpiece, rfl⟩ := List.mem_map.mp hmore
    refine Manifest.plain_append_iff.mpr ⟨hspace, hvalue.2.of_subset fun c hc => ?_⟩
    exact List.mem_flatten.mpr ⟨piece, hpiece, hc⟩

theorem lines_nonempty (w : WrittenAttribute) : ∀ line ∈ w.lines, line ≠ [] := by
  intro line hline
  rcases List.mem_cons.mp hline with rfl | hmore
  · exact List.append_ne_nil_of_right_ne_nil _ (List.cons_ne_nil _ _)
  · obtain ⟨piece, _, rfl⟩ := List.mem_map.mp hmore
    exact List.cons_ne_nil _ _

end WrittenAttribute

/-- A section as it is written, behind a blank line and some more. -/
structure WrittenSection where
  gap : Nat
  attributes : List WrittenAttribute

namespace WrittenSection

def lines (s : WrittenSection) : List (List Char) :=
  List.replicate (s.gap + 1) [] ++ s.attributes.flatMap WrittenAttribute.lines

end WrittenSection

/-- A manifest as it is written. -/
structure WrittenManifest where
  main : List WrittenAttribute
  sections : List WrittenSection

namespace WrittenManifest

def lines (w : WrittenManifest) : List (List Char) :=
  w.main.flatMap WrittenAttribute.lines ++ w.sections.flatMap WrittenSection.lines

/-- The bytes of what was written, with one line end throughout. -/
def bytes (w : WrittenManifest) (e : Manifest.LineEnd) (final : Bool) : Bytes :=
  Text.encode (String.ofList (e.text final w.lines))

/-- These are the attributes of the manifest, in their sections. -/
structure Writes (w : WrittenManifest) (m : Manifest) : Prop where
  main : w.main.map WrittenAttribute.pair = m.main
  sections : w.sections.map (fun s => s.attributes.map WrittenAttribute.pair) =
    m.sections.map Prod.snd

end WrittenManifest

theorem Manifest.ofText_eq (text : List Char) :
    Manifest.ofText text = (Progress.readLines {} 1 (lines text)).map Progress.finish := by
  unfold ofText
  cases Progress.readLines {} 1 (lines text) with
  | error e => rfl
  | ok p => rfl

namespace Manifest.Progress

open Attributes (PrintableKey)

variable {p q : Progress}

theorem ne_colon_of_not_mem {key : List Char} (hcolon : ':' ∉ key) :
    ∀ c ∈ key, (c != ':') = true := by
  intro c hc
  rw [bne_iff_ne]
  rintro rfl
  exact hcolon hc

theorem takeWhile_key {key : List Char} (hcolon : ':' ∉ key) (value : List Char) :
    (key ++ ':' :: value).takeWhile (· != ':') = key := by
  rw [List.takeWhile_append_of_pos (ne_colon_of_not_mem hcolon),
    List.takeWhile_cons_of_neg (by decide), List.append_nil]

theorem dropWhile_key {key : List Char} (hcolon : ':' ∉ key) (value : List Char) :
    (key ++ ':' :: value).dropWhile (· != ':') = ':' :: value := by
  rw [List.dropWhile_append_of_pos (ne_colon_of_not_mem hcolon),
    List.dropWhile_cons_of_neg (by decide)]

theorem head?_key {key : List Char} (hkey : key ≠ []) (value : List Char) :
    (key ++ ':' :: value).head? = key.head? := by
  obtain ⟨c, more, rfl⟩ := List.exists_cons_of_ne_nil hkey
  rfl

/-- What stands behind the colon, without the space that may follow it. -/
def unspaced : List Char → List Char
  | ' ' :: value => value
  | value => value

/-- A line with a key and a colon starts an attribute. -/
theorem readAttribute_named {key : List Char} (hsome : key ≠ []) (hspace : key.head? ≠ some ' ')
    (hcolon : ':' ∉ key) (value : List Char) (p : Progress) (n : Nat) :
    p.readAttribute n (key ++ ':' :: value) =
      .ok { p with
        current := (String.ofList key, String.ofList (unspaced value)) :: p.current } := by
  -- The key keeps the line from being taken for the rest of a value.
  have hstart : ∀ tail, key ++ ':' :: value ≠ ' ' :: tail := by
    intro tail hsame
    rw [← head?_key hsome value, hsame] at hspace
    exact hspace rfl
  have hnonempty : key.isEmpty = false := List.isEmpty_eq_false_iff.mpr hsome
  unfold readAttribute
  split
  · next hsame _ => exact absurd hsame (hstart _)
  · next hsame _ => exact absurd hsame (hstart _)
  · simp only [takeWhile_key hcolon, dropWhile_key hcolon, hnonempty, Bool.false_eq_true, if_false]
    rfl

/-- As it is written, there is a space behind the colon. -/
theorem readAttribute_first {key : String} (hkey : PrintableKey key.toList) (first : List Char)
    (p : Progress) (n : Nat) :
    p.readAttribute n (key.toList ++ ':' :: ' ' :: first) =
      .ok { p with current := (key, String.ofList first) :: p.current } := by
  rw [readAttribute_named hkey.nonempty hkey.noSpace hkey.noColon, String.ofList_toList]
  rfl

/-- A line with a space in front goes on with the value. -/
theorem readAttribute_more {key value : String} {current : Attributes}
    (hcurrent : p.current = (key, value) :: current) (n : Nat) (piece : List Char) :
    p.readAttribute n (' ' :: piece) =
      .ok { p with current := (key, value ++ String.ofList piece) :: current } := by
  unfold readAttribute
  rw [hcurrent]
  rfl

theorem readAttribute_orphan (hcurrent : p.current = []) (n : Nat) (piece : List Char) :
    p.readAttribute n (' ' :: piece) = .error (n, .orphanContinuation) := by
  unfold readAttribute
  rw [hcurrent]
  rfl

/-- A line that is no continuation needs a colon. -/
theorem readAttribute_noColon {line : List Char} (hspace : line.head? ≠ some ' ')
    (hcolon : ':' ∉ line) (p : Progress) (n : Nat) :
    p.readAttribute n line = .error (n, .noColon (String.ofList line)) := by
  have hdrop : line.dropWhile (· != ':') = [] := by
    have hall := @List.dropWhile_append_of_pos _ _ _ [] (ne_colon_of_not_mem hcolon)
    rw [List.append_nil, List.dropWhile_nil] at hall
    exact hall
  unfold readAttribute
  split
  · exact absurd rfl hspace
  · exact absurd rfl hspace
  · rw [hdrop]

theorem readAttribute_emptyName (value : List Char) (p : Progress) (n : Nat) :
    p.readAttribute n (':' :: value) = .error (n, .emptyName) := by
  unfold readAttribute
  rfl

/-- A line that is accepted goes on with a value or starts an attribute. -/
theorem readAttribute_eq_ok {n : Nat} {line : List Char} (h : p.readAttribute n line = .ok q) :
    (∃ piece key value current, line = ' ' :: piece ∧ p.current = (key, value) :: current ∧
      q = { p with current := (key, value ++ String.ofList piece) :: current }) ∨
    ∃ key value, line = key ++ ':' :: value ∧ key ≠ [] ∧ key.head? ≠ some ' ' ∧ ':' ∉ key ∧
      q = { p with
        current := (String.ofList key, String.ofList (unspaced value)) :: p.current } := by
  by_cases hspace : line.head? = some ' '
  · obtain ⟨piece, rfl⟩ := List.head?_eq_some_iff.mp hspace
    rcases hcurrent : p.current with _ | ⟨⟨key, value⟩, current⟩
    · rw [readAttribute_orphan hcurrent] at h
      exact absurd h error_ne_ok
    · rw [readAttribute_more hcurrent] at h
      exact Or.inl ⟨piece, key, value, current, rfl, rfl, (Except.ok.inj h).symm⟩
  -- What is left begins an attribute, if it has a colon and a name in front of it.
  by_cases hcolon : ':' ∈ line
  · obtain ⟨key, value, rfl, hkey⟩ := List.eq_append_cons_of_mem hcolon
    by_cases hsome : key = []
    · subst hsome
      rw [List.nil_append, readAttribute_emptyName] at h
      exact absurd h error_ne_ok
    · rw [head?_key hsome] at hspace
      rw [readAttribute_named hsome hspace hkey] at h
      exact Or.inr ⟨key, value, rfl, hsome, hspace, hkey, (Except.ok.inj h).symm⟩
  · rw [readAttribute_noColon hspace hcolon] at h
    exact absurd h error_ne_ok

/-- A section that is over is the first one, or there is nothing in it, or it has a name. -/
theorem endSection_eq_ok_iff {n : Nat} :
    p.endSection n = .ok q ↔
      (p.main = none ∧ q = { p with main := some p.current.reverse, current := [] }) ∨
      (p.main ≠ none ∧ p.current = [] ∧ q = p) ∨
      ∃ name, p.main ≠ none ∧ Attributes.get? p.current.reverse "Name" = some name ∧
        q = { p with sections := (name, p.current.reverse) :: p.sections, current := [] } := by
  unfold endSection
  -- The first section is the main one, and every other one that is not empty has to tell its name.
  rcases hmain : p.main with _ | main
  · simp only [Except.ok.injEq, true_and, ne_eq, not_true_eq_false, false_and, exists_false,
      or_false]
    exact eq_comm
  · by_cases hempty : p.current.reverse.isEmpty = true
    · have hnil := List.reverse_eq_nil_iff.mp (List.isEmpty_iff.mp hempty)
      have hnone : Attributes.get? [] "Name" = none := rfl
      simp only [hnil, List.reverse_nil, List.isEmpty_nil, if_true, hnone, Except.ok.injEq,
        reduceCtorEq, ne_eq, not_false_eq_true, true_and, false_and, and_false, exists_false,
        or_false, false_or]
      exact eq_comm
    · have hsome : p.current ≠ [] := fun hnil => hempty (by rw [hnil]; rfl)
      rcases hname : Attributes.get? p.current.reverse "Name" with _ | name
      · simp only [hempty, if_false, Bool.false_eq_true, hname, reduceCtorEq, hsome, ne_eq,
          not_false_eq_true, false_and, and_false, exists_false, or_false]
      · simp only [hempty, if_false, Bool.false_eq_true, hname, reduceCtorEq, hsome, ne_eq,
          not_false_eq_true, true_and, false_and, false_or, Except.ok.injEq, Option.some.injEq,
          exists_eq_left']
        exact eq_comm

/-- What has been read of lines goes through the first one. -/
theorem readLines_cons_eq_ok_iff {n : Nat} {line : List Char} {rest : List (List Char)} :
    p.readLines n (line :: rest) = .ok q ↔
      ∃ r, (line = [] ∧ p.endSection n = .ok r ∨ line ≠ [] ∧ p.readAttribute n line = .ok r) ∧
        r.readLines (n + 1) rest = .ok q := by
  rw [readLines]
  by_cases hline : line = []
  · simp only [hline, List.isEmpty_nil, if_true, except_bind_eq_ok_iff, true_and, ne_eq,
      not_true_eq_false, false_and, or_false]
  · have hempty : line.isEmpty = false := List.isEmpty_eq_false_iff.mpr hline
    simp only [hempty, Bool.false_eq_true, if_false, except_bind_eq_ok_iff, hline, false_and,
      ne_eq, not_false_eq_true, true_and, false_or]

theorem readLines_line {text : List Char} (htext : text ≠ []) (n : Nat)
    (rest : List (List Char)) (hread : p.readAttribute n text = .ok q) :
    p.readLines n (text :: rest) = q.readLines (n + 1) rest := by
  have hempty : text.isEmpty = false := List.isEmpty_eq_false_iff.mpr htext
  rw [readLines, hempty, if_neg (by decide), hread]
  rfl

theorem readLines_blank (n : Nat) (rest : List (List Char)) (hend : p.endSection n = .ok q) :
    p.readLines n ([] :: rest) = q.readLines (n + 1) rest := by
  rw [readLines, if_pos (by rfl), hend]
  rfl

/-- Further pieces are put behind the value. -/
theorem readLines_more (main : Option Attributes) (sections : List (String × Attributes))
    (key value : String) (current : Attributes) (more : List (List Char)) (n : Nat)
    (rest : List (List Char)) :
    readLines { main, sections, current := (key, value) :: current } n
        (more.map (fun piece => ' ' :: piece) ++ rest) =
      readLines { main, sections
                  current := (key, value ++ String.ofList more.flatten) :: current }
        (n + more.length) rest := by
  -- The value grows with each piece, so the induction is for any value.
  induction more generalizing value n with
  | nil =>
      rw [List.flatten_nil, String.ofList_nil, String.append_empty]
      rfl
  | cons piece more ih =>
      rw [List.map_cons, List.cons_append, readLines_line (List.cons_ne_nil _ _) n _
        (readAttribute_more rfl n piece), ih, List.flatten_cons, String.ofList_append,
        String.append_assoc, List.length_cons, Nat.add_assoc, Nat.add_comm 1]

/-- The lines of an attribute add it to what has been read. -/
theorem readLines_attribute {w : WrittenAttribute} (hkey : PrintableKey w.key.toList)
    (p : Progress) (n : Nat) (rest : List (List Char)) :
    p.readLines n (w.lines ++ rest) =
      readLines { p with current := w.pair :: p.current } (n + w.lines.length) rest := by
  have hfirst := readAttribute_first hkey w.first p n
  have hline : w.key.toList ++ ':' :: ' ' :: w.first ≠ [] :=
    w.lines_nonempty _ List.mem_cons_self
  rw [WrittenAttribute.lines, List.cons_append, readLines_line hline n _ hfirst, readLines_more,
    WrittenAttribute.pair, String.ofList_append, List.length_cons, List.length_map,
    Nat.add_assoc, Nat.add_comm 1]

/-- The lines of attributes add them all, and the last one is the last to be added. -/
theorem readLines_attributes {ws : List WrittenAttribute}
    (hkeys : ∀ w ∈ ws, PrintableKey w.key.toList) (p : Progress) (n : Nat)
    (rest : List (List Char)) :
    p.readLines n (ws.flatMap WrittenAttribute.lines ++ rest) =
      readLines { p with current := (ws.map WrittenAttribute.pair).reverse ++ p.current }
        (n + (ws.flatMap WrittenAttribute.lines).length) rest := by
  induction ws generalizing p n with
  | nil => rfl
  | cons w ws ih =>
      rw [List.flatMap_cons, List.append_assoc, readLines_attribute (hkeys w List.mem_cons_self),
        ih fun v hv => hkeys v (List.mem_cons_of_mem w hv), List.map_cons, List.reverse_cons,
        List.append_assoc, List.length_append, Nat.add_assoc]
      rfl

/-- Once there is no section at hand, blank lines change nothing. -/
theorem readLines_gap (hidle : ∀ line, p.endSection line = .ok p) (gap n : Nat)
    (rest : List (List Char)) :
    p.readLines n (List.replicate gap [] ++ rest) = p.readLines (n + gap) rest := by
  induction gap generalizing n with
  | zero => rfl
  | succ gap ih =>
      rw [List.replicate_succ, List.cons_append, readLines_blank n _ (hidle n), ih, Nat.add_assoc,
        Nat.add_comm 1]

theorem endSection_idle (hmain : p.main ≠ none) (hcurrent : p.current = []) (line : Nat) :
    p.endSection line = .ok p := by
  obtain ⟨attributes, hattributes⟩ := Option.ne_none_iff_exists'.mp hmain
  unfold endSection
  rw [hattributes, hcurrent]
  rfl

/-- A section with a name is over with the next blank line, or with the text. -/
theorem endSection_named {attributes : Attributes} {name : String} (hmain : p.main ≠ none)
    (hnamed : attributes.NamedBy name) (line : Nat) :
    endSection { p with current := attributes.reverse } line =
      .ok { p with sections := (name, attributes) :: p.sections, current := [] } := by
  obtain ⟨main, hmain⟩ := Option.ne_none_iff_exists'.mp hmain
  have hsome : attributes.isEmpty = false := by
    obtain ⟨before, key, after, rfl, _⟩ := hnamed
    rw [List.isEmpty_eq_false_iff]
    exact List.append_ne_nil_of_right_ne_nil _ (List.cons_ne_nil _ _)
  unfold endSection
  simp only [hmain, List.reverse_reverse, hsome, Bool.false_eq_true, if_false,
    Attributes.get?_name_eq_some_iff.mpr hnamed]

/-- Sections are read one by one. What is at hand at the beginning is over with the first
    blank line, or with the text if there is no section. -/
theorem readLines_sections {sections : List (String × Attributes)} {ws : List WrittenSection}
    (hwrites : ws.map (fun s => s.attributes.map WrittenAttribute.pair) = sections.map Prod.snd)
    (hsections : ∀ s ∈ sections, s.2.Printable ∧ s.2.NamedBy s.1)
    (hend : ∀ line, p.endSection line = .ok q) (hmain : q.main ≠ none) (hcurrent : q.current = [])
    (n : Nat) :
    p.readLines n (ws.flatMap WrittenSection.lines) =
      .ok { q with sections := sections.reverse ++ q.sections } := by
  -- The induction is for any progress, since each section starts from what the last one left.
  induction ws generalizing sections p q n with
  | nil =>
      rw [List.map_nil, eq_comm, List.map_eq_nil_iff] at hwrites
      rw [hwrites]
      exact hend (n - 1)
  | cons w ws ih =>
      obtain ⟨⟨name, attributes⟩, sections, rfl, hfirst, hrest⟩ :=
        List.map_eq_cons_iff.mp hwrites.symm
      have hattributes : attributes = w.attributes.map WrittenAttribute.pair := hfirst
      obtain ⟨hprintable, hnamed⟩ := hsections _ List.mem_cons_self
      have hkeys : ∀ v ∈ w.attributes, PrintableKey v.key.toList := by
        intro v hv
        have hmem : v.pair ∈ attributes := hattributes ▸ List.mem_map_of_mem hv
        exact (hprintable _ hmem).1
      -- The first blank line ends what is at hand, and the others change nothing.
      rw [List.flatMap_cons, WrittenSection.lines, List.replicate_succ, List.cons_append,
        List.cons_append, List.append_assoc, readLines_blank n _ (hend n),
        readLines_gap (endSection_idle hmain hcurrent), readLines_attributes hkeys, ← hattributes,
        hcurrent, List.append_nil,
        ih hrest.symm (fun s hs => hsections s (List.mem_cons_of_mem _ hs))
          (endSection_named hmain hnamed) hmain rfl, List.reverse_cons, List.append_assoc]
      rfl

/-- What was written is read, line by line. -/
theorem readLines_written {w : WrittenManifest} {m : Manifest} (hm : m.Printable)
    (hwrites : w.Writes m) :
    (readLines {} 1 w.lines).map finish = .ok m := by
  have hkeys : ∀ v ∈ w.main, PrintableKey v.key.toList := by
    intro v hv
    have hmem : v.pair ∈ m.main := hwrites.main ▸ List.mem_map_of_mem hv
    exact (hm.main _ hmem).1
  -- The first section is the one at hand when the sections behind it begin.
  have hend : ∀ line, endSection { current := m.main.reverse } line =
      .ok { main := some m.main } := by
    intro line
    simp only [endSection, List.reverse_reverse]
  rw [WrittenManifest.lines, readLines_attributes hkeys, hwrites.main, List.append_nil,
    readLines_sections hwrites.sections hm.sections hend (Option.some_ne_none _) rfl]
  simp only [Except.map, finish, Option.getD_some, List.append_nil, List.reverse_reverse]

end Manifest.Progress

namespace WrittenManifest

variable {w : WrittenManifest} {m : Manifest}

theorem plain_of_mem_attributes {a : Attributes} (ha : a.Printable) {ws : List WrittenAttribute}
    (hwrites : ws.map WrittenAttribute.pair = a) :
    ∀ line ∈ ws.flatMap WrittenAttribute.lines, Manifest.Plain line := by
  intro line hline
  obtain ⟨v, hv, hline⟩ := List.mem_flatMap.mp hline
  have hmem : v.pair ∈ a := hwrites ▸ List.mem_map_of_mem hv
  exact WrittenAttribute.plain_of_mem_lines (ha _ hmem).1.plain (ha _ hmem).2 hline

/-- Every section that was written is one of the manifest. -/
theorem Writes.exists_section (h : w.Writes m) {v : WrittenSection} (hv : v ∈ w.sections) :
    ∃ s ∈ m.sections, v.attributes.map WrittenAttribute.pair = s.2 := by
  have hmem : v.attributes.map WrittenAttribute.pair ∈ m.sections.map Prod.snd :=
    h.sections ▸ List.mem_map_of_mem hv
  obtain ⟨s, hs, hsame⟩ := List.mem_map.mp hmem
  exact ⟨s, hs, hsame.symm⟩

/-- No line that was written has a line end in it. -/
theorem plain_of_mem_lines (hm : m.Printable) (hwrites : w.Writes m) :
    ∀ line ∈ w.lines, Manifest.Plain line := by
  intro line hline
  rcases List.mem_append.mp hline with hmain | hsections
  · exact plain_of_mem_attributes hm.main hwrites.main line hmain
  · obtain ⟨v, hv, hline⟩ := List.mem_flatMap.mp hsections
    obtain ⟨s, hs, hsame⟩ := hwrites.exists_section hv
    rcases List.mem_append.mp hline with hgap | hattributes
    · rw [List.eq_of_mem_replicate hgap]
      exact Manifest.Plain.nil
    · exact plain_of_mem_attributes (hm.sections s hs).1 hsame line hattributes

/-- The last line that was written is not blank. -/
theorem getLast?_lines_ne (hm : m.Printable) (hwrites : w.Writes m) :
    w.lines.getLast? ≠ some [] := by
  have hfull : ∀ ws : List WrittenAttribute,
      (ws.flatMap WrittenAttribute.lines).getLast? ≠ some [] := by
    intro ws hlast
    obtain ⟨v, _, hline⟩ := List.mem_flatMap.mp (List.mem_of_getLast? hlast)
    exact v.lines_nonempty _ hline rfl
  rcases List.eq_nil_or_concat w.sections with hnone | ⟨front, v, hlast⟩
  · rw [lines, hnone, List.flatMap_nil, List.append_nil]
    exact hfull w.main
  · -- The last section has a name, so there is an attribute whose lines come last.
    rw [List.concat_eq_append] at hlast
    have hv : v ∈ w.sections := hlast ▸ List.mem_append_right front List.mem_cons_self
    obtain ⟨s, hs, hsame⟩ := hwrites.exists_section hv
    have hsome : v.attributes.flatMap WrittenAttribute.lines ≠ [] := by
      obtain ⟨before, key, after, hnamed, _⟩ := (hm.sections s hs).2
      rcases hattributes : v.attributes with _ | ⟨first, rest⟩
      · rw [hattributes, hnamed] at hsame
        exact absurd hsame.symm (List.append_ne_nil_of_right_ne_nil _ (List.cons_ne_nil _ _))
      · exact List.append_ne_nil_of_left_ne_nil (List.cons_ne_nil _ _) _
    have hsplit : w.lines = (w.main.flatMap WrittenAttribute.lines ++
        (front.flatMap WrittenSection.lines ++ List.replicate (v.gap + 1) [])) ++
        v.attributes.flatMap WrittenAttribute.lines := by
      rw [lines, hlast, List.flatMap_append, List.flatMap_singleton, WrittenSection.lines]
      simp only [List.append_assoc]
    rw [hsplit, List.getLast?_append, Option.or_of_isSome (List.getLast?_isSome.mpr hsome)]
    exact hfull v.attributes

/-- What was written is read back, whichever way the lines end. -/
theorem parse_bytes (archive : String) (hm : m.Printable) (hwrites : w.Writes m)
    (e : Manifest.LineEnd) (final : Bool) :
    Manifest.parse archive (w.bytes e final) = .ok m := by
  have hread := Manifest.Progress.readLines_written hm hwrites
  have htext : Manifest.ofText (e.text final w.lines) = .ok m := by
    rw [Manifest.ofText_eq]
    rcases Decidable.em (w.lines = []) with hnone | hsome
    · -- Of an empty manifest there may be a line end left, which is an empty line.
      rw [hnone] at hread ⊢
      rw [Manifest.LineEnd.lines_text_nil]
      cases final with
      | false => exact hread
      | true => exact hread
    · rw [e.lines_text hsome (plain_of_mem_lines hm hwrites) fun _ => getLast?_lines_ne hm hwrites]
      exact hread
  unfold Manifest.parse bytes
  rw [Text.decodeLossy_encode, String.toList_ofList, htext]
  rfl

end WrittenManifest

end NestedZip
