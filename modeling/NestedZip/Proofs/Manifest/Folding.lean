import Mathlib.Data.List.Infix
import NestedZip.Proofs.Manifest.Written
import NestedZip.Proofs.Text.Cut

/-!
# Folded Values

What becomes of a value when its line is broken off somewhere and goes on in the next
line, behind a space.

To the characters of a text it makes no difference. What a line says is what its front says,
and then the rest of it, as a line of its own, is put behind that value. The lines behind have
another number then, which nobody sees unless one of them is at fault.

But whoever folds a line counts its bytes, and bytes are made characters before lines
are looked for. Between two characters that is the same. If a character is broken off, its
two parts are broken stretches, each of which is shown as a replacement or several of them,
and nothing puts the character together again. That another manifest is read cannot be seen
from this line, as it might be made up for by other lines. It is seen from the volume of
all values, to which each line adds what it has: where there was one character, there are
two or more now.

## Main definitions

* `Manifest.Inside`: A place inside the value of a line.
* `Manifest.volume`, `Manifest.lineChars`: The number of characters in all values, and
  what a line adds to them.
* `Manifest.InValue`: A place inside a value, in bytes.

## Theorems

* `Manifest.Progress.readLines_fold`: A line says the same in two parts.
* `Manifest.ofText_volume`: All values are as long as the lines make them.
* `Manifest.parse_folded_iff`: A value is read back if no character of it was broken off.
-/

namespace NestedZip

/-- The characters of all values, one value behind the other. -/
def Attributes.chars (a : Attributes) : List Char := a.flatMap fun p => p.2.toList

namespace Manifest

/-- The number of characters in all values. -/
def volume (m : Manifest) : Nat :=
  (m.main.chars ++ m.sections.flatMap fun s => s.2.chars).length

/-- The characters that a line adds to the values. -/
def lineChars : (line : List Char) → List Char
  | ' ' :: piece => piece
  | line => Progress.unspaced ((line.dropWhile (· != ':')).drop 1)

/-- A place inside the value of a line, between what the line has in front and what it has behind.
    The space that may follow the colon is not in the value. -/
inductive Inside : (front rest : List Char) → Prop
  | first {key value rest : List Char} : key.head? ≠ some ' ' → ':' ∉ key →
      (value = [] → rest.head? ≠ some ' ') → Inside (key ++ ':' :: value) rest
  | more {value rest : List Char} : Inside (' ' :: value) rest

theorem Inside.ne_nil {front rest : List Char} (h : Inside front rest) : front ≠ [] := by
  cases h with
  | first _ _ _ => exact List.append_ne_nil_of_right_ne_nil _ (List.cons_ne_nil _ _)
  | more => exact List.cons_ne_nil _ _

/-- The space in front of a value is dropped once, unless there is no value and the space is one of
    what follows. -/
theorem Progress.unspaced_append {value rest : List Char}
    (h : value = [] → rest.head? ≠ some ' ') :
    unspaced (value ++ rest) = unspaced value ++ rest := by
  rcases value with _ | ⟨c, value⟩
  · have hrest := h rfl
    rcases rest with _ | ⟨c, rest⟩
    · rfl
    · unfold unspaced
      split
      · next hspace =>
          rw [List.nil_append] at hspace
          exact absurd (by rw [hspace]; rfl) hrest
      · rfl
  · unfold unspaced
    rw [List.cons_append]
    by_cases hc : c = ' '
    · subst hc
      rfl
    · split
      · next hspace => exact absurd (List.cons.inj hspace).1 hc
      · split
        · next hspace => exact absurd (List.cons.inj hspace).1 hc
        · rfl

/-- A line with a name has the characters of its value. -/
theorem lineChars_key {key : List Char} (hspace : key.head? ≠ some ' ') (hcolon : ':' ∉ key)
    (value : List Char) :
    lineChars (key ++ ':' :: value) = Progress.unspaced value := by
  have hother : ∀ piece, key ++ ':' :: value ≠ ' ' :: piece := by
    intro piece hsame
    rcases key with _ | ⟨c, key⟩
    · exact absurd (List.cons.inj hsame).1 (by decide)
    · exact hspace (by rw [(List.cons.inj hsame).1]; rfl)
  rw [lineChars.eq_2 _ hother, Progress.dropWhile_key hcolon, List.drop_succ_cons, List.drop_zero]

/-- Behind a place inside its value, a line adds what is there. -/
theorem Inside.lineChars_append {front rest : List Char} (h : Inside front rest) :
    lineChars (front ++ rest) = lineChars front ++ rest := by
  cases h with
  | more => rw [List.cons_append, lineChars, lineChars]
  | first hspace hcolon hvalue =>
      rw [List.append_assoc, List.cons_append, lineChars_key hspace hcolon,
        lineChars_key hspace hcolon, Progress.unspaced_append hvalue]

/-- What comes out in another order is as long. -/
theorem length_flatMap_reverse {α : Type} (f : α → List Char) (xs : List α) :
    (xs.reverse.flatMap f).length = (xs.flatMap f).length := by
  induction xs with
  | nil => rfl
  | cons x xs ih =>
      rw [List.reverse_cons, List.flatMap_append, List.length_append, ih, List.flatMap_singleton,
        List.flatMap_cons, List.length_append, Nat.add_comm]

namespace Progress

variable {p q : Progress}

/-- The number of characters in all values that have been read. -/
def volume (p : Progress) : Nat :=
  ((p.main.getD []).chars ++ p.sections.flatMap (fun s => s.2.chars) ++ p.current.chars).length

theorem chars_cons (key value : String) (a : Attributes) :
    Attributes.chars ((key, value) :: a) = value.toList ++ a.chars := rfl

theorem length_chars_reverse (a : Attributes) :
    (Attributes.chars a.reverse).length = a.chars.length := length_flatMap_reverse _ a

/-- A line adds its characters to the value that it starts or goes on with. -/
theorem readAttribute_volume {n : Nat} {line : List Char} (h : p.readAttribute n line = .ok q) :
    q.volume = p.volume + (lineChars line).length := by
  rcases readAttribute_eq_ok h with
    ⟨piece, key, value, current, rfl, hcurrent, rfl⟩ |
      ⟨key, value, rfl, hsome, hspace, hcolon, rfl⟩
  · simp only [volume, hcurrent, chars_cons, String.toList_append, String.toList_ofList, lineChars,
      List.length_append]
    omega
  · simp only [volume, chars_cons, String.toList_ofList, lineChars_key hspace hcolon,
      List.length_append]
    omega

/-- The end of a section moves values. -/
theorem endSection_volume {n : Nat} (h : p.endSection n = .ok q) : q.volume = p.volume := by
  have hnothing : Attributes.chars [] = [] := rfl
  rcases endSection_eq_ok_iff.mp h with ⟨hmain, rfl⟩ | ⟨_, _, rfl⟩ | ⟨name, _, _, rfl⟩
  · simp only [volume, hmain, Option.getD_some, Option.getD_none, hnothing, List.length_append,
      length_chars_reverse, List.length_nil]
    omega
  · rfl
  · simp only [volume, List.flatMap_cons, hnothing, List.length_append, length_chars_reverse,
      List.length_nil]
    omega

/-- In the end nothing is left of the section at hand, so the manifest has all values. -/
theorem finish_volume {n : Nat} (h : p.endSection n = .ok q) : q.finish.volume = p.volume := by
  have hcurrent : q.current = [] := by
    rcases endSection_eq_ok_iff.mp h with ⟨_, rfl⟩ | ⟨_, hnil, rfl⟩ | ⟨_, _, _, rfl⟩
    · rfl
    · exact hnil
    · rfl
  have hnothing : Attributes.chars [] = [] := rfl
  rw [← endSection_volume h, volume, hcurrent, hnothing, List.append_nil, Manifest.volume, finish,
    List.length_append, length_flatMap_reverse, List.length_append]

/-- All lines together add as many characters as they have. -/
theorem readLines_volume {n : Nat} {lines : List (List Char)}
    (h : p.readLines n lines = .ok q) :
    q.finish.volume = p.volume + (lines.flatMap lineChars).length := by
  -- The induction is on the lines, each of which adds its own characters and moves the others.
  induction lines generalizing p n with
  | nil => exact finish_volume h
  | cons line rest ih =>
      obtain ⟨r, hfirst, hrest⟩ := readLines_cons_eq_ok_iff.mp h
      have hr : r.volume = p.volume + (lineChars line).length := by
        rcases hfirst with ⟨rfl, hend⟩ | ⟨_, hread⟩
        · exact endSection_volume hend
        · exact readAttribute_volume hread
      rw [ih hrest, hr, List.flatMap_cons, List.length_append, Nat.add_assoc]

/-- A line that is accepted is accepted under any number. -/
theorem readAttribute_number {n : Nat} {line : List Char} (h : p.readAttribute n line = .ok q)
    (m : Nat) : p.readAttribute m line = .ok q := by
  rcases readAttribute_eq_ok h with
    ⟨piece, key, value, current, rfl, hcurrent, rfl⟩ |
      ⟨key, value, rfl, hsome, hspace, hcolon, rfl⟩
  · exact readAttribute_more hcurrent m piece
  · exact readAttribute_named hsome hspace hcolon value p m

theorem endSection_number {n : Nat} (h : p.endSection n = .ok q) (m : Nat) :
    p.endSection m = .ok q := endSection_eq_ok_iff.mpr (endSection_eq_ok_iff.mp h)

/-- Lines that are read are read alike wherever they start. -/
theorem readLines_number {n : Nat} {lines : List (List Char)} (h : p.readLines n lines = .ok q)
    (m : Nat) : p.readLines m lines = .ok q := by
  induction lines generalizing p n m with
  | nil => exact endSection_number h _
  | cons line rest ih =>
      obtain ⟨r, hfirst, hrest⟩ := readLines_cons_eq_ok_iff.mp h
      refine readLines_cons_eq_ok_iff.mpr ⟨r, ?_, ih hrest _⟩
      exact hfirst.imp (fun h => ⟨h.1, endSection_number h.2 m⟩)
        fun h => ⟨h.1, readAttribute_number h.2 m⟩

/-- A line says what its front says, and the rest of it, behind a space, goes on with that. -/
theorem readAttribute_append {front rest : List Char} (h : Inside front rest) (n m : Nat) :
    p.readAttribute n (front ++ rest) =
      p.readAttribute n front >>= fun r => r.readAttribute m (' ' :: rest) := by
  cases h with
  | @more value rest =>
      -- If there is nothing to go on with, both say so in front of the rest.
      rcases hcurrent : p.current with _ | ⟨⟨key, start⟩, current⟩
      · rw [List.cons_append, readAttribute_orphan hcurrent, readAttribute_orphan hcurrent]
        rfl
      · rw [List.cons_append, readAttribute_more hcurrent, readAttribute_more hcurrent,
          except_ok_bind, readAttribute_more rfl, String.ofList_append, String.append_assoc]
  | @first key value rest hspace hcolon hvalue =>
      rw [List.append_assoc, List.cons_append]
      by_cases hsome : key = []
      · rw [hsome, List.nil_append, List.nil_append, readAttribute_emptyName,
          readAttribute_emptyName]
        rfl
      · rw [readAttribute_named hsome hspace hcolon, readAttribute_named hsome hspace hcolon,
          except_ok_bind, readAttribute_more rfl, unspaced_append hvalue, String.ofList_append]

/-- A line may be read in two parts, wherever it stands. -/
theorem readLines_fold {front rest : List Char} (h : Inside front rest)
    (before more : List (List Char)) (n : Nat) :
    p.readLines n (before ++ (front ++ rest) :: more) = .ok q ↔
      p.readLines n (before ++ front :: (' ' :: rest) :: more) = .ok q := by
  induction before generalizing p n with
  | nil =>
      have hwhole : front ++ rest ≠ [] := List.append_ne_nil_of_left_ne_nil h.ne_nil rest
      simp only [List.nil_append, readLines_cons_eq_ok_iff, h.ne_nil, hwhole, false_and, ne_eq,
        not_false_eq_true, true_and, false_or, List.cons_ne_nil,
        readAttribute_append h n (n + 1), except_bind_eq_ok_iff]
      -- The lines behind are counted from one more, and accepted all the same.
      constructor
      · rintro ⟨r, ⟨s, hfront, hrest⟩, hmore⟩
        exact ⟨s, hfront, r, hrest, readLines_number hmore _⟩
      · rintro ⟨s, hfront, r, hrest, hmore⟩
        exact ⟨r, ⟨s, hfront, hrest⟩, readLines_number hmore _⟩
  | cons line before ih =>
      rw [List.cons_append, List.cons_append, readLines_cons_eq_ok_iff, readLines_cons_eq_ok_iff]
      exact exists_congr fun r => and_congr_right fun _ => ih (n + 1)

end Progress

/-- A manifest is what the reading of all lines ends in. -/
theorem ofText_eq_ok_iff {text : List Char} {m : Manifest} :
    ofText text = .ok m ↔ ∃ p, Progress.readLines {} 1 (lines text) = .ok p ∧ p.finish = m := by
  rw [ofText_eq]
  cases Progress.readLines {} 1 (lines text) with
  | error e => exact ⟨fun h => absurd h error_ne_ok, fun ⟨_, h, _⟩ => absurd h error_ne_ok⟩
  | ok p =>
      exact ⟨fun h => ⟨p, rfl, Except.ok.inj h⟩, fun ⟨_, h, hm⟩ => by
        rw [← hm, ← Except.ok.inj h]
        rfl⟩

/-- All values are as long as the lines of the text make them. -/
theorem ofText_volume {text : List Char} {m : Manifest} (h : ofText text = .ok m) :
    m.volume = ((lines text).flatMap lineChars).length := by
  obtain ⟨p, hread, rfl⟩ := ofText_eq_ok_iff.mp h
  rw [Progress.readLines_volume hread]
  exact Nat.zero_add _

/-- The lines around one line, of which they know nothing, also if it is broken off in front. -/
theorem lines_around {before rest : List Char} (hbefore : Ended before) (hrest : Stopped rest) :
    ∃ more, ∀ line, Plain line → line ≠ [] →
      lines (before ++ (line ++ rest)) = lines before ++ line :: more ∧
      ∀ front, Plain front → front ≠ [] → ∀ e : LineEnd,
        lines (before ++ (front ++ (e.chars ++ (line ++ rest)))) =
          lines before ++ front :: line :: more := by
  obtain ⟨more, hmore⟩ := linesFrom_of_stopped hrest
  -- A line that has something in it does not start with a line feed.
  have hstart : ∀ {line tail : List Char}, Plain line → line ≠ [] →
      (line ++ tail).head? ≠ some '\n' := by
    intro line tail hplain hsome hhead
    obtain ⟨c, line, rfl⟩ := List.exists_cons_of_ne_nil hsome
    exact (plain_cons_iff.mp hplain).2.1 (Option.some.inj hhead)
  have hline : ∀ line, Plain line → line ≠ [] → linesFrom (line ++ rest) [] = line :: more := by
    intro line hplain hsome
    rw [linesFrom_append hplain, List.append_nil,
      hmore _ fun hnil => hsome (List.reverse_eq_nil_iff.mp hnil), List.reverse_reverse]
  refine ⟨more, fun line hplain hsome => ⟨?_, fun front hfront hfrontSome e => ?_⟩⟩
  · rw [lines, linesFrom_append_of_ended (hstart hplain hsome) hbefore fun _ => rfl,
      hline line hplain hsome]
    rfl
  · rw [lines, linesFrom_append_of_ended (hstart hfront hfrontSome) hbefore fun _ => rfl,
      linesFrom_append hfront, LineEnd.linesFrom_chars e fun _ => hstart hplain hsome,
      hline line hplain hsome, List.append_nil, List.reverse_reverse]
    rfl

/-- A text says the same with a line broken off inside its value. -/
theorem ofText_fold {before front rest : List Char} {m : Manifest} (hbefore : Ended before)
    (hfront : Plain front) (h : Inside front rest) (e : LineEnd) :
    ofText (before ++ (front ++ (e.chars ++ ' ' :: rest))) = .ok m ↔
      ofText (before ++ (front ++ rest)) = .ok m := by
  -- The rest of the line ends with it, and only that much is looked at.
  obtain ⟨piece, tail, rfl, hpiece, htail⟩ := exists_plain_append rest
  obtain ⟨more, hmore⟩ := lines_around hbefore htail
  have hinside : Inside front piece := by
    cases h with
    | more => exact .more
    | first hspace hcolon hvalue =>
        refine .first hspace hcolon fun hnil => ?_
        rcases piece with _ | ⟨c, piece⟩
        · exact fun h => nomatch h
        · exact hvalue hnil
  have hwhole := (hmore (front ++ piece) (plain_append_iff.mpr ⟨hfront, hpiece⟩)
    (List.append_ne_nil_of_left_ne_nil h.ne_nil piece)).1
  have hfolded := (hmore (' ' :: piece) (plain_cons_iff.mpr ⟨by decide, by decide, hpiece⟩)
    (List.cons_ne_nil _ _)).2 front hfront h.ne_nil e
  rw [List.append_assoc] at hwhole
  rw [List.cons_append] at hfolded
  rw [ofText_eq_ok_iff, ofText_eq_ok_iff, hwhole, hfolded]
  exact exists_congr fun p =>
    and_congr_left fun _ => (Progress.readLines_fold hinside (lines before) more 1).symm

/-- Texts that say the same, but for the rest of one line, are equally long in it. -/
theorem length_eq_of_ofText {before front piece other rest : List Char} {m : Manifest}
    (hbefore : Ended before) (hrest : Stopped rest) (hfront : Plain front) (hpiece : Plain piece)
    (hother : Plain other) (h : Inside front piece) (h' : Inside front other)
    (hread : ofText (before ++ (front ++ (piece ++ rest))) = .ok m)
    (hread' : ofText (before ++ (front ++ (other ++ rest))) = .ok m) :
    piece.length = other.length := by
  -- The lines around are the same, and so is what they add.
  obtain ⟨more, hmore⟩ := lines_around hbefore hrest
  have hvolume : ∀ {piece}, Plain piece → Inside front piece →
      ofText (before ++ (front ++ (piece ++ rest))) = .ok m →
      m.volume = ((lines before).flatMap lineChars).length +
        ((lineChars front).length + piece.length + (more.flatMap lineChars).length) := by
    intro piece hpiece h hread
    have hlines := (hmore (front ++ piece) (plain_append_iff.mpr ⟨hfront, hpiece⟩)
      (List.append_ne_nil_of_left_ne_nil h.ne_nil piece)).1
    rw [ofText_volume hread, ← List.append_assoc front, hlines, List.flatMap_append,
      List.length_append, List.flatMap_cons, List.length_append, h.lineChars_append,
      List.length_append]
  have hsame := (hvolume hpiece h hread).symm.trans (hvolume hother h' hread')
  omega

/-- A place one character further in front is inside the value as well, unless the character
    opened the value. -/
theorem Inside.of_append {front rest tail : List Char} {c : Char} (h : Inside (front ++ [c]) rest)
    (hspace : c ≠ ' ') (hcolon : c ≠ ':') (htail : tail.head? ≠ some ' ') :
    Inside front tail := by
  -- The last character is neither the colon nor the space that opens a line, so it is one of the
  -- value.
  generalize hline : front ++ [c] = line at h
  cases h with
  | @first key value _ hkey hfree _ =>
      rcases List.eq_nil_or_concat value with rfl | ⟨value, d, rfl⟩
      · exact absurd (List.cons.inj (List.append_inj' hline rfl).2).1 hcolon
      · rw [List.concat_eq_append, ← List.cons_append, ← List.append_assoc] at hline
        rw [(List.append_inj' hline rfl).1]
        exact .first hkey hfree fun _ => htail
  | @more value _ =>
      rcases List.eq_nil_or_concat value with rfl | ⟨value, d, rfl⟩
      · have hopens : front ++ [c] = [] ++ [' '] := hline
        exact absurd (List.cons.inj (List.append_inj' hopens rfl).2).1 hspace
      · rw [List.concat_eq_append, ← List.cons_append] at hline
        rw [(List.append_inj' hline rfl).1]
        exact .more

/-- The bytes of a line end. -/
def LineEnd.bytes : LineEnd → Bytes
  | lf => [0x0A]
  | crlf => [0x0D, 0x0A]
  | cr => [0x0D]

/-- Bytes none of which ends a line. -/
structure Unbroken (bytes : Bytes) : Prop where
  noReturn : 0x0D ∉ bytes
  noFeed : 0x0A ∉ bytes

/-- Bytes behind which a line starts: there are none, or a line end comes last. -/
def StartsLine (before : Bytes) : Prop :=
  before = [] ∨ before.getLast? = some 0x0D ∨ before.getLast? = some 0x0A

/-- A place inside a value, between the bytes in front of it and those behind it. It is behind the
    first colon of a line, and the space that may follow, or behind the space of a line that goes
    on with a value. -/
inductive InValue : (front rest : Bytes) → Prop
  | first {before key value rest : Bytes} : StartsLine before → Unbroken key → Unbroken value →
      key.head? ≠ some 0x20 → 0x3A ∉ key → (value = [] → rest.head? ≠ some 0x20) →
      InValue (before ++ (key ++ 0x3A :: value)) rest
  | more {before value rest : Bytes} : StartsLine before → Unbroken value →
      InValue (before ++ 0x20 :: value) rest

theorem Unbroken.shown {bytes : Bytes} (h : Unbroken bytes) : Plain (Text.shown bytes) where
  noReturn := fun hc => h.noReturn (Text.mem_of_mem_shown hc (by decide))
  noFeed := fun hc => h.noFeed (Text.mem_of_mem_shown hc (by decide))

/-- Where a line starts, bytes may be cut. -/
theorem StartsLine.shown {before : Bytes} (h : StartsLine before) :
    Ended (Text.shown before) ∧
      ∀ rest, Text.shown (before ++ rest) = Text.shown before ++ Text.shown rest := by
  have hlast : ∀ {b : UInt8} {c : Char}, before.getLast? = some b → b < 0x80 →
      Char.ofNat b.toNat = c → (Text.shown before).getLast? = some c ∧
        ∀ rest, Text.shown (before ++ rest) = Text.shown before ++ Text.shown rest := by
    -- Behind a byte below 0x80 nothing is open.
    rintro b c hb hascii rfl
    obtain ⟨front, rfl⟩ := List.getLast?_eq_some_iff.mp hb
    rw [Text.shown_ascii front hascii []]
    refine ⟨List.getLast?_concat, fun rest => ?_⟩
    rw [List.append_assoc, List.singleton_append, Text.shown_ascii front hascii, List.append_assoc]
    rfl
  rcases h with rfl | h | h
  · exact ⟨Or.inl rfl, fun rest => rfl⟩
  · obtain ⟨hend, hcut⟩ := hlast h (by decide) rfl
    exact ⟨Or.inr (Or.inl hend), hcut⟩
  · obtain ⟨hend, hcut⟩ := hlast h (by decide) rfl
    exact ⟨Or.inr (Or.inr hend), hcut⟩

/-- A place inside a value is one in what is shown, even if it is inside a character. -/
theorem InValue.shown {front rest : Bytes} (h : InValue front rest) :
    ∃ before line, Text.shown front = before ++ line ∧ Ended before ∧ Plain line ∧
      Inside line (Text.shown rest) := by
  have hhead : ∀ {bytes : Bytes}, bytes.head? ≠ some 0x20 →
      (Text.shown bytes).head? ≠ some ' ' :=
    fun hbytes hspace => hbytes (Text.head?_of_head?_shown hspace (by decide))
  cases h with
  | @first before key value _ hbefore hkey hvalue hspace hcolon hplace =>
      obtain ⟨hended, hcut⟩ := hbefore.shown
      have hline : Text.shown (key ++ 0x3A :: value) = Text.shown key ++ ':' :: Text.shown value :=
        Text.shown_ascii key (by decide) value
      refine ⟨_, _, hcut _, hended, ?_, ?_⟩
      · rw [hline]
        exact plain_append_iff.mpr ⟨hkey.shown, plain_cons_iff.mpr
          ⟨by decide, by decide, hvalue.shown⟩⟩
      · rw [hline]
        exact .first (hhead hspace) (fun hc => hcolon (Text.mem_of_mem_shown hc (by decide)))
          fun hnil => hhead (hplace (Text.shown_eq_nil_iff.mp hnil))
  | @more before value _ hbefore hvalue =>
      obtain ⟨hended, hcut⟩ := hbefore.shown
      have hline : Text.shown (0x20 :: value) = ' ' :: Text.shown value :=
        Text.shown_ascii [] (by decide) value
      refine ⟨_, _, hcut _, hended, ?_, ?_⟩
      · rw [hline]
        exact plain_cons_iff.mpr ⟨by decide, by decide, hvalue.shown⟩
      · rw [hline]
        exact .more

/-- Bytes may be cut at a line end, and behind the space that follows. -/
theorem shown_folded (front rest : Bytes) (e : LineEnd) :
    Text.shown (front ++ (e.bytes ++ 0x20 :: rest)) =
      Text.shown front ++ (e.chars ++ ' ' :: Text.shown rest) := by
  have hspace : Text.shown (0x20 :: rest) = ' ' :: Text.shown rest :=
    Text.shown_ascii [] (by decide) rest
  -- A line end is one or two characters of ASCII, which stay what they are wherever the text is
  -- cut.
  cases e with
  | lf =>
      exact (Text.shown_ascii front (by decide) _).trans
        (congrArg (fun tail => Text.shown front ++ '\n' :: tail) hspace)
  | cr =>
      exact (Text.shown_ascii front (by decide) _).trans
        (congrArg (fun tail => Text.shown front ++ '\r' :: tail) hspace)
  | crlf =>
      have hfeed : Text.shown (0x0A :: 0x20 :: rest) = '\n' :: ' ' :: Text.shown rest :=
        (Text.shown_ascii [] (by decide) _).trans (congrArg ('\n' :: ·) hspace)
      exact (Text.shown_ascii front (by decide) _).trans
        (congrArg (fun tail => Text.shown front ++ '\r' :: tail) hfeed)

theorem parse_eq_ok_iff {archive : String} {bytes : Bytes} {m : Manifest} :
    parse archive bytes = .ok m ↔ ofText (Text.shown bytes) = .ok m := by
  rw [parse, except_mapError_eq_ok_iff, Text.toList_decodeLossy]

/-- If a character is broken off, more is read back than was written. -/
theorem ofText_ne_of_cut {front rest : Bytes} (htext : Text.isText (front ++ rest) = true)
    (hcut : ¬ Text.isText front = true) (hplace : InValue front rest) {m : Manifest}
    (hread : ofText (Text.shown (front ++ rest)) = .ok m) :
    ofText (Text.shown front ++ Text.shown rest) ≠ .ok m := by
  intro hread'
  obtain ⟨before, line, hfront, hbefore, hline, hinside⟩ := hplace.shown
  obtain ⟨c, start, more, after, hc, hwhole, hstart, hafter⟩ := Text.shown_cut_inside htext hcut
  obtain ⟨value, d, rfl⟩ := (List.eq_nil_or_concat line).resolve_left hinside.ne_nil
  rw [List.concat_eq_append] at hfront hline hinside
  -- The replacement for what was broken off comes last in its line.
  rw [hfront, ← List.append_assoc] at hstart
  obtain ⟨rfl, hd⟩ := List.append_inj' hstart rfl
  obtain rfl := (List.cons.inj hd).1
  obtain ⟨hvalue, hreplacement⟩ := plain_append_iff.mp hline
  have hplain : c ≠ '\r' ∧ c ≠ '\n' ∧ c ≠ ' ' := by
    refine ⟨?_, ?_, ?_⟩ <;> rintro rfl <;> exact absurd hc (by decide)
  -- In front of what was broken the place is inside the value as well, so both texts may be
  -- compared from there.
  have hbehind : ∀ {e : Char} {tail : List Char}, e ≠ ' ' → Inside value (e :: tail) :=
    fun he => hinside.of_append (by decide) (by decide) fun hhead => he (Option.some.inj hhead)
  obtain ⟨piece, tail, rfl, hpiece, htail⟩ := exists_plain_append after
  have hwritten : ofText (before ++ (value ++ ((c :: piece) ++ tail))) = .ok m := by
    rw [← hread, hwhole, List.append_assoc]
    rfl
  have hfolded : ofText (before ++ (value ++ (([Text.replacement, Text.replacement] ++
      (List.replicate more Text.replacement ++ piece)) ++ tail))) = .ok m := by
    rw [← hread', hfront, hafter]
    simp only [List.append_assoc, List.cons_append, List.nil_append]
  have hmore : Plain (List.replicate more Text.replacement) :=
    hreplacement.of_subset fun e he => List.mem_singleton.mpr (List.eq_of_mem_replicate he)
  have hlonger := length_eq_of_ofText hbefore htail hvalue
    (plain_cons_iff.mpr ⟨hplain.1, hplain.2.1, hpiece⟩)
    (plain_append_iff.mpr ⟨⟨by decide, by decide⟩, plain_append_iff.mpr ⟨hmore, hpiece⟩⟩)
    (hbehind hplain.2.2) (hbehind (by decide)) hwritten hfolded
  rw [List.length_cons, List.length_append, List.length_append, List.length_replicate,
    List.length_cons, List.length_singleton] at hlonger
  omega

/-- A value that was folded somewhere is read back if no character of it was broken off. -/
theorem parse_folded_iff {archive : String} {front rest : Bytes} {m : Manifest}
    (htext : Text.isText (front ++ rest) = true) (hread : parse archive (front ++ rest) = .ok m)
    (hplace : InValue front rest) (e : LineEnd) :
    parse archive (front ++ (e.bytes ++ 0x20 :: rest)) = .ok m ↔ Text.isText front = true := by
  obtain ⟨before, line, hfront, hbefore, hline, hinside⟩ := hplace.shown
  -- The text with the fold reads as the two parts do, each decoded for itself.
  have hfold : parse archive (front ++ (e.bytes ++ 0x20 :: rest)) = .ok m ↔
      ofText (Text.shown front ++ Text.shown rest) = .ok m := by
    rw [parse_eq_ok_iff, shown_folded, hfront, List.append_assoc, List.append_assoc]
    exact ofText_fold hbefore hline hinside e
  rw [parse_eq_ok_iff] at hread
  rw [hfold]
  constructor
  · intro hsame
    exact Decidable.byContradiction fun hcut => ofText_ne_of_cut htext hcut hplace hread hsame
  · intro hwhole
    rw [← Text.shown_append_of_isText hwhole]
    exact hread

/-- A value that goes on in a second line is folded there once more, between two characters
    each of which takes two bytes. -/
theorem parse_folded_between :
    let front : Bytes := [0x41, 0x3A, 0x20, 0x62, 0x0D, 0x0A, 0x20, 0xC3, 0xA9]
    let rest : Bytes := [0xC3, 0xB6, 0x0A, 0x43, 0x3A]
    let m : Manifest := { main := [("A", "béö"), ("C", "")], sections := [] }
    Text.isText (front ++ rest) = true ∧ parse "t" (front ++ rest) = .ok m ∧
      InValue front rest ∧ Text.isText front = true ∧
      ∀ e : LineEnd, parse "t" (front ++ (e.bytes ++ 0x20 :: rest)) = .ok m := by
  intro front rest m
  have htext : Text.isText (front ++ rest) = true := by decide +kernel
  have hread : parse "t" (front ++ rest) = .ok m := by decide +kernel
  have hplace : InValue ([0x41, 0x3A, 0x20, 0x62, 0x0D, 0x0A] ++ 0x20 :: [0xC3, 0xA9]) rest :=
    .more (Or.inr (Or.inr rfl)) ⟨by decide, by decide⟩
  have hfront : Text.isText front = true := by decide +kernel
  exact ⟨htext, hread, hplace, hfront,
    fun e => (parse_folded_iff htext hread hplace e).mpr hfront⟩

/-- A value of one character that is folded between the two bytes of it is read back as two. -/
theorem parse_folded_inside :
    let front : Bytes := [0x41, 0x3A, 0x20, 0xC3]
    let rest : Bytes := [0xA9, 0x0A]
    Text.isText (front ++ rest) = true ∧ InValue front rest ∧
      parse "t" (front ++ rest) = .ok { main := [("A", "é")], sections := [] } ∧
      parse "t" (front ++ (LineEnd.lf.bytes ++ 0x20 :: rest)) =
        .ok { main := [("A", "\uFFFD\uFFFD")], sections := [] } ∧
      parse "t" (front ++ (LineEnd.lf.bytes ++ 0x20 :: rest)) ≠ parse "t" (front ++ rest) := by
  intro front rest
  have hwritten : parse "t" (front ++ rest) = .ok { main := [("A", "é")], sections := [] } := by
    decide +kernel
  have hfolded : parse "t" (front ++ (LineEnd.lf.bytes ++ 0x20 :: rest)) =
      .ok { main := [("A", "\uFFFD\uFFFD")], sections := [] } := by
    decide +kernel
  refine ⟨by decide +kernel, ?_, hwritten, hfolded, ?_⟩
  · -- The place is inside the first value, in the middle of its only character.
    change InValue ([] ++ ([0x41] ++ 0x3A :: [0x20, 0xC3])) rest
    exact .first (Or.inl rfl) ⟨by decide, by decide⟩ ⟨by decide, by decide⟩ (by decide) (by decide)
      fun h => nomatch h
  · rw [hwritten, hfolded, ne_eq, Except.ok.injEq]
    decide

end Manifest

end NestedZip
