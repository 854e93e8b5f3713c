import NestedZip.Proofs.Text

/-!
# Texts Cut in Two

What the parts of a byte string are read as, if it is cut somewhere.

Reading goes byte by byte, and what has been read of a character is all that
one byte hands on to the next. So between two characters a cut is not noticed:
the parts have the characters that the whole has. Inside a character it is,
since a character of which some bytes are missing is a broken stretch, and so
is every byte that was meant to follow and finds nothing in front.

A byte below 0x80 is a character by itself, wherever it stands. It gives up
what has been started and lets nothing of it go on. Bytes may therefore be cut
at such a byte without a look at the others. It also works the other way: such
a character was read from its byte and from nothing else. Whoever looks for
line ends or colons in a text may look for them in the bytes.

## Main definitions

* `Text.Sequence.Guarded`: A sequence that goes on with bytes of 0x80 and above.
* `Text.Decoding.onto`: What has been read, with older units behind it.
* `Text.Decoding.Tracks`: What is known of a decoder at any time.
* `Text.shown`: The characters shown for a byte string.

## Theorems

* `Text.units_append_of_isText`: A cut between two characters.
* `Text.units_cut_inside`: A cut inside a character.
* `Text.units_ascii`: A cut at a byte below 0x80.
* `Text.mem_of_mem_units`: A character below 0x80 was read from its byte.
* `Text.shown_cut_inside` and its like: The same for what is shown.
-/

namespace NestedZip

namespace Text

open Percent (forall_byte)

namespace Sequence

/-- No byte that the sequence goes on with is a character by itself, or starts one. -/
structure Guarded (q : Sequence) : Prop where
  low : 0x80 ≤ q.low
  high : q.high ≤ 0xBF

/-- Every lead byte lets only continuation bytes follow. -/
theorem guarded_start {lead : UInt8} {q : Sequence} (h : start? lead = some q) : q.Guarded := by
  -- There are 256 bytes to try.
  have hall : ((start? lead).all fun q => decide (0x80 ≤ q.low ∧ q.high ≤ 0xBF)) = true := by
    revert lead
    exact fun _ => forall_byte (P := fun b =>
      ((start? b).all fun q => decide (0x80 ≤ q.low ∧ q.high ≤ 0xBF)) = true) (by decide +kernel) _
  rw [h] at hall
  obtain ⟨hlow, hhigh⟩ := of_decide_eq_true hall
  exact ⟨hlow, hhigh⟩

theorem start?_of_further : ∀ b : UInt8, 0x80 ≤ b → b ≤ 0xBF → start? b = none :=
  forall_byte (by decide +kernel)

/-- A character that takes more than one byte is none of the first 128. -/
theorem le_toNat_of_utf8EncodeChar {c : Char} {front : Bytes} {b : UInt8} (hfront : front ≠ [])
    (h : String.utf8EncodeChar c = front ++ [b]) : 0x80 ≤ c.toNat := by
  refine Nat.le_of_not_lt fun hascii => ?_
  have hone : c.val.toNat ≤ 0x7F := Nat.le_of_lt_succ hascii
  have hlength := congrArg List.length h
  unfold String.utf8EncodeChar at hlength
  have hpos := List.length_pos_iff.mpr hfront
  simp only [if_pos hone, List.length_append, List.length_singleton] at hlength
  omega

end Sequence

namespace Decoding

/-- The same with older units behind it. -/
def onto (d : Decoding) (older : List (Option Char)) : Decoding :=
  { d with units := d.units ++ older }

variable {d : Decoding} {older : List (Option Char)}

/-- What was read before stays in front of what is read afresh. -/
theorem feedFresh_onto (units older : List (Option Char)) (b : UInt8) :
    feedFresh (units ++ older) b = (feedFresh units b).onto older := by
  unfold feedFresh
  by_cases hascii : b < 0x80
  · rw [if_pos hascii, if_pos hascii]
    rfl
  · rw [if_neg hascii, if_neg hascii]
    cases Sequence.start? b <;> rfl

/-- Reading does not look at the units that are there. -/
theorem feed_onto (d : Decoding) (older : List (Option Char)) (b : UInt8) :
    (d.onto older).feed b = (d.feed b).onto older := by
  rcases d with ⟨units, _ | q⟩
  · exact feedFresh_onto units older b
  · unfold feed onto
    by_cases hrange : q.low ≤ b ∧ b ≤ q.high
    · simp only [if_pos hrange]
      by_cases hlast : q.missing ≤ 1
      · simp only [if_pos hlast, List.cons_append]
      · simp only [if_neg hlast]
    · simp only [if_neg hrange]
      exact feedFresh_onto (none :: units) older b

theorem foldl_feed_onto (d : Decoding) (older : List (Option Char)) (bytes : Bytes) :
    bytes.foldl feed (d.onto older) = (bytes.foldl feed d).onto older := by
  induction bytes generalizing d with
  | nil => rfl
  | cons b bytes ih => rw [List.foldl_cons, List.foldl_cons, feed_onto, ih]

theorem finish_onto (d : Decoding) (older : List (Option Char)) :
    (d.onto older).finish = older.reverse ++ d.finish := by
  rcases d with ⟨units, _ | q⟩
  · exact List.reverse_append
  · change ((none :: units) ++ older).reverse = _
    exact List.reverse_append

/-- Where no sequence is open, reading goes on as from the beginning. -/
theorem finish_of_idle (units : List (Option Char)) (bytes : Bytes) :
    (bytes.foldl feed { units }).finish = units.reverse ++ Text.units bytes := by
  change (bytes.foldl feed (onto {} units)).finish = _
  rw [foldl_feed_onto, finish_onto]
  rfl

theorem none_mem_finish (h : none ∈ d.units) : none ∈ d.finish := by
  unfold finish
  rcases d.started with _ | q
  · exact List.mem_reverse.mpr h
  · exact List.mem_reverse.mpr (List.mem_cons_of_mem none h)

theorem none_mem_foldl (h : none ∈ d.units) (bytes : Bytes) :
    none ∈ (bytes.foldl feed d).units := by
  induction bytes generalizing d with
  | nil => exact h
  | cons b bytes ih => exact ih (none_mem_feed h b)

/-- What is known of a decoder after any bytes: where its first 128 characters come from,
    and what may follow on the sequence that is open. -/
structure Tracks (d : Decoding) (bytes : Bytes) : Prop where
  ascii : ∀ c : Char, some c ∈ d.units → c.toNat < 0x80 → UInt8.ofNat c.toNat ∈ bytes
  guarded : ∀ q, d.started = some q → q.Guarded
  opened : ∀ q, d.started = some q → ∃ front, front ≠ [] ∧ q.Opened front

theorem tracks_empty : Tracks {} [] where
  ascii _ hc := absurd hc List.not_mem_nil
  guarded _ hq := absurd hq.symm (Option.some_ne_none _)
  opened _ hq := absurd hq.symm (Option.some_ne_none _)

/-- A byte that is read where no sequence is open adds its own character, or none. -/
theorem tracks_feedFresh {units : List (Option Char)} {bytes : Bytes}
    (h : ∀ c : Char, some c ∈ units → c.toNat < 0x80 → UInt8.ofNat c.toNat ∈ bytes) (b : UInt8) :
    Tracks (feedFresh units b) (bytes ++ [b]) := by
  have hold : ∀ c : Char, some c ∈ units → c.toNat < 0x80 →
      UInt8.ofNat c.toNat ∈ bytes ++ [b] := fun c hc hascii =>
    List.mem_append_left [b] (h c hc hascii)
  unfold feedFresh
  by_cases hascii : b < 0x80
  · rw [if_pos hascii]
    refine ⟨fun c hc hlow => ?_, fun q hq => absurd hq.symm (Option.some_ne_none q),
      fun q hq => absurd hq.symm (Option.some_ne_none q)⟩
    rcases List.mem_cons.mp hc with hnew | hc
    · have hvalid : b.toNat.isValidChar := Or.inl (by have := b.toNat_lt; omega)
      have hbyte : c.toNat = b.toNat := by
        rw [Option.some.inj hnew]
        exact val_ofNat hvalid
      rw [hbyte, UInt8.ofNat_toNat]
      exact List.mem_append_right bytes List.mem_cons_self
    · exact hold c hc hlow
  · rw [if_neg hascii]
    rcases hstart : Sequence.start? b with _ | q
    · refine ⟨fun c hc hlow => ?_, fun q hq => absurd hq.symm (Option.some_ne_none q),
        fun q hq => absurd hq.symm (Option.some_ne_none q)⟩
      rcases List.mem_cons.mp hc with hnew | hc
      · exact absurd hnew (Option.some_ne_none c)
      · -- A byte that is shown as broken is no character.
        exact hold c hc hlow
    · refine ⟨hold, fun r hr => ?_, fun r hr => ?_⟩
      · rw [← Option.some.inj hr]
        exact Sequence.guarded_start hstart
      · rw [← Option.some.inj hr]
        exact ⟨[b], List.cons_ne_nil b [], Sequence.opened_start hstart⟩

/-- With the last byte that was missing, a sequence is a character that is none of the
    first 128. -/
theorem le_toNat_of_last {q : Sequence} {front : Bytes} {b : UInt8} (hfront : front ≠ [])
    (hopened : q.Opened front) (hrange : q.low ≤ b ∧ b ≤ q.high) (hlast : q.missing ≤ 1) :
    0x80 ≤ (Char.ofNat (q.value * 64 + (b.toNat - 0x80))).toNat := by
  have hmissing : q.missing = 1 := Nat.le_antisymm hlast hopened.missing
  have hcompletes := hopened.completes
  rw [hmissing] at hcompletes
  exact Sequence.le_toNat_of_utf8EncodeChar hfront (hcompletes b hrange.1 hrange.2)

/-- With one byte more, and some still missing, it is open as before. -/
theorem opened_further {q : Sequence} {front : Bytes} {b : UInt8} (hopened : q.Opened front)
    (hrange : q.low ≤ b ∧ b ≤ q.high) (hlast : ¬ q.missing ≤ 1) :
    Sequence.Opened { value := q.value * 64 + (b.toNat - 0x80), missing := q.missing - 1 }
      (front ++ [b]) := by
  obtain ⟨missing, hmissing⟩ := Nat.exists_eq_succ_of_ne_zero (Nat.ne_of_gt hopened.missing)
  have hcompletes := hopened.completes
  rw [hmissing] at hcompletes
  refine ⟨?_, ?_⟩
  · change 0 < q.missing - 1
    omega
  · rw [hmissing]
    exact hcompletes b hrange.1 hrange.2

/-- One byte more is tracked, whether it goes on with a sequence, completes it or breaks it. -/
theorem Tracks.feed {bytes : Bytes} (h : Tracks d bytes) (b : UInt8) :
    Tracks (d.feed b) (bytes ++ [b]) := by
  unfold Decoding.feed
  rcases hstarted : d.started with _ | q
  · exact tracks_feedFresh h.ascii b
  · simp only
    by_cases hrange : q.low ≤ b ∧ b ≤ q.high
    · rw [if_pos hrange]
      obtain ⟨front, hfront, hopened⟩ := h.opened q hstarted
      by_cases hlast : q.missing ≤ 1
      · rw [if_pos hlast]
        refine ⟨fun c hc hlow => ?_, fun r hr => absurd hr.symm (Option.some_ne_none r),
          fun r hr => absurd hr.symm (Option.some_ne_none r)⟩
        rcases List.mem_cons.mp hc with hnew | hc
        · -- The new character is none of the first 128.
          have hhigh := le_toNat_of_last hfront hopened hrange hlast
          rw [← Option.some.inj hnew] at hhigh
          omega
        · exact List.mem_append_left [b] (h.ascii c hc hlow)
      · rw [if_neg hlast]
        refine ⟨fun c hc hlow => List.mem_append_left [b] (h.ascii c hc hlow), fun r hr => ?_,
          fun r hr => ?_⟩
        · rw [← Option.some.inj hr]
          exact ⟨UInt8.le_refl _, UInt8.le_refl _⟩
        · rw [← Option.some.inj hr]
          exact ⟨front ++ [b], List.append_ne_nil_of_left_ne_nil hfront [b],
            opened_further hopened hrange hlast⟩
    · rw [if_neg hrange]
      -- The sequence is given up for one broken unit, and the byte starts afresh.
      refine tracks_feedFresh (fun c hc hlow => ?_) b
      rcases List.mem_cons.mp hc with hnew | hc
      · exact absurd hnew (Option.some_ne_none c)
      · exact h.ascii c hc hlow

/-- So is any number of bytes. -/
theorem Tracks.foldl {front : Bytes} (h : Tracks d front) (bytes : Bytes) :
    Tracks (bytes.foldl Decoding.feed d) (front ++ bytes) := by
  induction bytes generalizing d front with
  | nil =>
      rw [List.append_nil]
      exact h
  | cons b bytes ih =>
      have hbytes := ih (h.feed b)
      rw [List.append_assoc] at hbytes
      exact hbytes

theorem tracks_foldl (bytes : Bytes) : Tracks (bytes.foldl feed {}) bytes :=
  tracks_empty.foldl bytes

/-- A byte below 0x80 ends what is open, and is a character. -/
theorem feed_ascii {bytes : Bytes} (h : Tracks d bytes) {b : UInt8} (hascii : b < 0x80) :
    d.feed b = { units := some (Char.ofNat b.toNat) :: d.finish.reverse } := by
  unfold feed finish
  rcases hstarted : d.started with _ | q
  · simp only [feedFresh, if_pos hascii, List.reverse_reverse]
  · have hguarded := h.guarded q hstarted
    -- The sequence that is open goes on with higher bytes only.
    have hout : ¬ (q.low ≤ b ∧ b ≤ q.high) := fun hrange =>
      UInt8.not_le.mpr hascii (UInt8.le_trans hguarded.low hrange.1)
    simp only [if_neg hout, feedFresh, if_pos hascii, List.reverse_reverse]

/-- A byte that may follow is a broken stretch if nothing is open. -/
theorem feedFresh_further {b : UInt8} (hlow : 0x80 ≤ b) (hhigh : b ≤ 0xBF) :
    feedFresh [] b = { units := [none] } := by
  unfold feedFresh
  rw [if_neg (UInt8.not_lt.mpr hlow), Sequence.start?_of_further b hlow hhigh]

/-- Inside a character, the bytes that complete it are each a broken stretch by themselves,
    and what follows is the same either way. -/
theorem finish_of_opened {q : Sequence} {front : Bytes} (hguarded : q.Guarded) (hfront : front ≠ [])
    (hopened : q.Opened front) (units : List (Option Char)) (rest : Bytes)
    (hwhole : none ∉ (rest.foldl feed { units, started := some q }).finish) :
    ∃ c : Char, ∃ more after, 0x80 ≤ c.toNat ∧
      (rest.foldl feed { units, started := some q }).finish = units.reverse ++ some c :: after ∧
      Text.units rest = none :: (List.replicate more none ++ after) := by
  -- The induction is on the bytes, and the character is complete before they are over.
  induction rest generalizing q front with
  | nil => exact absurd (List.mem_reverse.mpr List.mem_cons_self) hwhole
  | cons b rest ih =>
      rw [List.foldl_cons] at hwhole ⊢
      by_cases hrange : q.low ≤ b ∧ b ≤ q.high
      · have hlow := UInt8.le_trans hguarded.low hrange.1
        have hhigh := UInt8.le_trans hrange.2 hguarded.high
        -- In the part behind the cut, nothing is open in front of this byte.
        have halone : Text.units (b :: rest) = none :: Text.units rest := by
          change (rest.foldl feed (feedFresh [] b)).finish = _
          rw [feedFresh_further hlow hhigh, finish_of_idle]
          rfl
        rw [halone]
        by_cases hlast : q.missing ≤ 1
        · have hfeed : feed { units, started := some q } b =
              { units := some (Char.ofNat (q.value * 64 + (b.toNat - 0x80))) :: units } := by
            unfold feed
            simp only [if_pos hrange, if_pos hlast]
          rw [hfeed, finish_of_idle]
          refine ⟨_, 0, Text.units rest, le_toNat_of_last hfront hopened hrange hlast, ?_, rfl⟩
          rw [List.reverse_cons, List.append_assoc]
          rfl
        · have hfeed : feed { units, started := some q } b = { units, started := some {
              value := q.value * 64 + (b.toNat - 0x80), missing := q.missing - 1 } } := by
            unfold feed
            simp only [if_pos hrange, if_neg hlast]
          rw [hfeed] at hwhole ⊢
          obtain ⟨c, more, after, hc, hfinish, hrest⟩ := ih ⟨UInt8.le_refl _, UInt8.le_refl _⟩
            (List.append_ne_nil_of_left_ne_nil hfront [b]) (opened_further hopened hrange hlast)
            hwhole
          exact ⟨c, more + 1, after, hc, hfinish, congrArg (none :: ·) hrest⟩
      · -- Out of range, the sequence would be given up.
        have hbroken : none ∈ (feed { units, started := some q } b).units := by
          unfold feed
          simp only [if_neg hrange]
          exact none_mem_feedFresh List.mem_cons_self b
        exact absurd (none_mem_finish (none_mem_foldl hbroken rest)) hwhole

/-- Whatever the last byte was, it has left something to be shown. -/
theorem finish_feed_ne_nil (d : Decoding) (b : UInt8) : (d.feed b).finish ≠ [] := by
  -- A byte that starts afresh leaves a unit or an open sequence, and both are shown.
  have hfresh : ∀ units, (feedFresh units b).finish ≠ [] := by
    intro units
    unfold feedFresh
    by_cases hascii : b < 0x80
    · rw [if_pos hascii]
      exact List.reverse_ne_nil_iff.mpr (List.cons_ne_nil _ _)
    · rw [if_neg hascii]
      cases Sequence.start? b <;> exact List.reverse_ne_nil_iff.mpr (List.cons_ne_nil _ _)
  unfold feed
  rcases d.started with _ | q
  · exact hfresh d.units
  · by_cases hrange : q.low ≤ b ∧ b ≤ q.high
    · simp only [if_pos hrange]
      by_cases hlast : q.missing ≤ 1
      · rw [if_pos hlast]
        exact List.reverse_ne_nil_iff.mpr (List.cons_ne_nil _ _)
      · rw [if_neg hlast]
        exact List.reverse_ne_nil_iff.mpr (List.cons_ne_nil _ _)
    · simp only [if_neg hrange]
      exact hfresh _

end Decoding

/-- Bytes are a text when no unit of them is broken. -/
theorem isText_iff {bytes : Bytes} : isText bytes = true ↔ none ∉ units bytes := by
  unfold isText
  rw [List.all_eq_true]
  constructor
  · intro h hnone
    exact absurd (h none hnone) (by decide)
  · intro h unit hunit
    rw [Option.isSome_iff_ne_none]
    rintro rfl
    exact h hunit

theorem units_eq_finish (front rest : Bytes) :
    units (front ++ rest) = (rest.foldl Decoding.feed (front.foldl Decoding.feed {})).finish := by
  unfold units
  rw [List.foldl_append]

/-- If the part in front is a text, the whole has the characters of both parts. -/
theorem units_append_of_isText {front : Bytes} (hfront : isText front = true) (rest : Bytes) :
    units (front ++ rest) = units front ++ units rest := by
  rw [isText_iff] at hfront
  rw [units_eq_finish]
  unfold units at hfront ⊢
  -- A sequence that is still open would be a broken stretch.
  rcases hread : front.foldl Decoding.feed {} with ⟨read, _ | q⟩
  · exact Decoding.finish_of_idle read rest
  · rw [hread] at hfront
    exact absurd (List.mem_reverse.mpr List.mem_cons_self) hfront

/-- If the whole is a text and the part in front is not, one character of the whole is lost,
    and each part has broken stretches in its place. -/
theorem units_cut_inside {front rest : Bytes} (hwhole : isText (front ++ rest) = true)
    (hfront : ¬ isText front = true) :
    ∃ c : Char, ∃ before more after, 0x80 ≤ c.toNat ∧
      units (front ++ rest) = before ++ some c :: after ∧ units front = before ++ [none] ∧
      units rest = none :: (List.replicate more none ++ after) := by
  rw [isText_iff] at hwhole
  rw [isText_iff, Decidable.not_not] at hfront
  have htracks := Decoding.tracks_foldl front
  rw [units_eq_finish] at hwhole ⊢
  unfold units at hfront ⊢
  rcases hread : front.foldl Decoding.feed {} with ⟨read, _ | q⟩
  · -- Nothing is open, so what is broken in front would be broken in the whole.
    rw [hread] at hfront hwhole
    exact absurd (Decoding.none_mem_finish
      (Decoding.none_mem_foldl (List.mem_reverse.mp hfront) rest)) hwhole
  · -- The open sequence is broken off in front and goes on behind, in bytes that start nothing.
    rw [hread] at hwhole htracks
    obtain ⟨start, hstart, hopened⟩ := htracks.opened q rfl
    obtain ⟨c, more, after, hc, hfinish, hrest⟩ :=
      Decoding.finish_of_opened (htracks.guarded q rfl) hstart hopened read rest hwhole
    exact ⟨c, read.reverse, more, after, hc, hfinish, List.reverse_cons, hrest⟩

/-- At a byte below 0x80 bytes may be cut, whatever they are. -/
theorem units_ascii (front : Bytes) {b : UInt8} (hascii : b < 0x80) (rest : Bytes) :
    units (front ++ b :: rest) = units front ++ some (Char.ofNat b.toNat) :: units rest := by
  rw [units_eq_finish, List.foldl_cons, Decoding.feed_ascii (Decoding.tracks_foldl front) hascii,
    Decoding.finish_of_idle, List.reverse_cons, List.reverse_reverse, List.append_assoc]
  rfl

/-- Of the first 128 characters there are no more than the bytes have. -/
theorem mem_of_mem_units {bytes : Bytes} {c : Char} (hc : some c ∈ units bytes)
    (hlow : c.toNat < 0x80) : UInt8.ofNat c.toNat ∈ bytes := by
  refine (Decoding.tracks_foldl bytes).ascii c ?_ hlow
  unfold units Decoding.finish at hc
  rcases hstarted : (bytes.foldl Decoding.feed {}).started with _ | q
  · rw [hstarted] at hc
    exact List.mem_reverse.mp hc
  · rw [hstarted] at hc
    rcases List.mem_cons.mp (List.mem_reverse.mp hc) with hnone | hc
    · exact absurd hnone (Option.some_ne_none c)
    · exact hc

theorem units_ne_nil {bytes : Bytes} (hsome : bytes ≠ []) : units bytes ≠ [] := by
  obtain ⟨front, b, rfl⟩ := (List.eq_nil_or_concat bytes).resolve_left hsome
  rw [List.concat_eq_append, units_eq_finish, List.foldl_cons, List.foldl_nil]
  exact Decoding.finish_feed_ne_nil _ b

/-- If one of the first 128 characters comes first, so does its byte. -/
theorem head?_of_head?_units {bytes : Bytes} {c : Char} (hc : (units bytes).head? = some (some c))
    (hlow : c.toNat < 0x80) : bytes.head? = some (UInt8.ofNat c.toNat) := by
  -- Bytes in front of the first such byte would have characters of their own.
  have hmem := mem_of_mem_units (List.mem_of_mem_head? hc) hlow
  obtain ⟨front, rest, rfl, hfront⟩ := List.eq_append_cons_of_mem hmem
  rcases Decidable.em (front = []) with rfl | hsome
  · rfl
  · obtain ⟨unit, more, hunits⟩ := List.exists_cons_of_ne_nil (units_ne_nil hsome)
    have hbyte : UInt8.ofNat c.toNat < 0x80 := by
      simp only [UInt8.lt_iff_toNat_lt, UInt8.toNat_ofNat', UInt8.reduceToNat]
      omega
    rw [units_ascii front hbyte, hunits, List.cons_append, List.head?_cons, Option.some.injEq] at hc
    have hmem : some c ∈ units front := by
      rw [hunits, hc]
      exact List.mem_cons_self
    exact absurd (mem_of_mem_units hmem hlow) hfront

/-- The characters shown for a byte string. -/
def shown (bytes : Bytes) : List Char := (units bytes).map fun unit => unit.getD replacement

theorem toList_decodeLossy (bytes : Bytes) : (decodeLossy bytes).toList = shown bytes :=
  String.toList_ofList

theorem shown_ascii (front : Bytes) {b : UInt8} (hascii : b < 0x80) (rest : Bytes) :
    shown (front ++ b :: rest) = shown front ++ Char.ofNat b.toNat :: shown rest := by
  unfold shown
  rw [units_ascii front hascii, List.map_append]
  rfl

theorem shown_append_of_isText {front : Bytes} (hfront : isText front = true) (rest : Bytes) :
    shown (front ++ rest) = shown front ++ shown rest := by
  unfold shown
  rw [units_append_of_isText hfront, List.map_append]

/-- What is shown for a character cut in two is longer than the character. -/
theorem shown_cut_inside {front rest : Bytes} (hwhole : isText (front ++ rest) = true)
    (hfront : ¬ isText front = true) :
    ∃ c : Char, ∃ before more after, 0x80 ≤ c.toNat ∧
      shown (front ++ rest) = before ++ c :: after ∧ shown front = before ++ [replacement] ∧
      shown rest = replacement :: (List.replicate more replacement ++ after) := by
  obtain ⟨c, before, more, after, hc, hunits, hbefore, hafter⟩ := units_cut_inside hwhole hfront
  refine ⟨c, before.map fun unit => unit.getD replacement, more,
    after.map fun unit => unit.getD replacement, hc, ?_, ?_, ?_⟩
  · rw [shown, hunits, List.map_append]
    rfl
  · rw [shown, hbefore, List.map_append]
    rfl
  · rw [shown, hafter, List.map_cons, List.map_append, List.map_replicate]
    rfl

/-- A unit that is shown as one of the first 128 characters is that character. -/
theorem eq_some_of_getD {unit : Option Char} {c : Char} (hunit : unit.getD replacement = c)
    (hlow : c.toNat < 0x80) : unit = some c := by
  rcases unit with _ | d
  · rw [← hunit] at hlow
    exact absurd hlow (by decide)
  · exact congrArg some hunit

theorem mem_of_mem_shown {bytes : Bytes} {c : Char} (hc : c ∈ shown bytes)
    (hlow : c.toNat < 0x80) : UInt8.ofNat c.toNat ∈ bytes := by
  obtain ⟨unit, hunit, hshown⟩ := List.mem_map.mp hc
  rw [eq_some_of_getD hshown hlow] at hunit
  exact mem_of_mem_units hunit hlow

theorem head?_of_head?_shown {bytes : Bytes} {c : Char} (hc : (shown bytes).head? = some c)
    (hlow : c.toNat < 0x80) : bytes.head? = some (UInt8.ofNat c.toNat) := by
  rw [shown, List.head?_map, Option.map_eq_some_iff] at hc
  obtain ⟨unit, hunit, hshown⟩ := hc
  rw [eq_some_of_getD hshown hlow] at hunit
  exact head?_of_head?_units hunit hlow

theorem shown_eq_nil_iff {bytes : Bytes} : shown bytes = [] ↔ bytes = [] := by
  rw [shown, List.map_eq_nil_iff]
  refine ⟨fun h => Decidable.byContradiction fun hsome => units_ne_nil hsome h, ?_⟩
  rintro rfl
  rfl

end Text

end NestedZip
