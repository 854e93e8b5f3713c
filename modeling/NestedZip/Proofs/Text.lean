import NestedZip.Text.Utf8
import NestedZip.Proofs.Percent

/-!
# Texts are Read from the Bytes they are Written with

A text that was read from bytes without a broken stretch has these bytes, and
a text is read back from the bytes that it has.

Writing goes character by character and reading goes byte by byte, so between
two bytes the reader may be inside a character. What it then knows of the
character is a number and how many bytes are missing. `Completes` says what
these are good for, as long as the bytes that come are in range: the number in
the end is that of a character, and the bytes that were read are just those
with which it is written. A first byte makes a promise of this kind, each
further byte passes it on, and only here are the forms of two, three and four
bytes looked at. The induction over the bytes sees none of them.

The other direction needs no promise, since the character is known. Its bytes
are taken one after the other, each in the range that the byte in front of it
has opened, and between two characters the reader is inside none.

## Main definitions

* `Text.Sequence.Completes`, `Text.Sequence.Opened`: A character of which some
  bytes are missing.
* `Text.Decoding.Reads`: What has been read of some bytes.

## Theorems

* `Text.Sequence.opened_start`: A byte that starts a sequence is the first of a character.
* `Text.Decoding.Reads.feed`, `Text.Decoding.Reads.foldl`: Reading goes on byte by byte.
* `Text.encode_of_decode?`: A text is written with the bytes that it was read from.
* `Text.Decoding.foldl_feed_utf8EncodeChar`: A character is read from its bytes.
* `Text.decodeLossy_encode`, `Text.decode?_encode`: A text is read from the bytes that it
  is written with.
-/

namespace NestedZip

namespace Text

theorem val_ofNat {v : Nat} (hvalid : v.isValidChar) : (Char.ofNat v).val.toNat = v := by
  rw [Char.ofNat, dif_pos hvalid]
  rfl

theorem ofNat_eq_of_toNat {n : Nat} {b : UInt8} (h : n = b.toNat) : UInt8.ofNat n = b := by
  rw [h, UInt8.ofNat_toNat]

namespace Sequence

/-- With as many bytes in the ranges as are missing, the number is that of a character whose
    bytes are those in front and these. -/
def Completes : (missing value : Nat) → (low high : UInt8) → (front : Bytes) → Prop
  | 0, value, _, _, front => String.utf8EncodeChar (Char.ofNat value) = front
  | missing + 1, value, low, high, front => ∀ b : UInt8, low ≤ b → b ≤ high →
      Completes missing (value * 64 + (b.toNat - 0x80)) 0x80 0xBF (front ++ [b])

/-- The bytes that have been read of a character. -/
structure Opened (q : Sequence) (front : Bytes) : Prop where
  missing : 0 < q.missing
  completes : Completes q.missing q.value q.low q.high front

/-- A lead byte below 0xE0 needs one more byte, and has excluded the overlong ones itself. -/
theorem completes_two {lead : UInt8} (hlow : 0xC2 ≤ lead) (hhigh : lead < 0xE0) :
    Completes 1 (lead.toNat - 0xC0) 0x80 0xBF [lead] := by
  intro b hb hb'
  simp only [UInt8.le_iff_toNat_le, UInt8.lt_iff_toNat_lt, UInt8.reduceToNat] at hlow hhigh hb hb'
  unfold Completes String.utf8EncodeChar
  simp only [val_ofNat (v := (lead.toNat - 0xC0) * 64 + (b.toNat - 0x80)) (Or.inl (by omega))]
  rw [if_neg (by omega), if_pos (by omega), ofNat_eq_of_toNat (b := lead) (by omega),
    ofNat_eq_of_toNat (b := b) (by omega)]
  rfl

/-- The range of the second byte leaves out overlong forms and surrogates. -/
theorem completes_three {lead low high : UInt8} {value : Nat} (hvalue : value + 0xE0 = lead.toNat)
    (hhigh : lead < 0xF0) (hoverlong : lead = 0xE0 → low = 0xA0)
    (hsurrogate : lead = 0xED → high = 0x9F) (hfloor : 0x80 ≤ low) (hceiling : high ≤ 0xBF) :
    Completes 2 value low high [lead] := by
  intro b hb hb' c hc hc'
  have h0 : lead.toNat = 0xE0 → low.toNat = 0xA0 := fun h => by
    rw [hoverlong (UInt8.toNat_inj.mp h)]
    rfl
  have h1 : lead.toNat = 0xED → high.toNat = 0x9F := fun h => by
    rw [hsurrogate (UInt8.toNat_inj.mp h)]
    rfl
  simp only [UInt8.le_iff_toNat_le, UInt8.lt_iff_toNat_lt, UInt8.reduceToNat] at hhigh hfloor
  simp only [UInt8.le_iff_toNat_le, UInt8.reduceToNat] at hceiling hb hb' hc hc'
  -- The two narrowed ranges keep out overlong forms and surrogates.
  have hvalid : Nat.isValidChar
      ((value * 64 + (b.toNat - 0x80)) * 64 + (c.toNat - 0x80)) := by
    unfold Nat.isValidChar
    omega
  unfold Completes String.utf8EncodeChar
  simp only [val_ofNat hvalid]
  rw [if_neg (by omega), if_neg (by omega), if_pos (by omega),
    ofNat_eq_of_toNat (b := lead) (by omega), ofNat_eq_of_toNat (b := b) (by omega),
    ofNat_eq_of_toNat (b := c) (by omega)]
  rfl

/-- It also leaves out what is above the last character. -/
theorem completes_four {lead low high : UInt8} {value : Nat} (hvalue : value + 0xF0 = lead.toNat)
    (hhigh : lead ≤ 0xF4) (hoverlong : lead = 0xF0 → low = 0x90)
    (hlast : lead = 0xF4 → high = 0x8F) (hfloor : 0x80 ≤ low) (hceiling : high ≤ 0xBF) :
    Completes 3 value low high [lead] := by
  intro b hb hb' c hc hc' d hd hd'
  have h0 : lead.toNat = 0xF0 → low.toNat = 0x90 := fun h => by
    rw [hoverlong (UInt8.toNat_inj.mp h)]
    rfl
  have h1 : lead.toNat = 0xF4 → high.toNat = 0x8F := fun h => by
    rw [hlast (UInt8.toNat_inj.mp h)]
    rfl
  simp only [UInt8.le_iff_toNat_le, UInt8.reduceToNat] at hhigh hfloor hceiling hb hb'
  simp only [UInt8.le_iff_toNat_le, UInt8.reduceToNat] at hc hc' hd hd'
  -- The two narrowed ranges keep out overlong forms and what lies beyond the last character.
  have hvalid : Nat.isValidChar
      (((value * 64 + (b.toNat - 0x80)) * 64 + (c.toNat - 0x80)) * 64 + (d.toNat - 0x80)) := by
    unfold Nat.isValidChar
    omega
  unfold Completes String.utf8EncodeChar
  simp only [val_ofNat hvalid]
  rw [if_neg (by omega), if_neg (by omega), if_neg (by omega),
    ofNat_eq_of_toNat (b := lead) (by omega), ofNat_eq_of_toNat (b := b) (by omega),
    ofNat_eq_of_toNat (b := c) (by omega), ofNat_eq_of_toNat (b := d) (by omega)]
  rfl

/-- A byte that starts a sequence has been read of a character. -/
theorem opened_start {lead : UInt8} {q : Sequence} (h : start? lead = some q) :
    Opened q [lead] := by
  have htoNat : ∀ {n : UInt8}, ¬ lead < n → n.toNat ≤ lead.toNat := fun h =>
    UInt8.le_iff_toNat_le.mp (UInt8.not_lt.mp h)
  unfold start? at h
  by_cases hC2 : lead < 0xC2
  · rw [if_pos hC2] at h
    exact absurd h (by simp only [reduceCtorEq, not_false_eq_true])
  rw [if_neg hC2] at h
  -- From here on every range of first bytes starts one form, up to the last character.
  by_cases hE0 : lead < 0xE0
  · rw [if_pos hE0, Option.some.injEq] at h
    subst h
    exact ⟨Nat.one_pos, completes_two (UInt8.not_lt.mp hC2) hE0⟩
  rw [if_neg hE0] at h
  by_cases hE0' : lead = 0xE0
  · rw [if_pos hE0', Option.some.injEq] at h
    subst h hE0'
    exact ⟨Nat.two_pos, completes_three rfl (by decide) (fun _ => rfl)
      (fun h => absurd h (by decide)) (by decide) (by decide)⟩
  rw [if_neg hE0'] at h
  by_cases hED : lead = 0xED
  · rw [if_pos hED, Option.some.injEq] at h
    subst h hED
    exact ⟨Nat.two_pos, completes_three rfl (by decide) (fun h => absurd h (by decide))
      (fun _ => rfl) (by decide) (by decide)⟩
  rw [if_neg hED] at h
  by_cases hF0 : lead < 0xF0
  · rw [if_pos hF0, Option.some.injEq] at h
    subst h
    exact ⟨Nat.two_pos, completes_three (Nat.sub_add_cancel (htoNat hE0)) hF0
      (fun h => absurd h hE0') (fun h => absurd h hED) (UInt8.le_refl _) (UInt8.le_refl _)⟩
  rw [if_neg hF0] at h
  by_cases hF0' : lead = 0xF0
  · rw [if_pos hF0', Option.some.injEq] at h
    subst h hF0'
    exact ⟨Nat.succ_pos 2, completes_four rfl (by decide) (fun _ => rfl)
      (fun h => absurd h (by decide)) (by decide) (by decide)⟩
  rw [if_neg hF0'] at h
  by_cases hF4 : lead < 0xF4
  · rw [if_pos hF4, Option.some.injEq] at h
    subst h
    exact ⟨Nat.succ_pos 2, completes_four (Nat.sub_add_cancel (htoNat hF0)) (UInt8.le_of_lt hF4)
      (fun h => absurd h hF0') (fun h => absurd hF4 (by rw [h]; decide)) (UInt8.le_refl _)
      (UInt8.le_refl _)⟩
  rw [if_neg hF4] at h
  by_cases hF4' : lead = 0xF4
  · rw [if_pos hF4', Option.some.injEq] at h
    subst h hF4'
    exact ⟨Nat.succ_pos 2, completes_four rfl (by decide) (fun h => absurd h (by decide))
      (fun _ => rfl) (by decide) (by decide)⟩
  · rw [if_neg hF4'] at h
    exact absurd h (by simp only [reduceCtorEq, not_false_eq_true])

end Sequence

namespace Decoding

/-- What has been read of some bytes. It may hold a broken stretch. Otherwise it is
    characters whose bytes these are, but for those of a character that is not complete. -/
inductive Reads : Decoding → Bytes → Prop
  | broken {d : Decoding} {bytes : Bytes} : none ∈ d.units → Reads d bytes
  | between (chars : List Char) :
      Reads { units := (chars.map some).reverse } (chars.flatMap String.utf8EncodeChar)
  | inside (chars : List Char) {q : Sequence} {front : Bytes} : q.Opened front →
      Reads { units := (chars.map some).reverse, started := some q }
        (chars.flatMap String.utf8EncodeChar ++ front)

theorem units_append (chars : List Char) (c : Char) :
    ((chars ++ [c]).map some).reverse = some c :: (chars.map some).reverse := by
  rw [List.map_append, List.reverse_append]
  rfl

theorem bytes_append (chars : List Char) (c : Char) :
    (chars ++ [c]).flatMap String.utf8EncodeChar =
      chars.flatMap String.utf8EncodeChar ++ String.utf8EncodeChar c := by
  rw [List.flatMap_append, List.flatMap_singleton]

/-- What was broken stays broken. -/
theorem none_mem_feedFresh {units : List (Option Char)} (h : none ∈ units) (b : UInt8) :
    none ∈ (feedFresh units b).units := by
  unfold feedFresh
  by_cases hascii : b < 0x80
  · rw [if_pos hascii]
    exact List.mem_cons_of_mem _ h
  · rw [if_neg hascii]
    rcases Sequence.start? b with _ | q
    · exact List.mem_cons_of_mem _ h
    · exact h

/-- A byte that starts afresh is a character, opens a sequence, or spoils the reading. -/
theorem reads_feedFresh (chars : List Char) (b : UInt8) :
    Reads (feedFresh (chars.map some).reverse b)
      (chars.flatMap String.utf8EncodeChar ++ [b]) := by
  unfold feedFresh
  by_cases hascii : b < 0x80
  · rw [if_pos hascii, ← units_append]
    have hbytes : String.utf8EncodeChar (Char.ofNat b.toNat) = [b] := by
      simp only [UInt8.lt_iff_toNat_lt, UInt8.reduceToNat] at hascii
      unfold String.utf8EncodeChar
      simp only [val_ofNat (v := b.toNat) (Or.inl (by omega))]
      rw [if_pos (by omega), UInt8.ofNat_toNat]
    have hreads := Reads.between (chars ++ [Char.ofNat b.toNat])
    rw [bytes_append, hbytes] at hreads
    exact hreads
  · rw [if_neg hascii]
    rcases hstart : Sequence.start? b with _ | q
    · exact .broken List.mem_cons_self
    · exact .inside chars (Sequence.opened_start hstart)

/-- What was not readable stays so, whatever is read behind it. -/
theorem none_mem_feed {d : Decoding} (h : none ∈ d.units) (b : UInt8) :
    none ∈ (d.feed b).units := by
  unfold feed
  rcases d.started with _ | q
  · exact none_mem_feedFresh h b
  · by_cases hrange : q.low ≤ b ∧ b ≤ q.high
    · simp only [if_pos hrange]
      by_cases hlast : q.missing ≤ 1
      · rw [if_pos hlast]
        exact List.mem_cons_of_mem _ h
      · rw [if_neg hlast]
        exact h
    · -- The sequence is given up, and the byte is read afresh behind it.
      simp only [if_neg hrange]
      exact none_mem_feedFresh (List.mem_cons_of_mem _ h) b

/-- A byte in the range completes the character, or leaves one byte fewer missing. -/
theorem reads_inside (chars : List Char) {q : Sequence} {front : Bytes} (h : q.Opened front)
    (b : UInt8) :
    Reads (feed { units := (chars.map some).reverse, started := some q } b)
      (chars.flatMap String.utf8EncodeChar ++ front ++ [b]) := by
  unfold feed
  by_cases hrange : q.low ≤ b ∧ b ≤ q.high
  · simp only [if_pos hrange]
    obtain ⟨missing, hmissing⟩ := Nat.exists_eq_succ_of_ne_zero (Nat.ne_of_gt h.missing)
    have hcompletes := h.completes
    rw [hmissing] at hcompletes
    have hnext := hcompletes b hrange.1 hrange.2
    rw [hmissing, List.append_assoc]
    -- With nothing missing any more, the promise is the written form of the character.
    by_cases hlast : missing = 0
    · subst hlast
      rw [if_pos (Nat.le_refl 1), ← units_append, ← (hnext : String.utf8EncodeChar _ = _),
        ← bytes_append]
      exact .between _
    · rw [if_neg (fun hle => hlast (Nat.le_zero.mp (Nat.le_of_succ_le_succ hle)))]
      exact .inside chars ⟨Nat.pos_of_ne_zero hlast, hnext⟩
  · simp only [if_neg hrange]
    exact .broken (none_mem_feedFresh List.mem_cons_self b)

/-- Reading goes on byte by byte. -/
theorem Reads.feed {d : Decoding} {bytes : Bytes} (h : Reads d bytes) (b : UInt8) :
    Reads (d.feed b) (bytes ++ [b]) := by
  cases h with
  | broken hbroken => exact .broken (none_mem_feed hbroken b)
  | between chars => exact reads_feedFresh chars b
  | inside chars hopened => exact reads_inside chars hopened b

/-- Byte by byte, what a decoding has read is what it was fed. -/
theorem Reads.foldl {d : Decoding} {front : Bytes} (h : Reads d front) (bytes : Bytes) :
    Reads (bytes.foldl Decoding.feed d) (front ++ bytes) := by
  induction bytes generalizing d front with
  | nil =>
      rw [List.append_nil]
      exact h
  | cons b bytes ih =>
      have hbytes := ih (h.feed b)
      rw [List.append_assoc] at hbytes
      exact hbytes

/-- Units without a broken stretch are those of characters whose bytes have been read. -/
theorem Reads.finish {d : Decoding} {bytes : Bytes} (h : Reads d bytes) {chars : List Char}
    (hunits : d.finish = chars.map some) : chars.flatMap String.utf8EncodeChar = bytes := by
  have hwhole : none ∉ d.finish := by
    rw [hunits, List.mem_map]
    rintro ⟨c, -, hc⟩
    exact Option.some_ne_none c hc
  cases h with
  | broken hbroken =>
      refine absurd ?_ hwhole
      unfold Decoding.finish
      rcases d.started with _ | q
      · exact List.mem_reverse.mpr hbroken
      · exact List.mem_reverse.mpr (List.mem_cons_of_mem _ hbroken)
  | between read =>
      have hread : (read.map some).reverse.reverse = chars.map some := hunits
      rw [List.reverse_reverse, List.map_inj_right fun _ _ => Option.some.inj] at hread
      rw [hread]
  -- A sequence that is still open at the end is shown as broken.
  | inside read _ => exact absurd (List.mem_reverse.mpr List.mem_cons_self) hwhole

end Decoding

/-- Units that are all characters are the units of those. -/
theorem mapM_id_eq_some {units : List (Option Char)} {chars : List Char}
    (h : units.mapM id = some chars) : units = chars.map some := by
  induction units generalizing chars with
  | nil =>
      rw [List.mapM_nil] at h
      cases h
      rfl
  | cons unit units ih =>
      rw [List.mapM_cons] at h
      obtain ⟨c, hc, hrest⟩ := Option.bind_eq_some_iff.mp h
      obtain ⟨rest, hunits, hchars⟩ := Option.bind_eq_some_iff.mp hrest
      rw [← Option.some.inj hchars, List.map_cons, ih hunits, show unit = some c from hc]

/-- A text is written with the bytes that it was read from. -/
theorem encode_of_decode? {bytes : Bytes} {text : String} (h : decode? bytes = some text) :
    encode text = bytes := by
  obtain ⟨chars, hchars, rfl⟩ := Option.map_eq_some_iff.mp h
  have hreads := (Decoding.Reads.between []).foldl bytes
  unfold encode
  rw [String.toList_ofList]
  exact hreads.finish (mapM_id_eq_some hchars)

/-- The bytes that start the forms of two, three and four bytes, by what they hold. -/
theorem Sequence.start?_two : ∀ n < 32, 2 ≤ n →
    start? (UInt8.ofNat (n + 0xC0)) = some { value := n, missing := 1 } := by
  decide

theorem Sequence.start?_three : ∀ n < 16,
    start? (UInt8.ofNat (n + 0xE0)) = some {
      value := n, missing := 2
      low := if n = 0 then 0xA0 else 0x80, high := if n = 0xD then 0x9F else 0xBF } := by
  decide

theorem Sequence.start?_four : ∀ n < 5,
    start? (UInt8.ofNat (n + 0xF0)) = some {
      value := n, missing := 3
      low := if n = 0 then 0x90 else 0x80, high := if n = 4 then 0x8F else 0xBF } := by
  decide

namespace Decoding

variable {units : List (Option Char)} {q : Sequence}

/-- A lead byte opens its sequence. -/
theorem feed_start {b : UInt8} (hstart : Sequence.start? b = some q) :
    feed { units } b = { units, started := some q } := by
  have hlead : ¬ b < 0x80 := by
    intro hascii
    unfold Sequence.start? at hstart
    rw [if_pos (UInt8.lt_trans hascii (by decide))] at hstart
    exact absurd hstart (by simp only [reduceCtorEq, not_false_eq_true])
  change feedFresh units b = _
  unfold feedFresh
  rw [if_neg hlead, hstart]

theorem toNat_further {n : Nat} (hn : n < 64) : (UInt8.ofNat (n + 0x80)).toNat = n + 0x80 := by
  rw [UInt8.toNat_ofNat']
  omega

/-- A further byte holds six bits. -/
theorem feed_further {n value missing : Nat} {low high : UInt8} (hn : n < 64)
    (hlow : low.toNat ≤ n + 0x80) (hhigh : n + 0x80 ≤ high.toNat) :
    feed { units, started := some { value, missing, low, high } } (UInt8.ofNat (n + 0x80)) =
      if missing ≤ 1 then { units := some (Char.ofNat (value * 64 + n)) :: units }
      else { units, started := some { value := value * 64 + n, missing := missing - 1 } } := by
  have hrange : low ≤ UInt8.ofNat (n + 0x80) ∧ UInt8.ofNat (n + 0x80) ≤ high := by
    rw [UInt8.le_iff_toNat_le, UInt8.le_iff_toNat_le, toNat_further hn]
    exact ⟨hlow, hhigh⟩
  unfold feed
  simp only [if_pos hrange, toNat_further hn, Nat.add_sub_cancel]

/-- Behind the second byte all bytes are in the same range. -/
theorem feed_third {n value missing : Nat} (hn : n < 64) :
    feed { units, started := some { value, missing } } (UInt8.ofNat (n + 0x80)) =
      if missing ≤ 1 then { units := some (Char.ofNat (value * 64 + n)) :: units }
      else { units, started := some { value := value * 64 + n, missing := missing - 1 } } :=
  feed_further hn (Nat.le_add_left _ _) (by simp only [UInt8.reduceToNat]; omega)

/-- The bytes of a character are read as that character. -/
theorem foldl_feed_utf8EncodeChar (c : Char) :
    (String.utf8EncodeChar c).foldl feed { units } = { units := some c :: units } := by
  have hvalid : c.val.toNat.isValidChar := c.valid
  have hc : Char.ofNat c.val.toNat = c := Char.ofNat_toNat c
  unfold String.utf8EncodeChar
  generalize c.val.toNat = v at hvalid hc
  unfold Nat.isValidChar at hvalid
  -- One form after the other, by the number of the character.
  by_cases hone : v ≤ 0x7F
  · have hbyte : (UInt8.ofNat v).toNat = v := by
      rw [UInt8.toNat_ofNat']
      omega
    have hascii : UInt8.ofNat v < 0x80 := by
      rw [UInt8.lt_iff_toNat_lt, hbyte]
      exact Nat.lt_succ_of_le hone
    rw [if_pos hone]
    change feedFresh units (UInt8.ofNat v) = _
    unfold feedFresh
    rw [if_pos hascii, hbyte, hc]
  rw [if_neg hone]
  by_cases htwo : v ≤ 0x7FF
  · have hlead := Sequence.start?_two (v / 64 % 0x20) (by omega) (by omega)
    have hvalue : v / 64 % 0x20 * 64 + v % 0x40 = v := by omega
    rw [if_pos htwo, List.foldl_cons, feed_start hlead, List.foldl_cons,
      feed_third (by omega), if_pos (Nat.le_refl 1), hvalue, hc]
    rfl
  rw [if_neg htwo]
  by_cases hthree : v ≤ 0xFFFF
  · have hlead := Sequence.start?_three (v / 4096 % 0x10) (by omega)
    have hvalue : (v / 4096 % 0x10 * 64 + v / 64 % 0x40) * 64 + v % 0x40 = v := by omega
    have hlow : (if v / 4096 % 0x10 = 0 then (0xA0 : UInt8) else 0x80).toNat ≤
        v / 64 % 0x40 + 0x80 := by
      split <;> simp only [UInt8.reduceToNat] <;> omega
    have hhigh : v / 64 % 0x40 + 0x80 ≤
        (if v / 4096 % 0x10 = 0xD then (0x9F : UInt8) else 0xBF).toNat := by
      split <;> simp only [UInt8.reduceToNat] <;> omega
    rw [if_pos hthree, List.foldl_cons, feed_start hlead, List.foldl_cons,
      feed_further (by omega) hlow hhigh, if_neg (by decide), List.foldl_cons,
      feed_third (by omega), if_pos (Nat.le_refl 1), hvalue, hc]
    rfl
  · have hlead := Sequence.start?_four (v / 262144 % 0x08) (by omega)
    have hvalue : ((v / 262144 % 0x08 * 64 + v / 4096 % 0x40) * 64 + v / 64 % 0x40) * 64 +
        v % 0x40 = v := by omega
    have hlow : (if v / 262144 % 0x08 = 0 then (0x90 : UInt8) else 0x80).toNat ≤
        v / 4096 % 0x40 + 0x80 := by
      split <;> simp only [UInt8.reduceToNat] <;> omega
    have hhigh : v / 4096 % 0x40 + 0x80 ≤
        (if v / 262144 % 0x08 = 4 then (0x8F : UInt8) else 0xBF).toNat := by
      split <;> simp only [UInt8.reduceToNat] <;> omega
    rw [if_neg hthree, List.foldl_cons, feed_start hlead, List.foldl_cons,
      feed_further (by omega) hlow hhigh, if_neg (by decide), List.foldl_cons,
      feed_third (by omega), if_neg (by decide), List.foldl_cons, feed_third (by omega),
      if_pos (Nat.le_refl 1), hvalue, hc]
    rfl

end Decoding

/-- The characters that are read from the bytes of a text are those of the text. -/
theorem units_encode (text : String) : units (encode text) = text.toList.map some := by
  -- In between two characters no sequence is open, so each is read by itself.
  have hfold : ∀ (chars : List Char) (read : List (Option Char)),
      (chars.flatMap String.utf8EncodeChar).foldl Decoding.feed { units := read } =
        { units := (chars.map some).reverse ++ read } := by
    intro chars
    induction chars with
    | nil => intro read; rfl
    | cons c chars ih =>
        intro read
        rw [List.flatMap_cons, List.foldl_append, Decoding.foldl_feed_utf8EncodeChar, ih,
          List.map_cons, List.reverse_cons, List.append_assoc]
        rfl
  unfold units encode
  rw [hfold, List.append_nil]
  exact List.reverse_reverse _

/-- A text is read from the bytes that it is written with. -/
theorem decodeLossy_encode (text : String) : decodeLossy (encode text) = text := by
  unfold decodeLossy
  rw [units_encode, List.map_map]
  have hsame : (fun unit : Option Char => unit.getD replacement) ∘ some = id := rfl
  rw [hsame, List.map_id, String.ofList_toList]

/-- And no stretch of them is broken. -/
theorem decode?_encode (text : String) : decode? (encode text) = some text := by
  have hwhole : (text.toList.map some).mapM id = some text.toList := by
    rw [List.mapM_map]
    exact (List.mapM_pure (f := id)).trans (congrArg some (List.map_id _))
  unfold decode?
  rw [units_encode, hwhole, Option.map_some, String.ofList_toList]

end Text

end NestedZip
