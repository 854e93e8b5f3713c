import NestedZip.Window
import NestedZip.Proofs.Metered

/-!
# Reading Through Windows

What a positional read answers, in terms of the bytes a window shows.

A read that has to be filled goes to the source again and again until it is
full, and a source may bring little at once or end early. None of that can be
seen from outside: `Backing.readExactAt_eq` says that the answer depends on
nothing but the bytes that can be had, and neither the size a source claims
nor the size of its pieces occurs in it.

A window over such a source is `Intact` if its whole range can be had. Then a
read inside it is a slice of `Window.bytes`, which is all that indexing and
carving need to know. Windows over a buffer in memory are intact, and so are
all windows carved out of one. The converse is worth having as well: a window
whose last bytes were once read is intact, so code that has read the end of an
archive may forget that sources can fall short.

## Main definitions

* `Backing.brings`: How many bytes one read brings in the middle of a source.
* `Window.bytes`: The bytes that a window shows.
* `Window.Intact`: A window all of whose range can be read at any place.
* `Window.part`: What carving answers where it succeeds.

## Theorems

* `Backing.readAt_cases`: A read finds nothing, or brings something.
* `Backing.readExactAt_eq`: A filled read, by the bytes that can be had.
* `Window.readExactAt_of_intact`: A read inside an intact window is a slice.
* `Window.readExactAt_eq_ok`: A read that succeeded brought a slice.
* `Window.intact_of_readExactAt`: Having read up to its end, a window is intact.
* `Window.intact_whole_memory`: The whole of a buffer in memory is intact.
* `Window.Intact.part`, `Window.bytes_part`: A window inside an intact one.
-/

namespace NestedZip

namespace Backing

theorem readAt_eq (b : Backing) (offset room : Nat) :
    b.readAt offset room = (b.bytes.drop offset).take (min room (b.perRead.getD room)) := by
  unfold readAt
  rw [slice_eq]

/-- How many bytes one read of at most `room` brings in the middle of a
    source. -/
def brings (b : Backing) (room : Nat) : Nat := min room (b.perRead.getD room)

theorem brings_le (b : Backing) (room : Nat) : b.brings room ≤ room := Nat.min_le_left _ _

/-- A source that is not at a standstill brings at least one byte. -/
theorem brings_pos {b : Backing} (hflow : b.perRead ≠ some 0) {room : Nat} (hroom : 0 < room) :
    0 < b.brings room := by
  unfold brings
  rcases hper : b.perRead with _ | most
  · rw [Option.getD_none]
    omega
  · have hmost : most ≠ 0 := fun hzero => hflow (by rw [hper, hzero])
    rw [Option.getD_some]
    omega

/-- A read finds the source ended, or brings some of what follows. -/
theorem readAt_cases {b : Backing} (hflow : b.perRead ≠ some 0) (offset : Nat) {room : Nat}
    (hroom : 0 < room) :
    (b.bytes.length ≤ offset ∧ b.readAt offset room = []) ∨
      ∃ count, 0 < count ∧ count ≤ room ∧ offset + count ≤ b.bytes.length ∧
        b.readAt offset room = (b.bytes.drop offset).take count := by
  have hpos := brings_pos hflow hroom
  have hle := b.brings_le room
  have hread : b.readAt offset room = (b.bytes.drop offset).take (b.brings room) :=
    readAt_eq b offset room
  by_cases hend : b.bytes.length ≤ offset
  · refine Or.inl ⟨hend, ?_⟩
    rw [hread, List.drop_of_length_le hend, List.take_nil]
  · -- A read that starts in front of the end is cut short there, or by what one call brings.
    refine Or.inr ⟨min (b.brings room) (b.bytes.length - offset), by omega, by omega, by omega, ?_⟩
    rw [hread, List.take_eq_take_iff, List.length_drop]
    omega

/-- Reading on, piece by piece. As long as a read brings anything at all, the
    pieces add up to the slice that was asked for, or to all there is. -/
theorem fill_eq (b : Backing) (hflow : b.perRead ≠ some 0) (fuel offset count : Nat)
    (done : Bytes) (fetched : Nat) (hfuel : count ≤ fuel) :
    b.fill fuel offset count done fetched =
      if count ≤ b.bytes.length - offset then
        { outcome := .ok (done.reverse ++ (b.bytes.drop offset).take count)
          fetched := fetched + count }
      else
        { outcome := .error (.endOfSource b.identity (max offset b.bytes.length))
          fetched := fetched + (b.bytes.length - offset) } := by
  -- On the fuel: each round reads at least one of the bytes that are wanted.
  induction fuel generalizing offset count done fetched with
  | zero =>
      have hcount : count = 0 := by omega
      subst hcount
      simp only [fill, Nat.zero_le, if_true, List.take_zero, List.append_nil, Nat.add_zero]
  | succ fuel ih =>
      unfold fill
      by_cases hcount : count = 0
      · subst hcount
        simp only [if_true, Nat.zero_le, List.take_zero, List.append_nil, Nat.add_zero]
      rw [if_neg hcount]
      rcases readAt_cases hflow offset (Nat.pos_of_ne_zero hcount) with
        ⟨hend, hread⟩ | ⟨n, hpos, hroom, hhad, hread⟩
      · simp only [hread, List.isEmpty_nil, if_true]
        rw [if_neg (by omega), Nat.max_eq_left hend, Nat.sub_eq_zero_of_le hend, Nat.add_zero]
      · have hlength : ((b.bytes.drop offset).take n).length = n := by
          rw [List.length_take, List.length_drop]
          omega
        have hsome : ((b.bytes.drop offset).take n).isEmpty = false := by
          rw [← Bool.not_eq_true, List.isEmpty_iff_length_eq_zero]
          omega
        simp only [hread, hsome, hlength, Bool.false_eq_true, if_false]
        rw [ih _ _ _ _ (by omega)]
        -- What is still wanted fits behind this piece if and only if all of it fitted in front of
        -- it.
        by_cases hfits : count ≤ b.bytes.length - offset
        · rw [if_pos (by omega), if_pos hfits, List.reverse_append, List.reverse_reverse,
            List.append_assoc, ← List.drop_drop, ← List.take_add, Nat.add_assoc,
            Nat.add_sub_cancel' hroom]
        · rw [if_neg (by omega), if_neg hfits, show max (offset + n) b.bytes.length =
            max offset b.bytes.length by omega, show fetched + n +
            (b.bytes.length - (offset + n)) = fetched + (b.bytes.length - offset) by omega]

/-- A filled read depends on the bytes that can be had, and on nothing else. -/
theorem readExactAt_eq (b : Backing) (hflow : b.perRead ≠ some 0) (offset count : Nat) :
    b.readExactAt offset count =
      if count ≤ b.bytes.length - offset then
        { outcome := .ok ((b.bytes.drop offset).take count), fetched := count }
      else
        { outcome := .error (.endOfSource b.identity (max offset b.bytes.length))
          fetched := b.bytes.length - offset } := by
  unfold readExactAt
  rw [fill_eq b hflow count offset count [] 0 (Nat.le_refl count)]
  simp only [List.reverse_nil, List.nil_append, Nat.zero_add]

/-- A source that never brings anything fills only the empty read. -/
theorem readExactAt_of_perRead_zero (b : Backing) (h : b.perRead = some 0)
    (offset count : Nat) (hcount : 0 < count) :
    b.readExactAt offset count =
      { outcome := .error (.endOfSource b.identity offset), fetched := 0 } := by
  unfold readExactAt
  cases count with
  | zero => exact absurd hcount (Nat.lt_irrefl 0)
  | succ count =>
      have hnil : b.readAt offset (count + 1) = [] := by
        rw [readAt_eq, h, Option.getD_some, Nat.min_zero, List.take_zero]
      unfold fill
      rw [if_neg (Nat.succ_ne_zero count), hnil]
      rfl

end Backing

namespace Window

/-- The bytes that a window shows, as far as they can be had. -/
def bytes (w : Window) : Bytes := (w.backing.bytes.drop w.offset).take w.length

/-- A window that may be read at any place, and whose whole range can be had. -/
structure Intact (w : Window) : Prop where
  plain : w.inflatedSize = none
  within : w.offset + w.length ≤ w.backing.bytes.length
  flowing : w.backing.perRead ≠ some 0

/-- The range at a place of a window, as a window. -/
def part (w : Window) (offset length : Nat) : Window :=
  { backing := w.backing, offset := w.offset + offset, length }

theorem length_bytes {w : Window} (hw : w.Intact) : w.bytes.length = w.length := by
  have hwithin := hw.within
  rw [bytes, List.length_take, List.length_drop]
  omega

theorem size_of_intact {w : Window} (hw : w.Intact) : w.size = w.length := by
  rw [size, hw.plain, Option.getD_none]

/-- A slice of what a window shows is a slice of its source. -/
theorem take_drop_bytes (w : Window) (offset count : Nat) (h : offset + count ≤ w.length) :
    (w.bytes.drop offset).take count = (w.backing.bytes.drop (w.offset + offset)).take count := by
  rw [bytes, List.drop_take, List.drop_drop, List.take_take, Nat.min_eq_left (by omega)]

theorem carve_of_plain {w : Window} (hw : w.inflatedSize = none) (offset length : Nat)
    (h : offset + length ≤ w.length) : w.carve offset length = .ok (w.part offset length) :=
  carve_eq_ok_iff.mpr ⟨hw, h, rfl⟩

theorem carve_of_past {w : Window} (hw : w.inflatedSize = none) {offset length : Nat}
    (h : ¬ offset + length ≤ w.length) :
    w.carve offset length =
      .error
        (.outOfBounds w.identity (min (w.offset + offset) (wordLimit - 1)) length w.length) := by
  unfold carve isCompressed
  rw [hw, Option.isSome_none, if_neg Bool.false_ne_true, if_neg h]

theorem carve_of_compressed {w : Window} {size : Nat} (hw : w.inflatedSize = some size)
    (offset length : Nat) :
    w.carve offset length = .error (.notRandomAccess w.identity w.offset) := by
  unfold carve isCompressed
  rw [hw, Option.isSome_some, if_pos rfl]

theorem Intact.part {w : Window} (hw : w.Intact) (offset length : Nat)
    (h : offset + length ≤ w.length) : (w.part offset length).Intact := by
  have hwithin := hw.within
  refine ⟨rfl, ?_, hw.flowing⟩
  change w.offset + offset + length ≤ w.backing.bytes.length
  omega

theorem bytes_part (w : Window) (offset length : Nat) (h : offset + length ≤ w.length) :
    (w.part offset length).bytes = (w.bytes.drop offset).take length :=
  (take_drop_bytes w offset length h).symm

/-- A read inside an intact window is a slice of what the window shows, and
    costs as many bytes. -/
theorem readExactAt_of_intact {w : Window} (hw : w.Intact) (offset count : Nat)
    (h : offset + count ≤ w.length) :
    w.readExactAt offset count =
      { outcome := .ok ((w.bytes.drop offset).take count), fetched := count } := by
  have hwithin := hw.within
  have hread : w.backing.readExactAt (w.offset + offset) count =
      { outcome := .ok ((w.bytes.drop offset).take count), fetched := count } := by
    rw [Backing.readExactAt_eq _ hw.flowing, if_pos (by omega), take_drop_bytes w offset count h]
  unfold readExactAt
  rw [carve_of_plain hw.plain offset count h, Metered.bind_of_ok (Metered.outcome_ofExcept _)]
  simp only [part, hread, Metered.ofExcept, Nat.zero_add]
  rfl

/-- The last bytes of an intact window. -/
theorem readExactAt_end {w : Window} (hw : w.Intact) {count : Nat}
    (h : count ≤ w.bytes.length) :
    (w.readExactAt (w.bytes.length - count) count).outcome =
      .ok (w.bytes.drop (w.bytes.length - count)) := by
  have hbytes := length_bytes hw
  rw [readExactAt_of_intact hw _ _ (by omega)]
  simp only [Except.ok.injEq]
  exact List.take_of_length_le (by rw [List.length_drop]; omega)

/-- A read that succeeded brought a slice, whatever the source claims. -/
theorem readExactAt_eq_ok {w : Window} {offset count : Nat} {out : Bytes}
    (h : (w.readExactAt offset count).outcome = .ok out) :
    w.inflatedSize = none ∧ offset + count ≤ w.length ∧
      (0 < count → w.backing.perRead ≠ some 0 ∧
        w.offset + offset + count ≤ w.backing.bytes.length) ∧
      out = (w.bytes.drop offset).take count := by
  unfold readExactAt at h
  rcases Metered.bind_outcome_eq_ok_iff.mp h with ⟨cut, hcut, hread⟩
  rcases carve_eq_ok_iff.mp hcut with ⟨hplain, hfits, rfl⟩
  rw [Metered.mapError_outcome_eq_ok_iff] at hread
  simp only at hread
  refine ⟨hplain, hfits, ?_⟩
  -- A source that brings nothing at once can only have answered an empty read.
  by_cases hflow : w.backing.perRead = some 0
  · rcases Nat.eq_zero_or_pos count with rfl | hcount
    · simp only [Backing.readExactAt, Backing.fill, List.reverse_nil, Except.ok.injEq] at hread
      rw [← hread, List.take_zero]
      exact ⟨fun hpos => absurd hpos (Nat.lt_irrefl 0), rfl⟩
    · rw [Backing.readExactAt_of_perRead_zero _ hflow _ _ hcount] at hread
      exact absurd hread (by simp only [reduceCtorEq, not_false_eq_true])
  · rw [Backing.readExactAt_eq _ hflow] at hread
    -- Otherwise it had all of the slice, or the read failed at its end.
    by_cases henough : count ≤ w.backing.bytes.length - (w.offset + offset)
    · rw [if_pos henough, Except.ok.injEq] at hread
      refine ⟨fun hpos => ⟨hflow, by omega⟩, ?_⟩
      rw [← hread, take_drop_bytes w offset count hfits]
    · rw [if_neg henough] at hread
      exact absurd hread (by simp only [reduceCtorEq, not_false_eq_true])

/-- Whoever has read bytes up to the end of a window knows that none are
    missing. -/
theorem intact_of_readExactAt {w : Window} {offset count : Nat} {out : Bytes}
    (h : (w.readExactAt offset count).outcome = .ok out) (hcount : 0 < count)
    (hend : offset + count = w.length) : w.Intact := by
  rcases readExactAt_eq_ok h with ⟨hplain, _, hhad, _⟩
  rcases hhad hcount with ⟨hflow, hwithin⟩
  exact ⟨hplain, by omega, hflow⟩

theorem intact_whole_memory (name : String) (content : ByteArray) :
    (whole (.memory name content)).Intact := by
  refine ⟨rfl, ?_, by simp only [whole, Backing.memory, ne_eq, reduceCtorEq, not_false_eq_true]⟩
  simp only [whole, Backing.memory, Backing.bytes, Array.length_toList, ByteArray.size_data,
    Nat.zero_add, Nat.le_refl]

theorem bytes_whole_memory (name : String) (content : ByteArray) :
    (whole (.memory name content)).bytes = content.data.toList := by
  simp only [bytes, whole, Backing.memory, Backing.bytes, List.drop_zero]
  refine List.take_of_length_le ?_
  simp only [Array.length_toList, ByteArray.size_data, Nat.le_refl]

end Window

end NestedZip
