import NestedZip.Proofs.Window

/-!
# Reading to the End

What a stream brings, in terms of the bytes that are left in it.

One read brings a front part of what is left, and an empty one only if nothing
was left or nothing was asked for. If the source ends in front of the end of
the range that is a failure, and `read_cases` has it as the third case beside
the two. It fails at the same place however far the reads before have come, so
reading on to the end brings all that can be had and then that failure, if
there is one.

A stream over a source that has all of its range never fails, and then nothing
that it brings depends on where it is.

## Main definitions

* `Stream.left`: The bytes that a stream still has to bring, as far as they can be had.
* `Stream.shortfall`: The failure of a stream whose source ends too early.
* `Stream.Sound`: A stream over a source that has them all.

## Theorems

* `Stream.read_cases`: One read, also where the source may end too early.
* `Stream.drain_of_flowing`: Reading to the end brings what can be had.
* `Stream.drain_eq`: That is all that is left, if the source has it.
* `Window.deliver_of_intact`: An intact window delivers the bytes it shows.
-/

namespace NestedZip

namespace Stream

/-- The bytes that a stream still has to bring. -/
def left (s : Stream) : Bytes := (s.backing.bytes.drop s.position).take (s.stop - s.position)

/-- The stream behind the next bytes. -/
def skip (s : Stream) (count : Nat) : Stream := { s with position := s.position + count }

/-- A stream over a source that has all the bytes left in it. -/
structure Sound (s : Stream) : Prop where
  within : s.stop ≤ s.backing.bytes.length
  flowing : s.backing.perRead ≠ some 0

theorem length_left {s : Stream} (hs : s.Sound) : s.left.length = s.stop - s.position := by
  have hwithin := hs.within
  rw [left, List.length_take, List.length_drop]
  omega

theorem left_skip (s : Stream) (count : Nat) : (s.skip count).left = s.left.drop count := by
  simp only [left, skip, List.drop_take, List.drop_drop, Nat.sub_add_eq]

/-- The failure that reading to the end meets, if the source ends too early. -/
def shortfall (s : Stream) : Option IoError :=
  if s.left.length = s.stop - s.position then none
  else some (.endBeforeStop s.backing.identity (s.position + s.left.length) s.stop)

theorem shortfall_of_sound {s : Stream} (hs : s.Sound) : s.shortfall = none :=
  if_pos (length_left hs)

theorem length_left_le (s : Stream) : s.left.length ≤ s.stop - s.position :=
  List.length_take_le _ _

/-- The source ends where it ends, however far the stream has come. -/
theorem shortfall_skip {s : Stream} {count : Nat} (hcount : count ≤ s.left.length) :
    (s.skip count).shortfall = s.shortfall := by
  have hle := s.length_left_le
  unfold shortfall
  rw [left_skip, List.length_drop]
  by_cases hall : s.left.length = s.stop - s.position
  · rw [if_pos hall, if_pos (by simp only [skip]; omega)]
  · rw [if_neg hall, if_neg (by simp only [skip]; omega)]
    simp only [skip, Option.some.injEq, IoError.endBeforeStop.injEq, true_and, and_true]
    omega

/-- One read finds nothing left, which is a failure if the source has ended too early, or
    brings some of what is left. -/
theorem read_cases {s : Stream} (hflow : s.backing.perRead ≠ some 0) (room : Nat)
    (hroom : s.stop ≤ s.position ∨ 0 < room) :
    (s.left = [] ∧ s.shortfall = none ∧ s.read room = { outcome := .ok ([], s) }) ∨
    (∃ e, s.left = [] ∧ s.shortfall = some e ∧ s.read room = { outcome := .error e }) ∨
    ∃ count, 0 < count ∧ count ≤ s.left.length ∧
      s.read room =
        { outcome := .ok (s.left.take count, s.skip count), fetched := count } := by
  have hle := s.length_left_le
  unfold read
  by_cases hend : s.stop ≤ s.position
  · have hnil : s.left = [] := List.eq_nil_of_length_eq_zero (by omega)
    rw [if_pos (Or.inl hend)]
    refine Or.inl ⟨hnil, ?_, rfl⟩
    unfold shortfall
    rw [if_pos (by rw [hnil, List.length_nil]; omega)]
  rw [if_neg (by omega)]
  -- The piece is as much of what is left as the source brings at once.
  obtain ⟨want, hwant⟩ : ∃ want, min room (s.stop - s.position) = want := ⟨_, rfl⟩
  have hpos : 0 < s.backing.brings want := Backing.brings_pos hflow (by omega)
  have hmost := s.backing.brings_le want
  have hpiece : s.backing.readAt s.position want = s.left.take (s.backing.brings want) := by
    rw [Backing.readAt_eq, left, List.take_take, Nat.min_eq_left (b := s.stop - s.position)
      (by omega)]
    rfl
  rw [hwant, hpiece]
  generalize s.backing.brings want = most at hpos hmost
  by_cases hnil : s.left = []
  · refine Or.inr (Or.inl ⟨.endBeforeStop s.backing.identity s.position s.stop, hnil, ?_, ?_⟩)
    · unfold shortfall
      rw [hnil, List.length_nil, if_neg (by omega), Nat.add_zero]
    · rw [hnil, List.take_nil]
      rfl
  · have hsome : 0 < s.left.length := List.length_pos_iff.mpr hnil
    have hlength : (s.left.take most).length = min most s.left.length := List.length_take
    have htake : s.left.take most = s.left.take (min most s.left.length) := by
      rw [List.take_eq_take_iff]
      omega
    refine Or.inr (Or.inr ⟨min most s.left.length, by omega, by omega, ?_⟩)
    simp only
    rw [if_neg (fun hempty => by
      have hzero := List.isEmpty_iff_length_eq_zero.mp hempty
      omega), hlength, htake]
    rfl

/-- What reading on to the end brings behind what has come before. -/
def remainder (s : Stream) (done : Bytes) (fetched : Nat) : Delivery where
  bytes := done.reverse ++ s.left
  failure := s.shortfall
  fetched := fetched + s.left.length

theorem remainder_of_nil {s : Stream} (hnil : s.left = []) (done : Bytes) (fetched : Nat) :
    s.remainder done fetched = { bytes := done.reverse, failure := s.shortfall, fetched } := by
  unfold remainder
  rw [hnil, List.append_nil, List.length_nil, Nat.add_zero]

/-- What came now and what comes later make up what was left. -/
theorem remainder_skip {s : Stream} {count : Nat} (hcount : count ≤ s.left.length) (done : Bytes)
    (fetched : Nat) :
    (s.skip count).remainder ((s.left.take count).reverse ++ done) (fetched + count) =
      s.remainder done fetched := by
  unfold remainder
  rw [shortfall_skip hcount, left_skip, List.reverse_append, List.reverse_reverse,
    List.append_assoc, List.take_append_drop, List.length_drop, Nat.add_assoc,
    Nat.add_sub_cancel' hcount]

/-- Reading on brings all that is left and fails where the source ends too early, since
    every read but the last one brings something. -/
theorem drainFrom_eq {s : Stream} (hflow : s.backing.perRead ≠ some 0) (fuel : Nat) (done : Bytes)
    (fetched : Nat) (hfuel : s.stop - s.position ≤ fuel) :
    drainFrom fuel s done fetched = s.remainder done fetched := by
  -- On the fuel: a read that brings anything leaves less than was left before.
  induction fuel generalizing s done fetched with
  | zero =>
      have hle := s.length_left_le
      have hnil : s.left = [] := List.eq_nil_of_length_eq_zero (by omega)
      rw [drainFrom, remainder_of_nil hnil, shortfall,
        if_pos (by rw [hnil, List.length_nil]; omega)]
  | succ fuel ih =>
      unfold drainFrom
      rcases read_cases hflow (s.stop - s.position) (by omega) with
        ⟨hnil, hnone, hread⟩ | ⟨e, hnil, hsome, hread⟩ | ⟨count, hpos, hcount, hread⟩
      · rw [hread, remainder_of_nil hnil, hnone]
      · rw [hread, remainder_of_nil hnil, hsome]
      · have hrest := ih (s := s.skip count) hflow ((s.left.take count).reverse ++ done)
          (fetched + count) (by simp only [skip]; omega)
        -- What was read and what is left behind it make up the same remainder.
        rw [remainder_skip hcount] at hrest
        have hlength : (s.left.take count).length = count := by
          rw [List.length_take]
          omega
        rw [hread]
        rcases hpiece : s.left.take count with _ | ⟨b, piece⟩
        · rw [hpiece, List.length_nil] at hlength
          omega
        · rw [hpiece] at hrest
          exact hrest

theorem drain_of_flowing {s : Stream} (hflow : s.backing.perRead ≠ some 0) :
    s.drain = s.remainder [] 0 := drainFrom_eq hflow _ _ _ (Nat.le_refl _)

theorem drain_eq {s : Stream} (hs : s.Sound) :
    s.drain = { bytes := s.left, fetched := s.left.length } := by
  rw [drain_of_flowing hs.flowing, remainder, shortfall_of_sound hs, List.reverse_nil,
    List.nil_append, Nat.zero_add]

end Stream

namespace Window

theorem left_stream (w : Window) : w.stream.left = w.bytes := by
  simp only [Stream.left, stream, bytes, Nat.add_sub_cancel_left]

theorem sound_stream {w : Window} (hw : w.Intact) : w.stream.Sound := ⟨hw.within, hw.flowing⟩

/-- An intact window delivers the bytes it shows, whatever they are read into. -/
theorem deliver_of_intact {w : Window} (hw : w.Intact) (inflate : Decompressor) (sink : Sink) :
    w.deliver inflate sink = { bytes := w.bytes, fetched := w.length } := by
  unfold deliver isCompressed
  rw [hw.plain, Option.isSome_none, if_neg Bool.false_ne_true, Stream.drain_eq (sound_stream hw),
    left_stream, length_bytes hw]

/-- All of them at once, if there can be a buffer for so many. -/
theorem readAll_of_intact {w : Window} (hw : w.Intact) (inflate : Decompressor) :
    (w.readAll inflate).outcome =
      if w.length < Buffer.limit then .ok w.bytes else .error (.overflow .capacity) := by
  have hsize : w.size = w.length := by rw [size, hw.plain, Option.getD_none]
  unfold readAll
  rw [deliver_of_intact hw, hsize]
  by_cases hfits : w.length < Buffer.limit
  · rw [if_pos hfits, if_pos hfits]
    rfl
  · rw [if_neg hfits, if_neg hfits]
    rfl

end Window

end NestedZip
