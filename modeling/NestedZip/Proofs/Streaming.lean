import NestedZip.Proofs.Pieces

/-!
# Streaming a Window

A window that is streamed shows the bytes that it shows at its positions.

There are two ways to the bytes of a window, each with a loop of its own. A
stream is asked again and again, by somebody who names some room each time and
perhaps none at all. A positional read asks the source itself until it is full.
In both cases the source answers with as many bytes as it likes, if it has any.

What holds of any number of calls is a matter of a single one. What has come so
far and what is left make up the bytes of the window, and the stream stands
between the two.

The stream fails where a positional read of the whole window does, although
neither looks for the end of the source. The stream is stopped in front of the
end of its range, and the read has something left to fill.

## Main definitions

* `Window.Streams`: A stream somewhere in a window.
* `Window.Wholly`: What reading all of a window is answered with.

## Theorems

* `Window.Streams.answer`, `Window.Streams.run`: A stream stays between what has
  come and what is left.
* `Window.streams_what_it_shows`: Streams and positional reads agree.
-/

namespace NestedZip

namespace Window

variable {w : Window} {came : Bytes} {s : Stream}

/-- A stream stands behind what has come of the bytes of the window, and in front of the rest. -/
structure Streams (w : Window) (came : Bytes) (s : Stream) : Prop where
  behind : s = w.stream.skip came.length
  shows : came ++ s.left = w.bytes

theorem streams_start (w : Window) : w.Streams [] w.stream := ⟨rfl, w.left_stream⟩

theorem Streams.position (h : w.Streams came s) : s.position = w.offset + came.length := by
  rw [h.behind]
  rfl

theorem Streams.stop (h : w.Streams came s) : s.stop = w.offset + w.length := by
  rw [h.behind]
  rfl

theorem Streams.backing (h : w.Streams came s) : s.backing = w.backing := by
  rw [h.behind]
  rfl

theorem Streams.length_le (h : w.Streams came s) : came.length ≤ w.length := by
  have hlength := congrArg List.length h.shows
  have hbytes : w.bytes.length ≤ w.length := List.length_take_le _ _
  rw [List.length_append] at hlength
  omega

/-- A read hands over some of the bytes, or leaves the stream where it is. -/
theorem Streams.answer (h : w.Streams came s) {c : Call} {piece : Bytes} {t : Stream}
    (hread : s.answer c = .ok (piece, t)) : w.Streams (came ++ piece) t := by
  have hanswers := s.answer_answers c
  rw [hread] at hanswers
  generalize hanswer : (Except.ok (piece, t) : Except IoError (Bytes × Stream)) = answer at hanswers
  cases hanswers with
  | noRoom _ =>
      obtain ⟨rfl, rfl⟩ := Prod.mk.inj (Except.ok.inj hanswer)
      rw [List.append_nil]
      exact h
  | ended _ =>
      obtain ⟨rfl, rfl⟩ := Prod.mk.inj (Except.ok.inj hanswer)
      rw [List.append_nil]
      exact h
  | short _ _ _ => exact absurd hanswer.symm error_ne_ok
  | @piece count _ _ hleft =>
      obtain ⟨rfl, rfl⟩ := Prod.mk.inj (Except.ok.inj hanswer)
      have hlength : (s.left.take count).length = count := by
        rw [List.length_take]
        omega
      -- The piece moves from what is left to what came.
      refine ⟨?_, ?_⟩
      · rw [h.behind, List.length_append, ← h.behind, hlength, Stream.skip, h.behind]
        simp only [Stream.skip, Nat.add_assoc]
      · rw [Stream.left_skip, List.append_assoc, List.take_append_drop]
        exact h.shows

theorem Streams.position_le (h : w.Streams came s) : s.position ≤ w.offset + w.length := by
  have hle := h.length_le
  rw [h.position]
  omega

theorem Streams.position_append {piece : Bytes} {t : Stream} (h : w.Streams (came ++ piece) t)
    (hs : w.Streams came s) : t.position = s.position + piece.length := by
  rw [h.position, hs.position, List.length_append, Nat.add_assoc]

/-- What a read hands over is what the source has at the place of the stream. -/
theorem Streams.piece_eq (h : w.Streams came s) {c : Call} {piece : Bytes} {t : Stream}
    (hread : s.answer c = .ok (piece, t)) :
    piece = (w.backing.bytes.drop s.position).take piece.length := by
  have hnext := h.answer hread
  have hle := hnext.length_le
  rw [List.length_append] at hle
  -- The piece lies inside the window, so it may be taken from the source as well.
  rw [h.position, ← take_drop_bytes w _ _ hle, ← hnext.shows, List.append_assoc,
    List.drop_left, List.take_left]

/-- Reads in a row keep it so. -/
theorem Streams.run (h : w.Streams came s) (calls : List Call) :
    w.Streams (came ++ (s.run calls).1) (s.run calls).2 := by
  induction calls generalizing came s with
  | nil =>
      rw [Stream.run, List.append_nil]
      exact h
  | cons c calls ih =>
      rw [Stream.run]
      rcases hread : s.answer c with e | ⟨piece, t⟩
      · -- A failure leaves the stream where it was, for the calls that come later.
        exact ih h
      · simp only
        rw [← List.append_assoc]
        exact ih (h.answer hread)

/-- What reading all of a window is answered with: the bytes that it shows, if the source has all of
    them, and otherwise a failure of a source that ended too early. -/
inductive Wholly (w : Window) : Except IoError Bytes → Prop
  | all : w.offset + w.length ≤ w.backing.bytes.length ∨ w.length = 0 → Wholly w (.ok w.bytes)
  | short {e : IoError} : w.backing.bytes.length < w.offset + w.length → 0 < w.length →
      e.EndedEarly → Wholly w (.error e)

/-- A stream is short of the bytes that the source does not have. -/
theorem wholly_shortfall (w : Window) :
    w.Wholly
      (match w.stream.shortfall with
      | none => .ok w.bytes
      | some e => .error e) := by
  have hlength : w.stream.left.length = min w.length (w.backing.bytes.length - w.offset) := by
    rw [left_stream, bytes, List.length_take, List.length_drop]
  have hall : w.stream.stop - w.stream.position = w.length := Nat.add_sub_cancel_left _ _
  unfold Stream.shortfall
  -- As many bytes are left as the window promises, or the source is too short for it.
  by_cases hfull : w.stream.left.length = w.stream.stop - w.stream.position
  · rw [if_pos hfull]
    exact .all (by omega)
  · rw [if_neg hfull]
    exact .short (by omega) (by omega) .endBeforeStop

/-- So is reading it to its end. -/
theorem wholly_remainder (w : Window) : w.Wholly (w.stream.remainder [] 0).whole.outcome := by
  have hwhole : (w.stream.remainder [] 0).whole.outcome =
      match w.stream.shortfall with
      | none => .ok w.bytes
      | some e => .error e := by
    simp only [Stream.remainder, List.reverse_nil, List.nil_append, left_stream, Delivery.whole]
    cases w.stream.shortfall with
    | none => rfl
    | some e => rfl
  rw [hwhole]
  exact w.wholly_shortfall

/-- And so is a read that has to be filled. -/
theorem wholly_filled (w : Window) (identity : String) (offset : Nat) :
    w.Wholly
      (if w.length ≤ w.backing.bytes.length - w.offset then .ok w.bytes
      else .error (.endOfSource identity offset)) := by
  by_cases hfits : w.length ≤ w.backing.bytes.length - w.offset
  · rw [if_pos hfits]
    exact .all (by omega)
  · rw [if_neg hfits]
    exact .short (by omega) (by omega) .endOfSource

/-- Asking again and again comes to this, if there is room each time. -/
theorem wholly_toEnd (w : Window) {calls : List Call} (hrooms : ∀ c ∈ calls, 0 < c.room)
    (hcalls : w.length < calls.length) :
    ∃ d, w.stream.toEnd calls [] 0 = some d ∧ w.Wholly d.whole.outcome := by
  have hleft : w.stream.left.length ≤ w.length := by
    rw [left_stream]
    exact List.length_take_le _ _
  exact ⟨_, Stream.toEnd_eq hrooms (by omega) [] 0, w.wholly_remainder⟩

/-- Asking the source itself until the read is full comes to it as well. -/
theorem wholly_fillBy (w : Window) {paces : List Pace} (hpaces : w.length ≤ paces.length) :
    ∃ m, w.backing.fillBy paces w.offset w.length [] 0 = some m ∧ w.Wholly m.outcome := by
  refine ⟨_, Backing.fillBy_eq _ hpaces _ _ 0, ?_⟩
  have hfilled := w.wholly_filled w.backing.identity (max w.offset w.backing.bytes.length)
  by_cases hfits : w.length ≤ w.backing.bytes.length - w.offset
  · rw [if_pos hfits] at hfilled ⊢
    exact hfilled
  · rw [if_neg hfits] at hfilled ⊢
    exact hfilled

/-- Reading all the bytes is reading to the end, if there can be a buffer for them. -/
theorem outcome_readAll (hplain : w.inflatedSize = none) (hflow : w.backing.perRead ≠ some 0)
    (hsize : w.size < Buffer.limit) (inflate : Decompressor) :
    (w.readAll inflate).outcome = (w.stream.remainder [] 0).whole.outcome.mapError .io := by
  unfold readAll
  rw [if_pos hsize, deliver_of_plain hplain, Stream.drain_of_flowing (s := w.stream) hflow]
  rfl

/-- If there cannot, nothing is read. -/
theorem readAll_of_limit_le (hsize : Buffer.limit ≤ w.size) (inflate : Decompressor) :
    w.readAll inflate = .fail (.overflow .capacity) :=
  if_neg (Nat.not_lt.mpr hsize)

/-- A plain window read as a whole at once is its bytes, or ends where its source does. -/
theorem outcome_readExactAt_all (hplain : w.inflatedSize = none)
    (hflow : w.backing.perRead ≠ some 0) :
    (w.readExactAt 0 w.size).outcome = Except.mapError .io
      (if w.length ≤ w.backing.bytes.length - w.offset then .ok w.bytes
      else .error (.endOfSource w.backing.identity (max w.offset w.backing.bytes.length))) := by
  have hsize : w.size = w.length := by rw [size, hplain, Option.getD_none]
  unfold readExactAt
  rw [hsize, carve_of_plain hplain 0 w.length (by omega),
    Metered.bind_of_ok (Metered.outcome_ofExcept _)]
  simp only [part, Nat.add_zero, Metered.mapError, Backing.readExactAt_eq _ hflow]
  by_cases hfits : w.length ≤ w.backing.bytes.length - w.offset
  · rw [if_pos hfits, if_pos hfits]
    rfl
  · rw [if_neg hfits, if_neg hfits]

/-- A stream of a window brings what the window shows, piece by piece, whatever room there is in
    each read and whatever the source makes of it, and it ends or fails where it should. So
    streaming all of a window and reading all of it at its start succeed alike or fail alike, if
    the size that the window claims is one that a buffer can have. Otherwise there is nothing to
    read all of it into. -/
theorem streams_what_it_shows (hplain : w.inflatedSize = none) :
    (∀ (calls : List Call) (c : Call), ∃ came s, w.stream.run calls = (came, s) ∧
      came <+: w.bytes ∧ s.position = w.offset + came.length ∧
      (∀ piece t, s.answer c = .ok (piece, t) →
        piece = (w.backing.bytes.drop s.position).take piece.length ∧ piece.length ≤ c.room ∧
        t.position = s.position + piece.length ∧ t.position ≤ w.offset + w.length ∧
        w.stream.run (calls ++ [c]) = (came ++ piece, t)) ∧
      (∀ e, s.answer c = .error e →
        e.EndedEarly ∧ w.stream.run (calls ++ [c]) = (came, s)) ∧
      (c.room = 0 → s.answer c = .ok ([], s)) ∧
      (0 < c.room →
        ((∃ t, s.answer c = .ok ([], t)) ↔ s.position = w.offset + w.length) ∧
        ((∃ e, s.answer c = .error e) ↔
          w.backing.bytes.length ≤ s.position ∧ s.position < w.offset + w.length))) ∧
    (∀ calls : List Call, (∀ c ∈ calls, 0 < c.room) → w.length < calls.length →
      ∃ d, w.stream.toEnd calls [] 0 = some d ∧ w.Wholly d.whole.outcome) ∧
    (∀ paces : List Pace, w.length ≤ paces.length →
      ∃ m, w.backing.fillBy paces w.offset w.size [] 0 = some m ∧ w.Wholly m.outcome) ∧
    (w.backing.perRead ≠ some 0 → w.size < Buffer.limit → ∀ inflate : Decompressor,
      ∃ x y, (w.readAll inflate).outcome = x.mapError .io ∧
        (w.readExactAt 0 w.size).outcome = y.mapError .io ∧ w.Wholly x ∧ w.Wholly y) ∧
    (Buffer.limit ≤ w.size → ∀ inflate : Decompressor,
      w.readAll inflate = .fail (.overflow .capacity)) := by
  have hsize : w.size = w.length := by rw [size, hplain, Option.getD_none]
  refine ⟨fun calls c => ?_, fun calls hrooms hcalls => w.wholly_toEnd hrooms hcalls,
    fun paces hpaces => ?_, fun hflow hfits inflate => ?_, readAll_of_limit_le⟩
  · -- Where the stream stands after the calls so far is all that the next call depends on.
    have hs := w.streams_start.run calls
    rw [List.nil_append] at hs
    have hanswers := (w.stream.run calls).2.answer_answers c
    have hconcat := w.stream.run_concat calls c
    refine ⟨_, _, rfl, ⟨_, hs.shows⟩, hs.position, fun piece t hread => ?_, fun e hfails => ?_,
      Stream.answer_of_noRoom _, fun hroom => ⟨?_, ?_⟩⟩
    · rw [hread] at hanswers hconcat
      exact ⟨hs.piece_eq hread, hanswers.length_le, (hs.answer hread).position_append hs,
        (hs.answer hread).position_le, hconcat⟩
    · rw [hfails] at hanswers hconcat
      exact ⟨hanswers.endedEarly, hconcat⟩
    · rw [hanswers.nothing_iff hroom, hs.stop, hs.position]
      have hle := hs.length_le
      omega
    · rw [hanswers.fails_iff hroom, hs.stop, hs.backing]
  · rw [hsize]
    exact w.wholly_fillBy hpaces
  · exact ⟨_, _, outcome_readAll hplain hflow hfits inflate, outcome_readExactAt_all hplain hflow,
      w.wholly_remainder, w.wholly_filled _ _⟩

/-- The bytes of a window come one by one, with a read without room in between, until the source has
    no more of them. A window of just these bytes is streamed to the end and read at once. -/
theorem streams_what_it_shows_overclaimed :
    let w := Archive.overclaimed.window
    let front : Window := { w with length := 2 }
    let one : Call := { most := some 1, flowing := by decide, room := 4 }
    let empty : Call := { most := none, flowing := by decide, room := 0 }
    w.inflatedSize = none ∧ front.inflatedSize = none ∧ w.backing.perRead ≠ some 0 ∧
      (∃ s, w.stream.run [one, empty, one] = ([2, 3], s) ∧ s.position = 3 ∧
        s.answer empty = .ok ([], s) ∧ ∃ e, s.answer one = .error e ∧ e.EndedEarly) ∧
      w.size < Buffer.limit ∧
      (∀ inflate : Decompressor, ∃ x y, (w.readAll inflate).outcome = x.mapError .io ∧
        (w.readExactAt 0 w.size).outcome = y.mapError .io ∧ w.Wholly x ∧ w.Wholly y) ∧
      (∃ d, front.stream.toEnd [one, one, one] [] 0 = some d ∧ d.whole.outcome = .ok [2, 3] ∧
        front.Wholly d.whole.outcome) ∧
      ∃ m, front.backing.fillBy [one.toPace, empty.toPace] front.offset front.size [] 0 = some m ∧
        m.outcome = .ok [2, 3] ∧ front.Wholly m.outcome := by
  intro w front one empty
  have hplain : w.inflatedSize = none := rfl
  have hfront : front.inflatedSize = none := rfl
  have hflow : w.backing.perRead ≠ some 0 := by decide
  have hcame : (w.stream.run [one, empty, one]).1 = [2, 3] := by decide +kernel
  have hbytes : front.bytes = [2, 3] := by decide +kernel
  have hall : ∀ {x}, front.Wholly x → x = .ok [2, 3] := by
    intro x hx
    cases hx with
    | all _ => rw [hbytes]
    | short hshort _ _ => exact absurd hshort (by decide)
  have hsize : w.size < Buffer.limit := by decide
  obtain ⟨hcalls, _, _, hreads, _⟩ := streams_what_it_shows hplain
  obtain ⟨_, htoEnd, hfill, _⟩ := streams_what_it_shows hfront
  obtain ⟨came, s, hrun, _, hposition, _, hfails, _, hroom⟩ := hcalls [one, empty, one] one
  -- The two instances are about the same run, so they are about the same stream.
  obtain ⟨_, _, hrun', _, _, _, _, hnoRoom, _⟩ := hcalls [one, empty, one] empty
  rw [hrun] at hcame hrun'
  obtain ⟨rfl, rfl⟩ := Prod.mk.inj hrun'
  obtain rfl : came = [2, 3] := hcame
  have hthree : s.position = 3 := hposition
  obtain ⟨e, he⟩ := (hroom (by decide)).2.mpr (by rw [hthree]; decide)
  obtain ⟨x, hx, hxall⟩ := htoEnd [one, one, one] (by decide) (by decide)
  obtain ⟨y, hy, hyall⟩ := hfill [one.toPace, empty.toPace] (by decide)
  exact ⟨hplain, hfront, hflow, ⟨s, hrun, hthree, hnoRoom rfl, e, he, (hfails e he).1⟩,
    hsize, hreads hflow hsize, ⟨x, hx, hall hxall, hxall⟩, y, hy, hall hyall, hyall⟩

/-- All of a source without bytes that claims to have more than any buffer. -/
def overlong : Window := .whole { identity := "odd:t", content := ⟨#[]⟩, size := Buffer.limit }

/-- To read at its start is to learn that the source has ended, but reading all of it does not come
    to that. -/
theorem overlong_never_read :
    overlong.inflatedSize = none ∧ overlong.backing.perRead ≠ some 0 ∧
      overlong.backing.bytes.length < overlong.offset + overlong.length ∧
      (overlong.readExactAt 0 overlong.size).outcome = .error (.io (.endOfSource "odd:t" 0)) ∧
      ∀ inflate : Decompressor, (overlong.readAll inflate).outcome = .error (.overflow .capacity) ∧
        ¬ ∃ x : Except IoError Bytes, (overlong.readAll inflate).outcome = x.mapError .io := by
  have hflow : overlong.backing.perRead ≠ some 0 := by decide
  refine ⟨rfl, hflow, by decide, ?_, fun inflate => ?_⟩
  · rw [outcome_readExactAt_all rfl hflow, if_neg (by decide)]
    rfl
  · have hread : (overlong.readAll inflate).outcome = .error (.overflow .capacity) :=
      congrArg Metered.outcome (readAll_of_limit_le (Nat.le_refl _) inflate)
    -- The failure is no failure of a source, so it is none that ends a reading early.
    refine ⟨hread, fun ⟨x, hx⟩ => ?_⟩
    rw [hread] at hx
    cases x with
    | error e => exact nomatch Except.error.inj hx
    | ok bytes => exact absurd hx error_ne_ok

end Window

end NestedZip
