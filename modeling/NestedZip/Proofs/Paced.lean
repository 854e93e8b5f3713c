import NestedZip.Proofs.Stream

/-!
# Reads of Any Pace

A source answers a read with as many bytes as it likes, if it has any, and that
number need not be the same in every read. So a `Pace` is only about one of
them, and a `Call` is one read with a pace and some room.

Both loops that read on until they have enough are taken with a pace for each
read here. A filled read asks the source itself, and reading to the end asks a
stream. Neither comes to anything else than it does with a source that always
brings the same, and neither fetches more or less: what counts is what has come
so far and what is left, and a read only moves bytes from the one to the other.

`Stream.Answers` lists what may happen in one read of a stream. A read that
fails and one without room leave the stream where it is, so they take nothing
away from those that come later.

## Main definitions

* `Pace`, `Call`: How a source answers a read, and a read.
* `Stream.run`: Reads one after the other.
* `Stream.Answers`: What a read may be answered with.
* `Stream.toEnd`, `Backing.fillBy`: Both loops, with a pace for each read.

## Theorems

* `Stream.read_answers`, `Stream.answer_answers`: One read.
* `Stream.toEnd_eq`, `Backing.fillBy_eq`: Reading to the end, and until it is full.
-/

namespace NestedZip

/-- How many bytes a source brings in one read, at most. It brings some if it has any. -/
structure Pace where
  most : Option Nat
  flowing : most ≠ some 0

/-- A read of a stream, with the room that there is. -/
structure Call extends Pace where
  room : Nat

/-- The failures of a source that ended too early. -/
inductive IoError.EndedEarly : IoError → Prop
  | endOfSource {identity : String} {offset : Nat} : EndedEarly (.endOfSource identity offset)
  | endBeforeStop {identity : String} {offset stop : Nat} :
      EndedEarly (.endBeforeStop identity offset stop)

namespace Backing

/-- The source as it is in a read of this pace. -/
def paced (b : Backing) (p : Pace) : Backing := { b with perRead := p.most }

/-- Reads on until `count` more bytes are there, with a pace for each read. There is no answer
    yet if all reads are done before that. -/
def fillBy (b : Backing) : List Pace → (offset count : Nat) → (done : Bytes) → (fetched : Nat) →
    Option (Metered IoError Bytes)
  | [], _, count, done, fetched => if count = 0 then some { outcome := .ok done, fetched } else none
  | p :: paces, offset, count, done, fetched =>
    if count = 0 then some { outcome := .ok done, fetched }
    else
      let piece := (b.paced p).readAt offset count
      if piece.isEmpty then some { outcome := .error (.endOfSource b.identity offset), fetched }
      else
        b.fillBy paces (offset + piece.length) (count - piece.length) (done ++ piece)
          (fetched + piece.length)

/-- A filled read brings the slice that was asked for, whatever the pace, or fails where the
    source ends. -/
theorem fillBy_eq (b : Backing) {paces : List Pace} {count : Nat} (hcount : count ≤ paces.length)
    (offset : Nat) (done : Bytes) (fetched : Nat) :
    b.fillBy paces offset count done fetched = some
      (if count ≤ b.bytes.length - offset then
        { outcome := .ok (done ++ (b.bytes.drop offset).take count), fetched := fetched + count }
      else
        { outcome := .error (.endOfSource b.identity (max offset b.bytes.length))
          fetched := fetched + (b.bytes.length - offset) }) := by
  -- The induction is on the paces. Each brings a byte at least, so there are enough of them.
  induction paces generalizing offset count done fetched with
  | nil =>
      have hnone : count = 0 := Nat.le_zero.mp hcount
      rw [fillBy, if_pos hnone, hnone, if_pos (Nat.zero_le _), List.take_zero, List.append_nil,
        Nat.add_zero]
  | cons p paces ih =>
      unfold fillBy
      by_cases hnone : count = 0
      · rw [if_pos hnone, hnone, if_pos (Nat.zero_le _), List.take_zero, List.append_nil,
          Nat.add_zero]
      rw [if_neg hnone]
      rw [List.length_cons] at hcount
      rcases readAt_cases (b := b.paced p) p.flowing offset (Nat.pos_of_ne_zero hnone) with
        ⟨hend, hread⟩ | ⟨n, hpos, hroom, hhad, hread⟩
      · -- The source has ended, and where it is asked is where it fails.
        change b.bytes.length ≤ offset at hend
        simp only [hread, List.isEmpty_nil, if_true]
        rw [if_neg (by omega), Nat.max_eq_left hend, Nat.sub_eq_zero_of_le hend, Nat.add_zero]
      · change offset + n ≤ b.bytes.length at hhad
        have hlength : ((b.bytes.drop offset).take n).length = n := by
          rw [List.length_take, List.length_drop]
          omega
        have hsome : ((b.bytes.drop offset).take n).isEmpty = false := by
          rw [← Bool.not_eq_true, List.isEmpty_iff_length_eq_zero]
          omega
        have hpiece : (b.paced p).readAt offset count = (b.bytes.drop offset).take n := hread
        simp only [hpiece, hsome, Bool.false_eq_true, if_false, hlength]
        rw [ih (by omega)]
        -- The rest is there behind the piece exactly if all of it was there.
        by_cases hfits : count ≤ b.bytes.length - offset
        · rw [if_pos (by omega), if_pos hfits, List.append_assoc, ← List.drop_drop,
            ← List.take_add, Nat.add_assoc, Nat.add_sub_cancel' hroom]
        · rw [if_neg (by omega), if_neg hfits, show max (offset + n) b.bytes.length =
            max offset b.bytes.length by omega, show fetched + n +
            (b.bytes.length - (offset + n)) = fetched + (b.bytes.length - offset) by omega]

/-- So the pace of the source itself does not matter either. -/
theorem fillBy_eq_readExactAt {b : Backing} (hflow : b.perRead ≠ some 0) {paces : List Pace}
    {count : Nat} (hcount : count ≤ paces.length) (offset : Nat) :
    b.fillBy paces offset count [] 0 = some (b.readExactAt offset count) := by
  rw [b.fillBy_eq hcount, b.readExactAt_eq hflow, List.nil_append, Nat.zero_add, Nat.zero_add]

end Backing

namespace Stream

/-- The stream as it is in a read of this pace. -/
def paced (s : Stream) (p : Pace) : Stream := { s with backing := s.backing.paced p }

/-- What one read is answered with, and the stream behind it. The pace is that of this read. -/
def answer (s : Stream) (c : Call) : Except IoError (Bytes × Stream) :=
  ((s.paced c.toPace).read c.room).outcome.map fun (piece, t) =>
    (piece, { s with position := t.position })

/-- The bytes that come in reads one after the other, and the stream behind them. A stream whose
    read fails stays where it is, and may be read again. -/
def run (s : Stream) : List Call → Bytes × Stream
  | [] => ([], s)
  | c :: calls =>
    match s.answer c with
    | .error _ => s.run calls
    | .ok (piece, t) => (piece ++ (t.run calls).1, (t.run calls).2)

/-- Reads to the end, with the room and the pace of each call. There is no answer yet if all calls
    are done before that. As in `drainFrom`, `done` holds the bytes so far, last first. -/
def toEnd (s : Stream) : List Call → (done : Bytes) → (fetched : Nat) → Option Delivery
  | [], _, _ => none
  | c :: calls, done, fetched =>
    match s.answer c with
    | .error e => some { bytes := done.reverse, failure := some e, fetched }
    | .ok (piece, t) =>
      if piece = [] then some { bytes := done.reverse, fetched }
      else t.toEnd calls (piece.reverse ++ done) (fetched + piece.length)

/-- What a read with this room may be answered with. -/
inductive Answers (s : Stream) (room : Nat) : Except IoError (Bytes × Stream) → Prop
  | noRoom : room = 0 → Answers s room (.ok ([], s))
  | ended : s.stop ≤ s.position → Answers s room (.ok ([], s))
  | short : 0 < room → s.backing.bytes.length ≤ s.position → s.position < s.stop →
      Answers s room (.error (.endBeforeStop s.backing.identity s.position s.stop))
  | piece {count : Nat} : 0 < count → count ≤ room → count ≤ s.left.length →
      Answers s room (.ok (s.left.take count, s.skip count))

variable {s t : Stream} {c : Call} {piece : Bytes}

theorem left_eq_nil_iff :
    s.left = [] ↔ s.stop ≤ s.position ∨ s.backing.bytes.length ≤ s.position := by
  rw [← List.length_eq_zero_iff, left, List.length_take, List.length_drop]
  omega

/-- One read. -/
theorem read_answers (hflow : s.backing.perRead ≠ some 0) (room : Nat) :
    s.Answers room (s.read room).outcome := by
  unfold read
  by_cases hend : s.stop ≤ s.position ∨ room = 0
  · rw [if_pos hend]
    exact hend.elim .ended .noRoom
  rw [if_neg hend]
  -- The source is asked for no more than the range has left.
  obtain ⟨want, hwant⟩ : ∃ want, min room (s.stop - s.position) = want := ⟨_, rfl⟩
  rw [hwant]
  rcases Backing.readAt_cases hflow s.position (show 0 < want by omega) with
    ⟨hshort, hread⟩ | ⟨count, hpos, hroom, hhad, hread⟩
  · rw [hread]
    exact .short (by omega) hshort (by omega)
  · -- The piece is a front part of what is left in the range as well.
    have hleft : s.left.length =
        min (s.stop - s.position) (s.backing.bytes.length - s.position) := by
      rw [left, List.length_take, List.length_drop]
    have hpiece : (s.backing.bytes.drop s.position).take count = s.left.take count := by
      rw [left, List.take_take, Nat.min_eq_left (by omega)]
    have hlength : (s.left.take count).length = count := by
      rw [List.length_take]
      omega
    have hsome : (s.left.take count).isEmpty = false := by
      rw [← Bool.not_eq_true, List.isEmpty_iff_length_eq_zero]
      omega
    simp only [hread, hpiece, hsome, hlength, Bool.false_eq_true, if_false]
    exact .piece hpos (by omega) (by omega)

/-- Neither where a stream is nor what is left in it depends on the pace of a read. -/
theorem Answers.of_paced {p : Pace} {room : Nat} {x : Except IoError (Bytes × Stream)}
    (h : (s.paced p).Answers room x) :
    s.Answers room (x.map fun (piece, t) => (piece, { s with position := t.position })) := by
  cases h with
  | noRoom hroom => exact .noRoom hroom
  | ended hend => exact .ended hend
  | short hroom hshort hbefore => exact .short hroom hshort hbefore
  | piece hpos hroom hleft => exact .piece hpos hroom hleft

theorem answer_answers (s : Stream) (c : Call) : s.Answers c.room (s.answer c) :=
  (read_answers (s := s.paced c.toPace) c.flowing c.room).of_paced

/-- A read leaves the end of the stream where it is. -/
theorem stop_of_answer (h : s.answer c = .ok (piece, t)) : t.stop = s.stop := by
  unfold answer at h
  cases hanswer : ((s.paced c.toPace).read c.room).outcome with
  | error e =>
      rw [hanswer] at h
      exact absurd h error_ne_ok
  | ok x =>
      rw [hanswer] at h
      rw [← (Prod.mk.inj (Except.ok.inj h)).2]

/-- An answer is no longer than the room that was given. -/
theorem Answers.length_le {room : Nat} (h : s.Answers room (.ok (piece, t))) :
    piece.length ≤ room := by
  generalize hx : (Except.ok (piece, t) : Except IoError (Bytes × Stream)) = x at h
  cases h with
  | noRoom _ =>
      rw [(Prod.mk.inj (Except.ok.inj hx)).1]
      exact Nat.zero_le _
  | ended _ =>
      rw [(Prod.mk.inj (Except.ok.inj hx)).1]
      exact Nat.zero_le _
  | short _ _ _ => exact absurd hx.symm error_ne_ok
  | piece _ hroom _ =>
      rw [(Prod.mk.inj (Except.ok.inj hx)).1, List.length_take]
      omega

theorem Answers.endedEarly {room : Nat} {e : IoError} (h : s.Answers room (.error e)) :
    e.EndedEarly := by
  cases h with
  | short _ _ _ => exact .endBeforeStop

theorem answer_of_noRoom (s : Stream) {c : Call} (hroom : c.room = 0) :
    s.answer c = .ok ([], s) := by
  unfold answer read
  rw [if_pos (Or.inr hroom)]
  rfl

/-- With room, nothing comes exactly at the end of the range. -/
theorem Answers.nothing_iff {room : Nat} {x : Except IoError (Bytes × Stream)}
    (h : s.Answers room x) (hroom : 0 < room) :
    (∃ t, x = .ok ([], t)) ↔ s.stop ≤ s.position := by
  cases h with
  | noRoom hnone => omega
  | ended hend => exact ⟨fun _ => hend, fun _ => ⟨s, rfl⟩⟩
  | short _ _ hbefore =>
      exact ⟨fun ⟨t, hnothing⟩ => absurd hnothing error_ne_ok, fun hend => by omega⟩
  | piece hpos _ hleft =>
      constructor
      · -- There is room and something is left, so a piece is never empty.
        rintro ⟨t, hnothing⟩
        have hnil := congrArg List.length (Prod.mk.inj (Except.ok.inj hnothing)).1
        rw [List.length_take, List.length_nil] at hnil
        omega
      · intro hend
        rw [left_eq_nil_iff.mpr (Or.inl hend), List.length_nil] at hleft
        omega

/-- With room, a read fails exactly where the source has ended and the range has not. -/
theorem Answers.fails_iff {room : Nat} {x : Except IoError (Bytes × Stream)}
    (h : s.Answers room x) (hroom : 0 < room) :
    (∃ e, x = .error e) ↔ s.backing.bytes.length ≤ s.position ∧ s.position < s.stop := by
  cases h with
  | noRoom hnone => omega
  | ended hend => exact ⟨fun ⟨e, hfails⟩ => absurd hfails.symm error_ne_ok, fun h => by omega⟩
  | short _ hshort hbefore => exact ⟨fun _ => ⟨hshort, hbefore⟩, fun _ => ⟨_, rfl⟩⟩
  | piece hpos _ hleft =>
      refine ⟨fun ⟨e, hfails⟩ => absurd hfails.symm error_ne_ok, fun h => ?_⟩
      rw [left_eq_nil_iff.mpr (Or.inr h.1), List.length_nil] at hleft
      omega

/-- The last read of a run comes behind the others. -/
theorem run_concat (s : Stream) (calls : List Call) (c : Call) :
    s.run (calls ++ [c]) =
      match (s.run calls).2.answer c with
      | .error _ => s.run calls
      | .ok (piece, t) => ((s.run calls).1 ++ piece, t) := by
  induction calls generalizing s with
  | nil =>
      rw [List.nil_append, run, run]
      cases s.answer c with
      | error e => rfl
      | ok x => simp only [run, List.append_nil, List.nil_append]
  | cons first calls ih =>
      rw [List.cons_append, run, run]
      cases s.answer first with
      -- A call that fails leaves the stream to the calls behind it.
      | error e => exact ih s
      | ok x =>
          simp only [ih]
          cases (x.2.run calls).2.answer c with
          | error e => rfl
          | ok y => simp only [List.append_assoc]

/-- Reading to the end brings what is left, whatever the calls, or fails where the source ends too
    early. -/
theorem toEnd_eq {calls : List Call} (hrooms : ∀ c ∈ calls, 0 < c.room)
    (hcalls : s.left.length < calls.length) (done : Bytes) (fetched : Nat) :
    s.toEnd calls done fetched = some (s.remainder done fetched) := by
  -- The induction is on the calls. Each has room, so it takes something from what is left or is
  -- the last one.
  induction calls generalizing s done fetched with
  | nil => exact absurd hcalls (Nat.not_lt_zero _)
  | cons c calls ih =>
      have hroom := hrooms c List.mem_cons_self
      have hlater := fun d hd => hrooms d (List.mem_cons_of_mem c hd)
      rw [List.length_cons] at hcalls
      have hanswers := s.answer_answers c
      unfold toEnd
      generalize s.answer c = answer at hanswers
      cases hanswers with
      | noRoom hnone => omega
      | ended hend =>
          have hnil : s.left = [] := left_eq_nil_iff.mpr (Or.inl hend)
          have hfull : s.shortfall = none := if_pos (by rw [hnil, List.length_nil]; omega)
          simp only [if_true, remainder_of_nil hnil, hfull]
      | short _ hshort hbefore =>
          have hnil : s.left = [] := left_eq_nil_iff.mpr (Or.inr hshort)
          have hfails : s.shortfall =
              some (.endBeforeStop s.backing.identity s.position s.stop) := by
            rw [shortfall, hnil, List.length_nil, if_neg (by omega), Nat.add_zero]
          rw [remainder_of_nil hnil, hfails]
      | @piece count hpos _ hleft =>
          have hsome : s.left.take count ≠ [] := by
            rw [← List.length_pos_iff, List.length_take]
            omega
          have hlength : (s.left.take count).length = count := by
            rw [List.length_take]
            omega
          -- A piece takes from what is left and changes nothing about what is short.
          have hrest := ih (s := s.skip count) hlater
            (by rw [left_skip, List.length_drop]; omega) ((s.left.take count).reverse ++ done)
            (fetched + count)
          rw [remainder_skip hleft] at hrest
          simp only [hsome, if_false, hlength]
          exact hrest

/-- So the pace of the source itself does not matter either. -/
theorem toEnd_eq_drain (hflow : s.backing.perRead ≠ some 0) {calls : List Call}
    (hrooms : ∀ c ∈ calls, 0 < c.room) (hcalls : s.left.length < calls.length) :
    s.toEnd calls [] 0 = some s.drain := by
  rw [toEnd_eq hrooms hcalls, drain_of_flowing hflow]

end Stream

end NestedZip
