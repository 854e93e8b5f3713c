import NestedZip.Proofs.Checked.Arithmetic
import NestedZip.Proofs.EntryData
import NestedZip.Proofs.Streaming

/-!
# Checked Windows

Windows and streams whose places are words.

Carving is asked for places that come from an archive, so any two words may be
asked for, and their sum need not be one. Three kinds of sums are in use for
that. Whether the range is inside the window is asked with a sum that says when
it is none. The message of a failure has a sum that is cut off. Everything else
is plainly added up: where the new window starts, where a stream has to stop,
and where the next byte is. A plain sum is a trap if it leaves the words, and
nothing in front of it asks.

It does not leave them because of what a window is. One that covers a source
starts at its front and ends at the size that the source claims, which is a
word. Whatever is carved out of it ends no later, in the terms of the source,
so the last place of a window is a word and so is every place in front. This
is `Addressed`, and it is handed on from one window to the next. A stream never
goes past its end, and a read never past what it was asked for. So with words
or with numbers, all of it comes to the same.

## Main definitions

* `Window.carveAll`: Windows carved out of each other, one after the other.
* `Window.Addressed`: A window whose places are words.
* `Window.CarvedFrom`: A window and the carvings that it came from.
* `Checked.carve`, `Checked.carveAll`: Carving with words.
* `Checked.stream`, `Checked.run`: Streams with words.
* `Checked.fill`, `Checked.readExactAt`: Positional reads with words.

## Theorems

* `Window.carvedFrom_of_carveAll`: What comes out of any number of carvings.
* `Checked.carve_eq`, `Checked.run_eq`, `Checked.readExactAt_eq`: It comes to the same with words.
* `Checked.carveAll_exact`: Windows never reach outside, and their places are words.
-/

namespace NestedZip

namespace Window

/-- Windows carved out of each other, one after the other, each at a place of the last one. -/
def carveAll (w : Window) (requests : List (Nat × Nat)) : Except Error Window :=
  requests.foldlM (fun w (offset, length) => w.carve offset length) w

/-- The sum of the places that were asked for. -/
def placesSum : (requests : List (Nat × Nat)) → Nat
  | [] => 0
  | (offset, _) :: requests => offset + placesSum requests

/-- A window whose places are words, also the one behind its last byte. -/
def Addressed (w : Window) : Prop := w.offset + w.length < wordLimit

variable {w v u : Window}

theorem carveAll_cons (w : Window) (offset length : Nat) (requests : List (Nat × Nat)) :
    w.carveAll ((offset, length) :: requests) =
      w.carve offset length >>= fun v => v.carveAll requests := rfl

theorem carveAll_append (w : Window) (front back : List (Nat × Nat)) :
    w.carveAll (front ++ back) = w.carveAll front >>= fun v => v.carveAll back :=
  List.foldlM_append

theorem Within.addressed (h : v.Within w) (hw : w.Addressed) : v.Addressed :=
  Nat.lt_of_le_of_lt h.stop hw

theorem carve_within {offset length : Nat} (h : w.carve offset length = .ok v) : v.Within w := by
  obtain ⟨_, hfits, rfl⟩ := carve_eq_ok_iff.mp h
  exact within_part w offset length hfits

/-- A window that was carved any number of times lies inside the one it came from. -/
theorem carveAll_within {requests : List (Nat × Nat)} (h : w.carveAll requests = .ok v) :
    v.Within w := by
  induction requests generalizing w with
  | nil =>
      rw [← Except.ok.inj h]
      exact Within.refl w
  | cons request requests ih =>
      obtain ⟨u, hcarve, hrest⟩ := except_bind_eq_ok_iff.mp h
      exact (ih hrest).trans (carve_within hcarve)

/-- A window out of any number of carvings starts at the sum of their places, and is as long as the
    last one asked for. -/
theorem carveAll_eq_ok {requests : List (Nat × Nat)} (hw : w.inflatedSize = none)
    (h : w.carveAll requests = .ok v) :
    v = { backing := w.backing
          offset := w.offset + placesSum requests
          length := (requests.getLast?.map Prod.snd).getD w.length } := by
  induction requests generalizing w with
  | nil =>
      rw [← Except.ok.inj h]
      obtain ⟨backing, offset, length, inflatedSize⟩ := w
      obtain rfl : inflatedSize = none := hw
      rfl
  | cons request requests ih =>
      obtain ⟨offset, length⟩ := request
      obtain ⟨u, hcarve, hrest⟩ := except_bind_eq_ok_iff.mp h
      obtain ⟨_, _, rfl⟩ := carve_eq_ok_iff.mp hcarve
      -- The last length asked for is the one of the remaining requests, or of this one if there are
      -- none.
      have hlast : ((offset, length) :: requests).getLast?.map Prod.snd =
          some ((requests.getLast?.map Prod.snd).getD length) := by
        rw [List.getLast?_cons]
        cases requests.getLast? <;> rfl
      rw [ih rfl hrest, hlast, Option.getD_some, placesSum, Nat.add_assoc]

/-- What comes out of carvings in a row, the first of which is asked of the whole of a source. -/
structure CarvedFrom (b : Backing) (requests : List (Nat × Nat)) (w : Window) : Prop where
  backing : w.backing = b
  plain : w.inflatedSize = none
  offset : w.offset = placesSum requests
  length : w.length = (requests.getLast?.map Prod.snd).getD b.size
  inAll : ∀ front back, requests = front ++ back →
    ∃ v, (whole b).carveAll front = .ok v ∧ w.Within v
  inSource : w.offset + w.length ≤ b.size

/-- What is known about a window that was carved from a whole source. -/
theorem carvedFrom_of_carveAll {b : Backing} {requests : List (Nat × Nat)}
    (h : (whole b).carveAll requests = .ok w) : CarvedFrom b requests w where
  backing := (carveAll_within h).backing
  plain := by rw [carveAll_eq_ok rfl h]
  offset := by
    rw [carveAll_eq_ok rfl h]
    exact Nat.zero_add _
  length := by
    rw [carveAll_eq_ok rfl h]
    rfl
  -- What the carvings in front made is what the others are asked of.
  inAll front back hrequests := by
    rw [hrequests, carveAll_append] at h
    obtain ⟨v, hv, hrest⟩ := except_bind_eq_ok_iff.mp h
    exact ⟨v, hv, carveAll_within hrest⟩
  inSource := by
    have hstop := (carveAll_within h).stop
    rw [whole, Nat.zero_add] at hstop
    exact hstop

/-- Two carvings in a row are one, at the sum of the places. -/
theorem carve_carve {offset length offset' length' : Nat} (h : w.carve offset length = .ok v)
    (h' : v.carve offset' length' = .ok u) : w.carve (offset + offset') length' = .ok u := by
  obtain ⟨hplain, hfits, rfl⟩ := carve_eq_ok_iff.mp h
  obtain ⟨_, hfits', rfl⟩ := carve_eq_ok_iff.mp h'
  simp only at hfits'
  refine carve_eq_ok_iff.mpr ⟨hplain, by omega, ?_⟩
  simp only [Nat.add_assoc]

end Window

namespace Checked

variable {ε : Type}

/-- The sum of two words, if it is one. -/
def add? (a b : Nat) : Option Nat := if a + b < wordLimit then some (a + b) else none

/-- The sum of two words, or the last word. -/
def addCapped (a b : Nat) : Nat := min (a + b) (wordLimit - 1)

/-- The window of `length` bytes at `offset` inside a window. -/
def carve (w : Window) (offset length : Nat) : Checked Error Window :=
  if w.isCompressed then fail (.notRandomAccess w.identity w.offset)
  else if (add? offset length).any (· ≤ w.length) then do
    let start ← add w.offset offset
    return { backing := w.backing, offset := start, length }
  else fail (.outOfBounds w.identity (addCapped w.offset offset) length w.length)

/-- Windows carved out of each other, one after the other. -/
def carveAll (w : Window) (requests : List (Nat × Nat)) : Checked Error Window :=
  requests.foldlM (fun w (offset, length) => carve w offset length) w

/-- The bytes of a window as they are stored, from the front. -/
def stream (w : Window) : Checked ε Stream := do
  let stop ← add w.offset w.length
  return { backing := w.backing, position := w.offset, stop }

/-- What one read is answered with, and the stream behind it. -/
def answer (s : Stream) (c : Call) : Checked IoError (Bytes × Stream) :=
  if s.stop ≤ s.position ∨ c.room = 0 then .ok ([], s)
  else do
    let left ← sub s.stop s.position
    let piece := (s.backing.paced c.toPace).readAt s.position (min c.room left)
    if piece.isEmpty then fail (.endBeforeStop s.backing.identity s.position s.stop)
    else
      let position ← add s.position piece.length
      return (piece, { s with position })

/-- The bytes that come in reads one after the other, and the stream behind them. A trap ends them,
    and a failure does not. -/
def run (s : Stream) : List Call → Checked IoError (Bytes × Stream)
  | [] => .ok ([], s)
  | c :: calls =>
    match answer s c with
    | .error (.trap t) => trap t
    | .error (.failure _) => run s calls
    | .ok (piece, t) => do
      let (came, u) ← run t calls
      return (piece ++ came, u)

/-- Reads on until `count` more bytes are there. -/
def fill (b : Backing) : (fuel offset count : Nat) → (done : Bytes) → Checked IoError Bytes
  | 0, _, _, done => .ok done.reverse
  | fuel + 1, offset, count, done =>
    if count = 0 then .ok done.reverse
    else
      let piece := b.readAt offset count
      if piece.isEmpty then fail (.endOfSource b.identity offset)
      else do
        let next ← add offset piece.length
        let missing ← sub count piece.length
        fill b fuel next missing (piece.reverse ++ done)

/-- Exactly `count` bytes at `offset` inside a window. -/
def readExactAt (w : Window) (offset count : Nat) : Checked Error Bytes := do
  let part ← carve w offset count
  mapFailure .io (fill w.backing count part.offset count [])

variable {w v : Window}

/-- Carving inside a window whose places are words meets no trap. -/
theorem carve_eq (hw : w.Addressed) (offset length : Nat) :
    carve w offset length = lift (w.carve offset length) := by
  unfold Window.Addressed at hw
  unfold carve Window.carve
  by_cases hcompressed : w.isCompressed = true
  · rw [if_pos hcompressed, if_pos hcompressed]
    rfl
  rw [if_neg hcompressed, if_neg hcompressed]
  by_cases hfits : offset + length ≤ w.length
  · -- The sum is inside the window, so it is a word, and so is the place where it starts.
    have hinside : (add? offset length).any (· ≤ w.length) = true := by
      rw [add?, if_pos (by omega)]
      exact decide_eq_true hfits
    rw [if_pos hinside, if_pos hfits, add_of_lt (by omega)]
    rfl
  · -- A sum that is no word is as far outside as one that is past the end.
    have houtside : ¬ (add? offset length).any (· ≤ w.length) = true := by
      unfold add?
      by_cases hword : offset + length < wordLimit
      · rw [if_pos hword]
        exact fun h => hfits (of_decide_eq_true h)
      · rw [if_neg hword]
        exact Bool.false_ne_true
    rw [if_neg houtside, if_neg hfits]
    rfl

/-- However often a window is carved, it meets no trap. -/
theorem carveAll_eq (hw : w.Addressed) (requests : List (Nat × Nat)) :
    carveAll w requests = lift (w.carveAll requests) := by
  induction requests generalizing w with
  | nil => rfl
  | cons request requests ih =>
      obtain ⟨offset, length⟩ := request
      have hcons : carveAll w ((offset, length) :: requests) =
          carve w offset length >>= fun v => carveAll v requests := rfl
      rw [hcons, carve_eq hw, Window.carveAll_cons]
      -- Inside an addressed window all positions are words, so the next carving starts from one as
      -- well.
      rcases hcarve : w.carve offset length with e | v
      · rfl
      · exact ih ((Window.carve_within hcarve).addressed hw)

theorem stream_eq (hw : w.Addressed) : (stream w : Checked ε Stream) = .ok w.stream := by
  unfold stream
  rw [add_of_lt hw]
  rfl

/-- A stream does not go past its end, so no read meets a trap. -/
theorem answer_eq {s : Stream} (hs : s.stop < wordLimit) (c : Call) :
    answer s c = lift (s.answer c) := by
  unfold answer Stream.answer Stream.read
  by_cases hend : s.stop ≤ s.position ∨ c.room = 0
  · have hpaced : (s.paced c.toPace).stop ≤ (s.paced c.toPace).position ∨ c.room = 0 := hend
    rw [if_pos hend, if_pos hpaced]
    rfl
  · have hpaced : ¬ ((s.paced c.toPace).stop ≤ (s.paced c.toPace).position ∨ c.room = 0) := hend
    rw [if_neg hend, if_neg hpaced, sub_of_le (by omega), except_ok_bind]
    -- The piece is no longer than what is left, so the place behind it is not past the end.
    have hlength := (s.backing.paced c.toPace).length_readAt_le s.position
      (min c.room (s.stop - s.position))
    obtain ⟨piece, hpiece⟩ : ∃ piece, (s.backing.paced c.toPace).readAt s.position
      (min c.room (s.stop - s.position)) = piece := ⟨_, rfl⟩
    rw [hpiece] at hlength
    simp only [Stream.paced, hpiece]
    by_cases hnothing : piece.isEmpty = true
    · rw [if_pos hnothing, if_pos hnothing]
      rfl
    · rw [if_neg hnothing, if_neg hnothing, add_of_lt (by omega)]
      rfl

/-- And neither do any number of them. -/
theorem run_eq {s : Stream} (hs : s.stop < wordLimit) (calls : List Call) :
    run s calls = .ok (s.run calls) := by
  induction calls generalizing s with
  | nil => rfl
  | cons c calls ih =>
      rw [run, answer_eq hs, Stream.run]
      rcases hread : s.answer c with e | ⟨piece, t⟩
      · exact ih hs
      · have hrest := ih (s := t) (by rw [Stream.stop_of_answer hread]; exact hs)
        simp only [lift, Except.mapError, hrest]
        rfl

/-- A read that has to be filled does not go past the bytes that it was asked for. -/
theorem fill_eq (b : Backing) (fuel : Nat) {offset count : Nat} (h : offset + count < wordLimit)
    (done : Bytes) (fetched : Nat) :
    fill b fuel offset count done = lift (b.fill fuel offset count done fetched).outcome := by
  induction fuel generalizing offset count done fetched with
  | zero => rfl
  | succ fuel ih =>
      unfold fill Backing.fill
      by_cases hnone : count = 0
      · rw [if_pos hnone, if_pos hnone]
        rfl
      rw [if_neg hnone, if_neg hnone]
      -- The piece is no longer than what is asked for, so what remains to be read is no more than
      -- before.
      have hlength := b.length_readAt_le offset count
      generalize b.readAt offset count = piece at hlength
      by_cases hnothing : piece.isEmpty = true
      · rw [if_pos hnothing, if_pos hnothing]
        rfl
      · rw [if_neg hnothing, if_neg hnothing, add_of_lt (by omega), except_ok_bind,
          sub_of_le hlength, except_ok_bind]
        exact ih (by omega) _ _

/-- A positional read inside a window whose places are words meets no trap. -/
theorem readExactAt_eq (hw : w.Addressed) (offset count : Nat) :
    readExactAt w offset count = lift (w.readExactAt offset count).outcome := by
  unfold readExactAt Window.readExactAt
  rw [carve_eq hw]
  rcases hcarve : w.carve offset count with e | part
  · rfl
  · -- The part ends where the window does or in front, and the read where the part does.
    obtain ⟨_, hfits, rfl⟩ := Window.carve_eq_ok_iff.mp hcarve
    have hword : w.offset + offset + count < wordLimit := by
      unfold Window.Addressed at hw
      omega
    rw [lift_ok, except_ok_bind, fill_eq w.backing count hword [] 0,
      Metered.bind_of_ok (Metered.outcome_ofExcept _)]
    unfold Backing.readExactAt mapFailure lift Metered.mapError
    simp only
    cases (w.backing.fill count (w.offset + offset) count [] 0).outcome with
    | error e => rfl
    | ok bytes => rfl

/-- A window that was carved out of a source, by any number of carvings, is where it was asked for
    and does not reach outside of any of those that it was carved from. With words it comes to the
    same as with numbers, whatever is asked for and whatever is read. -/
theorem carveAll_exact (b : Backing) (hwords : b.size < wordLimit) :
    (∀ requests, carveAll (.whole b) requests = lift ((Window.whole b).carveAll requests)) ∧
    ∀ requests w, (Window.whole b).carveAll requests = .ok w →
      w.CarvedFrom b requests ∧
      (∀ offset length, offset + length ≤ w.length →
        carve w offset length = .ok (w.part offset length)) ∧
      (∀ offset length, w.length < offset + length →
        carve w offset length = fail (.outOfBounds b.identity
          (min (w.offset + offset) (wordLimit - 1)) length w.length)) ∧
      (∀ offset length offset' length' v u, carve w offset length = .ok v →
        carve v offset' length' = .ok u → carve w (offset + offset') length' = .ok u) ∧
      (stream w : Checked IoError Stream) = .ok w.stream ∧
      (∀ calls, run w.stream calls = .ok (w.stream.run calls)) ∧
      (∀ offset count,
        readExactAt w offset count = lift (w.readExactAt offset count).outcome) ∧
      ∀ size offset length,
        carve (w.inflating size) offset length = fail (.notRandomAccess b.identity w.offset) ∧
        readExactAt (w.inflating size) offset length =
          fail (.notRandomAccess b.identity w.offset) ∧
        (stream (w.inflating size) : Checked IoError Stream) = .ok w.stream := by
  have hwhole : (Window.whole b).Addressed := by
    rw [Window.Addressed, Window.whole, Nat.zero_add]
    exact hwords
  refine ⟨carveAll_eq hwhole, fun requests w h => ?_⟩
  have hcarved := Window.carvedFrom_of_carveAll h
  have hw := (Window.carveAll_within h).addressed hwhole
  have hidentity : w.identity = b.identity := congrArg Backing.identity hcarved.backing
  have hrefuses : ∀ size offset length,
      carve (w.inflating size) offset length = fail (.notRandomAccess b.identity w.offset) := by
    intro size offset length
    -- Its places are those of the window, and it is refused before they are looked at.
    have hinflating : (w.inflating size).Addressed := hw
    have hcompressed : (w.inflating size).inflatedSize = some size := rfl
    rw [carve_eq hinflating, Window.carve_of_compressed hcompressed, ← hidentity]
    rfl
  -- What is inside the window has words for places as well, so it may be carved with numbers.
  have hcarve : ∀ v : Window, v.Within w → ∀ offset length u,
      carve v offset length = .ok u → v.carve offset length = .ok u := by
    intro v hv offset length u hu
    rw [carve_eq (hv.addressed hw)] at hu
    exact except_mapError_eq_ok_iff.mp hu
  refine ⟨hcarved, fun offset length hfits => ?_, fun offset length hpast => ?_,
    fun offset length offset' length' v u hv hu => ?_, stream_eq hw, run_eq hw, readExactAt_eq hw,
    fun size offset length => ⟨hrefuses size offset length, ?_, stream_eq hw⟩⟩
  · rw [carve_eq hw, Window.carve_of_plain hcarved.plain offset length hfits]
    rfl
  · rw [carve_eq hw, Window.carve_of_past hcarved.plain (Nat.not_le_of_lt hpast), hidentity]
    rfl
  · have hcut := hcarve w (Window.Within.refl w) offset length v hv
    have hcut' := hcarve v (Window.carve_within hcut) offset' length' u hu
    rw [carve_eq hw, Window.carve_carve hcut hcut']
    rfl
  · rw [readExactAt, hrefuses]
    rfl

/-- A source with one byte that claims to end at the last word. -/
def vast : Backing where
  identity := "mem:t"
  content := ⟨#[1]⟩
  size := 18446744073709551615

/-- The last bytes that it claims to have. -/
def lastBytes : Window where
  backing := vast
  offset := 18446744073709551610
  length := 5

/-- They are carved out of it in two steps. What is asked of them next lies at their end, which is
    the last word, or far behind it. -/
theorem carveAll_exact_lastBytes :
    let requests := [(18446744073709551607, 8), (3, 5)]
    vast.size < wordLimit ∧ (Window.whole vast).carveAll requests = .ok lastBytes ∧
      lastBytes.CarvedFrom vast requests ∧ carveAll (.whole vast) requests = .ok lastBytes ∧
      (stream lastBytes : Checked IoError Stream) = .ok lastBytes.stream ∧
      lastBytes.stream.stop = 18446744073709551615 ∧
      5 + 0 ≤ lastBytes.length ∧ carve lastBytes 5 0 = .ok (lastBytes.part 5 0) ∧
      lastBytes.length < 18446744073709551615 + 2 ∧
      carve lastBytes 18446744073709551615 2 =
        fail (.outOfBounds "mem:t" 18446744073709551615 2 5) ∧
      carve (lastBytes.inflating 7) 0 0 = fail (.notRandomAccess "mem:t" 18446744073709551610) := by
  intro requests
  have hwords : vast.size < wordLimit := by decide
  have hcarved : (Window.whole vast).carveAll requests = .ok lastBytes := rfl
  obtain ⟨hall, hlast⟩ := carveAll_exact vast hwords
  obtain ⟨hfrom, hinside, houtside, _, hstream, _, _, hrefuses⟩ := hlast requests _ hcarved
  have hpast : lastBytes.length < 18446744073709551615 + 2 := by decide +kernel
  -- The offset that is told is the largest word, as the sum is none.
  have hcapped : min (lastBytes.offset + 18446744073709551615) (wordLimit - 1) =
      18446744073709551615 := by decide +kernel
  have hrefused := houtside 18446744073709551615 2 hpast
  rw [hcapped] at hrefused
  refine ⟨hwords, hcarved, hfrom, ?_, hstream, rfl, by decide, hinside 5 0 (by decide), hpast,
    hrefused, (hrefuses 7 0 0).1⟩
  rw [hall, hcarved]
  rfl

end Checked

end NestedZip
