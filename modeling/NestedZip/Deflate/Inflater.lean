import NestedZip.Bytes
import NestedZip.Deflate.Block

/-!
# Inflaters

An inflater is fed compressed data in pieces and hands out what the data holds. What it decodes
passes through a window of fixed size: it decodes until the window is full, and only when all that
is in the window has been handed out does it go on. It decodes as far as it can without writing, so
with a full window it is stopped by the next byte that is to be written, and not before.

A repeat may reach back before the first byte and then finds zeros there. Nothing behind the last
block is looked at. How much of the input has been consumed is counted in whole bytes: the byte in
which the last step ended is consumed, and so is everything when a step is starved.

## Main definitions

* `Deflate.Inflater`: The input so far, the place in it, and the output so far.
* `Deflate.Inflater.feed`: Adds input.
* `Deflate.Inflater.advance`: Decodes into an empty window.
* `Deflate.Inflater.fillRoom`: Decodes window after window into the room there is.
-/

namespace NestedZip

namespace Deflate

/-- The number of bytes that the window holds. -/
def windowSize : Nat := 32768

/-- The input so far, the place in it, and the output so far, of which the last window or less has
    not been handed out. -/
structure Inflater where
  input : ByteArray := .empty
  /-- The number of bits that have been decoded. -/
  position : Nat := 0
  /-- The number of bytes of the input that have been consumed. -/
  consumed : Nat := 0
  phase : Phase := .header
  output : ByteArray := .empty
  /-- The number of bytes of the output that have been handed out. -/
  handedOut : Nat := 0

/-- Why decoding pauses. -/
inductive Pause where
  /-- The input ended; more of it may follow. -/
  | starved
  /-- The window is full and something is to be written. -/
  | full
  /-- The last block ended. -/
  | finished
  /-- The input is wrong, whatever follows. -/
  | corrupt
deriving DecidableEq, Repr

/-- The output with `count` more bytes, each the one that stands `distance` bytes before it. What
    stands before the first byte counts as zero. -/
def extendFrom (distance : Nat) : (count : Nat) → ByteArray → ByteArray
  | 0, output => output
  | count + 1, output =>
    let earlier := output.size - distance
    let b :=
      if output.size < distance then 0
      else if h : earlier < output.size then output[earlier] else 0
    extendFrom distance count (output.push b)

namespace Inflater

/-- Adds input. -/
def feed (s : Inflater) (piece : Bytes) : Inflater :=
  { s with input := s.input ++ ⟨piece.toArray⟩ }

/-- Whether all the input has been consumed. -/
def isHungry (s : Inflater) : Bool := s.input.size ≤ s.consumed

/-- Whether something in the window has not been handed out. -/
def isPending (s : Inflater) : Bool := s.handedOut < s.output.size

/-- Decodes until the output has `limit` bytes or something else makes it pause. Every second step
    reads a bit of the input, so a `fuel` of twice the number of bits left and a few more is never
    used up. -/
def run (limit : Nat) : (fuel : Nat) → Inflater → Pause × Inflater
  | 0, s => (.starved, s)
  | fuel + 1, s =>
    match s.phase with
    | .finished => (.finished, s)
    | .header =>
      match readHeader.run { input := s.input, position := s.position } with
      | .ok phase c => run limit fuel { s with phase, position := c.position }
      | .error .starved _ => (.starved, s)
      | .error .corrupt _ => (.corrupt, s)
    | .symbols block =>
      match (readSymbol block).run { input := s.input, position := s.position } with
      | .ok phase c => run limit fuel { s with phase, position := c.position }
      | .error .starved _ => (.starved, s)
      | .error .corrupt _ => (.corrupt, s)
    | .literal b block =>
      if limit ≤ s.output.size then (.full, s)
      else run limit fuel { s with phase := .symbols block, output := s.output.push b }
    | .repeating distance count block =>
      if limit ≤ s.output.size then (.full, s)
      else
        -- What has no room waits for the next window.
        let now := min count (limit - s.output.size)
        let phase := if now = count then .symbols block else .repeating distance (count - now) block
        run limit fuel { s with phase, output := extendFrom distance now s.output }
    | .plain left last =>
      if left = 0 then run limit fuel { s with phase := .behind last }
      else if limit ≤ s.output.size then (.full, s)
      else
        let start := s.position / 8
        let now := min (min left (s.input.size - start)) (limit - s.output.size)
        if now = 0 then (.starved, s)
        else
          run limit fuel { s with
            phase := .plain (left - now) last
            position := (start + now) * 8
            output := s.output ++ s.input.extract start (start + now) }

/-- Decodes into the window, which must be empty, and counts what has been consumed. -/
def advance (s : Inflater) : Pause × Inflater :=
  let limit := (s.output.size / windowSize + 1) * windowSize
  let (pause, s) := run limit (2 * (s.input.size * 8 - s.position) + 4) s
  let consumed :=
    if pause = .starved then s.input.size else max s.consumed ((s.position + 7) / 8)
  (pause, { s with consumed })

/-- Hands out what the window holds, as far as there is room for it. -/
def handOut (s : Inflater) (room : Nat) : Inflater :=
  { s with handedOut := min s.output.size (s.handedOut + room) }

/-- Decodes into `room`, window after window. A further window is begun only if there is room left
    and input left, or if the input has `ended` and no more can come. Every window but the last
    takes up room, so a `fuel` of more than `room` is enough. -/
def fillRoom (ended : Bool) : (fuel room : Nat) → Inflater → Pause × Inflater
  | 0, _, s => (.starved, s)
  | fuel + 1, room, s =>
    let before := s.handedOut
    let (pause, s) := s.advance
    let s := s.handOut room
    let room := room - (s.handedOut - before)
    if pause = .full ∧ !s.isPending ∧ 0 < room ∧ (ended ∨ !s.isHungry) then
      fillRoom ended fuel room s
    else (pause, s)

end Inflater

end Deflate

end NestedZip
