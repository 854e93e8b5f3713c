import NestedZip.Backing

/-!
# Streams

A stream hands out the bytes of a range of a source from front to back. Each read names the room
there is and brings some of the bytes that follow, at least one unless the range has ended or
there is no room. A source that ends short of the range is a failure, not an end: the reader would
otherwise take a cut-off entry for a whole one.

Reading a stream to its end is a delivery: the bytes that came, and the failure that stopped them
if one did. What came before a failure has already been handed out, which matters to whoever
prints it and not to whoever wants all of it or nothing.

## Main definitions

* `Stream`: A source, the next position and the position of the end.
* `Stream.read`: One read.
* `Delivery`, `Delivery.whole`: What reading to the end brings.
* `Stream.drain`: Reads to the end.
-/

namespace NestedZip

/-- A place in a source and the position to stop at. -/
structure Stream where
  backing : Backing
  position : Nat
  stop : Nat

/-- What a stream brought until it ended, and why it ended early if it did. -/
structure Delivery where
  bytes : Bytes
  failure : Option IoError := none
  fetched : Nat := 0

namespace Delivery

/-- All the bytes, or the failure. -/
def whole (d : Delivery) : Metered IoError Bytes :=
  match d.failure with
  | none => { outcome := .ok d.bytes, fetched := d.fetched }
  | some e => { outcome := .error e, fetched := d.fetched }

end Delivery

namespace Stream

/-- Brings at most `room` of the bytes that follow, and the stream behind them. A stream whose
    read fails stays where it is. -/
def read (s : Stream) (room : Nat) : Metered IoError (Bytes × Stream) :=
  if s.stop ≤ s.position ∨ room = 0 then { outcome := .ok ([], s) }
  else
    let piece := s.backing.readAt s.position (min room (s.stop - s.position))
    -- The source is at its end, and the range is not.
    if piece.isEmpty then
      { outcome := .error (.endBeforeStop s.backing.identity s.position s.stop) }
    else
      { outcome := .ok (piece, { s with position := s.position + piece.length })
        fetched := piece.length }

/-- Reads on to the end. `done` holds the bytes so far, last first, and `fetched` their number.
    Every read brings a byte or ends the reading, so a `fuel` of the bytes left is enough. -/
def drainFrom : (fuel : Nat) → Stream → (done : Bytes) → (fetched : Nat) → Delivery
  | 0, _, done, fetched => { bytes := done.reverse, fetched }
  | fuel + 1, s, done, fetched =>
    match s.read (s.stop - s.position) with
    | { outcome := .error e, .. } => { bytes := done.reverse, failure := some e, fetched }
    | { outcome := .ok ([], _), .. } => { bytes := done.reverse, fetched }
    | { outcome := .ok (piece, rest), fetched := more } =>
      drainFrom fuel rest (piece.reverse ++ done) (fetched + more)

/-- Reads to the end. -/
def drain (s : Stream) : Delivery := drainFrom (s.stop - s.position) s [] 0

end Stream

end NestedZip
