import NestedZip.Deflate.Inflater
import NestedZip.Inflating

/-!
# Inflating streams

A stream of compressed data is read through an inflater. The compressed bytes are fetched in
pieces, and a piece is fetched only when all in front of it has been consumed. So the bytes fetched
for an entry tell how far its data had to be read, and a source that ends early is noticed only if
the data goes on to where it ended. A piece is also fetched when nothing but decoded bytes is left
to be handed out: a read that finds everything consumed fetches before it does anything else, even
if all it is to answer is that the data has ended.

A read that meets corrupt data fails, and what it had decoded until then is lost with it. What
earlier reads handed out is not.

## Main definitions

* `Raw.read`: One read of compressed bytes.
* `InflatingStream`: Compressed bytes, the inflater they are read through, and the number of bytes
  fetched.
* `Inflating`: A step of reading one.
* `InflatingStream.read`: One read.
* `Deflate.inflate`: Reads compressed bytes into a sink, to the end of what they hold.
-/

namespace NestedZip

/-- Brings at most `room` of the bytes, and what is left behind them. Behind the last one stands
    the failure, if there is one. -/
def Raw.read (raw : Raw) (room : Nat) : Except IoError (Bytes × Raw) :=
  let count := min room (raw.perRead.getD room)
  match raw.bytes.take count, raw.failure with
  | [], some e => .error e
  | piece, _ => .ok (piece, { raw with bytes := raw.bytes.drop count })

namespace Deflate

/-- A stream of compressed data that is read through an inflater. -/
structure InflatingStream where
  source : Raw
  /-- The number of compressed bytes there are. -/
  size : Nat := source.bytes.length
  inflater : Inflater := {}
  /-- The number of compressed bytes that were fetched. -/
  fetched : Nat := 0

/-- A step of reading compressed data. What was fetched and handed out before it failed stays
    fetched and handed out. -/
abbrev Inflating := EStateM IoError InflatingStream

namespace InflatingStream

/-- The most bytes of compressed data that are fetched at once. -/
def pieceSize : Nat := 32768

/-- Fetches a piece if all that was fetched has been consumed. -/
def refill : Inflating Unit := fun s =>
  if s.inflater.isHungry then
    match s.source.read pieceSize with
    | .error e => .error e s
    | .ok (piece, source) =>
      .ok () { s with
        source
        inflater := s.inflater.feed piece
        fetched := s.fetched + piece.length }
  else .ok () s

/-- Hands out at most `room` bytes and answers their number, which is zero at the end of the data,
    or answers `none` if more has to be fetched first. To be done behind `refill`, so that nothing
    left to consume means that the source has ended. -/
def handOut (room : Nat) : Inflating (Option Nat) := fun s =>
  let before := s.inflater.handedOut
  if s.inflater.isPending then
    let inflater := s.inflater.handOut room
    .ok (some (inflater.handedOut - before)) { s with inflater }
  else
    let ended := s.inflater.isHungry
    let (pause, inflater) := s.inflater.fillRoom ended (room + 1) room
    let count := inflater.handedOut - before
    if pause = .corrupt then
      .error .corruptDeflate { s with inflater := { inflater with handedOut := before } }
    else if pause = .finished ∨ 0 < count then .ok (some count) { s with inflater }
    else if ended then .error .incompleteDeflate { s with inflater }
    else .ok none { s with inflater }

/-- Fetches until something can be handed out. Every round but the first fetches a byte or is the
    last one, so a `fuel` of two more than the bytes left is enough. -/
def readFrom (room : Nat) : (fuel : Nat) → Inflating Nat
  | 0 => throw .incompleteDeflate
  | fuel + 1 => do
    refill
    match ← handOut room with
    | some count => return count
    | none => readFrom room fuel

/-- Hands out at most `room` bytes and answers their number, which is zero only at the end. -/
def read (room : Nat) : Inflating Nat := fun s =>
  readFrom room (s.size - s.fetched + 2) s

/-- Reads on into a sink until nothing comes. -/
def drainFrom : (fuel : Nat) → Sink → Inflating Unit
  | 0, _ => return ()
  | fuel + 1, sink => do
    let count ← read sink.room
    if count = 0 then return ()
    drainFrom fuel (sink.add count)

/-- What was handed out, and the failure that ended it if one did. -/
def delivery (s : InflatingStream) (failure : Option IoError) : Delivery where
  bytes := (s.inflater.output.extract 0 s.inflater.handedOut).data.toList
  failure
  fetched := s.fetched

end InflatingStream

/-- The most bytes that come out of some number of compressed bytes. No step of decoding brings
    out more than 258 bytes, and every one takes at least a bit. -/
def mostInflated (count : Nat) : Nat := 8 * 258 * count

/-- Reads compressed bytes into a sink, to the end of what they hold. -/
def inflate : Decompressor := fun raw sink =>
  match InflatingStream.drainFrom (mostInflated raw.bytes.length + 1) sink { source := raw } with
  | .ok () s => s.delivery none
  | .error e s => s.delivery (some e)

end Deflate

end NestedZip
