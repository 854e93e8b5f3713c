import NestedZip.Inflating

/-!
# Windows

A window is a range of a source. The data of an entry is a window of its archive, a nested archive
is a window of the archive around it, and all of them share one source: nothing is copied. A
window is only ever carved out of a larger one, so it cannot reach outside of it.

A window over compressed data knows the size its data has once inflated. Its bytes are only to be
had from the front, so it refuses to be carved or read at a position.

Whoever wants all the bytes at once makes a buffer of the size that is claimed before a byte is
read. A size that no buffer can have ends the program; that there is memory for any smaller one is
taken for granted.

## Main definitions

* `Window`: A range of a source, compressed or not.
* `Window.carve`: A window inside a window.
* `Window.readExactAt`: Bytes at a position of a window.
* `Window.stream`, `Window.deliver`, `Window.readAll`: All bytes from front to back.
* `Window.rereading`: The same window of a source that has changed.

## Theorems

* `Window.carve_eq_ok_iff`: When carving succeeds, and what it gives.
-/

namespace NestedZip

/-- The first number that does not fit in 64 bits. -/
def wordLimit : Nat := UInt64.size

/-- A range of a source. -/
structure Window where
  backing : Backing
  offset : Nat
  length : Nat
  /-- The size of the data once inflated, if it is compressed. -/
  inflatedSize : Option Nat := none

namespace Window

/-- The whole of a source. -/
def whole (backing : Backing) : Window := { backing, offset := 0, length := backing.size }

/-- The name of the source. -/
def identity (w : Window) : String := w.backing.identity

/-- The number of bytes to be read. -/
def size (w : Window) : Nat := w.inflatedSize.getD w.length

def isCompressed (w : Window) : Bool := w.inflatedSize.isSome

/-- Takes the bytes of a window as compressed data of this size. -/
def inflating (w : Window) (size : Nat) : Window := { w with inflatedSize := some size }

/-- The window of `length` bytes at `offset` inside a window. -/
def carve (w : Window) (offset length : Nat) : Except Error Window :=
  if w.isCompressed then .error (.notRandomAccess w.identity w.offset)
  else if offset + length ≤ w.length then
    .ok { backing := w.backing, offset := w.offset + offset, length }
  else
    .error (.outOfBounds w.identity (min (w.offset + offset) (wordLimit - 1)) length w.length)

/-- Exactly `count` bytes at `offset` inside a window. -/
def readExactAt (w : Window) (offset count : Nat) : Metered Error Bytes := do
  let part ← .ofExcept (w.carve offset count)
  (w.backing.readExactAt part.offset count).mapError .io

/-- The bytes of a window as they are stored, from the front. -/
def stream (w : Window) : Stream :=
  { backing := w.backing, position := w.offset, stop := w.offset + w.length }

/-- What reading a window into a sink from front to back brings, inflated if it is compressed. -/
def deliver (w : Window) (inflate : Decompressor) (sink : Sink) : Delivery :=
  if w.isCompressed then inflate w.stream.raw sink else w.stream.drain

/-- All the bytes of a window, inflated if it is compressed. -/
def readAll (w : Window) (inflate : Decompressor) : Metered Error Bytes :=
  if w.size < Buffer.limit then (w.deliver inflate (.keeping w.size)).whole.mapError .io
  else .fail (.overflow .capacity)

/-- The same range of a source whose bytes are other ones by now. -/
def rereading (w : Window) (content : ByteArray) : Window :=
  { w with backing := { w.backing with content } }

/-- A window in words, for diagnosis. -/
def describe (w : Window) : String :=
  let inflated := match w.inflatedSize with
    | none => "None"
    | some size => s!"Some({size})"
  let fields := s!"source: {Text.quoted w.identity}, offset: {w.offset}, length: {w.length}, "
  "ByteRangeSource \x7b " ++ fields ++ "inflated_size: " ++ inflated ++ " \x7d"

/-- A part is cut out of a plain window that it fits into, and of no other. -/
theorem carve_eq_ok_iff {w part : Window} {offset length : Nat} :
    w.carve offset length = .ok part ↔
      w.inflatedSize = none ∧ offset + length ≤ w.length ∧
        part = { backing := w.backing, offset := w.offset + offset, length } := by
  unfold carve isCompressed
  cases w.inflatedSize with
  | some size => simp
  | none =>
    by_cases h : offset + length ≤ w.length
    · simp [h, eq_comm]
    · simp [h]

end Window

end NestedZip
