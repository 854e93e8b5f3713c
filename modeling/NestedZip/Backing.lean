import NestedZip.Bytes
import NestedZip.Error
import NestedZip.Metered

/-!
# Sources of bytes

Every archive, however deeply nested, lies inside one source: a buffer, a file, or something on
another machine. A source is read at any position, and one read may bring fewer bytes than were
asked for: because the source ends, or because it never brings more than a certain number at
once. A read that brings nothing has met the end.

The size a source claims is what archives are laid out against, and it need not be the number of
bytes that can be had. Reading stays correct if they differ: a read that has to be filled goes on
until it is, or fails naming the position at which the source ended.

## Main definitions

* `Backing`: A source: its name, its bytes, the size it claims, and how much it brings at once.
* `Backing.readAt`: One read.
* `Backing.readExactAt`: A read that has to be filled.

## Theorems

* `Backing.slice_eq`: What a slice of the packed bytes is, as a list.
* `Backing.length_readAt_le`: A read brings at most what was asked for.
-/

namespace NestedZip

/-- A source of bytes. Its `identity` names it in messages and tells it from other sources. -/
structure Backing where
  identity : String
  content : ByteArray
  size : Nat := content.size
  /-- The most bytes that one read brings, if there is a limit. -/
  perRead : Option Nat := none

namespace Backing

/-- A buffer in memory under a name. -/
def memory (name : String) (content : ByteArray) : Backing :=
  { identity := "mem:" ++ name, content }

/-- The bytes that can be had. -/
def bytes (b : Backing) : Bytes := b.content.data.toList

/-- The bytes from `offset` on, at most `count`. -/
def slice (b : Backing) (offset count : Nat) : Bytes :=
  let start := min offset b.content.size
  (b.content.extract start (min (offset + count) b.content.size)).data.toList

/-- One read of at most `room` bytes. -/
def readAt (b : Backing) (offset room : Nat) : Bytes :=
  b.slice offset (min room (b.perRead.getD room))

/-- Reads on until `count` more bytes are there. `done` holds the bytes so far, last first, and
    `fetched` their number. Every read brings a byte or ends the reading, so a `fuel` of `count`
    is enough. -/
def fill (b : Backing) : (fuel offset count : Nat) → (done : Bytes) → (fetched : Nat) →
    Metered IoError Bytes
  | 0, _, _, done, fetched => { outcome := .ok done.reverse, fetched }
  | fuel + 1, offset, count, done, fetched =>
    if count = 0 then { outcome := .ok done.reverse, fetched }
    else
      let piece := b.readAt offset count
      if piece.isEmpty then { outcome := .error (.endOfSource b.identity offset), fetched }
      else
        b.fill fuel (offset + piece.length) (count - piece.length) (piece.reverse ++ done)
          (fetched + piece.length)

/-- Exactly `count` bytes from `offset` on. -/
def readExactAt (b : Backing) (offset count : Nat) : Metered IoError Bytes :=
  b.fill count offset count [] 0

/-- A slice is what lies at its place, and less where the source ends before. -/
theorem slice_eq (b : Backing) (offset count : Nat) :
    b.slice offset count = (b.bytes.drop offset).take count := by
  have hsize : b.content.size = b.bytes.length := Array.length_toList.symm
  have hslice : b.slice offset count =
      (b.bytes.drop (min offset b.bytes.length)).take
        (min (offset + count) b.bytes.length - min offset b.bytes.length) := by
    rw [← hsize]
    simp only [slice, ByteArray.data_extract, Array.toList_extract, List.extract_eq_take_drop]
    rfl
  -- Behind the end of the source both sides are empty.
  rw [hslice]
  by_cases h : offset ≤ b.bytes.length
  · rw [Nat.min_eq_left h]
    by_cases h' : offset + count ≤ b.bytes.length
    · rw [Nat.min_eq_left h', Nat.add_sub_cancel_left]
    · rw [Nat.min_eq_right (by omega), List.take_of_length_le (by simp),
        List.take_of_length_le (by simp; omega)]
  · simp [List.drop_of_length_le (Nat.le_of_not_le h), Nat.min_eq_right (Nat.le_of_not_le h)]

theorem length_readAt_le (b : Backing) (offset room : Nat) :
    (b.readAt offset room).length ≤ room := by
  simp only [readAt, slice_eq, List.length_take]
  omega

end Backing

end NestedZip
