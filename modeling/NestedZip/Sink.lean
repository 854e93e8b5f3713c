/-!
# Sinks

Whoever reads a stream names the room for each read, and what there is room for decides how far
compressed data is decoded, and so how much of it is fetched. A sink is where the bytes go, as far
as that matters here: how much room there is, given the numbers of bytes that came.

Bytes that are passed on go through a block that is empty again for each read. Bytes that are kept
go into a buffer that grows. A buffer that is full doubles its capacity, but not before it is known
that there is more: a buffer of just the right size is not doubled only to learn that nothing is
left. So a first buffer that is full, or too small to begin with, is read past with a small probe.

## Main definitions

* `Buffer`: A buffer that grows.
* `Sink`: A block or a buffer.
* `Sink.room`, `Sink.add`: The room for a read, and the sink after it.

## Theorems

* `Buffer.room_pos`: There is always room.
-/

namespace NestedZip

/-- A buffer that grows. Of what is in it only the number of bytes is kept. -/
structure Buffer where
  /-- The capacity it was made with. -/
  initial : Nat
  capacity : Nat := initial
  length : Nat := 0
  /-- The most bytes that are read at once. -/
  atOnce : Nat := 8192

namespace Buffer

/-- The first number of bytes that no buffer can have. -/
def limit : Nat := 0x8000000000000000

/-- An empty buffer with a capacity. -/
def ofCapacity (capacity : Nat) : Buffer := { initial := capacity }

/-- The size of a probe, and of the least room in a buffer that has grown. -/
def probeSize : Nat := 32

/-- Whether the next read is a probe. -/
def probes (b : Buffer) : Bool :=
  (b.length == 0 && b.capacity < probeSize) || (b.length == b.capacity && b.capacity == b.initial)

/-- The capacity once there is room for `more` bytes. -/
def capacityFor (b : Buffer) (more : Nat) : Nat :=
  if b.length + more ≤ b.capacity then b.capacity
  else max (2 * b.capacity) (max (b.length + more) 8)

/-- The capacity for the next read, unless it is a probe. -/
def nextCapacity (b : Buffer) : Nat :=
  if b.capacity ≤ b.length then b.capacityFor probeSize else b.capacity

/-- The room for the next read. -/
def room (b : Buffer) : Nat :=
  if b.probes then probeSize else min (b.nextCapacity - b.length) b.atOnce

/-- The buffer after a read that brought `count` bytes. A read that filled all that may be read at
    once lets twice as much be read from then on. -/
def add (b : Buffer) (count : Nat) : Buffer :=
  -- A probe grows the buffer only if it brought something that has no room.
  if b.probes then { b with capacity := b.capacityFor count, length := b.length + count }
  else
    let filled := count = b.room ∧ b.atOnce ≤ b.room
    { b with
      capacity := b.nextCapacity
      length := b.length + count
      atOnce := if filled then 2 * b.atOnce else b.atOnce }

theorem length_lt_nextCapacity (b : Buffer) : b.length < b.nextCapacity := by
  unfold nextCapacity capacityFor probeSize
  by_cases hfull : b.capacity ≤ b.length
  · rw [if_pos hfull, if_neg (by omega)]
    omega
  · rw [if_neg hfull]
    omega

/-- A buffer that takes something at once always has room. -/
theorem room_pos {b : Buffer} (h : 0 < b.atOnce) : 0 < b.room := by
  have hlength := b.length_lt_nextCapacity
  unfold room probeSize
  cases b.probes with
  -- A probe reads into a block of its own.
  | true => exact Nat.succ_pos 31
  | false =>
    show 0 < min (b.nextCapacity - b.length) b.atOnce
    omega

end Buffer

/-- Where the bytes of a stream go. -/
inductive Sink where
  /-- A block that is passed on after each read. -/
  | block (size : Nat)
  /-- A buffer that keeps what was read. -/
  | buffer (b : Buffer)

namespace Sink

/-- The block through which content is passed on. -/
def passingOn : Sink := .block 8192

/-- A buffer for content that is expected to have this size. -/
def keeping (expected : Nat) : Sink := .buffer (.ofCapacity expected)

/-- The room for the next read. -/
def room : Sink → Nat
  | block size => size
  | buffer b => b.room

/-- The sink after a read that brought `count` bytes. -/
def add : Sink → (count : Nat) → Sink
  | block size, _ => block size
  | buffer b, count => buffer (b.add count)

end Sink

end NestedZip
