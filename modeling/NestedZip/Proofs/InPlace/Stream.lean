import NestedZip.Inflating
import NestedZip.Proofs.Stream

/-!
# Streams at Two Places

Two streams with the same bytes left in them bring the same, wherever they are.

The place of a stream occurs in nothing that it brings: the bytes come by a
number that depends on what is left, and a failure that would tell the place
does not arise where all the bytes can be had. So a read brings the same from
both streams and leaves the same in them. What is brought until the end is all
that a decompressor gets to see, so both streams inflate to the same data too,
however that is done.

## Main definitions

* `Stream.Mirrors`: Two streams with the same bytes left.

## Theorems

* `Stream.Mirrors.drain`: Reading to the end of both streams.
* `Stream.Mirrors.raw`: What a decompressor gets to see of them.
-/

namespace NestedZip

/-- Two streams, maybe at different places, with the same bytes left and sources
    that bring as many of them at once. -/
structure Stream.Mirrors (s t : Stream) : Prop where
  left : s.left = t.left
  perRead : s.backing.perRead = t.backing.perRead
  sound : s.Sound
  sound' : t.Sound

/-- Both streams bring what is left in them and do not fall short. -/
theorem Stream.Mirrors.drain {s t : Stream} (h : s.Mirrors t) : s.drain = t.drain := by
  rw [drain_eq h.sound, drain_eq h.sound', h.left]

/-- A decompressor cannot tell the two streams apart. -/
theorem Stream.Mirrors.raw {s t : Stream} (h : s.Mirrors t) : s.raw = t.raw := by
  unfold Stream.raw
  rw [h.drain, h.perRead]

end NestedZip
