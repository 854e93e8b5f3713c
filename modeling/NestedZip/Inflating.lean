import NestedZip.Sink
import NestedZip.Stream

/-!
# Inflating

How compressed data is inflated is left open. A decompressor is given what a stream brings when it
is read to its end and the sink that the data is to go into, and tells what comes out, how many of
the compressed bytes it fetched for it, and why it ended early if it did. That is all it is given:
the bytes, and not where they are. So nothing that is said about reading depends on how data is
compressed.

It is told how many bytes come at once as well. A decompressor fetches no more than it needs, and
how much that is in the end depends on the pieces in which the bytes come.

## Main definitions

* `Raw`, `Stream.raw`: What a stream brings, as a decompressor gets to see it.
* `Decompressor`: A way of inflating.
-/

namespace NestedZip

/-- What a stream brings when it is read to its end. -/
structure Raw where
  bytes : Bytes
  /-- The most bytes that one read brings, if there is a limit. -/
  perRead : Option Nat := none
  /-- Why the bytes end early, if they do. -/
  failure : Option IoError := none

/-- A way of inflating: what comes out of some compressed bytes, read into a sink. -/
abbrev Decompressor := Raw → Sink → Delivery

/-- What a stream brings, as a decompressor gets to see it. -/
def Stream.raw (s : Stream) : Raw :=
  let brought := s.drain
  { bytes := brought.bytes, perRead := s.backing.perRead, failure := brought.failure }

end NestedZip
