/-!
# Byte strings

Archives, entry names and entry data are byte strings, and every number in an archive is
written with its lowest byte first. This module fixes that spelling: `Bytes.ofNatLE` writes a
number in a given number of bytes and `Bytes.toNatLE` reads it back, and `Reader` takes fields
off the front of a byte string one after the other, failing when the bytes run out.

A byte string is a list. What a list says about an archive is its meaning; the large buffers
behind it are kept in a packed form by `Backing`, which hands out lists.

## Main definitions

* `Bytes`: A byte string.
* `Bytes.ofNatLE`, `Bytes.toNatLE`: Numbers in bytes, lowest byte first.
* `Bytes.split?`: The first bytes and the rest, if there are enough.
* `Reader`: A reader of consecutive fields.

## Theorems

* `Bytes.ofNatLE_toNatLE`: Bytes are the spelling of the number they hold.
* `Bytes.split?_append`: Splitting at a border gives the two parts.
-/

namespace NestedZip

/-- A string of bytes. -/
abbrev Bytes := List UInt8

namespace Bytes

/-- The `width` lowest bytes of a number, lowest first. -/
def ofNatLE : (width n : Nat) → Bytes
  | 0, _ => []
  | width + 1, n => UInt8.ofNat n :: ofNatLE width (n / 256)

/-- The number whose bytes these are, lowest first. -/
def toNatLE : Bytes → Nat
  | [] => 0
  | b :: rest => b.toNat + 256 * toNatLE rest

/-- The first `count` bytes and the rest, or `none` if there are fewer. -/
def split? (count : Nat) (bytes : Bytes) : Option (Bytes × Bytes) :=
  if (bytes.take count).length = count then some (bytes.take count, bytes.drop count) else none

@[simp]
theorem length_ofNatLE (width n : Nat) : (ofNatLE width n).length = width := by
  induction width generalizing n with
  | zero => rfl
  | succ width ih => simp [ofNatLE, ih]

/-- Bytes are the little-endian form of the number they stand for. -/
theorem ofNatLE_toNatLE (bytes : Bytes) : ofNatLE bytes.length (toNatLE bytes) = bytes := by
  induction bytes with
  | nil => rfl
  | cons b rest ih =>
    have hb : b.toNat < 256 := b.toNat_lt
    -- The lowest byte is the remainder, and the others are the quotient.
    have hdiv : (b.toNat + 256 * toNatLE rest) / 256 = toNatLE rest := by omega
    have hlow : UInt8.ofNat (b.toNat + 256 * toNatLE rest) = b := by
      apply UInt8.toNat_inj.mp
      rw [UInt8.toNat_ofNat']
      omega
    simp only [toNatLE, List.length_cons, ofNatLE, hdiv, hlow, ih]

theorem split?_append (front rest : Bytes) :
    split? front.length (front ++ rest) = some (front, rest) := by
  simp [split?]

/-- Bytes are split after a count in one way only. -/
theorem split?_eq_some_iff {count : Nat} {bytes front rest : Bytes} :
    split? count bytes = some (front, rest) ↔ bytes = front ++ rest ∧ front.length = count := by
  constructor
  · intro h
    unfold split? at h
    split at h
    · rename_i hlen
      simp only [Option.some.injEq, Prod.mk.injEq] at h
      obtain ⟨rfl, rfl⟩ := h
      exact ⟨(List.take_append_drop count bytes).symm, hlen⟩
    · exact absurd h (by simp)
  · rintro ⟨rfl, rfl⟩
    exact split?_append front rest

/-- They cannot be split after more bytes than there are. -/
theorem split?_eq_none_iff {count : Nat} {bytes : Bytes} :
    split? count bytes = none ↔ bytes.length < count := by
  have hlen : (bytes.take count).length = min count bytes.length := List.length_take
  by_cases h : bytes.length < count
  · have hne : (bytes.take count).length ≠ count := by omega
    simp only [split?, if_neg hne, h]
  · have heq : (bytes.take count).length = count := by omega
    simp only [split?, if_pos heq, h, reduceCtorEq]

end Bytes

/-- Reads a value off the front of a byte string and leaves the rest, or fails because too few
    bytes are left. -/
abbrev Reader := StateT Bytes Option

namespace Reader

/-- The next `count` bytes. -/
def bytes (count : Nat) : Reader Bytes := fun input => Bytes.split? count input

/-- The next `width` bytes as a number. -/
def number (width : Nat) : Reader Nat := fun input =>
  (Bytes.split? width input).map fun (digits, rest) => (digits.toNatLE, rest)

/-- The next two bytes. -/
def u16 : Reader UInt16 := fun input =>
  (number 2 input).map fun (n, rest) => (UInt16.ofNat n, rest)

/-- The next four bytes. -/
def u32 : Reader UInt32 := fun input =>
  (number 4 input).map fun (n, rest) => (UInt32.ofNat n, rest)

/-- The next eight bytes. -/
def u64 : Reader UInt64 := fun input =>
  (number 8 input).map fun (n, rest) => (UInt64.ofNat n, rest)

end Reader

end NestedZip
