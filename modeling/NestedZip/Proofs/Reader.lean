import Mathlib.Algebra.Group.Nat.Defs
import NestedZip.Bytes

/-!
# Readers Undo Layouts

What a reader of fields and the layout of those fields have to do with each
other.

A round trip alone would not be enough here. It says that what was written is
read back, and it says nothing about bytes that nobody wrote, which is what a
hostile archive is made of. `Undoes` therefore goes both ways: a reader
answers a value and a rest exactly when its input is the layout of that value
followed by that rest. From left to right this is what acceptance means, and
from right to left it is the round trip.

Records are read field by field in a `do` block. `Undoes.bind_iff` opens one
step of such a block, so a record's reader is unfolded by rewriting with it
once for every field.

## Main definitions

* `Undoes`: A reader that reads exactly what a layout writes.

## Theorems

* `Bytes.toNatLE_ofNatLE`: A number that fits its width is read back.
* `number_eq_some_iff`: Reading a number of a given width.
* `word_undoes`: A word read through its number undoes its layout.
* `u16_undoes`, `u32_undoes`, `u64_undoes`: The three widths there are.
* `bytes_eq_some_iff`: Reading a given number of bytes.
* `Undoes.bind_iff`: One field, and then whatever follows.
* `pure_eq_some_iff`: The end of a block of fields.
-/

namespace NestedZip

namespace Bytes

/-- A number that fits is read back from its bytes. -/
theorem toNatLE_ofNatLE {width n : Nat} (h : n < 256 ^ width) :
    toNatLE (ofNatLE width n) = n := by
  induction width generalizing n with
  | zero =>
      rw [Nat.pow_zero] at h
      rw [ofNatLE, toNatLE]
      omega
  | succ width ih =>
      have hn : n / 256 < 256 ^ width := by
        rw [Nat.pow_succ] at h
        exact Nat.div_lt_of_lt_mul (by omega)
      simp only [ofNatLE, toNatLE, ih hn, UInt8.toNat_ofNat']
      omega

theorem toNatLE_lt (bytes : Bytes) : toNatLE bytes < 256 ^ bytes.length := by
  induction bytes with
  | nil => exact Nat.zero_lt_one
  | cons b rest ih =>
      have hb : b.toNat < 256 := b.toNat_lt
      simp only [toNatLE, List.length_cons, Nat.pow_succ]
      omega

end Bytes

namespace Reader

/-- The reader answers exactly what the layout writes, and leaves the rest. -/
def Undoes {α : Type} (read : Reader α) (write : α → Bytes) : Prop :=
  ∀ (a : α) (input rest : Bytes), read input = some (a, rest) ↔ input = write a ++ rest

theorem number_append {width n : Nat} (h : n < 256 ^ width) (rest : Bytes) :
    number width (Bytes.ofNatLE width n ++ rest) = some (n, rest) := by
  have hsplit := Bytes.split?_append (Bytes.ofNatLE width n) rest
  rw [Bytes.length_ofNatLE] at hsplit
  simp only [number, hsplit, Option.map_some, Bytes.toNatLE_ofNatLE h]

/-- A number is read if it is what stands in front. -/
theorem number_eq_some_iff {width n : Nat} {input rest : Bytes} :
    number width input = some (n, rest) ↔
      n < 256 ^ width ∧ input = Bytes.ofNatLE width n ++ rest := by
  constructor
  · intro h
    unfold number at h
    rw [Option.map_eq_some_iff] at h
    rcases h with ⟨⟨digits, tail⟩, hsplit, heq⟩
    rw [Bytes.split?_eq_some_iff] at hsplit
    rcases hsplit with ⟨rfl, rfl⟩
    simp only [Prod.mk.injEq] at heq
    rcases heq with ⟨rfl, rfl⟩
    exact ⟨Bytes.toNatLE_lt digits, by rw [Bytes.ofNatLE_toNatLE]⟩
  · rintro ⟨hn, rfl⟩
    exact number_append hn rest

/-- A word is read through its number. Whatever the word, it only has to be
    the number's double: the same number again from the word, and the same
    word again from the number. -/
theorem word_undoes {W : Type} {width : Nat} {ofNat : Nat → W} {toNat : W → Nat}
    (hword : ∀ w, ofNat (toNat w) = w) (hnumber : ∀ n, n < 256 ^ width → toNat (ofNat n) = n)
    (hlt : ∀ w, toNat w < 256 ^ width) :
    Undoes (fun input => (number width input).map fun (n, rest) => (ofNat n, rest))
      (fun w => Bytes.ofNatLE width (toNat w)) := by
  intro w input rest
  rw [Option.map_eq_some_iff]
  constructor
  · rintro ⟨⟨n, tail⟩, hread, heq⟩
    rw [number_eq_some_iff] at hread
    simp only [Prod.mk.injEq] at heq
    rcases heq with ⟨rfl, rfl⟩
    simp only [hnumber n hread.1]
    exact hread.2
  · intro hinput
    exact ⟨(toNat w, rest), number_eq_some_iff.mpr ⟨hlt w, hinput⟩, by simp only [hword]⟩

theorem u16_undoes : Undoes u16 (fun n => Bytes.ofNatLE 2 n.toNat) :=
  word_undoes (fun _ => UInt16.ofNat_toNat) (fun _ h => UInt16.toNat_ofNat_of_lt' h)
    (fun n => n.toNat_lt)

theorem u32_undoes : Undoes u32 (fun n => Bytes.ofNatLE 4 n.toNat) :=
  word_undoes (fun _ => UInt32.ofNat_toNat) (fun _ h => UInt32.toNat_ofNat_of_lt' h)
    (fun n => n.toNat_lt)

theorem u64_undoes : Undoes u64 (fun n => Bytes.ofNatLE 8 n.toNat) :=
  word_undoes (fun _ => UInt64.ofNat_toNat) (fun _ h => UInt64.toNat_ofNat_of_lt' h)
    (fun n => n.toNat_lt)

theorem bytes_eq_some_iff {count : Nat} {input front rest : Bytes} :
    bytes count input = some (front, rest) ↔ input = front ++ rest ∧ front.length = count :=
  Bytes.split?_eq_some_iff

theorem Undoes.bind_iff {α β : Type} {read : Reader α} {write : α → Bytes}
    (h : Undoes read write) {next : α → Reader β} {input rest : Bytes} {b : β} :
    (read >>= next) input = some (b, rest) ↔
      ∃ a tail, input = write a ++ tail ∧ next a tail = some (b, rest) := by
  change (read input >>= fun p => next p.1 p.2) = _ ↔ _
  simp only [Option.bind_eq_bind, Option.bind_eq_some_iff, Prod.exists]
  exact exists_congr fun a => exists_congr fun tail => and_congr_left' (h a input tail)

theorem pure_eq_some_iff {α : Type} {input rest : Bytes} {a b : α} :
    (pure a : Reader α) input = some (b, rest) ↔ a = b ∧ input = rest := by
  change some (a, input) = some (b, rest) ↔ _
  rw [Option.some.injEq, Prod.mk.injEq]

end Reader

end NestedZip
