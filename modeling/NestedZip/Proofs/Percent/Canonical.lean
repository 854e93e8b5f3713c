import Mathlib.Data.List.Infix
import NestedZip.Proofs.Percent.Denotation

/-!
# The Written Form of a Name

Which texts names are written as, out of all that stand for them.

A name has many written forms. A digit may be of either case, any byte may be
escaped, and of the characters that would have been escaped most may stand for
themselves. One of these forms is what writing chooses: nothing is escaped that
need not be, everything else is, and the digits are upper-case. `Canonical`
says this of a text, without a name in view.

That a text is canonical is seen byte by byte, and each byte has one canonical
form, so a name has no two of them. Reading a text and writing the name
therefore changes every text but the canonical ones.

## Main definitions

* `Unescaped`: A character that is written as it is.
* `Canonical`: A text in which as little is escaped as can be.

## Theorems

* `canonical_encode`: What is written is canonical.
* `Canonical.eq_encode`: A canonical text is what the name it stands for is written as.
* `encode_exact`: Writing and reading undo each other, and on which texts.
-/

namespace NestedZip

namespace Percent

/-- A character that is written as it is. -/
def Unescaped (c : Char) : Prop := c.isAlphanum ∨ c ∈ ['-', '.', '_', '~', '/']

instance (c : Char) : Decidable (Unescaped c) := inferInstanceAs (Decidable (_ ∨ _))

/-- An upper-case hexadecimal digit. -/
def upperDigit (value : Nat) : Char := (Nat.digitChar value).toUpper

/-- A text of characters that are written as they are, and of escapes with upper-case digits for
    bytes that are none of these. -/
inductive Canonical : List Char → Prop
  | nil : Canonical []
  | plain {c : Char} {text : List Char} : Unescaped c → Canonical text → Canonical (c :: text)
  | escape {h l : Nat} {text : List Char} : h < 16 → l < 16 →
      (∀ c, Unescaped c → c.toNat ≠ 16 * h + l) → Canonical text →
      Canonical ('%' :: upperDigit h :: upperDigit l :: text)

theorem hexDigit_eq : ∀ n < 16, hexDigit n = upperDigit n := by
  decide

theorem isPlain_iff (b : UInt8) : isPlain b = true ↔ Unescaped (Char.ofNat b.toNat) := by
  revert b
  exact forall_byte (by decide +kernel)

theorem toNat_ofNat_byte (b : UInt8) : (Char.ofNat b.toNat).toNat = b.toNat := by
  revert b
  exact forall_byte (by decide +kernel)

/-- What stands for itself is one byte. -/
theorem Unescaped.ascii {c : Char} (h : Unescaped c) : c.toNat < 0x80 := by
  rcases h with halphanum | hmark
  · -- The classes of letters and of digits are ranges of codes.
    change ((decide ('A'.val ≤ c.val ∧ c.val ≤ 'Z'.val) ||
      (decide ('a'.val ≤ c.val) && decide (c.val ≤ 'z'.val))) ||
      (decide ('0'.val ≤ c.val) && decide (c.val ≤ '9'.val))) = true at halphanum
    simp only [Bool.or_eq_true, Bool.and_eq_true, decide_eq_true_eq,
      UInt32.le_iff_toNat_le] at halphanum
    have hupper : 'Z'.val.toNat = 0x5A := rfl
    have hlower : 'z'.val.toNat = 0x7A := rfl
    have hdigit : '9'.val.toNat = 0x39 := rfl
    change c.val.toNat < 0x80
    omega
  · simp only [List.mem_cons, List.not_mem_nil, or_false] at hmark
    rcases hmark with rfl | rfl | rfl | rfl | rfl <;> decide

theorem Unescaped.ne_percent {c : Char} (h : Unescaped c) : c ≠ '%' := by
  rintro rfl
  exact absurd h (by decide)

/-- A character that is written as it is takes one byte, which is written as that character. -/
theorem Unescaped.encodeByte {c : Char} (h : Unescaped c) :
    encodeByte (UInt8.ofNat c.toNat) = [c] := by
  have hbyte : (UInt8.ofNat c.toNat).toNat = c.toNat := by
    rw [UInt8.toNat_ofNat', Nat.mod_eq_of_lt (Nat.lt_trans h.ascii (by decide))]
  have hc : Char.ofNat (UInt8.ofNat c.toNat).toNat = c := by
    rw [hbyte, Char.ofNat_toNat]
  have hplain : isPlain (UInt8.ofNat c.toNat) = true := by
    rw [isPlain_iff, hc]
    exact h
  unfold Percent.encodeByte
  rw [if_pos hplain, hc]

/-- A byte is none of these characters if it is not written as it is. -/
theorem ne_of_not_isPlain {b : UInt8} (h : ¬ isPlain b = true) (c : Char) (hc : Unescaped c) :
    c.toNat ≠ b.toNat := by
  intro hsame
  rw [isPlain_iff, ← hsame, Char.ofNat_toNat] at h
  exact h hc

theorem not_isPlain_of_ne {b : UInt8} (h : ∀ c, Unescaped c → c.toNat ≠ b.toNat) :
    ¬ isPlain b = true := by
  intro hplain
  exact h _ ((isPlain_iff b).mp hplain) (toNat_ofNat_byte b)

/-- What one byte is written as, in front of a canonical text, makes a canonical text. -/
theorem Canonical.encodeByte_append {text : List Char} (h : Canonical text) (b : UInt8) :
    Canonical (Percent.encodeByte b ++ text) := by
  have hb : b.toNat < 256 := b.toNat_lt
  unfold Percent.encodeByte
  by_cases hplain : isPlain b = true
  · rw [if_pos hplain]
    exact .plain ((isPlain_iff b).mp hplain) h
  · rw [if_neg hplain, hexDigit_eq _ (by omega), hexDigit_eq _ (by omega)]
    refine .escape (by omega) (by omega) (fun c hc => ?_) h
    rw [Nat.div_add_mod]
    exact ne_of_not_isPlain hplain c hc

/-- What is written is canonical. -/
theorem canonical_encode (name : Bytes) : Canonical (encode name).toList := by
  rw [toList_encode]
  induction name with
  | nil => exact .nil
  | cons b name ih =>
      rw [List.flatMap_cons]
      exact ih.encodeByte_append b

theorem upperDigit_isDigit {n : Nat} (h : n < 16) : IsDigit n (upperDigit n) := ⟨h, .inr rfl⟩

/-- A digit stands for one number only. -/
theorem IsDigit.unique {m n : Nat} {c : Char} (h : IsDigit m c) (h' : IsDigit n c) : m = n :=
  Option.some.inj (h.hexValue?_eq.symm.trans h'.hexValue?_eq)

/-- A byte that is none of the characters that are written as they are is written as an escape. -/
theorem encodeByte_of_ne {h l : Nat} (hh : h < 16) (hl : l < 16)
    (hne : ∀ c, Unescaped c → c.toNat ≠ 16 * h + l) :
    encodeByte (UInt8.ofNat (16 * h + l)) = ['%', upperDigit h, upperDigit l] := by
  have hbyte : (UInt8.ofNat (16 * h + l)).toNat = 16 * h + l := by
    rw [UInt8.toNat_ofNat', Nat.mod_eq_of_lt (by omega)]
  have hplain : ¬ isPlain (UInt8.ofNat (16 * h + l)) = true :=
    not_isPlain_of_ne (by rw [hbyte]; exact hne)
  unfold Percent.encodeByte
  rw [if_neg hplain, hbyte, show (16 * h + l) / 16 = h by omega,
    show (16 * h + l) % 16 = l by omega, hexDigit_eq h hh, hexDigit_eq l hl]

/-- A canonical text is what the name that it stands for is written as. -/
theorem Canonical.eq_encode {text : List Char} {name : Bytes} (h : Canonical text)
    (hname : Denotes text name) : text = (encode name).toList := by
  rw [toList_encode]
  -- The cases of the grammar are those of the encoding, and the name says which one it is.
  induction h generalizing name with
  | nil =>
      cases hname
      rfl
  | plain hc _ ih =>
      cases hname with
      | escape => exact absurd rfl hc.ne_percent
      | plain _ hrest =>
          rw [utf8EncodeChar_ascii hc.ascii, List.singleton_append, List.flatMap_cons,
            hc.encodeByte, ← ih hrest]
          rfl
  | escape hh hl hne _ ih =>
      cases hname with
      | escape hhigh hlow hrest =>
          obtain rfl := hhigh.unique (upperDigit_isDigit hh)
          obtain rfl := hlow.unique (upperDigit_isDigit hl)
          rw [List.flatMap_cons, encodeByte_of_ne hh hl hne, ← ih hrest]
          rfl
      | plain hc => exact absurd rfl hc

/-- A name is read back from what it is written as. That holds no separator and no percent sign
    but in front of two digits, and escapes no more than it has to, with upper-case digits. Of
    the texts that stand for a name it is the only one of this kind. -/
theorem encode_exact :
    (∀ name : Bytes,
      decode (encode name) = .ok name ∧ Canonical (encode name).toList ∧
        ¬ ['!', '/'] <:+: (encode name).toList ∧ WellEscaped (encode name).toList) ∧
    (∀ (text : String) (name : Bytes), decode text = .ok name →
      decode (encode name) = .ok name ∧ (encode name = text ↔ Canonical text.toList)) := by
  refine ⟨fun name => ⟨decode_encode name, canonical_encode name, fun hsplit => ?_, ?_⟩,
    fun text name hname => ⟨decode_encode name, fun hsame => ?_, fun hcanonical => ?_⟩⟩
  · -- An exclamation mark is always escaped, so no separator is written.
    exact not_mem_encode name (hsplit.subset List.mem_cons_self)
  · exact exists_decode_iff.mp ⟨name, decode_encode name⟩
  · exact hsame ▸ canonical_encode name
  · exact String.toList_injective (hcanonical.eq_encode (decode_eq_ok_iff.mp hname)).symm

/-- A lower-case digit, an escape for a byte that needs none and a bare character are three ways
    not to be canonical. The name has another written form. -/
theorem encode_exact_mixed :
    decode "%c3%A9%2Fé%21" = .ok [0xC3, 0xA9, 0x2F, 0xC3, 0xA9, 0x21] ∧
    encode [0xC3, 0xA9, 0x2F, 0xC3, 0xA9, 0x21] = "%C3%A9/%C3%A9%21" ∧
    ¬ Canonical "%c3%A9%2Fé%21".toList ∧ Canonical "%C3%A9/%C3%A9%21".toList := by
  have hread : decode "%c3%A9%2Fé%21" = .ok [0xC3, 0xA9, 0x2F, 0xC3, 0xA9, 0x21] := by
    decide +kernel
  have hwritten : encode [0xC3, 0xA9, 0x2F, 0xC3, 0xA9, 0x21] = "%C3%A9/%C3%A9%21" := by
    decide +kernel
  refine ⟨hread, hwritten, fun hcanonical => ?_, ?_⟩
  · have hsame := (encode_exact.2 _ _ hread).2.mpr hcanonical
    exact absurd hsame (by decide +kernel)
  · exact hwritten ▸ (encode_exact.1 _).2.1

end Percent

end NestedZip
