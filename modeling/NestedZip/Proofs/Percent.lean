import NestedZip.Percent
import NestedZip.Proofs.Metered

/-!
# Written Names are Read Back

The written form of a name stands for that name, and never looks like part of a
locator.

Writing goes byte by byte, so both facts are facts about the written form of
one byte. All of its characters are ASCII, which makes their UTF-8 bytes the
characters themselves, and there are 256 bytes to look at: `encodeByte_bytes`
puts the written form of a byte as bytes, and `decodeBytes_encodeByte` reads
it off the front. The induction over the name then has nothing left to
decide.

## Main definitions

* `hexByte`: The upper-case hexadecimal digit for a number, as a byte.

## Theorems

* `decodeBytes_nil`, `decodeBytes_of_ne`, `decodeBytes_of_short`, `decodeBytes_escape`,
  `decodeBytes_of_invalid`: What reading does with the bytes in front, one case each.
* `decodeBytes_encodeByte`: The written form of a byte is read as that byte.
* `decodeBytes_flatMap_encodeByte`: So is that of a row of bytes.
* `decode_encode`, `encode_injective`: A name is read back, so different names are
  written differently.
* `not_mem_encode`: A written name has no exclamation mark.
* `length_done_le`, `length_done_lt`: What has been read stays, and any byte adds to it.
* `ne_nil_of_decode`: Only the empty text is read as the empty name.
* `decodeBytes_append`, `decode_slashes`: What stands in front is read on its own.
* `decode_eq_error`: What cannot be read is quoted in the failure.
-/

namespace NestedZip

namespace Text

theorem encode_ofList (text : List Char) :
    encode (String.ofList text) = text.flatMap String.utf8EncodeChar := by
  rw [encode, String.toList_ofList]

/-- Different texts are encoded as different bytes. -/
theorem encode_injective {a b : String} (h : encode a = encode b) : a = b := by
  have hbytes : a.toList.utf8Encode = b.toList.utf8Encode := congrArg List.toByteArray h
  have hchars := congrArg ByteArray.utf8Decode? hbytes
  rw [List.utf8Decode?_utf8Encode, List.utf8Decode?_utf8Encode, Option.some.injEq] at hchars
  exact String.toList_injective (congrArg Array.toList hchars)

end Text

namespace Percent

/-- The upper-case hexadecimal digit for a number below sixteen, as a byte. -/
def hexByte (n : Nat) : UInt8 := UInt8.ofNat (if n < 10 then 0x30 + n else 0x37 + n)

/-- What holds of the first 256 numbers as bytes holds of all bytes. -/
theorem forall_byte {P : UInt8 → Prop} (h : ∀ n < 256, P (UInt8.ofNat n)) (b : UInt8) : P b := by
  have hb := h b.toNat b.toNat_lt
  rw [UInt8.ofNat_toNat] at hb
  exact hb

/-- The written form of a byte as bytes. -/
theorem encodeByte_bytes (b : UInt8) :
    (encodeByte b).flatMap String.utf8EncodeChar =
      if isPlain b then [b] else [0x25, hexByte (b.toNat / 16), hexByte (b.toNat % 16)] := by
  revert b
  exact forall_byte (by decide +kernel)

theorem not_isPlain_percent : isPlain 0x25 = false := by decide

theorem hexValue?_hexByte {n : Nat} (h : n < 16) : hexValue? (hexByte n) = some n := by
  revert n
  decide

theorem decodeBytes_nil (done : Bytes) : decodeBytes [] done = .ok done.reverse := rfl

theorem decodeBytes_of_ne {b : UInt8} (h : b ≠ 0x25) (rest done : Bytes) :
    decodeBytes (b :: rest) done = decodeBytes rest (b :: done) := by
  rw [decodeBytes.eq_3 _ _ _ (by rintro _ _ _ rfl; exact absurd rfl h), if_neg h]

/-- With fewer than two bytes behind it, a percent sign is cut short. -/
theorem decodeBytes_of_short {rest : Bytes} (h : rest.length < 2) (done : Bytes) :
    decodeBytes (0x25 :: rest) done =
      .error (.truncatedEscape (Text.decodeLossy (0x25 :: rest))) := by
  rcases rest with _ | ⟨high, _ | ⟨low, more⟩⟩
  · rfl
  · rfl
  · rw [List.length_cons, List.length_cons] at h
    omega

/-- With two bytes behind it, a percent sign is an escape if both are digits. -/
theorem decodeBytes_of_two (high low : UInt8) (rest done : Bytes) :
    decodeBytes (0x25 :: high :: low :: rest) done =
      match hexValue? high, hexValue? low with
      | some h, some l => decodeBytes rest (UInt8.ofNat (h * 16 + l) :: done)
      | _, _ => .error (.invalidEscape (Text.decodeLossy [0x25, high, low])) := rfl

/-- An escape with two digits is the byte that they write. -/
theorem decodeBytes_escape {high low : UInt8} {h l : Nat} (hhigh : hexValue? high = some h)
    (hlow : hexValue? low = some l) (rest done : Bytes) :
    decodeBytes (0x25 :: high :: low :: rest) done =
      decodeBytes rest (UInt8.ofNat (h * 16 + l) :: done) := by
  rw [decodeBytes_of_two, hhigh, hlow]

/-- With two bytes that are not both digits, it is no escape. -/
theorem decodeBytes_of_invalid {high low : UInt8}
    (h : ∀ i j, hexValue? high = some i → hexValue? low ≠ some j) (rest done : Bytes) :
    decodeBytes (0x25 :: high :: low :: rest) done =
      .error (.invalidEscape (Text.decodeLossy [0x25, high, low])) := by
  rw [decodeBytes_of_two]
  rcases hhigh : hexValue? high with _ | i
  · rfl
  rcases hlow : hexValue? low with _ | j
  · rfl
  · exact absurd hlow (h i j hhigh)

/-- The written form of a byte is read as that byte. -/
theorem decodeBytes_encodeByte (b : UInt8) (rest done : Bytes) :
    decodeBytes ((encodeByte b).flatMap String.utf8EncodeChar ++ rest) done =
      decodeBytes rest (b :: done) := by
  have hb : b.toNat < 256 := b.toNat_lt
  rw [encodeByte_bytes]
  by_cases hplain : isPlain b
  · -- The percent sign is never written plainly, so a plain byte opens no escape.
    have hne : b ≠ 0x25 := by
      rintro rfl
      exact absurd hplain (by rw [not_isPlain_percent]; exact Bool.false_ne_true)
    rw [if_pos hplain, List.singleton_append, decodeBytes_of_ne hne]
  · have hvalue : b.toNat / 16 * 16 + b.toNat % 16 = b.toNat := by omega
    rw [if_neg hplain, List.cons_append, List.cons_append, List.singleton_append,
      decodeBytes_escape (hexValue?_hexByte (by omega)) (hexValue?_hexByte (by omega)), hvalue,
      UInt8.ofNat_toNat]

/-- What is written for the bytes of a name is read as them. -/
theorem decodeBytes_flatMap_encodeByte (name done : Bytes) :
    decodeBytes ((name.flatMap encodeByte).flatMap String.utf8EncodeChar) done =
      .ok (done.reverse ++ name) := by
  induction name generalizing done with
  | nil => rw [List.flatMap_nil, List.flatMap_nil, decodeBytes_nil, List.append_nil]
  | cons b name ih =>
      rw [List.flatMap_cons, List.flatMap_append, decodeBytes_encodeByte, ih, List.reverse_cons,
        List.append_assoc, List.singleton_append]

/-- Whatever its bytes are, a name is read back from its written form. -/
theorem decode_encode (name : Bytes) : decode (encode name) = .ok name := by
  rw [decode, encode, Text.encode_ofList, decodeBytes_flatMap_encodeByte]
  rfl

/-- So different names are written differently. -/
theorem encode_injective {a b : Bytes} (h : encode a = encode b) : a = b := by
  have hdecode := congrArg decode h
  rw [decode_encode, decode_encode] at hdecode
  exact Except.ok.inj hdecode

theorem not_mem_encodeByte (b : UInt8) : '!' ∉ encodeByte b := by
  revert b
  exact forall_byte (by decide +kernel)

/-- No byte is written as nothing. -/
theorem encodeByte_ne_nil (b : UInt8) : encodeByte b ≠ [] := by
  unfold encodeByte
  by_cases hplain : isPlain b
  · rw [if_pos hplain]
    exact List.cons_ne_nil _ _
  · rw [if_neg hplain]
    exact List.cons_ne_nil _ _

theorem toList_encode (name : Bytes) : (encode name).toList = name.flatMap encodeByte :=
  String.toList_ofList

/-- A written name cannot hold a separator, since it has no exclamation mark. -/
theorem not_mem_encode (name : Bytes) : '!' ∉ (encode name).toList := by
  rw [toList_encode, List.mem_flatMap]
  rintro ⟨b, _, hb⟩
  exact not_mem_encodeByte b hb

/-- So only the empty name is. -/
theorem encode_ne_nil {name : Bytes} (h : name ≠ []) : (encode name).toList ≠ [] := by
  rw [toList_encode]
  cases name with
  | nil => exact absurd rfl h
  | cons b name =>
      rw [List.flatMap_cons]
      exact List.append_ne_nil_of_left_ne_nil (encodeByte_ne_nil b) _

/-- What has been read stands in front of what is read of the rest. -/
theorem decodeBytes_append (bytes done front : Bytes) :
    decodeBytes bytes (done ++ front) = (decodeBytes bytes done).map (front.reverse ++ ·) := by
  -- The induction is the decoding. What was read before is never looked at again.
  fun_induction decodeBytes bytes done with
  | case1 done =>
      rw [decodeBytes_nil, List.reverse_append]
      rfl
  | case2 done high low rest i j hlow hhigh ih =>
      rw [decodeBytes_escape hhigh hlow]
      exact ih
  | case3 done high low rest hvalue =>
      rw [decodeBytes_of_invalid hvalue]
      rfl
  | case4 done rest hrest =>
      have hshort : rest.length < 2 := by
        rcases rest with _ | ⟨high, _ | ⟨low, more⟩⟩
        · exact Nat.zero_lt_two
        · exact Nat.one_lt_two
        · exact (hrest high low more rfl rfl).elim
      rw [decodeBytes_of_short hshort]
      rfl
  | case5 done b rest hrest hb ih =>
      rw [decodeBytes_of_ne hb]
      exact ih

/-- Reading takes nothing away from what has been read. -/
theorem length_done_le {bytes done name : Bytes} (h : decodeBytes bytes done = .ok name) :
    done.length ≤ name.length := by
  -- What is done already stands in front of whatever is read.
  have happend := decodeBytes_append bytes [] done
  rw [List.nil_append, h] at happend
  rcases hread : decodeBytes bytes [] with fault | rest
  · rw [hread] at happend
    exact absurd happend.symm error_ne_ok
  · rw [hread] at happend
    rw [Except.ok.inj happend, List.length_append, List.length_reverse]
    exact Nat.le_add_right _ _

/-- Whatever is read stands for one byte at least. -/
theorem length_done_lt {b : UInt8} {bytes done name : Bytes}
    (h : decodeBytes (b :: bytes) done = .ok name) : done.length < name.length := by
  by_cases hb : b = 0x25
  · subst hb
    -- The first byte is an escape, which needs two more, or stands for itself.
    rcases bytes with _ | ⟨high, _ | ⟨low, more⟩⟩
    · exact absurd h error_ne_ok
    · exact absurd h error_ne_ok
    · rw [decodeBytes_of_two] at h
      rcases hhigh : hexValue? high with _ | i
      · rw [hhigh] at h
        exact absurd h error_ne_ok
      rcases hlow : hexValue? low with _ | j
      · rw [hhigh, hlow] at h
        exact absurd h error_ne_ok
      · rw [hhigh, hlow] at h
        exact length_done_le h
  · rw [decodeBytes_of_ne hb] at h
    exact length_done_le h

/-- Only the empty text is read as the empty name. -/
theorem ne_nil_of_decode {text : List Char} {name : Bytes}
    (h : decode (String.ofList text) = .ok name) (hne : text ≠ []) : name ≠ [] := by
  unfold decode at h
  rw [except_mapError_eq_ok_iff] at h
  have hbytes : Text.encode (String.ofList text) ≠ [] := by
    rw [Text.encode_ofList]
    cases text with
    | nil => exact absurd rfl hne
    | cons c text =>
        rw [List.flatMap_cons]
        exact List.append_ne_nil_of_left_ne_nil String.utf8EncodeChar_ne_nil _
  obtain ⟨b, bytes, hcut⟩ := List.exists_cons_of_ne_nil hbytes
  rw [hcut] at h
  exact List.ne_nil_of_length_pos (length_done_lt h)

/-- Slashes in front are read as they are. -/
theorem decode_slashes {text : String} {name : Bytes} (h : decode text = .ok name) :
    decode ("//" ++ text) = .ok (0x2F :: 0x2F :: name) := by
  unfold decode at h ⊢
  rw [except_mapError_eq_ok_iff] at h ⊢
  have hbytes : Text.encode ("//" ++ text) = 0x2F :: 0x2F :: Text.encode text := by
    unfold Text.encode
    rw [String.toList_append, List.flatMap_append]
    rfl
  rw [hbytes, decodeBytes_of_ne (by decide), decodeBytes_of_ne (by decide)]
  have hread := decodeBytes_append (Text.encode text) [] [0x2F, 0x2F]
  rw [h] at hread
  exact hread

/-- A text that is not decoded is a malformed locator, whose text it is. -/
theorem decode_eq_error {text : String} {e : Error} (h : decode text = .error e) :
    ∃ fault, e = .malformedLocator text fault := by
  unfold decode at h
  rcases hbytes : decodeBytes (Text.encode text) [] with fault | name
  · rw [hbytes] at h
    exact ⟨fault, (Except.error.inj h).symm⟩
  · rw [hbytes] at h
    exact absurd h.symm error_ne_ok

end Percent

end NestedZip
