import Mathlib.Data.List.Infix
import NestedZip.Proofs.Checked.Arithmetic
import NestedZip.Proofs.Percent.Denotation

/-!
# Checked Reading of Written Names

Reading a written name at the places of its bytes.

`Percent.decodeBytes` takes bytes off the front of a list. With the text in a
buffer the same is done by counting: a place goes up by one or by three, the
byte at it is looked at, and so are the two behind it if it is a percent sign.
Each of these is a question whether there is such a byte. When something is
wrong the message quotes the text, and there is one more question. A text can
be cut only between two of its characters, and a place counts bytes.

There is always an answer. A place is looked at only while bytes are left,
three bytes are quoted only after they have been found to be there, and the
text is cut only where a percent sign is, which is a character wherever it
stands. What comes out is what the list says.

Most names hold no percent sign and are taken as they are. That is what the
counting would come to as well.

## Main definitions

* `Checked.byteAt`: The byte at a place.
* `Checked.textFrom`: The text from a place on.
* `Checked.readEscapes`: Reading byte by byte and escape by escape.
* `Checked.decodeName`: The name that a text stands for.

## Theorems

* `Checked.textFrom_append`: A text may be cut between two characters.
* `Checked.readEscapes_eq`: Counting places comes to the same as a list.
* `Checked.decodeName_eq`: So does the whole, without a trap.
* `Checked.decodeName_exact`: Which texts are read, as what, and what is
  wrong with the others.
-/

namespace NestedZip

namespace Checked

variable {ε : Type}

/-- The byte at a place of a buffer. -/
def byteAt (buffer : Bytes) (place : Nat) : Checked ε UInt8 :=
  match buffer[place]? with
  | some b => .ok b
  | none => trap .outOfRange

/-- The bytes of a buffer from `start` to `stop`, if there are as many. -/
def slice? (buffer : Bytes) (start stop : Nat) : Option Bytes :=
  if start ≤ stop ∧ stop ≤ buffer.length then some ((buffer.drop start).take (stop - start))
  else none

/-- The text from a place of its bytes on. That place has to be one between two characters, or at
    an end of the text. -/
def textFrom (text : String) (place : Nat) : Checked ε String :=
  if h : String.Pos.Raw.IsValid text ⟨place⟩ then
    .ok (text.sliceFrom (text.pos ⟨place⟩ h)).copy
  else trap .outOfRange

/-- Reads the bytes of a text from a place on. `done` holds the bytes read so far, last first.
    Every step goes on by a byte at least, so a `fuel` of one more than the bytes left is
    enough. -/
def readEscapes (text : String) :
    (fuel place : Nat) → (done : Bytes) → Checked LocatorFault Bytes
  | 0, _, _ => trap .endless
  | fuel + 1, place, done =>
    let bytes := Text.encode text
    if bytes.length ≤ place then .ok done.reverse
    else do
      let b ← byteAt bytes place
      if b ≠ 0x25 then readEscapes text fuel (place + 1) (b :: done)
      else
        match slice? bytes (place + 1) (place + 3) with
        | none => do
          let rest ← textFrom text place
          fail (.truncatedEscape rest)
        | some digits => do
          let high ← byteAt digits 0
          let low ← byteAt digits 1
          match Percent.hexValue? high, Percent.hexValue? low with
          | some h, some l =>
            readEscapes text fuel (place + 3) ((UInt8.ofNat h <<< 4 ||| UInt8.ofNat l) :: done)
          | _, _ => do
            let escape ← slice bytes place (place + 3)
            fail (.invalidEscape (Text.decodeLossy escape))

/-- The same, from the front to the end. -/
def readAllEscapes (text : String) : Checked Error Bytes :=
  mapFailure (.malformedLocator text) (readEscapes text ((Text.encode text).length + 1) 0 [])

/-- The name that a text stands for. A text without a percent sign is taken as it is. -/
def decodeName (text : String) : Checked Error Bytes :=
  if (Text.encode text).contains 0x25 then readAllEscapes text else .ok (Text.encode text)

theorem length_encode (text : String) : (Text.encode text).length = text.utf8ByteSize := by
  rw [← String.size_toByteArray, ← String.ofList_toList (s := text), String.toByteArray_ofList,
    Text.encode_ofList]
  exact List.size_toByteArray.symm

/-- A text may be cut between two characters. -/
theorem textFrom_append (front rest : String) :
    (textFrom (front ++ rest) (Text.encode front).length : Checked ε String) = .ok rest := by
  have hvalid : String.Pos.Raw.IsValid (front ++ rest) ⟨(Text.encode front).length⟩ :=
    String.Pos.Raw.isValid_iff_exists_append.mpr
      ⟨front, rest, rfl, by rw [length_encode]; rfl⟩
  have hsplits : ((front ++ rest).pos ⟨(Text.encode front).length⟩ hvalid).Splits front rest :=
    ⟨rfl, by rw [String.offset_pos, length_encode]; rfl⟩
  unfold textFrom
  rw [dif_pos hvalid, hsplits.copy_sliceFrom_eq]

/-- A percent sign among the bytes is a character, so the text may be cut there. -/
theorem textFrom_of_percent {text : String} {place : Nat} {rest : Bytes}
    (h : (Text.encode text).drop place = 0x25 :: rest) :
    (textFrom text place : Checked ε String) = .ok (Text.decodeLossy (0x25 :: rest)) := by
  have hcut : text.toList.flatMap String.utf8EncodeChar =
      (Text.encode text).take place ++ 0x25 :: rest := by
    rw [← h, List.take_append_drop]
    rfl
  -- A percent sign is a character of its own, so the text can be cut in front of it.
  obtain ⟨before, behind, htext, hfront, hrest⟩ := Text.exists_cut_of_ascii (by decide) hcut
  have hinside : place ≤ (Text.encode text).length := by
    have hlength := congrArg List.length h
    rw [List.length_drop, List.length_cons] at hlength
    omega
  have hplace : (Text.encode (String.ofList before)).length = place := by
    rw [Text.encode_ofList, hfront, List.length_take, Nat.min_eq_left hinside]
  have hbehind : Text.encode (String.ofList ('%' :: behind)) = 0x25 :: rest := by
    rw [Text.encode_ofList, ← hrest]
    rfl
  have happend : text = String.ofList before ++ String.ofList ('%' :: behind) := by
    rw [← String.ofList_append, ← String.ofList_toList (s := text), htext]
    rfl
  rw [happend, ← hplace, textFrom_append, ← hbehind, Text.decodeLossy_encode]

theorem byteAt_of_drop {buffer rest : Bytes} {place : Nat} {b : UInt8}
    (h : buffer.drop place = b :: rest) : (byteAt buffer place : Checked ε UInt8) = .ok b := by
  have hbyte : buffer[place]? = some b := by
    rw [← Nat.add_zero place, ← List.getElem?_drop, h, List.getElem?_cons_zero]
  unfold byteAt
  rw [hbyte]

theorem slice?_of_short {buffer : Bytes} {start stop : Nat} (h : buffer.length < stop) :
    slice? buffer start stop = none := if_neg fun hfits => absurd hfits.2 (Nat.not_le_of_lt h)

theorem slice?_of_drop {buffer front rest : Bytes} {start stop : Nat}
    (h : buffer.drop start = front ++ rest) (hstart : start ≤ buffer.length)
    (hstop : stop = start + front.length) : slice? buffer start stop = some front := by
  have hlength := congrArg List.length h
  rw [List.length_drop, List.length_append] at hlength
  unfold slice?
  rw [if_pos (by omega), h, hstop, Nat.add_sub_cancel_left, List.take_left]

/-- The two digits of an escape number its byte. -/
theorem shiftLeft_or : ∀ h < 16, ∀ l < 16,
    UInt8.ofNat h <<< 4 ||| UInt8.ofNat l = UInt8.ofNat (h * 16 + l) := by
  decide

section

variable {text : String} {fuel place : Nat} {done rest : Bytes}

theorem length_of_drop {b : UInt8} (h : (Text.encode text).drop place = b :: rest) :
    (Text.encode text).length = place + rest.length + 1 := by
  have hlength := congrArg List.length h
  rw [List.length_drop, List.length_cons] at hlength
  omega

theorem drop_succ {b : UInt8} (h : (Text.encode text).drop place = b :: rest) :
    (Text.encode text).drop (place + 1) = rest := by
  rw [← List.drop_drop, h, List.drop_one, List.tail_cons]

/-- A byte that is no percent sign is read as it is. -/
theorem readEscapes_of_ne {b : UInt8} (h : (Text.encode text).drop place = b :: rest)
    (hb : b ≠ 0x25) :
    readEscapes text (fuel + 1) place done = readEscapes text fuel (place + 1) (b :: done) := by
  have hlength := length_of_drop h
  rw [readEscapes]
  simp only [if_neg (show ¬ (Text.encode text).length ≤ place by omega), byteAt_of_drop h,
    except_ok_bind, if_pos hb]

/-- A percent sign with fewer than two bytes behind it is cut short. The text is quoted from
    there on. -/
theorem readEscapes_of_short (h : (Text.encode text).drop place = 0x25 :: rest)
    (hshort : rest.length < 2) :
    readEscapes text (fuel + 1) place done =
      fail (.truncatedEscape (Text.decodeLossy (0x25 :: rest))) := by
  have hlength := length_of_drop h
  have hslice : slice? (Text.encode text) (place + 1) (place + 3) = none :=
    slice?_of_short (by omega)
  rw [readEscapes]
  simp only [if_neg (show ¬ (Text.encode text).length ≤ place by omega), byteAt_of_drop h,
    except_ok_bind, ne_eq, not_true_eq_false, if_false, hslice, textFrom_of_percent h]

/-- With two bytes behind it, these are looked at, and quoted with it if they are not digits. -/
theorem readEscapes_of_two {high low : UInt8}
    (h : (Text.encode text).drop place = 0x25 :: high :: low :: rest) :
    readEscapes text (fuel + 1) place done =
      match Percent.hexValue? high, Percent.hexValue? low with
      | some h, some l =>
        readEscapes text fuel (place + 3) ((UInt8.ofNat h <<< 4 ||| UInt8.ofNat l) :: done)
      | _, _ => fail (.invalidEscape (Text.decodeLossy [0x25, high, low])) := by
  have hlength := length_of_drop h
  rw [List.length_cons, List.length_cons] at hlength
  have hslice : slice? (Text.encode text) (place + 1) (place + 3) = some [high, low] :=
    slice?_of_drop (drop_succ h) (by omega) rfl
  -- The escape is sliced a second time only to be quoted, and by then it is known to be there.
  have hquoted : (slice (Text.encode text) place (place + 3) : Checked LocatorFault Bytes) =
      .ok [0x25, high, low] := by
    rw [slice_of_le (by omega) (by omega), h, Nat.add_sub_cancel_left]
    rfl
  have hhigh : (byteAt [high, low] 0 : Checked LocatorFault UInt8) = .ok high := rfl
  have hlow : (byteAt [high, low] 1 : Checked LocatorFault UInt8) = .ok low := rfl
  rw [readEscapes]
  simp only [if_neg (show ¬ (Text.encode text).length ≤ place by omega), byteAt_of_drop h,
    except_ok_bind, ne_eq, not_true_eq_false, if_false, hslice, hhigh, hlow, hquoted]

/-- Counting places comes to the same as taking bytes off a list. -/
theorem readEscapes_eq (hplace : place ≤ (Text.encode text).length)
    (hfuel : (Text.encode text).length < place + fuel) :
    readEscapes text fuel place done =
      lift (Percent.decodeBytes ((Text.encode text).drop place) done) := by
  induction fuel generalizing place done with
  | zero => omega
  | succ fuel ih =>
      rcases hdrop : (Text.encode text).drop place with _ | ⟨b, rest⟩
      · rw [readEscapes, if_pos (List.drop_eq_nil_iff.mp hdrop), Percent.decodeBytes_nil, lift_ok]
      have hlength := length_of_drop hdrop
      have hsucc := drop_succ hdrop
      by_cases hb : b ≠ 0x25
      · rw [readEscapes_of_ne hdrop hb, ih (by omega) (by omega), hsucc,
          Percent.decodeBytes_of_ne hb]
      obtain rfl := Decidable.not_not.mp hb
      -- Behind the sign there may be too little, or two bytes that are digits or are not.
      rcases rest with _ | ⟨high, _ | ⟨low, more⟩⟩
      · rw [readEscapes_of_short hdrop (by decide), Percent.decodeBytes_of_short (by decide)]
        rfl
      · have hshort : [high].length < 2 := Nat.one_lt_two
        rw [readEscapes_of_short hdrop hshort, Percent.decodeBytes_of_short hshort]
        rfl
      · rw [List.length_cons, List.length_cons] at hlength
        have hmore : (Text.encode text).drop (place + 3) = more := by
          change (Text.encode text).drop (place + 1 + 2) = more
          rw [← List.drop_drop, hsucc]
          rfl
        rw [readEscapes_of_two hdrop]
        rcases hhigh : Percent.hexValue? high with _ | h
        · rw [Percent.decodeBytes_of_invalid fun i j hi => by rw [hhigh] at hi; cases hi]
          rfl
        rcases hlow : Percent.hexValue? low with _ | l
        · rw [Percent.decodeBytes_of_invalid fun i j _ hj => by rw [hlow] at hj; cases hj]
          rfl
        · simp only
          rw [ih (by omega) (by omega), hmore, Percent.decodeBytes_escape hhigh hlow,
            shiftLeft_or h (Percent.isDigit_of_hexValue? hhigh).2.1 l
              (Percent.isDigit_of_hexValue? hlow).2.1]

end

/-- All of it comes to the same, and meets no trap. -/
theorem readAllEscapes_eq (text : String) : readAllEscapes text = lift (Percent.decode text) := by
  unfold readAllEscapes Percent.decode
  rw [readEscapes_eq (Nat.zero_le _) (by omega), List.drop_zero]
  cases Percent.decodeBytes (Text.encode text) [] <;> rfl

/-- So does taking a text without a percent sign as it is. -/
theorem decodeName_eq (text : String) : decodeName text = lift (Percent.decode text) := by
  unfold decodeName
  by_cases hsign : (Text.encode text).contains 0x25
  · rw [if_pos hsign, readAllEscapes_eq]
  · rw [List.contains_iff_mem] at hsign
    have hbytes := Percent.decodeBytes_of_not_mem hsign [] []
    rw [List.append_nil, List.append_nil, Percent.decodeBytes_nil, List.reverse_reverse] at hbytes
    rw [if_neg (by rwa [List.contains_iff_mem]), Percent.decode, hbytes]
    rfl

/-- A text is read exactly if every percent sign in it has two digits behind it. What is read are
    its bytes with one byte for every escape, so nothing but the empty text is read as nothing. In
    any other text the first percent sign that has not two digits behind it is what the failure
    is about. No trap is met, nor would there be one, or another answer, without the shortcut. -/
theorem decodeName_exact (text : String) :
    decodeName text = lift (Percent.decode text) ∧
    readAllEscapes text = decodeName text ∧
    ((∃ name, Percent.decode text = .ok name) ↔ Percent.WellEscaped text.toList) ∧
    (∀ name, Percent.decode text = .ok name ↔ Percent.Denotes text.toList name) ∧
    (∀ name, Percent.decode text = .ok name →
      name.length + 2 * text.toList.count '%' = text.utf8ByteSize ∧ (text ≠ "" → name ≠ [])) ∧
    (¬ Percent.WellEscaped text.toList →
      ∃ front rest : List Char, Percent.FirstBad text.toList front rest ∧
        Percent.decode text = .error (.malformedLocator text (Percent.badEscape rest))) := by
  refine ⟨decodeName_eq text, ?_, Percent.exists_decode_iff, fun _ => Percent.decode_eq_ok_iff,
    ?_, ?_⟩
  · rw [readAllEscapes_eq, decodeName_eq]
  · intro name hname
    have hdenotes := Percent.decode_eq_ok_iff.mp hname
    refine ⟨?_, fun hne => ?_⟩
    · rw [hdenotes.length, ← length_encode]
      rfl
    · rw [← String.ofList_toList (s := text)] at hname
      exact Percent.ne_nil_of_decode hname fun hnil => hne (String.toList_eq_nil_iff.mp hnil)
  · intro hbad
    -- A text that is not well escaped has a first place where it is not.
    obtain ⟨front, rest, hfirst⟩ := Percent.exists_firstBad hbad
    exact ⟨front, rest, hfirst, Percent.decode_of_firstBad hfirst⟩

/-- Digits of both cases in front of a character of two bytes, a percent sign that such a
    character cuts into, and one at the end. -/
theorem decodeName_exact_mixed :
    decodeName "%2f%C3é" = .ok [0x2F, 0xC3, 0xC3, 0xA9] ∧
    Percent.Denotes "%2f%C3é".toList [0x2F, 0xC3, 0xC3, 0xA9] ∧
    [0x2F, 0xC3, 0xC3, 0xA9].length + 2 * 2 = "%2f%C3é".utf8ByteSize ∧
    (∃ front rest : List Char, Percent.FirstBad "a%aé%".toList front rest ∧
      decodeName "a%aé%" = fail (.malformedLocator "a%aé%" (Percent.badEscape rest))) ∧
    decodeName "a%aé%" = fail (.malformedLocator "a%aé%" (.invalidEscape "%a\uFFFD")) ∧
    decodeName "%25%4" = fail (.malformedLocator "%25%4" (.truncatedEscape "%4")) := by
  have hread : Percent.decode "%2f%C3é" = .ok [0x2F, 0xC3, 0xC3, 0xA9] := by decide +kernel
  have hinvalid : Percent.decode "a%aé%" =
      .error (.malformedLocator "a%aé%" (.invalidEscape "%a\uFFFD")) := by decide +kernel
  have hshort : Percent.decode "%25%4" =
      .error (.malformedLocator "%25%4" (.truncatedEscape "%4")) := by decide +kernel
  obtain ⟨hsame, _, _, hmeans, hlength, _⟩ := decodeName_exact "%2f%C3é"
  obtain ⟨hsame', _, haccepts, _, _, hfails⟩ := decodeName_exact "a%aé%"
  have hbad : ¬ Percent.WellEscaped "a%aé%".toList := fun hwell => by
    obtain ⟨name, hname⟩ := haccepts.mpr hwell
    exact error_ne_ok (hinvalid.symm.trans hname)
  obtain ⟨front, rest, hfirst, herror⟩ := hfails hbad
  refine ⟨?_, (hmeans _).mp hread, (hlength _ hread).1, ⟨front, rest, hfirst, ?_⟩, ?_, ?_⟩
  · rw [hsame, hread, lift_ok]
  · rw [hsame', herror]
    rfl
  · rw [hsame', hinvalid]
    rfl
  · rw [(decodeName_exact "%25%4").1, hshort]
    rfl

end Checked

end NestedZip
