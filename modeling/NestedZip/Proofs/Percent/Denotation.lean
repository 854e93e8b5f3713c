import NestedZip.Proofs.Percent
import NestedZip.Proofs.Text.Cut

/-!
# What a Written Form Stands For

Which texts are written forms of names, of which name, and what is wrong with
all others.

A text is read as bytes, from the front and with a step that is one byte wide
or three. What it means is better said of its characters: a percent sign and
two digits stand for one byte, and every other character for the bytes it is
written with. `Denotes` says this and nothing else. An escape may be broken by
a character of several bytes or by the end of the text, so that the bytes that
are looked at need not be characters. But a percent sign is a byte that no
other character has, and so are the digits. So the bytes are read as the
characters say, up to the first percent sign without two digits behind it, and
that one is what the failure is about.

## Main definitions

* `IsDigit`: A hexadecimal digit of either case.
* `Denotes`: A text stands for a name.
* `Escapes`, `WellEscaped`: Two digits stand behind a percent sign, or behind
  every one of a text.
* `FirstBad`, `badEscape`: The first percent sign of a text without two digits
  behind it, and what is said about it.

## Theorems

* `decodeBytes_of_denotes`: What a text stands for is what is read of it,
  whatever follows.
* `decodeBytes_of_bad`: A percent sign without two digits behind it ends the
  reading.
* `denotes_or_firstBad`: A text is a written form, or has a first bad escape.
* `decode_eq_ok_iff`: A text is read as the name it stands for.
* `decode_of_firstBad`: Any other text fails at its first bad escape.
* `exists_decode_iff`: A text is read if every percent sign in it has two digits
  behind it, and only then.
* `Denotes.length`: How long a name is.
-/

namespace NestedZip

namespace Text

/-- Units that are all characters come from the bytes of those. -/
theorem flatMap_of_units {bytes : Bytes} {chars : List Char} (h : units bytes = chars.map some) :
    chars.flatMap String.utf8EncodeChar = bytes :=
  ((Decoding.Reads.between []).foldl bytes).finish h

/-- A byte below 0x80 in a text is a character of it. -/
theorem exists_cut_of_ascii {text : List Char} {front rest : Bytes} {b : UInt8}
    (hascii : b < 0x80) (h : text.flatMap String.utf8EncodeChar = front ++ b :: rest) :
    ∃ before behind : List Char, text = before ++ Char.ofNat b.toNat :: behind ∧
      before.flatMap String.utf8EncodeChar = front ∧
      behind.flatMap String.utf8EncodeChar = rest := by
  have hunits : text.map some = units front ++ some (Char.ofNat b.toNat) :: units rest := by
    rw [← units_ascii front hascii rest, ← h, ← encode_ofList, units_encode,
      String.toList_ofList]
  obtain ⟨before, others, rfl, hfront, hothers⟩ := List.map_eq_append_iff.mp hunits
  obtain ⟨c, behind, rfl, hc, hrest⟩ := List.map_eq_cons_iff.mp hothers
  rw [Option.some.inj hc]
  exact ⟨before, behind, rfl, flatMap_of_units hfront.symm, flatMap_of_units hrest.symm⟩

/-- The same for the first byte. -/
theorem exists_head_of_ascii {text : List Char} {rest : Bytes} {b : UInt8} (hascii : b < 0x80)
    (h : text.flatMap String.utf8EncodeChar = b :: rest) :
    ∃ behind : List Char, text = Char.ofNat b.toNat :: behind ∧
      behind.flatMap String.utf8EncodeChar = rest := by
  obtain ⟨before, behind, htext, hnil, hrest⟩ := @exists_cut_of_ascii text [] rest b hascii h
  rcases before with _ | ⟨c, before⟩
  · exact ⟨behind, htext, hrest⟩
  · rw [List.flatMap_cons] at hnil
    exact absurd (List.append_eq_nil_iff.mp hnil).1 String.utf8EncodeChar_ne_nil

end Text

namespace Percent

/-- A hexadecimal digit of either case, and the number it stands for. -/
def IsDigit (value : Nat) (c : Char) : Prop :=
  value < 16 ∧ (c = Nat.digitChar value ∨ c = (Nat.digitChar value).toUpper)

instance (value : Nat) (c : Char) : Decidable (IsDigit value c) :=
  inferInstanceAs (Decidable (_ ∧ _))

/-- The text is a written form of the name. A percent sign and two digits stand for the byte that
    the digits number, and every other character for its UTF-8 bytes. -/
inductive Denotes : List Char → Bytes → Prop
  | nil : Denotes [] []
  | escape {h l : Nat} {high low : Char} {text : List Char} {name : Bytes} :
      IsDigit h high → IsDigit l low → Denotes text name →
      Denotes ('%' :: high :: low :: text) (UInt8.ofNat (16 * h + l) :: name)
  | plain {c : Char} {text : List Char} {name : Bytes} : c ≠ '%' → Denotes text name →
      Denotes (c :: text) (String.utf8EncodeChar c ++ name)

/-- What stands behind a percent sign starts with two digits. -/
def Escapes (rest : List Char) : Prop :=
  ∃ (h l : Nat) (high low : Char) (behind : List Char),
    IsDigit h high ∧ IsDigit l low ∧ rest = high :: low :: behind

/-- Every percent sign of a text has two digits behind it. -/
def WellEscaped (text : List Char) : Prop :=
  ∀ front rest : List Char, text = front ++ '%' :: rest → Escapes rest

/-- The first percent sign of a text that has not two digits behind it stands between `front` and
    `rest`. -/
structure FirstBad (text front rest : List Char) : Prop where
  cut : text = front ++ '%' :: rest
  bad : ¬ Escapes rest
  first : ∀ front' rest' : List Char, text = front' ++ '%' :: rest' →
    front'.length < front.length → Escapes rest'

/-- What is said about a percent sign that has not two digits behind it. With fewer than two bytes
    behind it, it is cut short. -/
def badEscape (rest : List Char) : LocatorFault :=
  let bytes := rest.flatMap String.utf8EncodeChar
  if bytes.length < 2 then .truncatedEscape (String.ofList ('%' :: rest))
  else .invalidEscape (Text.decodeLossy (0x25 :: bytes.take 2))

theorem hexValue?_lower : ∀ n < 16, hexValue? (UInt8.ofNat (Nat.digitChar n).toNat) = some n := by
  decide

theorem hexValue?_upper :
    ∀ n < 16, hexValue? (UInt8.ofNat (Nat.digitChar n).toUpper.toNat) = some n := by
  decide

/-- A byte that is read as a digit is that of a digit. -/
theorem isDigit_of_hexValue? {b : UInt8} {n : Nat} (h : hexValue? b = some n) :
    b < 0x80 ∧ IsDigit n (Char.ofNat b.toNat) := by
  have hall : ((hexValue? b).all fun n =>
      decide (b < 0x80 ∧ IsDigit n (Char.ofNat b.toNat))) = true := by
    revert b
    exact fun _ => forall_byte (P := fun b => ((hexValue? b).all fun n =>
      decide (b < 0x80 ∧ IsDigit n (Char.ofNat b.toNat))) = true) (by decide +kernel) _
  rw [h] at hall
  exact of_decide_eq_true hall

namespace IsDigit

variable {n : Nat} {c : Char}

theorem hexValue?_eq (h : IsDigit n c) : hexValue? (UInt8.ofNat c.toNat) = some n := by
  rcases h with ⟨hn, rfl | rfl⟩
  · exact hexValue?_lower n hn
  · exact hexValue?_upper n hn

theorem ascii (h : IsDigit n c) : c.toNat < 0x80 := by
  rcases h with ⟨hn, rfl | rfl⟩ <;> revert n <;> decide

theorem ne_percent (h : IsDigit n c) : c ≠ '%' := by
  rcases h with ⟨hn, rfl | rfl⟩ <;> revert n <;> decide

end IsDigit

theorem utf8EncodeChar_ascii {c : Char} (h : c.toNat < 0x80) :
    String.utf8EncodeChar c = [UInt8.ofNat c.toNat] := by
  unfold String.utf8EncodeChar
  exact if_pos (Nat.le_of_lt_succ h)

/-- The percent sign is not among the bytes of another character. -/
theorem not_mem_utf8EncodeChar {c : Char} (h : c ≠ '%') : 0x25 ∉ String.utf8EncodeChar c := by
  intro hmem
  obtain ⟨front, rest, hbytes⟩ := List.append_of_mem hmem
  have hcut : [c].flatMap String.utf8EncodeChar = front ++ 0x25 :: rest := by
    rw [List.flatMap_singleton, hbytes]
  obtain ⟨before, behind, htext, -, -⟩ := Text.exists_cut_of_ascii (by decide) hcut
  have hsign : '%' ∈ [c] := by
    rw [htext]
    exact List.mem_append_right before List.mem_cons_self
  exact h (List.mem_singleton.mp hsign).symm

/-- Bytes without a percent sign are read as they are. -/
theorem decodeBytes_of_not_mem {front : Bytes} (h : 0x25 ∉ front) (rest done : Bytes) :
    decodeBytes (front ++ rest) done = decodeBytes rest (front.reverse ++ done) := by
  induction front generalizing done with
  | nil => rfl
  | cons b front ih =>
      rw [List.mem_cons, not_or] at h
      rw [List.cons_append, decodeBytes_of_ne (Ne.symm h.1), ih h.2, List.reverse_cons,
        List.append_assoc, List.singleton_append]

/-- What a text stands for is what is read of it, whatever follows. -/
theorem decodeBytes_of_denotes {text : List Char} {name : Bytes} (h : Denotes text name)
    (rest done : Bytes) :
    decodeBytes (text.flatMap String.utf8EncodeChar ++ rest) done =
      decodeBytes rest (name.reverse ++ done) := by
  -- What was decoded before is carried along, last first.
  induction h generalizing done with
  | nil => rfl
  | @escape h l high low text name hhigh hlow _ ih =>
      rw [List.flatMap_cons, List.flatMap_cons, List.flatMap_cons,
        utf8EncodeChar_ascii hhigh.ascii, utf8EncodeChar_ascii hlow.ascii]
      change decodeBytes (0x25 :: UInt8.ofNat high.toNat :: UInt8.ofNat low.toNat ::
        (text.flatMap String.utf8EncodeChar ++ rest)) done = _
      rw [decodeBytes_escape hhigh.hexValue?_eq hlow.hexValue?_eq, ih, List.reverse_cons,
        List.append_assoc, List.singleton_append, Nat.mul_comm h 16]
  | @plain c text name hc _ ih =>
      rw [List.flatMap_cons, List.append_assoc, decodeBytes_of_not_mem (not_mem_utf8EncodeChar hc),
        ih, List.reverse_append, List.append_assoc]

/-- Two bytes behind a percent sign that are read as digits are digits of the text. -/
theorem escapes_of_hexValue? {rest : List Char} {high low : UInt8} {more : Bytes} {h l : Nat}
    (hbytes : rest.flatMap String.utf8EncodeChar = high :: low :: more)
    (hhigh : hexValue? high = some h) (hlow : hexValue? low = some l) : Escapes rest := by
  obtain ⟨hascii, hdigit⟩ := isDigit_of_hexValue? hhigh
  obtain ⟨hascii', hdigit'⟩ := isDigit_of_hexValue? hlow
  obtain ⟨behind, rfl, hbehind⟩ := Text.exists_head_of_ascii hascii hbytes
  obtain ⟨behind', rfl, -⟩ := Text.exists_head_of_ascii hascii' hbehind
  exact ⟨h, l, _, _, behind', hdigit, hdigit', rfl⟩

/-- A percent sign without two digits behind it ends the reading. -/
theorem decodeBytes_of_bad {rest : List Char} (h : ¬ Escapes rest) (done : Bytes) :
    decodeBytes (0x25 :: rest.flatMap String.utf8EncodeChar) done = .error (badEscape rest) := by
  have htext : Text.decodeLossy (0x25 :: rest.flatMap String.utf8EncodeChar) =
      String.ofList ('%' :: rest) := by
    rw [← Text.decodeLossy_encode (String.ofList ('%' :: rest)), Text.encode_ofList]
    rfl
  unfold badEscape
  by_cases hshort : (rest.flatMap String.utf8EncodeChar).length < 2
  · simp only [if_pos hshort]
    rw [decodeBytes_of_short hshort, htext]
  · simp only [if_neg hshort]
    -- There are two bytes, so they are no digits.
    rcases hbytes : rest.flatMap String.utf8EncodeChar with _ | ⟨high, _ | ⟨low, more⟩⟩
    · exact absurd (by rw [hbytes]; decide) hshort
    · exact absurd (by rw [hbytes, List.length_singleton]; decide) hshort
    · exact decodeBytes_of_invalid
        (fun i j hhigh hlow => h (escapes_of_hexValue? hbytes hhigh hlow)) more done

/-- A text is a written form of a name, or one up to a percent sign without two digits behind
    it. -/
theorem denotes_or_bad (text : List Char) :
    (∃ name, Denotes text name) ∨ ∃ (front : List Char) (name : Bytes) (rest : List Char),
      text = front ++ '%' :: rest ∧ Denotes front name ∧ ¬ Escapes rest := by
  -- An escape takes three characters, so the induction is on the length.
  induction hlength : text.length using Nat.strongRecOn generalizing text with
  | ind length ih =>
      rcases text with _ | ⟨c, text⟩
      · exact .inl ⟨[], .nil⟩
      rw [List.length_cons] at hlength
      by_cases hc : c = '%'
      · subst hc
        by_cases hescapes : Escapes text
        · obtain ⟨h, l, high, low, behind, hhigh, hlow, rfl⟩ := hescapes
          rw [List.length_cons, List.length_cons] at hlength
          rcases ih behind.length (by omega) behind rfl with ⟨name, hname⟩ |
            ⟨front, name, rest, rfl, hname, hbad⟩
          · exact .inl ⟨_, .escape hhigh hlow hname⟩
          · exact .inr ⟨_, _, rest, rfl, .escape hhigh hlow hname, hbad⟩
        · exact .inr ⟨[], [], text, rfl, .nil, hescapes⟩
      · rcases ih text.length (by omega) text rfl with ⟨name, hname⟩ |
          ⟨front, name, rest, rfl, hname, hbad⟩
        · exact .inl ⟨_, .plain hc hname⟩
        · exact .inr ⟨_, _, rest, rfl, .plain hc hname, hbad⟩

/-- Digits are no percent signs, so a percent sign is where an escape starts. -/
theorem Denotes.wellEscaped {text : List Char} {name : Bytes} (h : Denotes text name) :
    WellEscaped text := by
  induction h with
  | nil =>
      intro front rest hcut
      exact absurd hcut.symm (List.append_ne_nil_of_right_ne_nil _ (List.cons_ne_nil _ _))
  | @escape h l high low text name hhigh hlow _ ih =>
      intro front rest hcut
      -- A percent sign is the one of this escape, or it is behind it. Its digits are none.
      rcases front with _ | ⟨c, _ | ⟨c', _ | ⟨c'', front⟩⟩⟩
      · exact ⟨h, l, high, low, text, hhigh, hlow, (List.cons.inj hcut).2.symm⟩
      · exact absurd (List.cons.inj (List.cons.inj hcut).2).1 hhigh.ne_percent
      · exact absurd (List.cons.inj (List.cons.inj (List.cons.inj hcut).2).2).1 hlow.ne_percent
      · exact ih front rest (List.cons.inj (List.cons.inj (List.cons.inj hcut).2).2).2
  | plain hc _ ih =>
      intro front rest hcut
      rcases front with _ | ⟨c', front⟩
      · exact absurd (List.cons.inj hcut).1 hc
      · exact ih front rest (List.cons.inj hcut).2

/-- What follows does not take the digits away. -/
theorem Escapes.append {rest : List Char} (h : Escapes rest) (more : List Char) :
    Escapes (rest ++ more) := by
  obtain ⟨h, l, high, low, behind, hhigh, hlow, rfl⟩ := h
  exact ⟨h, l, high, low, behind ++ more, hhigh, hlow, rfl⟩

/-- Behind a written form, a percent sign without two digits is the first one of all. -/
theorem firstBad_of_denotes {front rest : List Char} {name : Bytes} (hname : Denotes front name)
    (hbad : ¬ Escapes rest) : FirstBad (front ++ '%' :: rest) front rest where
  cut := rfl
  bad := hbad
  first front' rest' hcut hlt := by
    rcases List.append_eq_append_iff.mp hcut with ⟨more, rfl, -⟩ | ⟨more, rfl, hmore⟩
    · rw [List.length_append] at hlt
      omega
    · rcases more with _ | ⟨c, more⟩
      · rw [List.append_nil] at hlt
        exact absurd hlt (Nat.lt_irrefl _)
      · obtain ⟨rfl, rfl⟩ := List.cons.inj hmore
        exact (hname.wellEscaped front' more rfl).append _

/-- There is no other one. -/
theorem FirstBad.unique {text front rest front' rest' : List Char} (h : FirstBad text front rest)
    (h' : FirstBad text front' rest') : front = front' ∧ rest = rest' := by
  have hlength : front.length = front'.length := by
    rcases Nat.lt_trichotomy front.length front'.length with hlt | heq | hgt
    · exact absurd (h'.first front rest h.cut hlt) h.bad
    · exact heq
    · exact absurd (h.first front' rest' h'.cut hgt) h'.bad
  obtain ⟨hfront, hrest⟩ := List.append_inj (h.cut.symm.trans h'.cut) hlength
  exact ⟨hfront, (List.cons.inj hrest).2⟩

/-- A text is a written form, or has a first bad escape. -/
theorem denotes_or_firstBad (text : List Char) :
    (∃ name, Denotes text name) ∨ ∃ (front : List Char) (name : Bytes) (rest : List Char),
      FirstBad text front rest ∧ Denotes front name := by
  rcases denotes_or_bad text with hname | ⟨front, name, rest, rfl, hname, hbad⟩
  · exact .inl hname
  · exact .inr ⟨front, name, rest, firstBad_of_denotes hname hbad, hname⟩

theorem decode_of_denotes {text : String} {name : Bytes} (h : Denotes text.toList name) :
    decode text = .ok name := by
  have hbytes := decodeBytes_of_denotes h [] []
  rw [List.append_nil, List.append_nil, decodeBytes_nil, List.reverse_reverse] at hbytes
  unfold decode Text.encode
  rw [hbytes]
  rfl

/-- The first bad escape is what the failure is about. -/
theorem decode_of_firstBad {text : String} {front rest : List Char}
    (h : FirstBad text.toList front rest) :
    decode text = .error (.malformedLocator text (badEscape rest)) := by
  rcases denotes_or_firstBad text.toList with ⟨name, hname⟩ | ⟨front', name, rest', hfirst, hname⟩
  · exact absurd (hname.wellEscaped _ _ h.cut) h.bad
  · obtain ⟨rfl, rfl⟩ := h.unique hfirst
    have hbytes := decodeBytes_of_denotes hname (0x25 :: rest.flatMap String.utf8EncodeChar) []
    rw [decodeBytes_of_bad h.bad] at hbytes
    unfold decode Text.encode
    rw [h.cut, List.flatMap_append, List.flatMap_cons]
    change (decodeBytes (_ ++ 0x25 :: rest.flatMap String.utf8EncodeChar) []).mapError _ = _
    rw [hbytes]
    rfl

/-- A text is read as the name that it stands for. -/
theorem decode_eq_ok_iff {text : String} {name : Bytes} :
    decode text = .ok name ↔ Denotes text.toList name := by
  refine ⟨fun h => ?_, decode_of_denotes⟩
  rcases denotes_or_firstBad text.toList with ⟨name', hname⟩ | ⟨front, _, rest, hfirst, _⟩
  · rw [decode_of_denotes hname, Except.ok.injEq] at h
    exact h ▸ hname
  · rw [decode_of_firstBad hfirst] at h
    exact absurd h error_ne_ok

/-- A text is read if every percent sign in it has two digits behind it, and only then. -/
theorem exists_decode_iff {text : String} :
    (∃ name, decode text = .ok name) ↔ WellEscaped text.toList := by
  constructor
  · rintro ⟨name, hname⟩
    exact (decode_eq_ok_iff.mp hname).wellEscaped
  · intro hwell
    rcases denotes_or_firstBad text.toList with ⟨name, hname⟩ | ⟨front, _, rest, hfirst, _⟩
    · exact ⟨name, decode_of_denotes hname⟩
    · exact absurd (hwell front rest hfirst.cut) hfirst.bad

/-- If one has not, there is a first one. -/
theorem exists_firstBad {text : List Char} (h : ¬ WellEscaped text) :
    ∃ front rest : List Char, FirstBad text front rest := by
  rcases denotes_or_firstBad text with ⟨name, hname⟩ | ⟨front, _, rest, hfirst, _⟩
  · exact absurd hname.wellEscaped h
  · exact ⟨front, rest, hfirst⟩

/-- Every escape makes two bytes fewer. -/
theorem Denotes.length {text : List Char} {name : Bytes} (h : Denotes text name) :
    name.length + 2 * text.count '%' = (text.flatMap String.utf8EncodeChar).length := by
  -- An escape takes three bytes for one, and any other character those that it stands for.
  induction h with
  | nil => rfl
  | @escape h l high low text name hhigh hlow _ ih =>
      rw [List.count_cons_self, List.count_cons_of_ne hhigh.ne_percent,
        List.count_cons_of_ne hlow.ne_percent, List.flatMap_cons, List.flatMap_cons,
        List.flatMap_cons, utf8EncodeChar_ascii hhigh.ascii, utf8EncodeChar_ascii hlow.ascii,
        utf8EncodeChar_ascii (c := '%') (by decide)]
      simp only [List.length_cons, List.length_append, List.length_nil]
      omega
  | plain hc _ ih =>
      rw [List.count_cons_of_ne hc, List.flatMap_cons, List.length_append, List.length_append]
      omega

end Percent

end NestedZip
