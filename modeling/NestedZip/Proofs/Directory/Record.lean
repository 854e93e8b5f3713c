import NestedZip.Proofs.Directory.Fields
import NestedZip.Proofs.Metered

/-!
# Reading a Directory Record

When a record is accepted, and what its entry then says.

A record is a header, a name and some bytes behind the name whose number the
header tells: the extra field and the comment. `Entry.read_eq_ok_iff` says
that reading accepts exactly these, with one condition more. Wide numbers are
looked for in the extra field, and a block there may declare more bytes than
the extra field has. The blocks are then followed past its end, even into the
records behind, so the condition speaks of the bytes behind the name together
with everything that follows.

However a hostile extra field is laid out, it cannot touch a number that is
not at its largest value. `Extents.widen_keeps` is that fact, by induction on
the blocks.

## Main definitions

* `RecordHeader.extents`: The numbers of a header, taken as they are.
* `RecordHeader.entry`: The entry that a header describes.
* `Extents.Keeps`: Numbers that differ only where one was at its largest.

## Theorems

* `Entry.read_eq_ok_iff`: Which bytes are read as a record, and as which.
* `Extents.widen_keeps`: An extra field replaces saturated numbers only.
-/

namespace NestedZip

namespace RecordHeader

/-- The numbers of a header, taken as they are. -/
def extents (h : RecordHeader) : Extents where
  uncompressed := h.uncompressedSize.toNat
  compressed := h.compressedSize.toNat
  offset := h.headerOffset.toNat

/-- The entry that a header describes, given its name and its true numbers. -/
def entry (h : RecordHeader) (name : Bytes) (x : Extents) : Entry where
  name
  method := .ofNumber h.method
  compressedSize := x.compressed
  uncompressedSize := x.uncompressed
  crc := h.crc
  headerOffset := x.offset
  flags := h.flags
  packedTime := h.packedTime
  packedDate := h.packedDate

end RecordHeader

/-- Reading accepts a header, a name and the bytes that the header declares behind
    it, as long as the wide numbers can be had. -/
theorem Entry.read_eq_ok_iff {bytes rest : Bytes} {e : Entry} {span : Nat} :
    Entry.read bytes = .ok (e, span, rest) ↔
      ∃ (h : RecordHeader) (name behind : Bytes) (x : Extents),
        bytes = h.toBytes ++ (name ++ (behind ++ rest)) ∧
        name.length = h.nameLength.toNat ∧
        behind.length = h.extraLength.toNat + h.commentLength.toNat ∧
        h.extents.widen h.extraLength.toNat (behind ++ rest) = .ok x ∧
        e = h.entry name x ∧ span = h.span := by
  unfold Entry.read
  constructor
  · intro hread
    -- Every step has succeeded, which takes the input apart from front to back.
    rcases hsig : Reader.bytes 4 bytes with _ | ⟨signature, input⟩
    · rw [hsig] at hread
      exact absurd hread error_ne_ok
    simp only [hsig] at hread
    by_cases hother : signature ≠ RecordHeader.signature
    · rw [if_pos hother] at hread
      exact absurd hread error_ne_ok
    rw [if_neg hother] at hread
    rcases hfields : RecordHeader.fields input with _ | ⟨h, tail⟩
    · rw [hfields] at hread
      exact absurd hread error_ne_ok
    simp only [hfields] at hread
    rcases hname : Reader.bytes h.nameLength.toNat tail with _ | ⟨name, more⟩
    · rw [hname] at hread
      exact absurd hread error_ne_ok
    simp only [hname] at hread
    rcases except_bind_eq_ok_iff.mp hread with ⟨x, hx, hlast⟩
    rcases hbehind : Reader.bytes (h.extraLength.toNat + h.commentLength.toNat) more with
      _ | ⟨behind, after⟩
    · rw [hbehind] at hlast
      exact absurd hlast error_ne_ok
    simp only [hbehind, pure, Except.pure, Except.ok.injEq, Prod.mk.injEq] at hlast
    rcases hlast with ⟨rfl, rfl, rfl⟩
    rw [Reader.bytes_eq_some_iff] at hsig hname hbehind
    rcases hsig with ⟨rfl, _⟩
    rcases hname with ⟨rfl, hnameLength⟩
    rcases hbehind with ⟨rfl, hbehindLength⟩
    rw [RecordHeader.fields_eq_some_iff] at hfields
    refine ⟨h, name, behind, x, ?_, hnameLength, hbehindLength, hx, rfl, rfl⟩
    rw [Decidable.not_not.mp hother, hfields]
  · rintro ⟨h, name, behind, x, hbytes, hname, hbehind, hx, he, hspan⟩
    rw [hbytes, he, hspan]
    -- The same parts, put in front of one step after the other.
    rcases h.signature_starts with ⟨body, hbody⟩
    have hsig : Reader.bytes 4 (h.toBytes ++ (name ++ (behind ++ rest))) =
        some (RecordHeader.signature, body ++ (name ++ (behind ++ rest))) := by
      rw [Reader.bytes_eq_some_iff, ← hbody, List.append_assoc]
      exact ⟨rfl, rfl⟩
    have hfields : RecordHeader.fields (body ++ (name ++ (behind ++ rest))) =
        some (h, name ++ (behind ++ rest)) := by
      rw [RecordHeader.fields_eq_some_iff, ← hbody, List.append_assoc]
    have hnameRead : Reader.bytes h.nameLength.toNat (name ++ (behind ++ rest)) =
        some (name, behind ++ rest) := Reader.bytes_eq_some_iff.mpr ⟨rfl, hname⟩
    have hbehindRead : Reader.bytes (h.extraLength.toNat + h.commentLength.toNat)
        (behind ++ rest) = some (behind, rest) := Reader.bytes_eq_some_iff.mpr ⟨rfl, hbehind⟩
    simp only [hsig, ne_eq, not_true, if_false, hfields, hnameRead]
    refine except_bind_eq_ok_iff.mpr ⟨x, hx, ?_⟩
    rw [hbehindRead]
    rfl

namespace Extents

/-- The second numbers are the first ones, except for those at their largest
    value. -/
structure Keeps (e e' : Extents) : Prop where
  uncompressed : e.uncompressed ≠ saturated → e'.uncompressed = e.uncompressed
  compressed : e.compressed ≠ saturated → e'.compressed = e.compressed
  offset : e.offset ≠ saturated → e'.offset = e.offset

theorem Keeps.refl (e : Extents) : e.Keeps e := ⟨fun _ => rfl, fun _ => rfl, fun _ => rfl⟩

/-- What two steps keep one after the other is kept. -/
theorem Keeps.trans {a b c : Extents} (hab : a.Keeps b) (hbc : b.Keeps c) : a.Keeps c := by
  refine ⟨fun h => ?_, fun h => ?_, fun h => ?_⟩
  · -- A number that was kept is not at its largest value, so it is kept again.
    have hb := hab.uncompressed h
    rw [hbc.uncompressed (by rw [hb]; exact h), hb]
  · have hb := hab.compressed h
    rw [hbc.compressed (by rw [hb]; exact h), hb]
  · have hb := hab.offset h
    rw [hbc.offset (by rw [hb]; exact h), hb]

theorem widenOne_keeps {value value' room room' : Nat} {bytes bytes' : Bytes}
    (h : widenOne value room bytes = .ok (value', room', bytes')) (hvalue : value ≠ saturated) :
    value' = value := by
  unfold widenOne at h
  rw [if_neg (fun hboth => hvalue hboth.1)] at h
  simp only [Except.ok.injEq, Prod.mk.injEq] at h
  exact h.1.symm

/-- A block replaces only numbers at their largest value. -/
theorem widenFrom_keeps {e e' : Extents} {room : Nat} {bytes : Bytes}
    (h : e.widenFrom room bytes = .ok e') : e.Keeps e' := by
  unfold widenFrom at h
  rcases except_bind_eq_ok_iff.mp h with ⟨⟨uncompressed, room₁, bytes₁⟩, h₁, h⟩
  rcases except_bind_eq_ok_iff.mp h with ⟨⟨compressed, room₂, bytes₂⟩, h₂, h⟩
  rcases except_bind_eq_ok_iff.mp h with ⟨⟨offset, room₃, bytes₃⟩, h₃, h⟩
  simp only [pure, Except.pure, Except.ok.injEq] at h
  subst h
  exact ⟨widenOne_keeps h₁, widenOne_keeps h₂, widenOne_keeps h₃⟩

/-- However the blocks are laid out, each of them keeps what is not at its
    largest value, and so do all of them together. -/
theorem widenWithin_keeps {fuel left : Nat} {bytes : Bytes} {e e' : Extents}
    (h : widenWithin fuel left bytes e = .ok e') : e.Keeps e' := by
  induction fuel generalizing left bytes e with
  | zero =>
      simp only [widenWithin, Except.ok.injEq] at h
      subst h
      exact Keeps.refl e
  | succ fuel ih =>
      unfold widenWithin at h
      by_cases hleft : left < 4
      · rw [if_pos hleft, Except.ok.injEq] at h
        subst h
        exact Keeps.refl e
      rw [if_neg hleft] at h
      rcases hid : Reader.u16 bytes with _ | ⟨id, afterId⟩
      · rw [hid] at h
        exact absurd h error_ne_ok
      simp only [hid] at h
      rcases hsize : Reader.u16 afterId with _ | ⟨size, inside⟩
      · rw [hsize] at h
        exact absurd h error_ne_ok
      simp only [hsize] at h
      -- A block of wide numbers keeps what it may not touch, others are passed over.
      by_cases hblock : id = blockId
      · rw [if_pos hblock] at h
        rcases except_bind_eq_ok_iff.mp h with ⟨mid, hmid, hrest⟩
        exact (widenFrom_keeps hmid).trans (ih hrest)
      · rw [if_neg hblock] at h
        exact ih h

theorem widen_keeps {e e' : Extents} {extraLength : Nat} {bytes : Bytes}
    (h : e.widen extraLength bytes = .ok e') : e.Keeps e' :=
  widenWithin_keeps h

end Extents

end NestedZip
