import NestedZip.Proofs.Checked.Arithmetic
import NestedZip.Proofs.Directory.Record

/-!
# Reading Records in Checked Computations

A record of a directory, read off a buffer by moving a position.

`Entry.read` takes fields off the front of a list and never says where it is.
A program has the whole directory in a buffer and a position in it, and it is
the position that a hostile record moves: by the lengths it declares, and by
the blocks of its extra field, which may reach past the extra field and past
the buffer. The position is then a word behind the end, and the next read
fails. It stays a word because it never gets further behind the end than one
length can take it, and a length has two bytes.

## Main definitions

* `Checked.readFrom`: A value at a position, and the position behind it.
* `Checked.widen`: Wide numbers from the blocks of an extra field.
* `Checked.readRecord`: The record at a position.

## Theorems

* `Checked.widenBlock_follows`: A position in a block is as good as the room left in it.
* `Checked.widen_follows`: Following the blocks ends, and meets no trap.
* `Checked.readRecord_follows`: Reading a record meets no trap.
-/

namespace NestedZip

namespace Checked

variable {ε α β : Type}

/-- What a reader brings from a position of a buffer, and the position behind it.
    A position behind the end is one with nothing to read. -/
def readFrom (read : Reader α) (buffer : Bytes) (position : Nat) :
    Checked RecordFault (α × Nat) := do
  match read (buffer.drop position) with
  | none => fail .truncated
  | some (a, rest) =>
    let next ← add position ((buffer.drop position).length - rest.length)
    return (a, next)

/-- A number, or the wide one at a position if it is at its largest value and the
    block goes on for long enough. -/
def widenOne (buffer : Bytes) (blockEnd value position : Nat) : Checked RecordFault (Nat × Nat) :=
  if value ≠ Extents.saturated then return (value, position)
  else do
    let wideEnd ← add position 8
    if blockEnd < wideEnd then return (value, position)
    else readFrom (Reader.number 8) buffer position

/-- Wide numbers from the inside of a block. -/
def widenBlock (buffer : Bytes) (blockEnd position : Nat) (e : Extents) :
    Checked RecordFault Extents := do
  let (uncompressed, position) ← widenOne buffer blockEnd e.uncompressed position
  let (compressed, position) ← widenOne buffer blockEnd e.compressed position
  let (offset, _) ← widenOne buffer blockEnd e.offset position
  return { uncompressed, compressed, offset }

/-- Wide numbers from the blocks of an extra field that ends at `extraEnd`. A loop
    that has run out of fuel has run on for too long. -/
def widen (buffer : Bytes) (extraEnd : Nat) :
    (fuel position : Nat) → Extents → Checked RecordFault Extents
  | 0, _, _ => trap .endless
  | fuel + 1, position, e => do
    let headEnd ← add position 4
    if extraEnd < headEnd then return e
    else
      let (id, position) ← readFrom Reader.u16 buffer position
      let (size, position) ← readFrom Reader.u16 buffer position
      let blockEnd ← add position size.toNat
      let e ← if id = Extents.blockId then widenBlock buffer blockEnd position e else pure e
      widen buffer extraEnd fuel blockEnd e

/-- The entry that the record at a position describes, and the position behind the
    record. -/
def readRecord (buffer : Bytes) (position : Nat) : Checked RecordFault (Entry × Nat) := do
  let (signature, position) ← readFrom (Reader.bytes 4) buffer position
  if signature ≠ RecordHeader.signature then fail .badSignature
  else
    let (header, position) ← readFrom RecordHeader.fields buffer position
    let (name, position) ← readFrom (Reader.bytes header.nameLength.toNat) buffer position
    let extraEnd ← add position header.extraLength.toNat
    let extents ← widen buffer extraEnd (header.extraLength.toNat + 1) position header.extents
    let next ← add extraEnd header.commentLength.toNat
    if buffer.length < next then fail .overrun
    else return (header.entry name extents, next)

/-- The most that a length of two bytes can move a position. -/
theorem toNat_le_maxLength (n : UInt16) : n.toNat ≤ 65535 := Nat.le_of_lt_succ n.toNat_lt

theorem readFrom_of_none {read : Reader α} {buffer : Bytes} {position : Nat}
    (h : read (buffer.drop position) = none) :
    readFrom read buffer position = fail .truncated := by
  unfold readFrom
  rw [h]

/-- A reader that succeeds moves the position by what it took, and leaves the rest of the buffer. -/
theorem readFrom_of_some {read : Reader α} {buffer front rest : Bytes} {position : Nat} {a : α}
    (h : read (buffer.drop position) = some (a, rest))
    (hfront : buffer.drop position = front ++ rest) (hword : position + front.length < wordLimit) :
    readFrom read buffer position = .ok (a, position + front.length) ∧
      rest = buffer.drop (position + front.length) := by
  have hmoved : (buffer.drop position).length - rest.length = front.length := by
    rw [hfront, List.length_append, Nat.add_sub_cancel]
  refine ⟨?_, ?_⟩
  · unfold readFrom
    rw [h]
    simp only [hmoved, add_of_lt hword, except_ok_bind]
    rfl
  · rw [← List.drop_drop, hfront, List.drop_left]

/-- What is left of a block, once as a room and the bytes that follow, and once as
    a position. -/
structure Left (buffer : Bytes) (blockEnd room : Nat) (bytes : Bytes) (position : Nat) :
    Prop where
  room : room = blockEnd - position
  bytes : bytes = buffer.drop position
  inside : position ≤ blockEnd
  within : position ≤ buffer.length

/-- A number is widened at a position of the buffer as it is widened by the bytes there, and stays
    inside the block if it was. -/
theorem widenOne_follows {buffer bytes : Bytes} (hwords : buffer.length + 8 < wordLimit)
    {blockEnd room position : Nat} (hleft : Left buffer blockEnd room bytes position)
    (value : Nat) :
    Follows (fun _ => True)
      (fun wide next => wide.1 = next.1 ∧ Left buffer blockEnd wide.2.1 wide.2.2 next.2)
      (Extents.widenOne value room bytes) (widenOne buffer blockEnd value position) := by
  obtain ⟨rfl, rfl, hinside, hwithin⟩ := hleft
  have hsame : Left buffer blockEnd (blockEnd - position) (buffer.drop position) position :=
    ⟨rfl, rfl, hinside, hwithin⟩
  unfold Extents.widenOne widenOne
  by_cases hvalue : value = Extents.saturated
  · rw [if_neg (not_not_intro hvalue), add_of_lt (by omega), except_ok_bind]
    by_cases hroom : 8 ≤ blockEnd - position
    · rw [if_pos ⟨hvalue, hroom⟩, if_neg (by omega)]
      rcases hwide : Reader.number 8 (buffer.drop position) with _ | ⟨wide, rest⟩
      · rw [readFrom_of_none hwide]
        exact .fail trivial
      · -- A wide number was there, so the buffer goes on behind it.
        have hfront := (Reader.number_eq_some_iff.mp hwide).2
        have hlength := congrArg List.length hfront
        rw [List.length_append, List.length_drop, Bytes.length_ofNatLE] at hlength
        rcases readFrom_of_some hwide hfront (by rw [Bytes.length_ofNatLE]; omega) with
          ⟨hread, hrest⟩
        rw [Bytes.length_ofNatLE] at hread hrest
        rw [hread]
        exact .ok ⟨rfl, by simp only; omega, hrest, by simp only; omega, by simp only; omega⟩
    · rw [if_neg (fun h => hroom h.2), if_pos (by omega)]
      exact .ok ⟨rfl, hsame⟩
  · rw [if_pos hvalue, if_neg (fun h => hvalue h.1)]
    exact .ok ⟨rfl, hsame⟩

/-- The three numbers are widened one behind the other. -/
theorem widenBlock_follows {buffer bytes : Bytes} (hwords : buffer.length + 8 < wordLimit)
    {blockEnd room position : Nat} (hleft : Left buffer blockEnd room bytes position)
    (e : Extents) :
    Follows (fun _ => True) Eq (e.widenFrom room bytes)
      (widenBlock buffer blockEnd position e) := by
  refine (widenOne_follows hwords hleft e.uncompressed).bind ?_
  rintro ⟨uncompressed, _, _⟩ ⟨_, _⟩ ⟨rfl, hleft⟩
  refine (widenOne_follows hwords hleft e.compressed).bind ?_
  rintro ⟨compressed, _, _⟩ ⟨_, _⟩ ⟨rfl, hleft⟩
  refine (widenOne_follows hwords hleft e.offset).bind ?_
  rintro ⟨offset, _, _⟩ ⟨_, _⟩ ⟨rfl, _⟩
  exact .ok rfl

/-- Two bytes that were read at a position, and the position behind them. -/
theorem readFrom_u16 {buffer rest : Bytes} {position : Nat} {n : UInt16}
    (hwords : buffer.length < wordLimit)
    (h : Reader.u16 (buffer.drop position) = some (n, rest)) :
    readFrom Reader.u16 buffer position = .ok (n, position + 2) ∧
      rest = buffer.drop (position + 2) ∧ position + 2 ≤ buffer.length := by
  have hfront := (Reader.u16_undoes n _ rest).mp h
  have hlength := congrArg List.length hfront
  rw [List.length_append, List.length_drop, Bytes.length_ofNatLE] at hlength
  have hread := readFrom_of_some h hfront (by rw [Bytes.length_ofNatLE]; omega)
  rw [Bytes.length_ofNatLE] at hread
  exact ⟨hread.1, hread.2, by omega⟩

/-- Following the blocks of an extra field. The position stays within one length
    of the buffer: a block is only followed if its head was still in the buffer. -/
theorem widen_follows {buffer : Bytes} (hwords : buffer.length + 131074 < wordLimit)
    {extraEnd fuel fuel' position : Nat} (hposition : position ≤ buffer.length + 65535)
    (hfuel : extraEnd - position < fuel) (hfuel' : extraEnd - position ≤ fuel') (e : Extents) :
    Follows (fun _ => True) Eq (e.widenWithin fuel' (extraEnd - position) (buffer.drop position))
      (widen buffer extraEnd fuel position e) := by
  induction fuel generalizing fuel' position e with
  | zero => exact absurd hfuel (Nat.not_lt_zero _)
  | succ fuel ih =>
      unfold widen
      rw [add_of_lt (by omega), except_ok_bind]
      by_cases hend : extraEnd < position + 4
      · -- No room for another head: both stop, whatever fuel is left.
        rw [if_pos hend]
        cases fuel' with
        | zero => exact .ok rfl
        | succ fuel' =>
            rw [Extents.widenWithin, if_pos (by omega)]
            exact .ok rfl
      rw [if_neg hend]
      cases fuel' with
      | zero => exact absurd hfuel' (by omega)
      | succ fuel' =>
          rw [Extents.widenWithin, if_neg (by omega)]
          rcases hid : Reader.u16 (buffer.drop position) with _ | ⟨id, afterId⟩
          · rw [readFrom_of_none hid]
            exact .fail trivial
          rcases readFrom_u16 (by omega) hid with ⟨hreadId, rfl, _⟩
          rw [hreadId, except_ok_bind]
          simp only
          rcases hsize : Reader.u16 (buffer.drop (position + 2)) with _ | ⟨size, inside⟩
          · rw [readFrom_of_none hsize]
            exact .fail trivial
          rcases readFrom_u16 (by omega) hsize with ⟨hreadSize, rfl, hwithin⟩
          have hlength := toNat_le_maxLength size
          rw [hreadSize, except_ok_bind]
          simp only
          rw [add_of_lt (by omega), except_ok_bind, List.drop_drop]
          -- The head was inside the buffer, so the next block starts within one length of it.
          have hnext := fun e => @ih fuel' (position + 2 + 2 + size.toNat) (by omega) (by omega)
            (by omega) e
          rw [show extraEnd - (position + 2 + 2 + size.toNat) =
            extraEnd - position - (4 + size.toNat) by omega] at hnext
          by_cases hblock : id = Extents.blockId
          · rw [if_pos hblock, if_pos hblock]
            refine (widenBlock_follows (by omega)
              ⟨by omega, rfl, Nat.le_add_right _ _, hwithin⟩ e).bind ?_
            rintro e' _ rfl
            exact hnext e'
          · rw [if_neg hblock, if_neg hblock]
            exact hnext e

/-- Bytes that are there are read, and the position stays inside the buffer. -/
theorem readFrom_bytes {buffer front rest : Bytes} {position count : Nat}
    (hposition : position ≤ buffer.length) (hwords : buffer.length < wordLimit)
    (h : Reader.bytes count (buffer.drop position) = some (front, rest)) :
    readFrom (Reader.bytes count) buffer position = .ok (front, position + count) ∧
      rest = buffer.drop (position + count) ∧ position + count ≤ buffer.length := by
  rcases Reader.bytes_eq_some_iff.mp h with ⟨hfront, rfl⟩
  have hlength := congrArg List.length hfront
  rw [List.length_append, List.length_drop] at hlength
  have hread := readFrom_of_some h hfront (by omega)
  exact ⟨hread.1, hread.2, by omega⟩

/-- The fields of a record take 42 bytes, what is left of 46 behind the signature. -/
theorem readFrom_fields {buffer rest : Bytes} {position : Nat} {header : RecordHeader}
    (hwords : buffer.length < wordLimit)
    (h : RecordHeader.fields (buffer.drop position) = some (header, rest)) :
    readFrom RecordHeader.fields buffer position = .ok (header, position + 42) ∧
      rest = buffer.drop (position + 42) ∧ position + 42 ≤ buffer.length := by
  have hlayout := (RecordHeader.fields_eq_some_iff header _ rest).mp h
  rcases header.signature_starts with ⟨body, hbody⟩
  rw [← hbody, List.append_assoc, List.append_cancel_left_eq] at hlayout
  -- The layout has the signature in front, which has been read by then.
  have hcount : body.length = 42 := by
    have hwhole := header.length_toBytes
    rw [← hbody, List.length_append] at hwhole
    exact Nat.add_left_cancel (n := 4) hwhole
  have hlength := congrArg List.length hlayout
  rw [List.length_append, List.length_drop] at hlength
  have hread := readFrom_of_some h hlayout (by omega)
  rw [hcount] at hread
  exact ⟨hread.1, hread.2, by omega⟩

/-- A record that was read as a row of bytes and at a position: the same entry, and
    the position is behind the record. -/
structure Behind (buffer : Bytes) (position : Nat) (r : Entry × Nat × Bytes)
    (next : Entry × Nat) : Prop where
  entry : r.1 = next.1
  moved : position + r.2.1 = next.2
  rest : r.2.2 = buffer.drop next.2
  within : next.2 ≤ buffer.length

/-- Reading a record at a position meets no trap. -/
theorem readRecord_follows {buffer : Bytes} (hwords : buffer.length + 131074 < wordLimit)
    {position : Nat} (hposition : position ≤ buffer.length) :
    Follows (fun _ => True) (Behind buffer position) (Entry.read (buffer.drop position))
      (readRecord buffer position) := by
  unfold Entry.read readRecord
  rcases hsignature : Reader.bytes 4 (buffer.drop position) with _ | ⟨signature, afterSignature⟩
  · rw [readFrom_of_none hsignature]
    exact .fail trivial
  rcases readFrom_bytes hposition (by omega) hsignature with ⟨hread, rfl, hwithin⟩
  rw [hread, except_ok_bind]
  simp only
  by_cases hother : signature ≠ RecordHeader.signature
  · rw [if_pos hother, if_pos hother]
    exact .fail trivial
  rw [if_neg hother, if_neg hother]
  rcases hfields : RecordHeader.fields (buffer.drop (position + 4)) with _ | ⟨header, afterFields⟩
  · rw [readFrom_of_none hfields]
    exact .fail trivial
  rcases readFrom_fields (by omega) hfields with ⟨hread, rfl, hwithin⟩
  rw [hread, except_ok_bind]
  simp only
  rcases hname : Reader.bytes header.nameLength.toNat (buffer.drop (position + 4 + 42)) with
    _ | ⟨name, afterName⟩
  · rw [readFrom_of_none hname]
    exact .fail trivial
  rcases readFrom_bytes hwithin (by omega) hname with ⟨hread, rfl, hwithin⟩
  have hextra := toNat_le_maxLength header.extraLength
  have hcomment := toNat_le_maxLength header.commentLength
  rw [hread, except_ok_bind]
  simp only
  generalize hbody : position + 4 + 42 + header.nameLength.toNat = body at hwithin
  -- The extra field and the comment move the position by two lengths at most.
  rw [add_of_lt (by omega), except_ok_bind]
  have hwiden := @widen_follows buffer hwords (body + header.extraLength.toNat)
    (header.extraLength.toNat + 1) header.extraLength.toNat body (by omega) (by omega) (by omega)
    header.extents
  rw [Nat.add_sub_cancel_left] at hwiden
  refine hwiden.bind ?_
  rintro extents _ rfl
  rw [add_of_lt (by omega), except_ok_bind]
  rcases hbehind : Reader.bytes (header.extraLength.toNat + header.commentLength.toNat)
    (buffer.drop body) with _ | ⟨behind, rest⟩
  · -- Too few bytes for the extra field and the comment: the record overruns the buffer.
    have hshort := Bytes.split?_eq_none_iff.mp hbehind
    rw [List.length_drop] at hshort
    rw [if_pos (by omega)]
    exact .fail trivial
  · rcases readFrom_bytes hwithin (by omega) hbehind with ⟨_, hrest, hwithin⟩
    rw [← Nat.add_assoc] at hrest hwithin
    rw [if_neg (by omega)]
    refine .ok ⟨rfl, ?_, hrest, hwithin⟩
    simp only [RecordHeader.span, RecordHeader.length, ← hbody]
    omega

end Checked

end NestedZip
