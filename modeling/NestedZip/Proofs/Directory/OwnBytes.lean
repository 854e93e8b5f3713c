import NestedZip.Proofs.Directory.ExtraField
import NestedZip.Proofs.Directory.Recognised

/-!
# Records That Are Read From Their Own Bytes

Which records say the same whatever their comment is and whatever follows
them.

A record ends where its header says, and the walk over its extra field stops
where the header says, too. But a block of the extra field has a length of its
own, and nothing compares it with the end of the extra field. A block of wide
numbers that declares more than there is left is read as far as it declares,
so a wide number may come from the comment, or from the record behind, or be
missed at the end of the directory.

So the condition is that the walk gets along with the extra field alone, with
nothing behind it. One direction is that a walk that succeeds keeps its answer
when bytes are put behind. For the other direction two rows of bytes are put
behind that differ in their very first byte: a number that was not there in
full now ends with that byte, and its two values differ.

The walk needs one fact for both. Either a block ends inside of the extra
field, and then it is read from there, or it is the last one.

## Main definitions

* `Bytes.Apart`: Two rows of bytes that tell such a number apart.
* `Extents.widenBlock`: What one block does.
* `Bytes.IsRecord`: A signature and as many bytes as are declared.
* `Bytes.described`: What a reading says of a record.
* `Bytes.ReadsOwn`: The comment and what follows say nothing about the entry.
* `RecordLayout`: The parts of a record.

## Theorems

* `Extents.widenWithin_step`: One block of the walk.
* `Extents.widenWithin_append`: What succeeds keeps its answer.
* `Extents.widenWithin_inside`: An answer that does not depend on what follows
  is that of the extra field alone.
* `Extents.widenWithin_of_blocks`: Blocks that lie inside are enough.
* `RecordLayout.described_toBytes`: Reading a record is walking over its extra field.
* `Bytes.readsOwn_iff_widen`: Which records are read from their own bytes.
* `Bytes.not_readsOwn_startedBlock`: Some are not.
-/

namespace NestedZip

namespace Bytes

theorem eq_of_toNatLE_eq {a b : Bytes} (hlength : a.length = b.length)
    (h : toNatLE a = toNatLE b) : a = b := by
  rw [← ofNatLE_toNatLE a, ← ofNatLE_toNatLE b, h, hlength]

/-- Two rows of bytes that differ from the first byte on, each with room for all three
    wide numbers. -/
structure Apart (tail tail' : Bytes) : Prop where
  room : 24 ≤ tail.length
  room' : 24 ≤ tail'.length
  first : tail.head? ≠ tail'.head?

/-- A number that does not end in front of the two rows tells them apart. -/
theorem Apart.toNatLE_ne {tail tail' bytes : Bytes} (h : Apart tail tail') {width : Nat}
    (hshort : bytes.length < width) (hwidth : width ≤ 24) :
    toNatLE ((bytes ++ tail).take width) ≠ toNatLE ((bytes ++ tail').take width) := by
  intro hsame
  have hroom := h.room
  have hroom' := h.room'
  have hlength : ((bytes ++ tail).take width).length = ((bytes ++ tail').take width).length := by
    rw [List.length_take_of_le (by rw [List.length_append]; omega),
      List.length_take_of_le (by rw [List.length_append]; omega)]
  -- The numbers are the same only if their bytes are, and one of these is the first of a row.
  have hbytes := congrArg (fun taken => taken[bytes.length]?) (eq_of_toNatLE_eq hlength hsame)
  simp only [List.getElem?_take_of_lt hshort, List.getElem?_append_right (Nat.le_refl _),
    Nat.sub_self, ← List.head?_eq_getElem?] at hbytes
  exact h.first hbytes

end Bytes

namespace Extents

variable {e x : Extents} {value room left fuel : Nat} {bytes tail tail' : Bytes}

/-- A number that was read from some bytes is read alike if more stand behind them. -/
theorem widenOne_append {value' room' : Nat} {rest : Bytes}
    (h : widenOne value room bytes = .ok (value', room', rest)) (more : Bytes) :
    widenOne value room (bytes ++ more) = .ok (value', room', rest ++ more) := by
  unfold widenOne at h ⊢
  by_cases hwide : value = saturated ∧ 8 ≤ room
  · rw [if_pos hwide] at h ⊢
    rcases hnumber : Reader.number 8 bytes with _ | ⟨wide, behind⟩
    · rw [hnumber] at h
      exact absurd h error_ne_ok
    · simp only [hnumber, Except.ok.injEq, Prod.mk.injEq] at h
      obtain ⟨rfl, rfl, rfl⟩ := h
      obtain ⟨hfits, rfl⟩ := Reader.number_eq_some_iff.mp hnumber
      rw [List.append_assoc, Reader.number_append hfits]
  · rw [if_neg hwide] at h ⊢
    simp only [Except.ok.injEq, Prod.mk.injEq] at h
    obtain ⟨rfl, rfl, rfl⟩ := h
    rfl

/-- A number is only missed for want of bytes. It is left as it is, or eight bytes are
    taken, of the room as well as of the bytes. -/
theorem widenOne_total (h : value = saturated → 8 ≤ room → 8 ≤ bytes.length) :
    ∃ value' room' rest, widenOne value room bytes = .ok (value', room', rest) ∧
      (room' = room ∧ rest.length = bytes.length ∨
        room' + 8 = room ∧ rest.length + 8 = bytes.length) := by
  unfold widenOne
  by_cases hwide : value = saturated ∧ 8 ≤ room
  · -- There are eight bytes, so the number is read, and it takes them from the room as well.
    have hbytes := h hwide.1 hwide.2
    rw [if_pos hwide, Reader.number_of_room hbytes]
    refine ⟨_, _, _, rfl, Or.inr ⟨?_, ?_⟩⟩
    · omega
    · rw [List.length_drop]
      omega
  · rw [if_neg hwide]
    exact ⟨_, _, _, rfl, Or.inl ⟨rfl, rfl⟩⟩

/-- A number that is the same with either row behind has been read in front of them. -/
theorem widenOne_inside (h : Bytes.Apart tail tail') {room₁ room₂ : Nat} {rest₁ rest₂ : Bytes}
    {value' : Nat} (h₁ : widenOne value room (bytes ++ tail) = .ok (value', room₁, rest₁))
    (h₂ : widenOne value room (bytes ++ tail') = .ok (value', room₂, rest₂)) :
    ∃ room' rest, widenOne value room bytes = .ok (value', room', rest) ∧
      room₁ = room' ∧ room₂ = room' ∧ rest₁ = rest ++ tail ∧ rest₂ = rest ++ tail' := by
  -- Either the number would end behind the bytes, or they are enough for it.
  by_cases hshort : value = saturated ∧ 8 ≤ room ∧ bytes.length < 8
  · obtain ⟨hvalue, hroom, hlength⟩ := hshort
    have htail := h.room
    have htail' := h.room'
    unfold widenOne at h₁ h₂
    rw [if_pos ⟨hvalue, hroom⟩, Reader.number_of_room (by rw [List.length_append]; omega)] at h₁ h₂
    simp only [Except.ok.injEq, Prod.mk.injEq] at h₁ h₂
    exact absurd (h₁.1.trans h₂.1.symm) (h.toNatLE_ne hlength (by decide))
  · obtain ⟨v, r, rest, hinside, _⟩ := @widenOne_total value room bytes (by omega)
    rw [widenOne_append hinside tail, Except.ok.injEq] at h₁
    rw [widenOne_append hinside tail', Except.ok.injEq] at h₂
    simp only [Prod.mk.injEq] at h₁ h₂
    refine ⟨r, rest, ?_, h₁.2.1.symm, h₂.2.1.symm, h₁.2.2.symm, h₂.2.2.symm⟩
    rw [hinside, h₁.1]

/-- So are the three of a block. -/
theorem widenFrom_append (h : e.widenFrom room bytes = .ok x) (more : Bytes) :
    e.widenFrom room (bytes ++ more) = .ok x := by
  unfold widenFrom at h ⊢
  obtain ⟨⟨uncompressed, room₁, bytes₁⟩, h₁, h⟩ := except_bind_eq_ok_iff.mp h
  obtain ⟨⟨compressed, room₂, bytes₂⟩, h₂, h⟩ := except_bind_eq_ok_iff.mp h
  obtain ⟨⟨offset, room₃, bytes₃⟩, h₃, h⟩ := except_bind_eq_ok_iff.mp h
  -- What one number leaves, with the bytes behind, is what the next one is read from.
  refine except_bind_eq_ok_iff.mpr ⟨_, widenOne_append h₁ more, ?_⟩
  refine except_bind_eq_ok_iff.mpr ⟨_, widenOne_append h₂ more, ?_⟩
  exact except_bind_eq_ok_iff.mpr ⟨_, widenOne_append h₃ more, h⟩

/-- A block is read if all of it is there, or else if there is enough for all three
    numbers. -/
theorem widenFrom_total (h : min room 24 ≤ bytes.length) :
    ∃ x, e.widenFrom room bytes = .ok x := by
  -- Each number takes eight bytes of both the room and the bytes, so neither runs out first.
  obtain ⟨uncompressed, room₁, bytes₁, h₁, hleft₁⟩ :=
    @widenOne_total e.uncompressed room bytes (by omega)
  obtain ⟨compressed, room₂, bytes₂, h₂, hleft₂⟩ :=
    @widenOne_total e.compressed room₁ bytes₁ (by omega)
  obtain ⟨offset, room₃, bytes₃, h₃, hleft₃⟩ :=
    @widenOne_total e.offset room₂ bytes₂ (by omega)
  refine ⟨{ uncompressed, compressed, offset }, ?_⟩
  unfold widenFrom
  refine except_bind_eq_ok_iff.mpr ⟨_, h₁, ?_⟩
  refine except_bind_eq_ok_iff.mpr ⟨_, h₂, ?_⟩
  exact except_bind_eq_ok_iff.mpr ⟨_, h₃, rfl⟩

/-- A block that tells the same with either row behind has been read in front of them. -/
theorem widenFrom_inside (h : Bytes.Apart tail tail')
    (h₁ : e.widenFrom room (bytes ++ tail) = .ok x)
    (h₂ : e.widenFrom room (bytes ++ tail') = .ok x) : e.widenFrom room bytes = .ok x := by
  unfold widenFrom at h₁ h₂ ⊢
  obtain ⟨⟨u₁, _, _⟩, hu₁, h₁⟩ := except_bind_eq_ok_iff.mp h₁
  obtain ⟨⟨c₁, _, _⟩, hc₁, h₁⟩ := except_bind_eq_ok_iff.mp h₁
  obtain ⟨⟨o₁, _, _⟩, ho₁, h₁⟩ := except_bind_eq_ok_iff.mp h₁
  obtain ⟨⟨u₂, _, _⟩, hu₂, h₂⟩ := except_bind_eq_ok_iff.mp h₂
  obtain ⟨⟨c₂, _, _⟩, hc₂, h₂⟩ := except_bind_eq_ok_iff.mp h₂
  obtain ⟨⟨o₂, _, _⟩, ho₂, h₂⟩ := except_bind_eq_ok_iff.mp h₂
  simp only [pure, Except.pure, Except.ok.injEq] at h₁ h₂
  subst h₁
  simp only [Extents.mk.injEq] at h₂
  obtain ⟨rfl, rfl, rfl⟩ := h₂
  -- Each number in turn has been read in front, which leaves the same for the next one.
  obtain ⟨_, _, hu, rfl, rfl, rfl, rfl⟩ := widenOne_inside h hu₁ hu₂
  obtain ⟨_, _, hc, rfl, rfl, rfl, rfl⟩ := widenOne_inside h hc₁ hc₂
  obtain ⟨_, _, ho, _⟩ := widenOne_inside h ho₁ ho₂
  refine except_bind_eq_ok_iff.mpr ⟨_, hu, ?_⟩
  refine except_bind_eq_ok_iff.mpr ⟨_, hc, ?_⟩
  exact except_bind_eq_ok_iff.mpr ⟨_, ho, rfl⟩

/-- What a block does to the numbers: nothing, unless it is that of the wide ones. -/
def widenBlock (e : Extents) (id : UInt16) (size : Nat) (bytes : Bytes) :
    Except RecordFault Extents :=
  if id = blockId then e.widenFrom size bytes else .ok e

/-- A block of any identifier is read alike with more bytes behind it. -/
theorem widenBlock_append {id : UInt16} (h : e.widenBlock id room bytes = .ok x) (more : Bytes) :
    e.widenBlock id room (bytes ++ more) = .ok x := by
  unfold widenBlock at h ⊢
  by_cases hblock : id = blockId
  · rw [if_pos hblock] at h ⊢
    exact widenFrom_append h more
  · rw [if_neg hblock] at h ⊢
    exact h

/-- A block whose numbers are all there can be read. -/
theorem widenBlock_total (id : UInt16) (h : min room 24 ≤ bytes.length) :
    ∃ x, e.widenBlock id room bytes = .ok x := by
  unfold widenBlock
  by_cases hblock : id = blockId
  · rw [if_pos hblock]
    exact widenFrom_total h
  · rw [if_neg hblock]
    exact ⟨e, rfl⟩

/-- So has a block of any identifier, as one that is passed over is not read at all. -/
theorem widenBlock_inside {id : UInt16} (h : Bytes.Apart tail tail')
    (h₁ : e.widenBlock id room (bytes ++ tail) = .ok x)
    (h₂ : e.widenBlock id room (bytes ++ tail') = .ok x) :
    e.widenBlock id room bytes = .ok x := by
  unfold widenBlock at h₁ h₂ ⊢
  by_cases hblock : id = blockId
  · rw [if_pos hblock] at h₁ h₂ ⊢
    exact widenFrom_inside h h₁ h₂
  · rw [if_neg hblock] at h₁ ⊢
    exact h₁

/-- Where no block fits any more, the walk is over, whatever the bytes are. -/
theorem widenWithin_of_short (h : left < 4) : widenWithin fuel left bytes e = .ok e := by
  cases fuel with
  | zero => rfl
  | succ fuel => rw [widenWithin, if_pos h]

/-- Where a block fits, its identifier and its length are in the extra field. So they are
    the same whether anything follows or not, and only the data of the block may differ. -/
theorem widenWithin_step (hleft : 4 ≤ left) (hroom : left ≤ bytes.length) :
    ∃ (id size : UInt16) (inside : Bytes), bytes.length = 4 + inside.length ∧
      (∀ (fuel : Nat) (e : Extents), widenWithin (fuel + 1) left bytes e =
        (e.widenBlock id size.toNat inside >>=
          fun e => widenWithin fuel (left - (4 + size.toNat)) (inside.drop size.toNat) e)) ∧
      ∀ (fuel : Nat) (more : Bytes) (e : Extents),
        widenWithin (fuel + 1) left (bytes ++ more) e =
          (e.widenBlock id size.toNat (inside ++ more) >>=
            fun e => widenWithin fuel (left - (4 + size.toNat))
              ((inside ++ more).drop size.toNat) e) := by
  obtain ⟨id, hid⟩ := Reader.takes_u16 bytes (by omega)
  obtain ⟨size, hsize⟩ := Reader.takes_u16 (bytes.drop 2) (by rw [List.length_drop]; omega)
  rw [Reader.u16_undoes] at hid hsize
  have hstep : ∀ (fuel : Nat) (more : Bytes) (e : Extents),
      widenWithin (fuel + 1) left (bytes ++ more) e =
        (e.widenBlock id size.toNat ((bytes.drop 2).drop 2 ++ more) >>=
          fun e => widenWithin fuel (left - (4 + size.toNat))
            (((bytes.drop 2).drop 2 ++ more).drop size.toNat) e) := by
    intro fuel more e
    have hid' : Reader.u16 (bytes ++ more) = some (id, bytes.drop 2 ++ more) := by
      rw [Reader.u16_undoes, ← List.append_assoc, ← hid]
    have hsize' : Reader.u16 (bytes.drop 2 ++ more) =
        some (size, (bytes.drop 2).drop 2 ++ more) := by
      rw [Reader.u16_undoes, ← List.append_assoc, ← hsize]
    rw [widenWithin, if_neg (by omega)]
    simp only [hid', hsize', widenBlock]
    by_cases hblock : id = blockId
    · rw [if_pos hblock, if_pos hblock]
    · rw [if_neg hblock, if_neg hblock]
      rfl
  refine ⟨id, size, (bytes.drop 2).drop 2, ?_, ?_, hstep⟩
  · simp only [List.length_drop]
    omega
  · intro fuel e
    -- Nothing behind the extra field is the case that no bytes follow.
    have halone := hstep fuel [] e
    rw [List.append_nil, List.append_nil] at halone
    exact halone

/-- What succeeds on an extra field alone keeps its answer, whatever follows. -/
theorem widenWithin_append (hroom : left ≤ bytes.length)
    (h : widenWithin fuel left bytes e = .ok x) (more : Bytes) :
    widenWithin fuel left (bytes ++ more) e = .ok x := by
  induction fuel generalizing left bytes e with
  | zero => exact h
  | succ fuel ih =>
      rcases Nat.lt_or_ge left 4 with hshort | hleft
      · rw [widenWithin_of_short hshort] at h ⊢
        exact h
      obtain ⟨id, size, inside, hlength, halone, hstep⟩ := widenWithin_step hleft hroom
      rw [halone] at h
      obtain ⟨mid, hmid, hrest⟩ := except_bind_eq_ok_iff.mp h
      rw [hstep]
      refine except_bind_eq_ok_iff.mpr ⟨mid, widenBlock_append hmid more, ?_⟩
      -- The walk goes on only if the block has ended inside of the extra field.
      rcases Nat.lt_or_ge (left - (4 + size.toNat)) 4 with hlast | hmore
      · rw [widenWithin_of_short hlast] at hrest ⊢
        exact hrest
      · rw [List.drop_append_of_le_length (by omega)]
        exact ih (by rw [List.length_drop]; omega) hrest

/-- An answer that is the same with either row behind is that of the extra field alone. -/
theorem widenWithin_inside (hapart : Bytes.Apart tail tail') (hroom : left ≤ bytes.length)
    (h₁ : widenWithin fuel left (bytes ++ tail) e = .ok x)
    (h₂ : widenWithin fuel left (bytes ++ tail') e = .ok x) :
    widenWithin fuel left bytes e = .ok x := by
  -- The induction is the walk over the blocks. Only the last of them can reach behind the field.
  induction fuel generalizing left bytes e with
  | zero => exact h₁
  | succ fuel ih =>
      rcases Nat.lt_or_ge left 4 with hshort | hleft
      · rw [widenWithin_of_short hshort] at h₁ ⊢
        exact h₁
      obtain ⟨id, size, inside, hlength, halone, hstep⟩ := widenWithin_step hleft hroom
      rw [hstep] at h₁ h₂
      rw [halone]
      obtain ⟨mid₁, hmid₁, hrest₁⟩ := except_bind_eq_ok_iff.mp h₁
      obtain ⟨mid₂, hmid₂, hrest₂⟩ := except_bind_eq_ok_iff.mp h₂
      rcases Nat.lt_or_ge inside.length size.toNat with hover | hinside
      · -- The block reaches behind the extra field, so its numbers are the answer.
        have hlast : left - (4 + size.toNat) < 4 := by omega
        rw [widenWithin_of_short hlast, Except.ok.injEq] at hrest₁ hrest₂
        subst hrest₁ hrest₂
        exact except_bind_eq_ok_iff.mpr
          ⟨_, widenBlock_inside hapart hmid₁ hmid₂, widenWithin_of_short hlast⟩
      · -- The block lies inside, so it is read from there, and the walk goes on.
        obtain ⟨mid, hmid⟩ := @widenBlock_total e size.toNat inside id (by omega)
        rw [widenBlock_append hmid, Except.ok.injEq] at hmid₁ hmid₂
        subst hmid₁ hmid₂
        rw [List.drop_append_of_le_length hinside] at hrest₁ hrest₂
        refine except_bind_eq_ok_iff.mpr ⟨mid, hmid, ?_⟩
        exact ih (by rw [List.length_drop]; omega) hrest₁ hrest₂

/-- With enough bytes behind the extra field the walk succeeds, whatever is in it. -/
theorem widenWithin_total (hroom : left + 24 ≤ bytes.length) :
    ∃ x, widenWithin fuel left bytes e = .ok x := by
  induction fuel generalizing left bytes e with
  | zero => exact ⟨e, rfl⟩
  | succ fuel ih =>
      rcases Nat.lt_or_ge left 4 with hshort | hleft
      · exact ⟨e, widenWithin_of_short hshort⟩
      have hfits : left ≤ bytes.length := by omega
      obtain ⟨id, size, inside, hlength, halone, _⟩ := widenWithin_step hleft hfits
      -- The twenty-four bytes are behind whatever is left, so they are there for any block.
      obtain ⟨mid, hmid⟩ := @widenBlock_total e size.toNat inside id (by omega)
      rw [halone]
      rcases Nat.lt_or_ge (left - (4 + size.toNat)) 4 with hlast | hmore
      · exact ⟨mid, except_bind_eq_ok_iff.mpr ⟨mid, hmid, widenWithin_of_short hlast⟩⟩
      · have hbehind : left - (4 + size.toNat) + 24 ≤ (inside.drop size.toNat).length := by
          rw [List.length_drop]
          omega
        obtain ⟨x, hx⟩ : ∃ x, widenWithin fuel _ _ mid = .ok x := ih hbehind
        exact ⟨x, except_bind_eq_ok_iff.mpr ⟨mid, hmid, hx⟩⟩

/-- Blocks that lie inside of an extra field are read from there. -/
theorem widenWithin_of_blocks {blocks : List ExtraBlock} {stray : Bytes}
    (hdata : ∀ b ∈ blocks, b.data.length < 2 ^ 16) (hstray : stray.length < 4) :
    ∃ x, widenWithin fuel (blocks.flatMap ExtraBlock.toBytes ++ stray).length
      (blocks.flatMap ExtraBlock.toBytes ++ stray) e = .ok x := by
  -- Unlike in the round trip of a whole record, any number of blocks may have wide numbers.
  induction blocks generalizing fuel e with
  | nil => exact ⟨e, widenWithin_of_short hstray⟩
  | cons b blocks ih =>
      cases fuel with
      | zero => exact ⟨e, rfl⟩
      | succ fuel =>
          have hb := hdata b List.mem_cons_self
          have hinside : min b.data.length 24 ≤
              (b.data ++ (blocks.flatMap ExtraBlock.toBytes ++ stray)).length := by
            rw [List.length_append]
            omega
          obtain ⟨mid, hmid⟩ := @widenBlock_total e _ _ b.id hinside
          obtain ⟨x, hx⟩ : ∃ x, widenWithin fuel _ _ mid = .ok x :=
            ih fun c hc => hdata c (List.mem_cons_of_mem b hc)
          refine ⟨x, ?_⟩
          rw [List.flatMap_cons, List.append_assoc, List.length_append, ExtraBlock.length_toBytes,
            widenWithin_toBytes fuel _ b hb]
          exact except_bind_eq_ok_iff.mpr ⟨mid, hmid, hx⟩

end Extents

namespace Bytes

/-- The bytes are one record: they start with the signature, and there are as many of
    them as the header declares. -/
structure IsRecord (r : Bytes) : Prop where
  signature : r.take 4 = [0x50, 0x4B, 0x01, 0x02]
  length : r.length = 46 + r.numberAt 2 28 + r.numberAt 2 30 + r.numberAt 2 32

/-- Where the extra field of a record ends, and its comment starts. -/
def commentStart (r : Bytes) : Nat := 46 + r.numberAt 2 28 + r.numberAt 2 30

/-- The extra field of a record. -/
def extraField (r : Bytes) : Bytes := (r.drop (46 + r.numberAt 2 28)).take (r.numberAt 2 30)

/-- The sizes and the place in the part of fixed layout of a record. -/
def narrowExtents (r : Bytes) : Extents where
  uncompressed := r.numberAt 4 24
  compressed := r.numberAt 4 20
  offset := r.numberAt 4 42

/-- What a reading says of the record that some bytes start with, if it succeeds. -/
def described (bytes : Bytes) : Option (Entry × Nat) :=
  (Entry.read bytes).toOption.map fun (e, span, _) => (e, span)

/-- A record is read from its own bytes, and not from its comment. Neither another
    comment of the same length nor other bytes behind the record change what is said. -/
def ReadsOwn (r : Bytes) : Prop :=
  ∀ comment rest rest', comment.length = r.numberAt 2 32 →
    described (r ++ rest) = described (r.take r.commentStart ++ (comment ++ rest'))

end Bytes

namespace RecordHeader

variable {h : RecordHeader} {name extra comment : Bytes}

/-- A header and what is behind it are to be had back from the bytes. -/
theorem append_inj {other : RecordHeader} {rest rest' : Bytes}
    (hsame : h.toBytes ++ rest = other.toBytes ++ rest') : h = other ∧ rest = rest' := by
  obtain ⟨body, hbody⟩ := h.signature_starts
  have hread : fields (body ++ rest) = some (h, rest) := by
    rw [fields_eq_some_iff, ← hbody, List.append_assoc]
  have hother : fields (body ++ rest) = some (other, rest') := by
    rw [fields_eq_some_iff, ← hsame, ← hbody, List.append_assoc]
  rw [hread, Option.some.injEq, Prod.mk.injEq] at hother
  exact hother

/-- The numbers at their places are those of the header that stands there. -/
theorem narrowExtents_of_stands {bytes : Bytes} (hstands : h.toBytes <+: bytes) :
    bytes.narrowExtents = h.extents := by
  -- The layout of the header is a row of numbers, of which each has the others in front and behind.
  have hu : bytes.numberAt 4 24 = h.uncompressedSize.toNat := by
    refine Bytes.numberAt_of_stands h.uncompressedSize.toNat_lt (fun rest => ?_) hstands
    simp only [toBytes, signature, Bytes.ofNatLE, List.append_assoc]
    rfl
  have hc : bytes.numberAt 4 20 = h.compressedSize.toNat := by
    refine Bytes.numberAt_of_stands h.compressedSize.toNat_lt (fun rest => ?_) hstands
    simp only [toBytes, signature, Bytes.ofNatLE, List.append_assoc]
    rfl
  have ho : bytes.numberAt 4 42 = h.headerOffset.toNat := by
    refine Bytes.numberAt_of_stands h.headerOffset.toNat_lt (fun rest => ?_) hstands
    simp only [toBytes, signature, Bytes.ofNatLE, List.append_assoc]
    rfl
  rw [Bytes.narrowExtents, hu, hc, ho, extents]

/-- The numbers of an entry are to be had back from it. -/
theorem entry_inj {x x' : Extents} (hsame : h.entry name x = h.entry name x') : x = x' := by
  have hu : x.uncompressed = x'.uncompressed := congrArg Entry.uncompressedSize hsame
  have hc : x.compressed = x'.compressed := congrArg Entry.compressedSize hsame
  have ho : x.offset = x'.offset := congrArg Entry.headerOffset hsame
  cases x
  cases x'
  rw [Extents.mk.injEq]
  exact ⟨hu, hc, ho⟩

end RecordHeader

/-- The parts of a record, which have the lengths that its header declares. -/
structure RecordLayout where
  header : RecordHeader
  name : Bytes
  extra : Bytes
  comment : Bytes
  nameLength : name.length = header.nameLength.toNat
  extraLength : extra.length = header.extraLength.toNat
  commentLength : comment.length = header.commentLength.toNat

namespace RecordLayout

variable (l : RecordLayout)

/-- The bytes of the record. -/
def toBytes : Bytes := l.header.toBytes ++ (l.name ++ (l.extra ++ l.comment))

/-- The record with another comment of the same length. -/
def withComment (comment : Bytes) (h : comment.length = l.comment.length) : RecordLayout :=
  { l with comment, commentLength := h.trans l.commentLength }

theorem header_stands : l.header.toBytes <+: l.toBytes := List.prefix_append _ _

theorem length_toBytes : l.toBytes.length = l.header.span := by
  simp only [toBytes, List.length_append, l.header.length_toBytes, l.nameLength, l.extraLength,
    l.commentLength, RecordHeader.span, Nat.add_assoc]

theorem numberAt_commentLength : l.toBytes.numberAt 2 32 = l.comment.length := by
  rw [(RecordHeader.numberAt_lengths l.header_stands).2.2, l.commentLength]

theorem extraField_toBytes : l.toBytes.extraField = l.extra := by
  obtain ⟨hn, hm, _⟩ := RecordHeader.numberAt_lengths l.header_stands
  have hheader : l.header.toBytes.length = 46 := l.header.length_toBytes
  rw [Bytes.extraField, hn, hm, ← l.nameLength, ← l.extraLength, ← List.drop_drop, ← hheader,
    toBytes, List.drop_left, List.drop_left, List.take_left]

/-- The comment starts behind the header, the name and the extra field. -/
theorem take_commentStart :
    l.toBytes.take l.toBytes.commentStart = l.header.toBytes ++ (l.name ++ l.extra) := by
  obtain ⟨hn, hm, _⟩ := RecordHeader.numberAt_lengths l.header_stands
  have hheader : l.header.toBytes.length = 46 := l.header.length_toBytes
  have hstart : l.toBytes.commentStart = (l.header.toBytes ++ (l.name ++ l.extra)).length := by
    rw [Bytes.commentStart, hn, hm, ← l.nameLength, ← l.extraLength, List.length_append,
      List.length_append, hheader, Nat.add_assoc]
  rw [hstart, toBytes, ← List.append_assoc, ← List.append_assoc, ← List.append_assoc,
    List.take_left]

/-- Reading a record comes to walking over its extra field. -/
theorem described_toBytes (rest : Bytes) :
    Bytes.described (l.toBytes ++ rest) =
      (l.header.extents.widen l.extra.length (l.extra ++ (l.comment ++ rest))).toOption.map
        fun x => (l.header.entry l.name x, l.header.span) := by
  have hbytes : l.toBytes ++ rest =
      l.header.toBytes ++ (l.name ++ (l.extra ++ l.comment ++ rest)) := by
    simp only [toBytes, List.append_assoc]
  unfold Bytes.described
  rw [← List.append_assoc]
  rcases hwiden : l.header.extents.widen l.extra.length (l.extra ++ l.comment ++ rest) with err | x
  · -- Any success would be one of the same header, the same name and the same walk.
    rcases hread : Entry.read (l.toBytes ++ rest) with err' | ⟨e, span, rest'⟩
    · rfl
    · obtain ⟨other, name', behind, x, hother, hname', _, hx, _⟩ := Entry.read_eq_ok_iff.mp hread
      obtain ⟨rfl, hmore⟩ := RecordHeader.append_inj (hbytes.symm.trans hother)
      obtain ⟨rfl, hbehind⟩ := List.append_inj hmore (l.nameLength.trans hname'.symm)
      rw [← hbehind, ← l.extraLength, hwiden] at hx
      exact absurd hx error_ne_ok
  · have hread : Entry.read (l.toBytes ++ rest) =
        .ok (l.header.entry l.name x, l.header.span, rest) := by
      refine Entry.read_eq_ok_iff.mpr
        ⟨l.header, l.name, l.extra ++ l.comment, x, hbytes, l.nameLength, ?_, ?_, rfl, rfl⟩
      · rw [List.length_append, l.extraLength, l.commentLength]
      · rw [← l.extraLength]
        exact hwiden
    rw [hread]
    rfl

/-- A walk that succeeds on the extra field alone settles what is read. -/
theorem described_of_widen {x : Extents}
    (hx : l.header.extents.widen l.extra.length l.extra = .ok x) (rest : Bytes) :
    Bytes.described (l.toBytes ++ rest) = some (l.header.entry l.name x, l.header.span) := by
  have hwiden := Extents.widenWithin_append (Nat.le_refl _) hx (l.comment ++ rest)
  rw [described_toBytes, Extents.widen, hwiden]
  rfl

/-- If neither the comment nor what follows has a say, the walk succeeds on the extra
    field alone. -/
theorem widen_of_described {told : Option (Entry × Nat)}
    (h : ∀ (comment rest : Bytes) (hlength : comment.length = l.comment.length),
      Bytes.described ((l.withComment comment hlength).toBytes ++ rest) = told) :
    ∃ x, l.header.extents.widen l.extra.length l.extra = .ok x := by
  -- Two comments and two rows behind them, which differ in the first byte.
  let tail : UInt8 → Bytes := fun b => List.replicate l.comment.length b ++ List.replicate 24 b
  have hapart : Bytes.Apart (tail 0) (tail 1) := by
    refine ⟨?_, ?_, ?_⟩
    · simp only [tail, List.length_append, List.length_replicate]
      omega
    · simp only [tail, List.length_append, List.length_replicate]
      omega
    · simp only [tail, List.replicate_append_replicate, List.head?_replicate]
      rw [if_neg (by omega), if_neg (by omega)]
      decide
  have hread : ∀ b : UInt8, ∃ x, l.header.extents.widen l.extra.length (l.extra ++ tail b) = .ok x ∧
      told = some (l.header.entry l.name x, l.header.span) := by
    intro b
    have hroom : l.extra.length + 24 ≤ (l.extra ++ tail b).length := by
      simp only [tail, List.length_append, List.length_replicate]
      omega
    obtain ⟨x, hx⟩ : ∃ x, l.header.extents.widen l.extra.length (l.extra ++ tail b) = .ok x :=
      Extents.widenWithin_total hroom
    have htold := h (List.replicate l.comment.length b) (List.replicate 24 b) List.length_replicate
    rw [described_toBytes] at htold
    change Option.map _ (l.header.extents.widen l.extra.length (l.extra ++ tail b)).toOption = _
      at htold
    rw [hx] at htold
    exact ⟨x, hx, htold.symm⟩
  obtain ⟨x, hx, hzeros⟩ := hread 0
  obtain ⟨x', hx', hones⟩ := hread 1
  rw [hzeros, Option.some.injEq, Prod.mk.injEq] at hones
  obtain rfl := RecordHeader.entry_inj hones.1
  exact ⟨x, Extents.widenWithin_inside hapart (Nat.le_refl _) hx hx'⟩

/-- A record is read by its own bytes if its extra field can be walked through without those behind
    it. -/
theorem readsOwn_iff :
    l.toBytes.ReadsOwn ↔ ∃ x, l.header.extents.widen l.extra.length l.extra = .ok x := by
  -- What is left in front of another comment is this record with that comment.
  have hcut : ∀ (comment rest : Bytes) (hlength : comment.length = l.comment.length),
      l.toBytes.take l.toBytes.commentStart ++ (comment ++ rest) =
        (l.withComment comment hlength).toBytes ++ rest := by
    intro comment rest hlength
    rw [take_commentStart]
    simp only [withComment, toBytes, List.append_assoc]
  unfold Bytes.ReadsOwn
  rw [numberAt_commentLength]
  constructor
  · intro hown
    apply widen_of_described l
    intro comment rest hlength
    rw [← hcut comment rest hlength]
    exact (hown comment [] rest hlength).symm
  · rintro ⟨x, hx⟩ comment rest rest' hlength
    rw [hcut comment rest' hlength, l.described_of_widen hx,
      (l.withComment comment hlength).described_of_widen hx]
    rfl

end RecordLayout

namespace Bytes

/-- Every record is a header and the three parts whose lengths it declares. -/
theorem IsRecord.exists_layout {r : Bytes} (hr : r.IsRecord) :
    ∃ l : RecordLayout, r = l.toBytes := by
  have hlength := hr.length
  -- The header comes first, and what it declares is cut off the rest.
  obtain ⟨h, hstands⟩ := RecordHeader.exists_layout hr.signature
    (by rw [hlength, RecordHeader.length]; omega)
  obtain ⟨hn, hm, hc⟩ := RecordHeader.numberAt_lengths hstands
  obtain ⟨body, rfl⟩ := hstands
  rw [hn, hm, hc, List.length_append, h.length_toBytes, RecordHeader.length] at hlength
  let behind := body.drop h.nameLength.toNat
  have hbehind : behind.length = h.extraLength.toNat + h.commentLength.toNat := by
    rw [List.length_drop]
    omega
  let l : RecordLayout := {
    header := h
    name := body.take h.nameLength.toNat
    extra := behind.take h.extraLength.toNat
    comment := behind.drop h.extraLength.toNat
    nameLength := List.length_take_of_le (by omega)
    extraLength := List.length_take_of_le (by omega)
    commentLength := by rw [List.length_drop, hbehind, Nat.add_sub_cancel_left] }
  refine ⟨l, ?_⟩
  simp only [l, behind, RecordLayout.toBytes, List.take_append_drop]

/-- A record is read from its own bytes exactly if the walk over its extra field needs
    nothing behind it. Then its numbers are what that walk says, and the same entry is
    read whatever follows. An extra field whose blocks all end inside is of that kind. -/
theorem readsOwn_iff_widen {r : Bytes} (hr : r.IsRecord) :
    (r.ReadsOwn ↔ ∃ x, r.narrowExtents.widen r.extraField.length r.extraField = .ok x) ∧
    (∀ x, r.narrowExtents.widen r.extraField.length r.extraField = .ok x →
      ∃ e : Entry, e.uncompressedSize = x.uncompressed ∧ e.compressedSize = x.compressed ∧
        e.headerOffset = x.offset ∧ ∀ rest, described (r ++ rest) = some (e, r.length)) ∧
    (∀ (blocks : List ExtraBlock) (stray : Bytes), (∀ b ∈ blocks, b.data.length < 2 ^ 16) →
      stray.length < 4 → r.extraField = blocks.flatMap ExtraBlock.toBytes ++ stray →
      r.ReadsOwn) := by
  obtain ⟨l, hl⟩ := hr.exists_layout
  rw [hl, RecordHeader.narrowExtents_of_stands l.header_stands, l.extraField_toBytes,
    l.readsOwn_iff, l.length_toBytes]
  refine ⟨Iff.rfl, ?_, ?_⟩
  · intro x hx
    exact ⟨l.header.entry l.name x, rfl, rfl, rfl, l.described_of_widen hx⟩
  · intro blocks stray hdata hstray hblocks
    rw [hblocks]
    exact Extents.widenWithin_of_blocks hdata hstray

/-- A record of an entry whose size is at its largest value, up to its comment. Its extra
    field has nothing but the start of a block of wide numbers. -/
def startedBlock (commentLength : UInt8) : Bytes :=
  [0x50, 0x4B, 0x01, 0x02, 45, 0, 45, 0, 0, 0, 0, 0, 0, 0, 0, 0, 0, 0, 0, 0, 0, 0, 0, 0,
    0xFF, 0xFF, 0xFF, 0xFF, 1, 0, 4, 0, commentLength, 0, 0, 0, 0, 0, 0, 0, 0, 0, 0, 0, 0, 0] ++
    [0x61] ++ [1, 0, 8, 0]

/-- The same record with a comment of eight bytes. -/
def commentedBlock (b : UInt8) : Bytes := startedBlock 8 ++ [b, 0, 0, 0, 0, 0, 0, 0]

/-- The size of the entry that is read, if one is. -/
def sizeRead (bytes : Bytes) : Option Nat :=
  (described bytes).map fun told => told.1.uncompressedSize

/-- The size that is read is in the comment, if there is one, and else in the record
    behind, and it cannot be read at the end of the directory. -/
theorem not_readsOwn_startedBlock :
    IsRecord (startedBlock 0) ∧ ¬ ReadsOwn (startedBlock 0) ∧
    sizeRead (startedBlock 0) = none ∧
    sizeRead (startedBlock 0 ++ startedBlock 0) = some 0x002D002D02014B50 ∧
    IsRecord (commentedBlock 7) ∧ ¬ ReadsOwn (commentedBlock 7) ∧
    sizeRead (commentedBlock 7) = some 7 ∧ sizeRead (commentedBlock 8) = some 8 := by
  have hend : sizeRead (startedBlock 0) = none := by decide +kernel
  have hnext : sizeRead (startedBlock 0 ++ startedBlock 0) = some 0x002D002D02014B50 := by
    decide +kernel
  have hseven : sizeRead (commentedBlock 7) = some 7 := by decide +kernel
  have height : sizeRead (commentedBlock 8) = some 8 := by decide +kernel
  refine ⟨⟨by decide +kernel, by decide +kernel⟩, ?_, hend, hnext,
    ⟨by decide +kernel, by decide +kernel⟩, ?_, hseven, height⟩
  -- With nothing behind it there is no size to tell, and with another record there is.
  · intro hown
    have hcut : (startedBlock 0).take (startedBlock 0).commentStart = startedBlock 0 := by
      decide +kernel
    have htold := hown [] [] (startedBlock 0) (by decide +kernel)
    rw [hcut, List.append_nil, List.nil_append] at htold
    unfold sizeRead at hend hnext
    rw [htold, hnext] at hend
    exact absurd hend (Option.some_ne_none _)
  · intro hown
    have hcut : (commentedBlock 7).take (commentedBlock 7).commentStart = startedBlock 8 := by
      decide +kernel
    have htold : described (commentedBlock 7) = described (commentedBlock 8) := by
      have hboth := hown [8, 0, 0, 0, 0, 0, 0, 0] [] [] (by decide +kernel)
      rw [hcut, List.append_nil, List.append_nil] at hboth
      exact hboth
    unfold sizeRead at hseven height
    rw [htold, height] at hseven
    exact absurd hseven (by decide)

/-- A size in a block that ends inside of the extra field, and a comment. -/
def endedBlock : Bytes :=
  [0x50, 0x4B, 0x01, 0x02, 45, 0, 45, 0, 0, 0, 0, 0, 0, 0, 0, 0, 0, 0, 0, 0, 0, 0, 0, 0,
    0xFF, 0xFF, 0xFF, 0xFF, 1, 0, 12, 0, 2, 0, 0, 0, 0, 0, 0, 0, 0, 0, 0, 0, 0, 0] ++
    [0x61] ++ [1, 0, 8, 0, 9, 0, 0, 0, 0, 0, 0, 0] ++ [5, 5]

/-- A record whose block ends with the extra field has the size that the block tells, whatever
    follows it. -/
theorem readsOwn_endedBlock :
    IsRecord endedBlock ∧ ReadsOwn endedBlock ∧
    ∃ e : Entry, e.uncompressedSize = 9 ∧
      ∀ rest, described (endedBlock ++ rest) = some (e, endedBlock.length) := by
  have hr : IsRecord endedBlock := ⟨by decide +kernel, by decide +kernel⟩
  have hwiden : endedBlock.narrowExtents.widen endedBlock.extraField.length
      endedBlock.extraField = .ok { uncompressed := 9, compressed := 0, offset := 0 } := rfl
  obtain ⟨e, hsize, _, _, hread⟩ := (readsOwn_iff_widen hr).2.1 _ hwiden
  exact ⟨hr, (readsOwn_iff_widen hr).1.mpr ⟨_, hwiden⟩, e, hsize, hread⟩

end Bytes

end NestedZip
