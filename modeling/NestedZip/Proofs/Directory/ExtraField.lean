import NestedZip.Proofs.Directory.Record

/-!
# Extra Fields as They Are Written

The layout of an extra field, and what reading it answers.

An extra field is a row of blocks, each with an identifier and the length of
its data. One of them may be the block of wide numbers. It has a wide number
for each narrow one that is at its largest value, in a fixed order, and
nothing in place of the others, so what it holds depends on the header it
belongs to. Behind the last block there may be a few stray bytes, too few to
be a block.

Reading follows the lengths, so the induction is on the blocks, and the
accumulated numbers are its only state: before the block of wide numbers they
are the narrow ones and behind it the true ones. A second such block would be
read against the true ones, which is why the layout has at most one.

## Main definitions

* `ExtraBlock`: A block of an extra field.
* `WideNumbers`: The true numbers of an entry.
* `Extents.wideBytes`: What a block of wide numbers starts with.
* `Extents.widened`: The true numbers in place of the saturated ones.

## Theorems

* `Extents.widenFrom_wideBytes`: A block of wide numbers is read back.
* `Extents.widenWithin_toBytes`: One block, and then the rest.
* `Extents.widenWithin_other`: Blocks without wide numbers change nothing.
* `Extents.widenWithin_blocks`: A whole extra field is read back.
-/

namespace NestedZip

/-- A block of an extra field. -/
structure ExtraBlock where
  id : UInt16
  data : Bytes
deriving DecidableEq, Repr

namespace ExtraBlock

/-- The layout of a block. -/
def toBytes (b : ExtraBlock) : Bytes :=
  .ofNatLE 2 b.id.toNat ++ (.ofNatLE 2 b.data.length ++ b.data)

@[simp]
theorem length_toBytes (b : ExtraBlock) : b.toBytes.length = 4 + b.data.length := by
  simp only [toBytes, List.length_append, Bytes.length_ofNatLE]
  omega

end ExtraBlock

/-- The true sizes and the true place of an entry, as wide numbers. -/
structure WideNumbers where
  uncompressed : UInt64
  compressed : UInt64
  offset : UInt64
deriving DecidableEq, Repr

namespace Extents

/-- The layout of a wide number, which is there only in place of a narrow one
    at its largest value. -/
def wideBytesOne (narrow : Nat) (wide : UInt64) : Bytes :=
  if narrow = saturated then .ofNatLE 8 wide.toNat else []

/-- What a block of wide numbers starts with. -/
def wideBytes (e : Extents) (wide : WideNumbers) : Bytes :=
  wideBytesOne e.uncompressed wide.uncompressed ++
    (wideBytesOne e.compressed wide.compressed ++ wideBytesOne e.offset wide.offset)

/-- A narrow number, or the wide one if it is at its largest value. -/
def widenedOne (narrow : Nat) (wide : UInt64) : Nat :=
  if narrow = saturated then wide.toNat else narrow

/-- A number is at most eight bytes wide, whether it is the one in the record or in the block. -/
theorem widenedOne_lt {narrow : Nat} (h : narrow < 2 ^ 32) (wide : UInt64) :
    widenedOne narrow wide < 2 ^ 64 := by
  have hwide : wide.toNat < 2 ^ 64 := wide.toNat_lt
  unfold widenedOne
  by_cases hnarrow : narrow = saturated
  · rw [if_pos hnarrow]
    exact hwide
  · rw [if_neg hnarrow]
    omega

/-- The narrow numbers, with wide ones for those at their largest value. -/
def widened (e : Extents) (wide : WideNumbers) : Extents where
  uncompressed := widenedOne e.uncompressed wide.uncompressed
  compressed := widenedOne e.compressed wide.compressed
  offset := widenedOne e.offset wide.offset

/-- What is written for a number is read back, and it takes only the room that it needs. -/
theorem widenOne_wideBytesOne (narrow room : Nat) (wide : UInt64) (more : Bytes) :
    widenOne narrow ((wideBytesOne narrow wide).length + room)
      (wideBytesOne narrow wide ++ more) = .ok (widenedOne narrow wide, room, more) := by
  unfold widenOne wideBytesOne widenedOne
  by_cases h : narrow = saturated
  · have hwide : wide.toNat < 256 ^ 8 := wide.toNat_lt
    simp only [if_pos h, Bytes.length_ofNatLE]
    rw [if_pos ⟨h, Nat.le_add_right 8 room⟩, Reader.number_append hwide]
    simp only [Nat.add_sub_cancel_left]
  · simp only [if_neg h, List.length_nil, Nat.zero_add, List.nil_append]
    rw [if_neg (fun hboth => h hboth.1)]

/-- A block that starts with the wide numbers is read back, whatever else is
    in it. -/
theorem widenFrom_wideBytes (e : Extents) (wide : WideNumbers) (room : Nat) (more : Bytes) :
    e.widenFrom ((e.wideBytes wide).length + room) (e.wideBytes wide ++ more) =
      .ok (e.widened wide) := by
  unfold widenFrom wideBytes
  simp only [List.length_append, List.append_assoc, Nat.add_assoc]
  -- Three numbers in a row, each of which is there or not.
  rw [widenOne_wideBytesOne]
  refine except_bind_eq_ok_iff.mpr ⟨_, rfl, ?_⟩
  simp only
  rw [widenOne_wideBytesOne]
  refine except_bind_eq_ok_iff.mpr ⟨_, rfl, ?_⟩
  simp only
  rw [widenOne_wideBytesOne]
  rfl

/-- One block is read by its identifier and skipped by its length. -/
theorem widenWithin_toBytes (fuel left : Nat) (b : ExtraBlock) (hb : b.data.length < 2 ^ 16)
    (more : Bytes) (e : Extents) :
    widenWithin (fuel + 1) (4 + b.data.length + left) (b.toBytes ++ more) e =
      ((if b.id = blockId then e.widenFrom b.data.length (b.data ++ more) else .ok e) >>=
        fun e => widenWithin fuel left more e) := by
  have hlength : (UInt16.ofNat b.data.length).toNat = b.data.length :=
    UInt16.toNat_ofNat_of_lt' hb
  -- The block starts with its identifier and its length, two bytes each.
  have hid : Reader.u16 (b.toBytes ++ more) =
      some (b.id, .ofNatLE 2 b.data.length ++ (b.data ++ more)) := by
    rw [Reader.u16_undoes, ExtraBlock.toBytes, List.append_assoc, List.append_assoc]
  have hsize : Reader.u16 (.ofNatLE 2 b.data.length ++ (b.data ++ more)) =
      some (UInt16.ofNat b.data.length, b.data ++ more) := by
    rw [Reader.u16_undoes]
    simp only [hlength]
  rw [widenWithin, if_neg (by omega)]
  simp only [hid, hsize, hlength, List.drop_left, Nat.add_sub_cancel_left]
  by_cases hblock : b.id = blockId
  · rw [if_pos hblock, if_pos hblock]
  · rw [if_neg hblock, if_neg hblock]
    rfl

/-- Blocks none of which has wide numbers change nothing. -/
theorem widenWithin_other {fuel : Nat} {blocks : List ExtraBlock} {stray more : Bytes}
    (e : Extents) (hfuel : blocks.length ≤ fuel)
    (hdata : ∀ b ∈ blocks, b.data.length < 2 ^ 16) (hstray : stray.length < 4)
    (hother : ∀ b ∈ blocks, b.id ≠ blockId) :
    widenWithin fuel ((blocks.flatMap ExtraBlock.toBytes).length + stray.length)
      (blocks.flatMap ExtraBlock.toBytes ++ more) e = .ok e := by
  induction blocks generalizing fuel with
  | nil =>
      -- Every round takes a block, and stray bytes are too short to be one.
      cases fuel with
      | zero => rfl
      | succ fuel =>
          rw [List.flatMap_nil, List.length_nil, Nat.zero_add, widenWithin, if_pos hstray]
  | cons b blocks ih =>
      cases fuel with
      | zero => exact absurd hfuel (Nat.not_succ_le_zero _)
      | succ fuel =>
          rw [List.flatMap_cons, List.length_append, ExtraBlock.length_toBytes, List.append_assoc,
            Nat.add_assoc, widenWithin_toBytes fuel _ b (hdata b List.mem_cons_self),
            if_neg (hother b List.mem_cons_self)]
          exact ih (by rw [List.length_cons] at hfuel; omega)
            (fun c hc => hdata c (List.mem_cons_of_mem b hc))
            (fun c hc => hother c (List.mem_cons_of_mem b hc))

/-- A whole extra field is read back: the wide numbers of its one block that
    has them, or the narrow ones if there is no such block. -/
theorem widenWithin_blocks {fuel : Nat} {blocks : List ExtraBlock} {stray more : Bytes}
    (e : Extents) (wide : WideNumbers) (hfuel : blocks.length ≤ fuel)
    (hdata : ∀ b ∈ blocks, b.data.length < 2 ^ 16) (hstray : stray.length < 4)
    (hone : blocks.countP (fun b => b.id = blockId) ≤ 1)
    (hwide : ∀ b ∈ blocks, b.id = blockId → e.wideBytes wide <+: b.data) :
    widenWithin fuel ((blocks.flatMap ExtraBlock.toBytes).length + stray.length)
      (blocks.flatMap ExtraBlock.toBytes ++ more) e =
      .ok (if ∃ b ∈ blocks, b.id = blockId then e.widened wide else e) := by
  -- The block that counts is met once at most, and until then nothing is widened.
  induction blocks generalizing fuel with
  | nil =>
      rw [widenWithin_other e hfuel hdata hstray (fun b hb => absurd hb List.not_mem_nil),
        if_neg (fun h => absurd h.choose_spec.1 List.not_mem_nil)]
  | cons b blocks ih =>
      cases fuel with
      | zero => exact absurd hfuel (Nat.not_succ_le_zero _)
      | succ fuel =>
          rw [List.length_cons] at hfuel
          have hdata' := fun c hc => hdata c (List.mem_cons_of_mem b hc)
          rw [List.flatMap_cons, List.length_append, ExtraBlock.length_toBytes, List.append_assoc,
            Nat.add_assoc, widenWithin_toBytes fuel _ b (hdata b List.mem_cons_self)]
          by_cases hblock : b.id = blockId
          · -- This is the one block that has them, so the blocks behind it change nothing.
            rcases hwide b List.mem_cons_self hblock with ⟨slack, hslack⟩
            have hother : ∀ c ∈ blocks, c.id ≠ blockId := by
              intro c hc hcblock
              have hpos : 0 < blocks.countP fun b => b.id = blockId :=
                List.countP_pos_iff.mpr ⟨c, hc, decide_eq_true hcblock⟩
              simp only [List.countP_cons, hblock, decide_true, if_true] at hone
              omega
            rw [if_pos hblock, if_pos ⟨b, List.mem_cons_self, hblock⟩, ← hslack,
              List.length_append, List.append_assoc, widenFrom_wideBytes]
            exact widenWithin_other (e.widened wide) (by omega) hdata' hstray hother
          · -- The block that counts is behind this one, if there is one at all.
            simp only [List.countP_cons, hblock, decide_false, Bool.false_eq_true, if_false,
              Nat.add_zero] at hone
            have hiff : (∃ c ∈ b :: blocks, c.id = blockId) ↔ ∃ c ∈ blocks, c.id = blockId := by
              simp only [List.mem_cons, exists_eq_or_imp, hblock, false_or]
            rw [if_neg hblock]
            simp only [hiff]
            exact ih (by omega) hdata' hone
              (fun c hc => hwide c (List.mem_cons_of_mem b hc))

end Extents

end NestedZip
