import NestedZip.Proofs.Directory.EndSearch

/-!
# The Bounds of a Directory

Where the numbers come from by which a directory is found.

The end record has them itself unless it is saturated. Then a ZIP64 locator
stands directly in front of it and names a ZIP64 end record, which has them.
The place the locator names is stale in an archive that something was put in
front of, so there are two candidates, the place as named and the place
directly in front of the locator, and the first one that holds a record is
taken. `IsNamedAt` states this choice without the search, and `TakenFrom` puts
both kinds of archive into one relation between the bytes, their end record
and the bounds.

## Main definitions

* `Zip64EndRecord.IsNamedAt`: The ZIP64 end record that a locator leads to.
* `Index.Bounds.TakenFrom`: The bounds that an end record leads to.

## Theorems

* `Index.findZip64EndRecord_spec`: The ZIP64 end record that is found is the
  one the locator leads to.
* `Index.findBounds_spec`: The bounds that are found are those the last end
  record leads to.
* `Index.findBounds_eq_ok`, `Index.findBounds_of_takenFrom`: Both directions of
  this for a search that succeeds.
-/

namespace NestedZip

/-- The record is the one that a locator at `stop` leads to: it stands where
    the locator says, or else directly in front of the locator. -/
def Zip64EndRecord.IsNamedAt (z : Zip64EndRecord) (l : Zip64Locator) (bytes : Bytes)
    (stop p : Nat) : Prop :=
  z.toBytes <+: bytes.drop p ∧ p + length ≤ stop ∧
    (p = l.endRecordOffset.toNat ∨
      p + length = stop ∧ ∀ other : Zip64EndRecord, l.endRecordOffset.toNat + length ≤ stop →
        ¬ other.toBytes <+: bytes.drop l.endRecordOffset.toNat)

namespace Index

/-- What an end record at `position` says about the directory, itself or
    through the ZIP64 end record in front of it. -/
def Bounds.TakenFrom (b : Bounds) (r : EndRecord) (bytes : Bytes) (position : Nat) : Prop :=
  if r.isSaturated then
    ∃ (l : Zip64Locator) (z : Zip64EndRecord),
      Zip64Locator.length ≤ position ∧
      l.toBytes <+: bytes.drop (position - Zip64Locator.length) ∧
      z.IsNamedAt l bytes (position - Zip64Locator.length) b.stop ∧
      b.totalEntries = z.totalEntries.toNat ∧ b.size = z.directorySize.toNat ∧
      b.declaredOffset = z.directoryOffset.toNat
  else
    b.totalEntries = r.totalEntries.toNat ∧ b.size = r.directorySize.toNat ∧
      b.declaredOffset = r.directoryOffset.toNat ∧ b.stop = position

/-- A record of fixed length is recognised in the slice of that length. -/
theorem prefix_slice_iff {layout bytes : Bytes} {p count : Nat} (h : layout.length = count) :
    layout <+: (bytes.drop p).take count ↔ layout <+: bytes.drop p := by
  rw [List.prefix_take_iff, h]
  simp only [Nat.le_refl, and_true]

/-- A wide end record at the first position is the one that is found. -/
theorem firstZip64EndRecord_of_stands {w : Window} (hw : w.Intact) {stop p : Nat}
    {ps : List Nat} {z : Zip64EndRecord} (hstop : stop ≤ w.bytes.length)
    (hfits : p + Zip64EndRecord.length ≤ stop) (h : z.toBytes <+: w.bytes.drop p) :
    (firstZip64EndRecord w stop (p :: ps)).outcome = .ok (some (z, p)) := by
  have hbytes := Window.length_bytes hw
  have hread := Window.readExactAt_of_intact hw p Zip64EndRecord.length (by omega)
  rw [firstZip64EndRecord, if_neg (by omega), Metered.bind_of_ok (congrArg Metered.outcome hread)]
  rw [← prefix_slice_iff z.length_toBytes, ← Zip64EndRecord.ofBytes?_eq_some_iff] at h
  rw [h]
  rfl

/-- A position without one, or without the room for one, is passed over. -/
theorem firstZip64EndRecord_of_not {w : Window} (hw : w.Intact) {stop p : Nat}
    {ps : List Nat} (hstop : stop ≤ w.bytes.length)
    (h : ∀ z : Zip64EndRecord, p + Zip64EndRecord.length ≤ stop → ¬ z.toBytes <+: w.bytes.drop p) :
    (firstZip64EndRecord w stop (p :: ps)).outcome = (firstZip64EndRecord w stop ps).outcome := by
  have hbytes := Window.length_bytes hw
  rw [firstZip64EndRecord]
  by_cases hfits : stop < p + Zip64EndRecord.length
  · rw [if_pos hfits]
  have hread := Window.readExactAt_of_intact hw p Zip64EndRecord.length (by omega)
  rw [if_neg hfits, Metered.bind_of_ok (congrArg Metered.outcome hread)]
  rcases hrecord : Zip64EndRecord.ofBytes? ((w.bytes.drop p).take Zip64EndRecord.length) with
    _ | z
  · rfl
  · rw [Zip64EndRecord.ofBytes?_eq_some_iff, prefix_slice_iff z.length_toBytes] at hrecord
    exact absurd hrecord (h z (by omega))

/-- Trying the two candidates in turn finds the record that is named, or none
    because none is. -/
theorem firstZip64EndRecord_spec {w : Window} (hw : w.Intact) {stop : Nat}
    (hstop : stop ≤ w.bytes.length) (l : Zip64Locator) :
    let adjacent :=
      if Zip64EndRecord.length ≤ stop then [stop - Zip64EndRecord.length] else []
    let first := firstZip64EndRecord w stop (l.endRecordOffset.toNat :: adjacent)
    (∃ (z : Zip64EndRecord) (p : Nat), z.IsNamedAt l w.bytes stop p ∧
      first.outcome = .ok (some (z, p))) ∨
    ((∀ (z : Zip64EndRecord) (p : Nat), ¬ z.IsNamedAt l w.bytes stop p) ∧
      first.outcome = .ok none) := by
  intro adjacent first
  -- The place that the locator declares comes first, and wins if a record stands there.
  by_cases hdeclared : ∃ z : Zip64EndRecord,
      l.endRecordOffset.toNat + Zip64EndRecord.length ≤ stop ∧
        z.toBytes <+: w.bytes.drop l.endRecordOffset.toNat
  · rcases hdeclared with ⟨z, hfits, hstands⟩
    exact Or.inl ⟨z, _, ⟨hstands, hfits, Or.inl rfl⟩,
      firstZip64EndRecord_of_stands hw hstop hfits hstands⟩
  have hstale : ∀ z : Zip64EndRecord, l.endRecordOffset.toNat + Zip64EndRecord.length ≤ stop →
      ¬ z.toBytes <+: w.bytes.drop l.endRecordOffset.toNat :=
    fun z hfits hstands => hdeclared ⟨z, hfits, hstands⟩
  have hsecond := @firstZip64EndRecord_of_not w hw stop _ adjacent hstop hstale
  -- Only the place directly in front of the locator is left.
  have honly : ∀ (z : Zip64EndRecord) (p : Nat), z.IsNamedAt l w.bytes stop p →
      p + Zip64EndRecord.length = stop := by
    rintro z p ⟨hstands, hfits, rfl | hend⟩
    · exact absurd hstands (hstale z hfits)
    · exact hend.1
  by_cases hroom : Zip64EndRecord.length ≤ stop
  · have hadjacent : adjacent = [stop - Zip64EndRecord.length] := if_pos hroom
    rw [hadjacent] at hsecond
    by_cases hstands : ∃ z : Zip64EndRecord,
        z.toBytes <+: w.bytes.drop (stop - Zip64EndRecord.length)
    · rcases hstands with ⟨z, hstands⟩
      have hend : stop - Zip64EndRecord.length + Zip64EndRecord.length = stop :=
        Nat.sub_add_cancel hroom
      refine Or.inl ⟨z, _, ⟨hstands, by omega, Or.inr ⟨hend, hstale⟩⟩, ?_⟩
      change (firstZip64EndRecord w stop (_ :: adjacent)).outcome = _
      rw [hadjacent, hsecond]
      exact firstZip64EndRecord_of_stands hw hstop (by omega) hstands
    · refine Or.inr ⟨?_, ?_⟩
      · intro z p hnamed
        have hp : p = stop - Zip64EndRecord.length := by
          have hend := honly z p hnamed
          omega
        exact hstands ⟨z, hp ▸ hnamed.1⟩
      · change (firstZip64EndRecord w stop (_ :: adjacent)).outcome = _
        rw [hadjacent, hsecond]
        exact firstZip64EndRecord_of_not hw hstop (fun z _ hz => hstands ⟨z, hz⟩)
  · have hadjacent : adjacent = [] := if_neg hroom
    refine Or.inr ⟨?_, ?_⟩
    · intro z p hnamed
      have hend := honly z p hnamed
      omega
    · change (firstZip64EndRecord w stop (_ :: adjacent)).outcome = _
      rw [hsecond, hadjacent]
      rfl

/-- A locator leads to one record. -/
theorem isNamedAt_unique {z other : Zip64EndRecord} {l : Zip64Locator} {bytes : Bytes}
    {stop p q : Nat} (hz : z.IsNamedAt l bytes stop p) (hother : other.IsNamedAt l bytes stop q) :
    z = other ∧ p = q := by
  have hpq : p = q := by
    rcases hz with ⟨hstands, hfits, rfl | ⟨hend, hstale⟩⟩
    · rcases hother with ⟨_, _, rfl | ⟨_, hstale⟩⟩
      · rfl
      · exact absurd hstands (hstale z hfits)
    · rcases hother with ⟨hstands, hfits, rfl | ⟨hend', _⟩⟩
      · exact absurd hstands (hstale other hfits)
      · omega
  subst hpq
  exact ⟨eq_of_stand Zip64EndRecord.ofBytes?_eq_some_iff hz.1 hother.1, rfl⟩

/-- In an intact window the ZIP64 end record that the locator leads to is
    found, or there is none. -/
theorem findZip64EndRecord_spec {w : Window} (hw : w.Intact) {position : Nat}
    (hposition : position ≤ w.bytes.length) :
    (∃ (l : Zip64Locator) (z : Zip64EndRecord) (p : Nat), Zip64Locator.length ≤ position ∧
      l.toBytes <+: w.bytes.drop (position - Zip64Locator.length) ∧
      z.IsNamedAt l w.bytes (position - Zip64Locator.length) p ∧
      (findZip64EndRecord w position).outcome = .ok (z, p)) ∨
    ((∀ (l : Zip64Locator) (z : Zip64EndRecord) (p : Nat), Zip64Locator.length ≤ position →
      l.toBytes <+: w.bytes.drop (position - Zip64Locator.length) →
      ¬ z.IsNamedAt l w.bytes (position - Zip64Locator.length) p) ∧
      ∃ offset f, (findZip64EndRecord w position).outcome = .error (fault w offset f)) := by
  have hbytes := Window.length_bytes hw
  unfold findZip64EndRecord
  by_cases hroom : position < Zip64Locator.length
  · rw [if_pos hroom]
    exact Or.inr ⟨fun l z p hle => absurd hle (Nat.not_le_of_lt hroom), position, _, rfl⟩
  have hread := Window.readExactAt_of_intact hw (position - Zip64Locator.length)
    Zip64Locator.length (by omega)
  rw [if_neg hroom, Metered.bind_of_ok (congrArg Metered.outcome hread)]
  -- Without a locator no record is named.
  rcases hl : Zip64Locator.ofBytes?
    ((w.bytes.drop (position - Zip64Locator.length)).take Zip64Locator.length) with _ | l
  · refine Or.inr ⟨?_, position - Zip64Locator.length, _, rfl⟩
    intro l z p _ hstands
    rw [← prefix_slice_iff l.length_toBytes, ← Zip64Locator.ofBytes?_eq_some_iff, hl] at hstands
    exact absurd hstands (by simp only [reduceCtorEq, not_false_eq_true])
  rw [Zip64Locator.ofBytes?_eq_some_iff, prefix_slice_iff l.length_toBytes] at hl
  rcases @firstZip64EndRecord_spec w hw (position - Zip64Locator.length) (by omega) l with
    ⟨z, p, hnamed, hfirst⟩ | ⟨hnone, hfirst⟩
  · refine Or.inl ⟨l, z, p, by omega, hl, hnamed, ?_⟩
    simp only
    rw [Metered.bind_of_ok hfirst]
    rfl
  · refine Or.inr ⟨?_, l.endRecordOffset.toNat, .noZip64EndRecord, ?_⟩
    · intro other z p _ hstands
      rw [← eq_of_stand Zip64Locator.ofBytes?_eq_some_iff hl hstands]
      exact hnone z p
    · simp only
      rw [Metered.bind_of_ok hfirst]
      rfl

/-- An end record leads to one set of bounds. -/
theorem takenFrom_unique {b other : Bounds} {r : EndRecord} {bytes : Bytes} {position : Nat}
    (hb : b.TakenFrom r bytes position) (hother : other.TakenFrom r bytes position) :
    b = other := by
  unfold Bounds.TakenFrom at hb hother
  obtain ⟨bTotal, bSize, bDeclared, bStop⟩ := b
  obtain ⟨oTotal, oSize, oDeclared, oStop⟩ := other
  by_cases hwide : r.isSaturated
  · rw [if_pos hwide] at hb hother
    rcases hb with ⟨l, z, _, hl, hz, rfl, rfl, rfl⟩
    rcases hother with ⟨l', z', _, hl', hz', rfl, rfl, rfl⟩
    -- There is one locator in front of the end record, so both name the same positions.
    rw [← eq_of_stand Zip64Locator.ofBytes?_eq_some_iff hl hl'] at hz'
    rcases isNamedAt_unique hz hz' with ⟨rfl, hstop⟩
    simp only at hstop
    rw [hstop]
  · rw [if_neg hwide] at hb hother
    rcases hb with ⟨rfl, rfl, rfl, rfl⟩
    rcases hother with ⟨rfl, rfl, rfl, rfl⟩
    rfl

/-- The bounds of an intact window: those its last end record leads to, or a
    fault because there is no such record or it leads nowhere. -/
theorem findBounds_spec {w : Window} (hw : w.Intact) :
    (∃ (r : EndRecord) (position : Nat) (b : Bounds), r.IsLastAt w.bytes position ∧
      b.TakenFrom r w.bytes position ∧ (findBounds w).outcome = .ok (b, position)) ∨
    ((∀ (r : EndRecord) (position : Nat) (b : Bounds), r.IsLastAt w.bytes position →
      ¬ b.TakenFrom r w.bytes position) ∧
      ∃ offset f, (findBounds w).outcome = .error (fault w offset f)) := by
  unfold findBounds
  rcases Or.symm (findEndRecord_spec hw) with
    ⟨hnone, offset, f, hfail⟩ | ⟨r, position, hlast, hfound⟩
  · exact Or.inr ⟨fun r position _ hlast => absurd hlast.1 (hnone r position), offset, f,
      by rw [Metered.bind_of_error hfail]⟩
  rw [Metered.bind_of_ok hfound]
  have hposition : position ≤ w.bytes.length := by
    have hlength := hlast.1.2
    omega
  -- A saturated record leads on to the ZIP64 record, any other one says it all.
  by_cases hwide : r.isSaturated
  · simp only [hwide, if_true]
    rcases findZip64EndRecord_spec hw hposition with
      ⟨l, z, p, hroom, hl, hz, hnamed⟩ | ⟨hnowhere, offset, f, hfail⟩
    · refine Or.inl ⟨r, position, _, hlast, ?_, by rw [Metered.bind_of_ok hnamed]; rfl⟩
      unfold Bounds.TakenFrom
      rw [if_pos hwide]
      exact ⟨l, z, hroom, hl, hz, rfl, rfl, rfl⟩
    · refine Or.inr ⟨?_, offset, f, by rw [Metered.bind_of_error hfail]⟩
      intro other q b hother htaken
      rcases EndRecord.isLastAt_unique hlast hother with ⟨rfl, rfl⟩
      unfold Bounds.TakenFrom at htaken
      rw [if_pos hwide] at htaken
      rcases htaken with ⟨l, z, hroom, hl, hz, _⟩
      exact hnowhere l z b.stop hroom hl hz
  · simp only [hwide]
    refine Or.inl ⟨r, position, _, hlast, ?_, rfl⟩
    unfold Bounds.TakenFrom
    rw [if_neg hwide]
    exact ⟨rfl, rfl, rfl, rfl⟩

/-- The bounds that the last end record tells are found. -/
theorem findBounds_of_takenFrom {w : Window} (hw : w.Intact) {r : EndRecord} {position : Nat}
    {b : Bounds} (hlast : r.IsLastAt w.bytes position) (hb : b.TakenFrom r w.bytes position) :
    (findBounds w).outcome = .ok (b, position) := by
  rcases findBounds_spec hw with ⟨other, q, b', hother, hb', hfound⟩ | ⟨hnone, _⟩
  · rcases EndRecord.isLastAt_unique hlast hother with ⟨rfl, rfl⟩
    rw [takenFrom_unique hb hb']
    exact hfound
  · exact absurd hb (hnone r position b hlast)

/-- Bounds that were found are those that the last end record tells. -/
theorem findBounds_eq_ok {w : Window} {b : Bounds} {position : Nat}
    (h : (findBounds w).outcome = .ok (b, position)) :
    w.Intact ∧ ∃ r : EndRecord, r.IsLastAt w.bytes position ∧ b.TakenFrom r w.bytes position := by
  have hw : w.Intact := by
    unfold findBounds at h
    rcases Metered.bind_outcome_eq_ok_iff.mp h with ⟨found, hfound, _⟩
    exact intact_of_findEndRecord hfound
  refine ⟨hw, ?_⟩
  rcases findBounds_spec hw with ⟨r, q, b', hlast, hb', hfound⟩ | ⟨_, offset, f, hfail⟩
  · rw [h, Except.ok.injEq, Prod.mk.injEq] at hfound
    rcases hfound with ⟨rfl, rfl⟩
    exact ⟨r, hlast, hb'⟩
  · rw [h] at hfail
    exact absurd hfail (by simp only [reduceCtorEq, not_false_eq_true])

end Index

end NestedZip
