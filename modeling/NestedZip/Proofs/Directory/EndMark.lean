import NestedZip.Proofs.Directory.EndSearch
import NestedZip.Proofs.Directory.Recognised

/-!
# The End Record as a Mark in the Bytes

Which position the search for the end record answers, told from the bytes
without any record.

`IsLastAt` says which record is found, but it says so of a record. That a
window is refused because there is none is then a statement about all records
that could have been meant. Here a position is marked if three things can be
read there: there is room for the fixed part, the signature is there, and the
two bytes behind the fixed part's other fields hold the number of bytes that
are left. These are facts of the bytes, they can be decided one position after
the other, and `lastMark` does so over a whole window, from the last position
to the first.

The search is faster than that. It tries one place by itself, and then it
reads no more than the longest comment could take up. `findEndRecord_exact`
says that neither shortcut can be told from outside.

## Main definitions

* `EndRecord.Marks`: An end record whose comment ends with the bytes, by the
  bytes alone.
* `EndRecord.lastMark`: The last such position, looked for everywhere.

## Theorems

* `EndRecord.marks_iff`: A position is marked exactly where some record closes
  the bytes.
* `EndRecord.lastMark_of_last`, `EndRecord.lastMark_of_none`: What looking
  everywhere finds.
* `Index.findEndRecord_exact`: The search finds the last marked position, and
  fails where there is none.
-/

namespace NestedZip

namespace EndRecord

variable {bytes : Bytes} {p count : Nat}

/-- There is room for an end record at a position, its signature stands there, and
    its comment is as long as what is left. -/
structure Marks (bytes : Bytes) (p : Nat) : Prop where
  room : p + 22 ≤ bytes.length
  signature : (bytes.drop p).take 4 = [0x50, 0x4B, 0x05, 0x06]
  comment : bytes.numberAt 2 (p + 20) = bytes.length - p - 22

instance (bytes : Bytes) (p : Nat) : Decidable (Marks bytes p) :=
  decidable_of_iff
    (p + 22 ≤ bytes.length ∧ (bytes.drop p).take 4 = [0x50, 0x4B, 0x05, 0x06] ∧
      bytes.numberAt 2 (p + 20) = bytes.length - p - 22)
    ⟨fun h => ⟨h.1, h.2.1, h.2.2⟩, fun h => ⟨h.room, h.signature, h.comment⟩⟩

/-- The last marked one of the first `count` positions. -/
def lastMark (bytes : Bytes) : (count : Nat) → Option Nat
  | 0 => none
  | p + 1 => if Marks bytes p then some p else lastMark bytes p

/-- A mark is an end record whose comment ends with the bytes. -/
theorem marks_iff : Marks bytes p ↔ ∃ r : EndRecord, r.ClosesAt bytes p := by
  constructor
  · intro h
    -- The signature and the room make a record, and its comment length is the one that is marked.
    have hroom := h.room
    have hlong : length ≤ (bytes.drop p).length := by
      rw [List.length_drop, length]
      omega
    obtain ⟨r, hr⟩ := exists_stands_iff.mpr ⟨h.signature, hlong⟩
    have hcomment := numberAt_commentLength hr
    rw [Bytes.numberAt_drop, h.comment] at hcomment
    exact ⟨r, hr, by rw [length]; omega⟩
  · rintro ⟨r, hr, hends⟩
    have hcomment := numberAt_commentLength hr
    rw [Bytes.numberAt_drop] at hcomment
    rw [length] at hends
    exact {
      room := by omega
      signature := signature_of_stands hr
      comment := by omega }

/-- The search from behind finds the last mark. -/
theorem lastMark_of_last (hp : Marks bytes p) (hlast : ∀ q, Marks bytes q → q ≤ p)
    (hcount : p < count) : lastMark bytes count = some p := by
  -- The induction is the search itself, which starts behind the last mark.
  induction count with
  | zero => exact absurd hcount (Nat.not_lt_zero p)
  | succ q ih =>
      unfold lastMark
      by_cases hq : Marks bytes q
      · -- The marked position that was met first is the last one.
        have hle := hlast q hq
        rw [if_pos hq, show q = p by omega]
      · have hne : p ≠ q := fun heq => hq (heq ▸ hp)
        rw [if_neg hq]
        exact ih (by omega)

theorem lastMark_of_none (hnone : ∀ p, ¬ Marks bytes p) : lastMark bytes count = none := by
  induction count with
  | zero => rfl
  | succ q ih =>
      unfold lastMark
      rw [if_neg (hnone q)]
      exact ih

/-- The last record stands at the last mark, and its layout is what stands there. -/
theorem IsLastAt.marks {r : EndRecord} (h : r.IsLastAt bytes p) :
    Marks bytes p ∧ (∀ q, Marks bytes q → q ≤ p) ∧ r.toBytes = (bytes.drop p).take 22 := by
  refine ⟨marks_iff.mpr ⟨r, h.1⟩, ?_, ?_⟩
  · intro q hq
    obtain ⟨other, hother⟩ := marks_iff.mp hq
    exact Nat.le_of_not_lt fun hlt => h.2 q other hlt hother
  · have hlayout := List.prefix_iff_eq_take.mp h.1.1
    rw [r.length_toBytes] at hlayout
    exact hlayout

end EndRecord

namespace Index

/-- In a window whose bytes can all be had, the search finds the record at the last
    marked position, which is what looking at every position finds, and fails as
    for a malformed archive where no position is marked. -/
theorem findEndRecord_exact {w : Window} (hw : w.Intact) :
    ((∃ found, (findEndRecord w).outcome = .ok found) ↔ ∃ p, EndRecord.Marks w.bytes p) ∧
    (∀ (r : EndRecord) (p : Nat), (findEndRecord w).outcome = .ok (r, p) →
      EndRecord.Marks w.bytes p ∧ (∀ q, EndRecord.Marks w.bytes q → q ≤ p) ∧
        r.toBytes = (w.bytes.drop p).take 22) ∧
    (findEndRecord w).outcome.toOption.map Prod.snd = EndRecord.lastMark w.bytes w.size ∧
    ((¬ ∃ p, EndRecord.Marks w.bytes p) →
      ∃ (offset : Nat) (f : ArchiveFault),
        (findEndRecord w).outcome = .error (.malformedArchive w.identity offset f)) := by
  have hsize : w.size = w.bytes.length := by
    rw [Window.size_of_intact hw, Window.length_bytes hw]
  rcases findEndRecord_spec hw with ⟨r, p, hlast, hfound⟩ | ⟨hnone, offset, f, hfail⟩
  · -- A record was found, so there is a mark and the last one is where it stands.
    have hmarks := hlast.marks
    refine ⟨⟨fun _ => ⟨p, hmarks.1⟩, fun _ => ⟨(r, p), hfound⟩⟩, ?_, ?_, ?_⟩
    · intro other q hother
      exact (findEndRecord_eq_ok hother).2.marks
    · have hroom := hmarks.1.room
      rw [hfound, hsize, EndRecord.lastMark_of_last hmarks.1 hmarks.2.1 (by omega)]
      rfl
    · intro hno
      exact absurd ⟨p, hmarks.1⟩ hno
  · -- Nothing was found, so no position is marked.
    have hunmarked : ∀ p, ¬ EndRecord.Marks w.bytes p := by
      intro p hp
      obtain ⟨r, hr⟩ := EndRecord.marks_iff.mp hp
      exact hnone r p hr
    have hnot : ∀ found, (findEndRecord w).outcome ≠ .ok found := by
      intro found hfound
      rw [hfail] at hfound
      exact absurd hfound error_ne_ok
    refine ⟨⟨?_, ?_⟩, ?_, ?_, fun _ => ⟨offset, f, hfail⟩⟩
    · rintro ⟨found, hfound⟩
      exact absurd hfound (hnot found)
    · rintro ⟨p, hp⟩
      exact absurd hp (hunmarked p)
    · intro r p hfound
      exact absurd hfound (hnot (r, p))
    · rw [hfail, EndRecord.lastMark_of_none hunmarked]
      rfl

/-- Two bytes, and an end record whose comment holds another one with a comment of
    a single byte. Behind it stands a byte that is none of the window's. -/
def commented : Bytes :=
  [7, 7] ++ [0x50, 0x4B, 0x05, 0x06, 0, 0, 0, 0, 0, 0, 0, 0, 0, 0, 0, 0, 0, 0, 0, 0, 23, 0] ++
    [0x50, 0x4B, 0x05, 0x06, 0, 0, 0, 0, 3, 0, 3, 0, 0, 0, 0, 0, 0, 0, 0, 0, 1, 0] ++ [9] ++ [8]

/-- Both records are marked, and the one inside the comment is found. -/
theorem findEndRecord_commented :
    let w := (Window.whole (.memory "c" ⟨commented.toArray⟩)).part 1 46
    w.Intact ∧ EndRecord.Marks w.bytes 1 ∧ EndRecord.Marks w.bytes 23 ∧
    (∃ r, (findEndRecord w).outcome = .ok (r, 23)) ∧
    (findEndRecord w).outcome.toOption.map Prod.snd = EndRecord.lastMark w.bytes w.size ∧
    EndRecord.lastMark w.bytes w.size = some 23 := by
  intro w
  have hw : w.Intact := (Window.intact_whole_memory _ _).part 1 46 (by decide)
  have hfirst : EndRecord.Marks w.bytes 1 := by decide +kernel
  have hsecond : EndRecord.Marks w.bytes 23 := by decide +kernel
  have hwhole : EndRecord.lastMark w.bytes w.size = some 23 := by decide +kernel
  have hexact := findEndRecord_exact hw
  obtain ⟨⟨r, p⟩, hfound⟩ := hexact.1.mpr ⟨23, hsecond⟩
  -- What is found is the last mark, and the first one is in front of it.
  have hp : p = 23 := by
    have hlast := hexact.2.2.1
    rw [hfound, hwhole] at hlast
    exact Option.some.inj hlast
  subst hp
  exact ⟨hw, hfirst, hsecond, ⟨r, hfound⟩, hexact.2.2.1, hwhole⟩

end Index

end NestedZip
