import NestedZip.Directory.Index
import NestedZip.Proofs.Directory.Fields
import NestedZip.Proofs.Window

/-!
# Searching for the End Record

Which end record an archive has, said without searching for it.

An end record `ClosesAt` a position if its layout stands there and the comment
it declares ends with the last byte. More than one record may do so, for the
bytes of a comment are anybody's, and then the last one counts. `IsLastAt`
says that, and the search finds exactly this record: it tries the place where
a record without a comment would be, and then all places that a comment can
leave open, from front to back, keeping the last match.

Two facts make the search complete. A comment is at most 65535 bytes long, so
no record lies in front of the part of the archive that is read. And a record
that takes the last 22 bytes leaves no room behind it, so trying that place
first does not prefer an earlier record to a later one.

## Main definitions

* `EndRecord.ClosesAt`: A record whose comment ends with the bytes.
* `EndRecord.IsLastAt`: The last such record.

## Theorems

* `EndRecord.isLastAt_unique`: There is one last record.
* `Index.lastEndRecord_spec`: The scan finds the last record, if there is one.
* `Index.findEndRecord_spec`: What the search answers in an intact window.
* `Index.findEndRecord_eq_ok`: A record that was found is the last one.
-/

namespace NestedZip

namespace EndRecord

/-- The record stands at a position, and its comment ends with the bytes. -/
def ClosesAt (r : EndRecord) (bytes : Bytes) (p : Nat) : Prop :=
  r.toBytes <+: bytes.drop p ∧ p + length + r.commentLength.toNat = bytes.length

/-- The record closes the bytes, and none that stands later does. -/
def IsLastAt (r : EndRecord) (bytes : Bytes) (p : Nat) : Prop :=
  r.ClosesAt bytes p ∧ ∀ (q : Nat) (other : EndRecord), p < q → ¬ other.ClosesAt bytes q

/-- There is only one last end record. -/
theorem isLastAt_unique {r other : EndRecord} {bytes : Bytes} {p q : Nat}
    (hr : r.IsLastAt bytes p) (hother : other.IsLastAt bytes q) : r = other ∧ p = q := by
  have hle : ¬ p < q := fun hlt => hr.2 q other hlt hother.1
  have hge : ¬ q < p := fun hlt => hother.2 p r hlt hr.1
  have hpq : p = q := by omega
  subst hpq
  exact ⟨eq_of_stand ofBytes?_eq_some_iff hr.1.1 hother.1.1, rfl⟩

/-- What closes the bytes closes them behind any start as well. -/
theorem closesAt_drop {r : EndRecord} {bytes : Bytes} {start : Nat} (hstart : start ≤ bytes.length)
    (p : Nat) : r.ClosesAt (bytes.drop start) p ↔ r.ClosesAt bytes (start + p) := by
  unfold ClosesAt
  rw [List.drop_drop, List.length_drop]
  refine and_congr_right fun _ => ?_
  omega

/-- One byte in front moves everything by one. -/
theorem closesAt_cons_succ {r : EndRecord} {b : UInt8} {bytes : Bytes} {p : Nat} :
    r.ClosesAt (b :: bytes) (p + 1) ↔ r.ClosesAt bytes p := by
  have h := @closesAt_drop r (b :: bytes) 1 (Nat.le_add_left 1 _) p
  rw [List.drop_one, List.tail_cons, Nat.add_comm 1 p] at h
  exact h.symm

/-- Nothing closes no bytes. -/
theorem not_closesAt_nil (r : EndRecord) (p : Nat) : ¬ r.ClosesAt [] p := by
  intro h
  have hlength := h.2
  simp only [length, List.length_nil] at hlength
  omega

end EndRecord

namespace Index

/-- A record at the front is seen if its comment ends with the bytes. -/
theorem endRecordAtFront?_eq_some_iff {count : Nat} {bytes : Bytes} {r : EndRecord}
    (hcount : bytes.length = count) :
    endRecordAtFront? count bytes = some r ↔ r.ClosesAt bytes 0 := by
  subst hcount
  unfold endRecordAtFront? EndRecord.ClosesAt
  simp only [Option.bind_eq_bind, Option.bind_eq_some_iff, EndRecord.ofBytes?_eq_some_iff,
    List.drop_zero, Nat.zero_add]
  constructor
  · -- The comment has to reach the very end, or the mark is none.
    rintro ⟨found, hfront, hfound⟩
    by_cases hlength : found.commentLength.toNat + EndRecord.length = bytes.length
    · rw [if_pos hlength, Option.some.injEq] at hfound
      subst hfound
      exact ⟨hfront, by omega⟩
    · rw [if_neg hlength] at hfound
      exact absurd hfound (by simp only [reduceCtorEq, not_false_eq_true])
  · rintro ⟨hfront, hlength⟩
    exact ⟨r, hfront, by rw [if_pos (by omega)]⟩

/-- The scan keeps the last record that closes the bytes, and what it started
    with if there is none. -/
theorem lastEndRecord_spec (bytes : Bytes) (position : Nat) (found : Option (EndRecord × Nat)) :
    (∃ r p, r.IsLastAt bytes p ∧
      lastEndRecord bytes.length position bytes found = some (r, position + p)) ∨
    ((∀ (r : EndRecord) (p : Nat), ¬ r.ClosesAt bytes p) ∧
      lastEndRecord bytes.length position bytes found = found) := by
  -- What was found before stays if nothing behind it is found, so it is general here.
  induction bytes generalizing position found with
  | nil => exact Or.inr ⟨EndRecord.not_closesAt_nil, rfl⟩
  | cons b rest ih =>
      rw [lastEndRecord, List.length_cons, Nat.add_sub_cancel]
      generalize hhere : endRecordAtFront? (rest.length + 1) (b :: rest) = here
      rcases ih (position + 1) (here.map (fun record => (record, position)) <|> found) with
        ⟨r, p, hlast, hscan⟩ | ⟨hnone, hscan⟩
      · -- A later record wins, whatever stands here.
        refine Or.inl ⟨r, p + 1, ⟨EndRecord.closesAt_cons_succ.mpr hlast.1, ?_⟩, ?_⟩
        · intro q other hq hcloses
          cases q with
          | zero => exact absurd hq (Nat.not_lt_zero _)
          | succ q =>
              exact hlast.2 q other (by omega) (EndRecord.closesAt_cons_succ.mp hcloses)
        · rw [hscan, Nat.add_assoc, Nat.add_comm 1 p]
      · -- Nothing closes behind this position, so it is what stands here that counts.
        cases here with
        | some r =>
            rw [endRecordAtFront?_eq_some_iff (List.length_cons)] at hhere
            refine Or.inl ⟨r, 0, ⟨hhere, ?_⟩, hscan⟩
            intro q other hq hcloses
            cases q with
            | zero => exact absurd hq (Nat.lt_irrefl 0)
            | succ q => exact hnone other q (EndRecord.closesAt_cons_succ.mp hcloses)
        | none =>
            refine Or.inr ⟨?_, hscan⟩
            intro r p hcloses
            cases p with
            | zero =>
                rw [← endRecordAtFront?_eq_some_iff (List.length_cons), hhere] at hcloses
                exact absurd hcloses (by simp only [reduceCtorEq, not_false_eq_true])
            | succ p => exact hnone r p (EndRecord.closesAt_cons_succ.mp hcloses)

/-- No comment is long enough for a record in front of the part that is
    searched. -/
theorem start_le_of_closesAt {r : EndRecord} {bytes : Bytes} {p : Nat} (h : r.ClosesAt bytes p) :
    bytes.length - min (maxCommentLength + EndRecord.length) bytes.length ≤ p := by
  have hcomment : r.commentLength.toNat < 2 ^ 16 := r.commentLength.toNat_lt
  have hlength := h.2
  unfold maxCommentLength
  omega

/-- The last record of the part that is searched is the last record of all. -/
theorem isLastAt_drop {r : EndRecord} {bytes : Bytes} {p start : Nat}
    (hstart : start = bytes.length - min (maxCommentLength + EndRecord.length) bytes.length)
    (h : r.IsLastAt (bytes.drop start) p) : r.IsLastAt bytes (start + p) := by
  have hle : start ≤ bytes.length := by omega
  refine ⟨(EndRecord.closesAt_drop hle p).mp h.1, ?_⟩
  intro q other hq hcloses
  have hfront := start_le_of_closesAt hcloses
  refine h.2 (q - start) other (by omega) ((EndRecord.closesAt_drop hle _).mpr ?_)
  rw [Nat.add_sub_cancel' (by omega)]
  exact hcloses

/-- A record that takes the last bytes leaves no room for a later one. -/
theorem isLastAt_of_closesAt_end {r : EndRecord} {bytes : Bytes}
    (h : r.ClosesAt bytes (bytes.length - EndRecord.length)) :
    r.IsLastAt bytes (bytes.length - EndRecord.length) := by
  refine ⟨h, ?_⟩
  intro q other hq hcloses
  have hlength := hcloses.2
  omega

/-- In an intact window the search finds the last record, or fails because no
    record closes the window. -/
theorem findEndRecord_spec {w : Window} (hw : w.Intact) :
    (∃ r p, r.IsLastAt w.bytes p ∧ (findEndRecord w).outcome = .ok (r, p)) ∨
    ((∀ (r : EndRecord) (p : Nat), ¬ r.ClosesAt w.bytes p) ∧
      ∃ offset f, (findEndRecord w).outcome = .error (fault w offset f)) := by
  have hbytes := Window.length_bytes hw
  unfold findEndRecord
  rw [Window.size_of_intact hw, ← hbytes]
  by_cases hsmall : w.bytes.length < EndRecord.length
  · refine Or.inr ⟨?_, 0, _, by rw [if_pos hsmall]; rfl⟩
    intro r p hcloses
    have hlength := hcloses.2
    omega
  rw [if_neg hsmall]
  rw [Metered.bind_of_ok (Window.readExactAt_end hw (Nat.le_of_not_lt hsmall))]
  have hend : (w.bytes.drop (w.bytes.length - EndRecord.length)).length = EndRecord.length := by
    rw [List.length_drop]
    omega
  generalize hhere : endRecordAtFront? EndRecord.length
    (w.bytes.drop (w.bytes.length - EndRecord.length)) = here
  cases here with
  | some r =>
      rw [endRecordAtFront?_eq_some_iff hend, EndRecord.closesAt_drop (Nat.sub_le _ _)] at hhere
      exact Or.inl ⟨r, _, isLastAt_of_closesAt_end hhere, rfl⟩
  | none =>
      -- The part that is searched holds every record that closes the window.
      rw [Metered.bind_of_ok (Window.readExactAt_end hw (Nat.min_le_right _ _))]
      generalize hcount : min (maxCommentLength + EndRecord.length) w.bytes.length = count
      have hpart : (w.bytes.drop (w.bytes.length - count)).length = count := by
        rw [List.length_drop]
        omega
      have hscan := lastEndRecord_spec (w.bytes.drop (w.bytes.length - count))
        (w.bytes.length - count) none
      rw [hpart] at hscan
      rcases hscan with ⟨r, p, hlast, hfound⟩ | ⟨hnone, hfound⟩
      · rw [hfound]
        exact Or.inl ⟨r, _, isLastAt_drop (by rw [hcount]) hlast, rfl⟩
      · rw [hfound]
        refine Or.inr ⟨?_, w.bytes.length - count, _, rfl⟩
        intro r p hcloses
        have hle := start_le_of_closesAt hcloses
        rw [hcount] at hle
        refine hnone r (p - (w.bytes.length - count))
          ((EndRecord.closesAt_drop (Nat.sub_le _ _) _).mpr ?_)
        rw [Nat.add_sub_cancel' hle]
        exact hcloses

/-- Finding a record takes reading the last bytes, so none of them can be
    missing. -/
theorem intact_of_findEndRecord {w : Window} {x : EndRecord × Nat}
    (h : (findEndRecord w).outcome = .ok x) : w.Intact := by
  unfold findEndRecord at h
  by_cases hsmall : w.size < EndRecord.length
  · rw [if_pos hsmall] at h
    exact absurd h (by simp only [Metered.outcome_fail, reduceCtorEq, not_false_eq_true])
  rw [if_neg hsmall] at h
  rcases Metered.bind_outcome_eq_ok_iff.mp h with ⟨last, hread, _⟩
  have hplain := (Window.readExactAt_eq_ok hread).1
  have hsize : w.size = w.length := by rw [Window.size, hplain, Option.getD_none]
  exact Window.intact_of_readExactAt hread (by decide) (by omega)

/-- A record is found in bytes that are all there, and it is the last one. -/
theorem findEndRecord_eq_ok {w : Window} {r : EndRecord} {p : Nat}
    (h : (findEndRecord w).outcome = .ok (r, p)) : w.Intact ∧ r.IsLastAt w.bytes p := by
  have hw := intact_of_findEndRecord h
  refine ⟨hw, ?_⟩
  rcases findEndRecord_spec hw with ⟨found, q, hlast, hfound⟩ | ⟨_, offset, f, hfail⟩
  · rw [h, Except.ok.injEq, Prod.mk.injEq] at hfound
    rcases hfound with ⟨rfl, rfl⟩
    exact hlast
  · rw [h] at hfail
    exact absurd hfail (by simp only [reduceCtorEq, not_false_eq_true])

end Index

end NestedZip
