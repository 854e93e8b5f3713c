import NestedZip.Proofs.Archive
import NestedZip.Proofs.Directory.Layout

/-!
# Packing Members into an Archive

The archive that holds a list of members, and how one of them is found in it.

Packing is the simplest writing there is: each member as a local header, its
name and its data, all of them stored as they are, then a record for each, then
an end record without a comment. The headers have many fields that nothing
depends on, so a label has whole headers, whatever is in them, and packing
only overwrites the fields that matter.

The layout is a `PackedArchive`, so indexing it is settled. What is left is the
other half of reading: the entry of a name is the one of the member of that
name, and the place in it leads through the local header to the data. Both
walk along the members in front, and `position` is the sum that they share.

## Main definitions

* `Label`, `Member`: A name with headers, and with data.
* `Member.archive`: The archive of a list of members.
* `Member.Fit`: Members that fit an archive without wide numbers.
* `Member.position`, `Member.dataStart`: Where a member and its data start.

## Theorems

* `Member.packs_archive`: The archive of members that fit is well laid out.
* `Member.find?_index`: The entry of a name is that of the member of the name.
* `Member.recordData_archive`: Its data is found at the place of the data.
* `Member.position_disjoint`: Two members do not overlap.
-/

namespace NestedZip

/-- A name, and headers of which only the fields count that packing leaves as
    they are. -/
structure Label where
  name : Bytes
  inFront : LocalHeader
  inDirectory : RecordHeader

/-- A label and the data behind it. -/
structure Member where
  label : Label
  data : Bytes

namespace Member

/-- The header in front of the name and the data. -/
def localHeader (m : Member) : LocalHeader :=
  { m.label.inFront with
    method := 0
    compressedSize := .ofNat m.data.length
    uncompressedSize := .ofNat m.data.length
    nameLength := .ofNat m.label.name.length
    extraLength := 0 }

def localBytes (m : Member) : Bytes := m.localHeader.toBytes ++ (m.label.name ++ m.data)

/-- The record of a member whose local header is at a position. -/
def record (m : Member) (position : Nat) : PackedRecord where
  header :=
    { m.label.inDirectory with
      method := 0
      compressedSize := .ofNat m.data.length
      uncompressedSize := .ofNat m.data.length
      nameLength := .ofNat m.label.name.length
      extraLength := 0
      commentLength := 0
      headerOffset := .ofNat position }
  name := m.label.name

/-- The records of members the first of which is at a position. -/
def records (position : Nat) : List Member → List PackedRecord
  | [] => []
  | m :: members => m.record position :: records (position + m.localBytes.length) members

def body (members : List Member) : Bytes := members.flatMap localBytes

/-- The archive of a list of members. -/
def archive (members : List Member) : PackedArchive where
  body := body members
  records := records 0 members
  endRecord := {
    diskNumber := 0
    directoryDisk := 0
    diskEntries := .ofNat members.length
    totalEntries := .ofNat members.length
    directorySize := .ofNat ((records 0 members).flatMap PackedRecord.toBytes).length
    directoryOffset := .ofNat (body members).length
    commentLength := 0 }

/-- Members that fit an archive without wide numbers. Their names are names of
    files, no two are the same, and all numbers are below the largest value. -/
structure Fit (members : List Member) : Prop where
  distinct : (members.map fun m => m.label.name).Nodup
  nonempty : ∀ m ∈ members, m.label.name ≠ []
  short : ∀ m ∈ members, m.label.name.length ≤ 65535
  notDirectory : ∀ m ∈ members, m.label.name.getLast? ≠ some Entry.slash
  count : members.length < 0xFFFF
  body : (body members).length < 0xFFFFFFFF
  directory : (archive members).directory.length < 0xFFFFFFFF

theorem length_localBytes (m : Member) :
    m.localBytes.length = LocalHeader.length + m.label.name.length + m.data.length := by
  simp only [localBytes, List.length_append, LocalHeader.length_toBytes]
  omega

theorem length_records (position : Nat) (members : List Member) :
    (records position members).length = members.length := by
  induction members generalizing position with
  | nil => rfl
  | cons m members ih => rw [records, List.length_cons, List.length_cons, ih]

theorem toNat_ofNat_nameLength {m : Member} (h : m.label.name.length ≤ 65535) :
    (UInt16.ofNat m.label.name.length).toNat = m.label.name.length :=
  UInt16.toNat_ofNat_of_lt' (Nat.lt_of_le_of_lt h (by decide))

/-- The data of a member is a part of the body, so its size is below the largest
    value as well. -/
theorem length_data_lt {members : List Member} (h : Fit members) {m : Member} (hm : m ∈ members) :
    m.data.length < 2 ^ 32 := by
  have hbody := h.body
  rcases List.append_of_mem hm with ⟨front, behind, rfl⟩
  simp only [Member.body, List.flatMap_append, List.flatMap_cons, List.length_append,
    length_localBytes] at hbody
  omega

/-- The record of a member can be packed if its name is short enough. -/
theorem packs_record {m : Member} (h : m.label.name.length ≤ 65535) (position : Nat) :
    (m.record position).Packs where
  nameLength := (toNat_ofNat_nameLength h).symm
  extraLength := rfl
  commentLength := rfl
  stray := Nat.zero_lt_succ 3
  oneWide := Nat.zero_le 1
  wide := fun _ hb => absurd hb List.not_mem_nil

/-- So can those of all members. -/
theorem packs_records {members : List Member} (h : ∀ m ∈ members, m.label.name.length ≤ 65535)
    (position : Nat) : ∀ r ∈ records position members, r.Packs := by
  induction members generalizing position with
  | nil => exact fun r hr => absurd hr List.not_mem_nil
  | cons m members ih =>
      rw [records, List.forall_mem_cons]
      exact ⟨packs_record (h m List.mem_cons_self) position,
        ih (fun n hn => h n (List.mem_cons_of_mem m hn)) _⟩

theorem narrow_archive {members : List Member} (h : Fit members) : (archive members).Narrow := by
  have hcount : (archive members).records.length = members.length := length_records 0 members
  have hentries : UInt16.ofNat members.length = .ofNat (archive members).records.length := by
    rw [hcount]
  exact PackedArchive.narrow_of_lt (hcount ▸ h.count) h.directory h.body hentries hentries rfl rfl

/-- Members are well laid out once the end record has their numbers. Without a comment
    there is no room for a second end record. -/
theorem packs_of_narrow {members : List Member}
    (hshort : ∀ m ∈ members, m.label.name.length ≤ 65535) (hnarrow : (archive members).Narrow) :
    (archive members).Packs where
  records := packs_records hshort 0
  narrow := fun _ => hnarrow
  wide := fun t ht => absurd ht (by simp only [archive, reduceCtorEq, not_false_eq_true])
  commentLength := rfl
  last := PackedArchive.last_of_no_comment rfl

/-- The archive of members that fit is well laid out. -/
theorem packs_archive {members : List Member} (h : Fit members) : (archive members).Packs :=
  packs_of_narrow h.short (narrow_archive h)

/-- The first member of a name. -/
def named? (name : Bytes) (members : List Member) : Option Member :=
  members.find? fun m => m.label.name == name

/-- Where the first member of a name starts. -/
def position (name : Bytes) : List Member → Nat
  | [] => 0
  | m :: members =>
    if m.label.name = name then 0 else m.localBytes.length + position name members

/-- Where the data of the first member of a name starts. -/
def dataStart (name : Bytes) (members : List Member) : Nat :=
  position name members + (LocalHeader.length + name.length)

theorem named?_cons_of_eq {name : Bytes} {m : Member} (h : m.label.name = name)
    (members : List Member) : named? name (m :: members) = some m :=
  List.find?_cons_of_pos (beq_iff_eq.mpr h)

theorem named?_cons_of_ne {name : Bytes} {m : Member} (h : m.label.name ≠ name)
    (members : List Member) : named? name (m :: members) = named? name members :=
  List.find?_cons_of_neg (by rw [beq_iff_eq]; exact h)

theorem named?_eq_none {name : Bytes} {members : List Member}
    (h : ∀ m ∈ members, m.label.name ≠ name) : named? name members = none :=
  List.find?_eq_none.mpr fun m hm => by rw [beq_iff_eq]; exact h m hm

/-- Where no two names are the same, each member is the first of its name. -/
theorem named?_of_mem {members : List Member}
    (hdistinct : (members.map fun m => m.label.name).Nodup) {m : Member} (hm : m ∈ members) :
    named? m.label.name members = some m := by
  induction members with
  | nil => exact absurd hm List.not_mem_nil
  | cons n members ih =>
      rw [List.map_cons, List.nodup_cons] at hdistinct
      rcases List.mem_cons.mp hm with rfl | hm
      · exact named?_cons_of_eq rfl members
      · -- A member of the same name in front would be one too many.
        have hne : n.label.name ≠ m.label.name := by
          intro heq
          rw [heq] at hdistinct
          exact hdistinct.1 (List.mem_map_of_mem hm)
        rw [named?_cons_of_ne hne]
        exact ih hdistinct.2 hm

/-- At the position of a name stands the member of that name. -/
theorem drop_position {name : Bytes} {members : List Member} {m : Member}
    (h : named? name members = some m) :
    m.label.name = name ∧ ∃ behind : Bytes,
      (body members).drop (position name members) = m.localBytes ++ behind ∧
      position name members + m.localBytes.length ≤ (body members).length := by
  induction members with
  | nil => exact absurd h (by simp only [named?, List.find?_nil, reduceCtorEq, not_false_eq_true])
  | cons n members ih =>
      by_cases hname : n.label.name = name
      · rw [named?_cons_of_eq hname, Option.some.injEq] at h
        subst h
        refine ⟨hname, body members, ?_, ?_⟩
        · rw [position, if_pos hname, List.drop_zero, body, List.flatMap_cons]
          rfl
        · rw [position, if_pos hname, body, List.flatMap_cons, List.length_append]
          omega
      · -- The member in front is passed over with all its bytes.
        rw [named?_cons_of_ne hname] at h
        rcases ih h with ⟨hm, behind, hdrop, hfits⟩
        refine ⟨hm, behind, ?_, ?_⟩
        · rw [position, if_neg hname, body, List.flatMap_cons, ← List.drop_drop, List.drop_left]
          exact hdrop
        · rw [position, if_neg hname, body, List.flatMap_cons, List.length_append, ← body]
          omega

/-- Two members do not overlap, whichever of them comes first. -/
theorem position_disjoint {name other : Bytes} (hne : name ≠ other) {members : List Member}
    {m n : Member} (hm : named? name members = some m) (hn : named? other members = some n) :
    position name members + m.localBytes.length ≤ position other members ∨
      position other members + n.localBytes.length ≤ position name members := by
  induction members with
  | nil => exact absurd hm (by simp only [named?, List.find?_nil, reduceCtorEq, not_false_eq_true])
  | cons k members ih =>
      -- Whichever of the two comes first ends before the rest, where the other one is.
      by_cases hname : k.label.name = name
      · have hother : k.label.name ≠ other := fun heq => hne (hname.symm.trans heq)
        rw [named?_cons_of_eq hname, Option.some.injEq] at hm
        subst hm
        rw [position, position, if_pos hname, if_neg hother]
        exact Or.inl (by omega)
      · by_cases hother : k.label.name = other
        · rw [named?_cons_of_eq hother, Option.some.injEq] at hn
          subst hn
          rw [position, position, if_neg hname, if_pos hother]
          exact Or.inr (by omega)
        · rw [named?_cons_of_ne hname] at hm
          rw [named?_cons_of_ne hother] at hn
          have hapart := ih hm hn
          rw [position, position, if_neg hname, if_neg hother]
          omega

/-- The entry of a member whose local header is at a position. -/
def entry (m : Member) (position : Nat) : Entry := (m.record position).entry

/-- Looking for a name among the entries is looking for it among the members. -/
theorem find?_entries (name : Bytes) (start : Nat) (members : List Member) :
    ((records start members).map PackedRecord.entry).find? (fun e => e.name == name) =
      (named? name members).map fun m => m.entry (start + position name members) := by
  induction members generalizing start with
  | nil => rfl
  | cons m members ih =>
      rw [records, List.map_cons, List.find?_cons]
      -- The first record of the name is that of the first member, and the position counts from the
      -- same start.
      by_cases hname : m.label.name = name
      · have hfirst : ((m.record start).entry.name == name) = true := beq_iff_eq.mpr hname
        rw [named?_cons_of_eq hname, position, if_pos hname, hfirst]
        rfl
      · have hlater : ((m.record start).entry.name == name) = false :=
          beq_eq_false_iff_ne.mpr hname
        rw [named?_cons_of_ne hname, position, if_neg hname, hlater, ih]
        simp only [Nat.add_assoc]

theorem find?_index (name : Bytes) (members : List Member) :
    (archive members).index.find? name =
      (named? name members).map fun m => m.entry (position name members) := by
  have hfind := find?_entries name 0 members
  rw [Nat.zero_add] at hfind
  exact hfind

/-- What a packed member says of itself. -/
theorem entry_of_fit {members : List Member} (h : Fit members) {m : Member} (hm : m ∈ members)
    {position : Nat} (hposition : position < 2 ^ 32) :
    (m.entry position).method = .stored ∧ (m.entry position).uncompressedSize = m.data.length ∧
      (m.entry position).headerOffset = position ∧ (m.entry position).isDirectory = false := by
  -- There is no extra field, so the numbers are those of the header.
  have hnone : ¬ ∃ b ∈ (m.record position).blocks, b.id = Extents.blockId :=
    fun hblock => absurd hblock.choose_spec.1 List.not_mem_nil
  have hextents : (m.record position).extents = (m.record position).header.extents :=
    if_neg hnone
  refine ⟨rfl, ?_, ?_, ?_⟩
  · change (m.record position).extents.uncompressed = _
    rw [hextents]
    exact UInt32.toNat_ofNat_of_lt' (length_data_lt h hm)
  · change (m.record position).extents.offset = _
    rw [hextents]
    exact UInt32.toNat_ofNat_of_lt' hposition
  · change (m.label.name.getLast? == some Entry.slash) = false
    rw [beq_eq_false_iff_ne]
    exact h.notDirectory m hm

theorem position_lt {members : List Member} (h : Fit members) {m : Member} (hm : m ∈ members) :
    position m.label.name members < 2 ^ 32 := by
  rcases drop_position (named?_of_mem h.distinct hm) with ⟨_, _, _, hfits⟩
  have hbody := h.body
  omega

/-- The local header of a member, its name and its data, where the archive of
    the members has them. -/
theorem drop_archive {name : Bytes} {members : List Member} {m : Member}
    (h : named? name members = some m) :
    ∃ behind : Bytes, (archive members).toBytes.drop (position name members) =
      m.localHeader.toBytes ++ (m.label.name ++ (m.data ++ behind)) := by
  rcases drop_position h with ⟨_, behind, hdrop, hfits⟩
  refine ⟨behind ++ ((archive members).directory ++ ((archive members).trailerBytes ++
    ((archive members).endRecord.toBytes ++ (archive members).comment))), ?_⟩
  rw [PackedArchive.toBytes]
  change (body members ++ _).drop _ = _
  rw [List.drop_append_of_le_length (by omega), hdrop, localBytes]
  simp only [List.append_assoc]

/-- Where a window shows an archive of members that fit, the data of a member is
    found at the place it was packed at, for the price of its local header. -/
theorem recordData_archive {members : List Member} (h : Fit members) {a : Archive}
    (hw : a.window.Intact) (hbytes : a.window.bytes = (archive members).toBytes) {m : Member}
    (hm : m ∈ members) :
    dataStart m.label.name members + m.data.length ≤ a.window.length ∧
    a.recordData (m.entry (position m.label.name members)) =
      { outcome := .ok (a.window.part (dataStart m.label.name members) m.data.length)
        fetched := LocalHeader.length } ∧
    (a.window.part (dataStart m.label.name members) m.data.length).bytes = m.data := by
  have hnamed := named?_of_mem h.distinct hm
  rcases drop_position hnamed with ⟨_, _, _, hfits⟩
  rcases drop_archive hnamed with ⟨behind, hdrop⟩
  have hlocal := m.length_localBytes
  have hlength : (body members).length ≤ a.window.length := by
    rw [← Window.length_bytes hw, hbytes, PackedArchive.toBytes, List.length_append]
    exact Nat.le_add_right _ _
  have hend : dataStart m.label.name members + m.data.length ≤ a.window.length := by
    rw [dataStart]
    omega
  rcases entry_of_fit h hm (position_lt h hm) with
    ⟨hmethod, hsize, hplace, _⟩
  -- The local header stands where the entry says,
  have hstands : m.localHeader.toBytes <+: a.window.bytes.drop
      (m.entry (position m.label.name members)).headerOffset := by
    rw [hplace, hbytes, hdrop]
    exact List.prefix_append _ _
  have hoffset := Archive.dataOffset_of_stands hw (by rw [hplace]; omega) hstands
  -- and the data starts behind a name of the declared length.
  have hdata : position m.label.name members + m.localHeader.dataOffset =
      dataStart m.label.name members := by
    have hname : m.localHeader.nameLength.toNat = m.label.name.length :=
      toNat_ofNat_nameLength (h.short m hm)
    rw [LocalHeader.dataOffset, hname, dataStart]
    rfl
  rw [hplace, hdata] at hoffset
  refine ⟨hend, ?_, ?_⟩
  · rw [← hsize] at hend
    rw [Archive.recordData_of_stored hw hmethod hoffset hend, hsize]
  · rw [Window.bytes_part _ _ _ hend, hbytes, dataStart, ← List.drop_drop, hdrop,
      ← List.drop_drop, ← m.localHeader.length_toBytes, List.drop_left, List.drop_left,
      List.take_left]

end Member

end NestedZip
