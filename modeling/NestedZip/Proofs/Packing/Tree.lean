import Mathlib.Data.List.Nodup
import NestedZip.Proofs.Locator
import NestedZip.Proofs.Packing.Member

/-!
# Trees of Archives

Archives packed into archives, to any depth, and where in the outermost one
each of them lies.

A node is a file or an archive of further nodes, and packing goes from the
leaves to the root: the bytes of a member are its content or its own packed
members. What the code sees of this is a window of the one source that holds
the root. A `Place` is a node together with the window that shows it and the
locator under which it is found, and `Leads` goes from place to place along
the names of members. Every place on the way is sound: its window shows just
the bytes of its node.

Opened archives are kept under the offset of their window, so it matters that
no two places start at the same offset. Members do not overlap, and a local
header is in front of each, so an offset inside a place can only be that of
a place further down in it. `prefix_of_within` is this, by induction on both
paths at once.

## Main definitions

* `Node`, `Node.bytes`: A file or an archive, and what it is packed to.
* `Node.Packable`: A tree that can be packed without wide numbers.
* `Node.Reaches`: The node at the end of a path of names.
* `Place`: A node where it lies.
* `Place.Leads`: From a place along a path of names.

## Theorems

* `Place.Sound.child`, `Place.Sound.leads`: Places inside sound places are sound.
* `Place.prefix_of_within`: What starts inside a place lies below it.
* `Place.ofWindow_archive`: An archive is opened where it lies.
* `Place.nestedSource_member`, `Place.recordData_member`: From an archive to its members.
-/

namespace NestedZip

/-- A file, or an archive of labelled nodes. -/
inductive Node where
  | file (content : Bytes)
  | archive (members : List (Label × Node))

namespace Node

mutual
/-- The bytes of a file, or of an archive packed with all that is in it. -/
def bytes : Node → Bytes
  | file content => content
  | archive members => (Member.archive (packed members)).toBytes

/-- Labelled nodes as the members they are packed to. -/
def packed : List (Label × Node) → List Member
  | [] => []
  | (label, node) :: members => ⟨label, node.bytes⟩ :: packed members
end

/-- A tree that can be packed: the members of each archive in it fit. -/
inductive Packable : Node → Prop
  | file (content : Bytes) : Packable (file content)
  | archive {members : List (Label × Node)} : Member.Fit (packed members) →
      (∀ m ∈ members, m.2.Packable) → Packable (archive members)

/-- The node at the end of a path of names. -/
inductive Reaches : Node → List Bytes → Node → Prop
  | here (n : Node) : n.Reaches [] n
  | inside {members : List (Label × Node)} {label : Label} {child node : Node}
      {path : List Bytes} : (label, child) ∈ members → child.Reaches path node →
      (archive members).Reaches (label.name :: path) node

/-- What is packed is each member under its label. -/
theorem packed_eq_map (members : List (Label × Node)) :
    packed members = members.map fun m => ⟨m.1, m.2.bytes⟩ := by
  induction members with
  | nil => rw [packed, List.map_nil]
  | cons m members ih => rw [packed, ih, List.map_cons]

theorem mem_packed {members : List (Label × Node)} {label : Label} {node : Node}
    (h : (label, node) ∈ members) : ⟨label, node.bytes⟩ ∈ packed members := by
  rw [packed_eq_map]
  exact List.mem_map_of_mem h

/-- Where no two names are the same, a name tells a member. -/
theorem eq_of_name_eq {members : List (Label × Node)} (h : Member.Fit (packed members))
    {m n : Label × Node} (hm : m ∈ members) (hn : n ∈ members) (hname : m.1.name = n.1.name) :
    m = n := by
  have hdistinct := h.distinct
  rw [packed_eq_map, List.map_map] at hdistinct
  exact List.inj_on_of_nodup_map hdistinct hm hn hname

end Node

/-- A node where it lies: the window that shows it, and its locator as an archive
    without the last separator. -/
structure Place where
  node : Node
  window : Window
  container : String

namespace Place

/-- The place of a member of an archive. -/
def child (p : Place) (members : List (Label × Node)) (label : Label) (node : Node) : Place where
  node
  window := p.window.part (Member.dataStart label.name (Node.packed members)) node.bytes.length
  container := p.container ++ Locator.separator ++ Percent.encode label.name

/-- The archive at a place that has these members. -/
def archive (p : Place) (members : List (Label × Node)) : Archive where
  window := p.window
  index := (Member.archive (Node.packed members)).index
  container := p.container

/-- From a place along the names of members. -/
inductive Leads : Place → List Bytes → Place → Prop
  | here (p : Place) : p.Leads [] p
  | inside {p q : Place} {members : List (Label × Node)} {label : Label} {node : Node}
      {path : List Bytes} : p.node = .archive members → (label, node) ∈ members →
      (p.child members label node).Leads path q → p.Leads (label.name :: path) q

/-- The window shows just the bytes of the node, and the node can be packed. -/
structure Sound (p : Place) : Prop where
  intact : p.window.Intact
  bytes : p.window.bytes = p.node.bytes
  packable : p.node.Packable

/-- The members of an archive at a sound place fit into it. -/
theorem Sound.fit {p : Place} (hp : p.Sound) {members : List (Label × Node)}
    (hnode : p.node = .archive members) : Member.Fit (Node.packed members) := by
  have hpackable := hp.packable
  rw [hnode] at hpackable
  cases hpackable with
  | archive hfit _ => exact hfit

theorem Sound.window_bytes {p : Place} (hp : p.Sound) {members : List (Label × Node)}
    (hnode : p.node = .archive members) :
    p.window.bytes = (Member.archive (Node.packed members)).toBytes := by
  rw [hp.bytes, hnode, Node.bytes]

/-- The data of a member, from the archive at a sound place. -/
theorem recordData_member {p : Place} (hp : p.Sound) {members : List (Label × Node)}
    (hnode : p.node = .archive members) {label : Label} {node : Node}
    (hmem : (label, node) ∈ members) :
    Member.dataStart label.name (Node.packed members) + node.bytes.length ≤ p.window.length ∧
    (p.archive members).recordData (Member.entry ⟨label, node.bytes⟩
      (Member.position label.name (Node.packed members))) =
      { outcome := .ok (p.child members label node).window, fetched := LocalHeader.length } ∧
    (p.child members label node).window.bytes = node.bytes :=
  @Member.recordData_archive _ (hp.fit hnode) (p.archive members) hp.intact
    (hp.window_bytes hnode) _ (Node.mem_packed hmem)

/-- A member of a sound place is at a sound place. -/
theorem Sound.child {p : Place} (hp : p.Sound) {members : List (Label × Node)}
    (hnode : p.node = .archive members) {label : Label} {node : Node}
    (hmem : (label, node) ∈ members) : (p.child members label node).Sound := by
  rcases recordData_member hp hnode hmem with ⟨hfits, _, hbytes⟩
  refine ⟨hp.intact.part _ _ hfits, hbytes, ?_⟩
  have hpackable := hp.packable
  rw [hnode] at hpackable
  cases hpackable with
  | archive _ hall => exact hall _ hmem

/-- All that a sound place leads to is sound. -/
theorem Sound.leads {p q : Place} {path : List Bytes} (hp : p.Sound) (h : p.Leads path q) :
    q.Sound := by
  induction h with
  | here p => exact hp
  | inside hnode hmem _ ih => exact ih (hp.child hnode hmem)

/-- Every place below lies in the backing of the outermost file. -/
theorem Leads.backing {p q : Place} {path : List Bytes} (h : p.Leads path q) :
    q.window.backing = p.window.backing := by
  induction h with
  | here p => rfl
  | inside _ _ _ ih => exact ih

/-- The text of a place names the way to it. -/
theorem Leads.container {p q : Place} {path : List Bytes} (h : p.Leads path q) :
    q.container = path.foldl
      (fun text name => text ++ Locator.separator ++ Percent.encode name) p.container := by
  induction h with
  | here p => rfl
  | inside _ _ _ ih => rw [List.foldl_cons, ih]; rfl

/-- One name further down. -/
theorem Leads.append {p q t : Place} {path more : List Bytes} (h : p.Leads path q)
    (hmore : q.Leads more t) : p.Leads (path ++ more) t := by
  induction h with
  | here p => exact hmore
  | inside hnode hmem _ ih => exact .inside hnode hmem (ih hmore)

/-- The nodes below a place are those that its own node reaches. -/
theorem leads_of_reaches {p : Place} {node : Node} {path : List Bytes}
    (h : p.node.Reaches path node) : ∃ q : Place, p.Leads path q ∧ q.node = node := by
  generalize hstart : p.node = start at h
  induction h generalizing p with
  | here n => exact ⟨p, .here p, hstart⟩
  | inside hmem _ ih =>
      rcases @ih (p.child _ _ _) rfl with ⟨q, hq, hnode⟩
      exact ⟨q, .inside hstart hmem hq, hnode⟩

/-- A place below another one lies inside it. -/
theorem Leads.within {p q : Place} {path : List Bytes} (hp : p.Sound) (h : p.Leads path q) :
    p.window.offset ≤ q.window.offset ∧
      q.window.offset + q.window.length ≤ p.window.offset + p.window.length := by
  induction h with
  | here p => exact ⟨Nat.le_refl _, Nat.le_refl _⟩
  | @inside p q members label node path hnode hmem _ ih =>
      -- The data of a member lies within its archive, and the rest of the way within that data.
      rcases recordData_member hp hnode hmem with ⟨hfits, _, _⟩
      have hinside := ih (hp.child hnode hmem)
      simp only [Place.child, Window.part] at hinside
      omega

/-- A member starts behind its local header, and so behind the start of its
    archive. -/
theorem offset_lt_child (p : Place) (members : List (Label × Node)) (label : Label) (node : Node) :
    p.window.offset < (p.child members label node).window.offset := by
  simp only [child, Window.part, Member.dataStart, LocalHeader.length]
  omega

/-- What starts inside a place lies below it, for members lie apart and a local
    header is in front of each. -/
theorem prefix_of_within {p q t : Place} {path other : List Bytes} (hp : p.Sound)
    (hq : p.Leads path q) (ht : p.Leads other t) (hle : q.window.offset ≤ t.window.offset)
    (hlt : t.window.offset < q.window.offset + q.window.length) : path <+: other := by
  induction hq generalizing other with
  | here p => exact List.nil_prefix
  | @inside p q members label node path hnode hmem hq ih =>
      have hchild := hp.child hnode hmem
      have hinside := hq.within hchild
      cases ht with
      | here =>
          -- The archive itself starts in front of all that is in it.
          have hstart := offset_lt_child t members label node
          omega
      | @inside _ _ members' label' node' other hnode' hmem' ht =>
          rw [hnode, Node.archive.injEq] at hnode'
          subst hnode'
          by_cases hname : label.name = label'.name
          · -- One and the same member, so the rest of both paths is below it.
            rcases Prod.mk.inj (Node.eq_of_name_eq (hp.fit hnode) hmem hmem' hname) with ⟨rfl, rfl⟩
            exact List.cons_prefix_cons.mpr ⟨rfl, ih hchild ht hle hlt⟩
          · -- Two different members, so their places are apart.
            have hinside' := ht.within (hp.child hnode hmem')
            have hapart := Member.position_disjoint hname
              (Member.named?_of_mem (hp.fit hnode).distinct (Node.mem_packed hmem))
              (Member.named?_of_mem (hp.fit hnode).distinct (Node.mem_packed hmem'))
            simp only [Member.length_localBytes] at hapart
            simp only [child, Window.part, Member.dataStart] at hinside hinside'
            have hheader : LocalHeader.length = 30 := rfl
            omega

/-- A path leads to one place. -/
theorem leads_unique {p q t : Place} {path : List Bytes} (hp : p.Sound) (hq : p.Leads path q)
    (ht : p.Leads path t) : q = t := by
  induction hq with
  | here p =>
      cases ht
      rfl
  | @inside p q members label node path hnode hmem hq ih =>
      generalize hpath : label.name :: path = names at ht
      cases ht with
      | here => exact absurd hpath (List.cons_ne_nil _ _)
      | @inside _ _ members' label' node' other hnode' hmem' ht =>
          rw [hnode, Node.archive.injEq] at hnode'
          subst hnode'
          rw [List.cons.injEq] at hpath
          -- Of two members of one name there is only one, so both paths go on inside the same.
          rcases Prod.mk.inj (Node.eq_of_name_eq (hp.fit hnode) hmem hmem' hpath.1) with ⟨rfl, rfl⟩
          exact ih (hp.child hnode hmem) (hpath.2 ▸ ht)

/-- A path may be walked in two parts. -/
theorem Leads.split {p t : Place} {path more : List Bytes} (h : p.Leads (path ++ more) t) :
    ∃ q : Place, p.Leads path q ∧ q.Leads more t := by
  induction path generalizing p with
  | nil => exact ⟨p, .here p, h⟩
  | cons name path ih =>
      cases h with
      | inside hnode hmem h =>
          rcases ih h with ⟨q, hq, hrest⟩
          exact ⟨q, .inside hnode hmem hq, hrest⟩

/-- The last step of a path that is not empty. -/
theorem Leads.last {p q : Place} {path : List Bytes} {name : Bytes}
    (h : p.Leads (path ++ [name]) q) :
    ∃ (t : Place) (members : List (Label × Node)) (label : Label) (node : Node),
      p.Leads path t ∧ t.node = .archive members ∧ (label, node) ∈ members ∧
      label.name = name ∧ q = t.child members label node := by
  rcases h.split with ⟨t, ht, hlast⟩
  cases hlast with
  | @inside _ _ members label node _ hnode hmem hend =>
      cases hend with
      | here => exact ⟨t, members, label, node, ht, hnode, hmem, rfl, rfl⟩

/-- Nothing is below a file but itself. -/
theorem Leads.of_file {p q : Place} {path : List Bytes} {content : Bytes}
    (hnode : p.node = .file content) (h : p.Leads path q) : q = p := by
  cases h with
  | here => rfl
  | inside hother _ _ =>
      rw [hnode] at hother
      exact absurd hother (by simp only [reduceCtorEq, not_false_eq_true])

/-- An archive has at least an end record. -/
theorem length_pos_of_archive {p : Place} (hp : p.Sound) {members : List (Label × Node)}
    (hnode : p.node = .archive members) : 0 < p.window.length := by
  rw [← Window.length_bytes hp.intact, hp.window_bytes hnode, PackedArchive.length_toBytes,
    EndRecord.length]
  omega

/-- An archive is opened where it lies, and found to have its members. -/
theorem ofWindow_archive {p : Place} (hp : p.Sound) {members : List (Label × Node)}
    (hnode : p.node = .archive members) :
    (Archive.ofWindow p.window p.container).outcome = .ok (p.archive members) :=
  Archive.ofWindow_of_parse hp.intact.plain (PackedArchive.parse_toBytes
    (Member.packs_archive (hp.fit hnode)) hp.intact (hp.window_bytes hnode)) p.container

/-- The entry of a name is that of the member of the name. -/
theorem entry?_member {p : Place} (hp : p.Sound) {members : List (Label × Node)}
    (hnode : p.node = .archive members) {label : Label} {node : Node}
    (hmem : (label, node) ∈ members) :
    Archive.entry? (p.archive members) label.name = some (Member.entry ⟨label, node.bytes⟩
      (Member.position label.name (Node.packed members))) := by
  have hnamed := Member.named?_of_mem (hp.fit hnode).distinct (Node.mem_packed hmem)
  rw [Archive.entry?, archive, Member.find?_index, hnamed]
  rfl

/-- Where no member has a name, no entry has it. -/
theorem entry?_of_absent (p : Place) {members : List (Label × Node)} {name : Bytes}
    (h : ∀ m ∈ members, m.1.name ≠ name) : Archive.entry? (p.archive members) name = none := by
  have hnamed : Member.named? name (Node.packed members) = none := by
    refine Member.named?_eq_none fun m hm => ?_
    rw [Node.packed_eq_map, List.mem_map] at hm
    rcases hm with ⟨n, hn, rfl⟩
    exact h n hn
  rw [Archive.entry?, archive, Member.find?_index, hnamed]
  rfl

/-- What the entry of a member says. -/
theorem entry_member {p : Place} (hp : p.Sound) {members : List (Label × Node)}
    (hnode : p.node = .archive members) {label : Label} {node : Node}
    (hmem : (label, node) ∈ members) :
    let e := Member.entry ⟨label, node.bytes⟩ (Member.position label.name (Node.packed members))
    e.method = .stored ∧ e.uncompressedSize = node.bytes.length ∧ e.isDirectory = false := by
  intro e
  have hfit := hp.fit hnode
  have hpacked := Node.mem_packed hmem
  -- The position is the one of the first member of that name.
  rcases Member.entry_of_fit hfit hpacked (Member.position_lt hfit hpacked) with
    ⟨hmethod, hsize, _, hdirectory⟩
  exact ⟨hmethod, hsize, hdirectory⟩

/-- The window of a member that is to be searched is the window of its data. -/
theorem nestedSource_member {p : Place} (hp : p.Sound) {members : List (Label × Node)}
    (hnode : p.node = .archive members) {label : Label} {node : Node}
    (hmem : (label, node) ∈ members) :
    (p.archive members).nestedSource label.name =
      { outcome := .ok (p.child members label node).window, fetched := LocalHeader.length } := by
  rcases entry_member hp hnode hmem with ⟨hmethod, _, hdirectory⟩
  rcases recordData_member hp hnode hmem with ⟨_, hdata, _⟩
  unfold Archive.nestedSource
  rw [entry?_member hp hnode hmem]
  simp only [hdirectory, hmethod, Bool.false_eq_true, if_false, ne_eq, not_true, hdata]

end Place

end NestedZip
