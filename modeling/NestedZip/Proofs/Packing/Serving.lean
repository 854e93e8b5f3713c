import NestedZip.Proofs.Packing.Tree
import NestedZip.Proofs.Resolver

/-!
# Resolving in a Packed Tree

A resolver that knows the buffer of a packed tree finds every archive of the
tree, whatever it was asked before.

What it was asked before is what it keeps, and a kept archive is answered
without looking at the source. It has to be the right one. An archive is kept
under the offset of its window, so the fact to carry along is that a handle
under the tree's source is on the archive of the tree that starts there. One
case more is needed for this to survive every locator: the content of a file
is anybody's and may be an archive as well, and a locator may lead into it.
Handles on such archives are `buried` in the range of a file, where no archive
of the tree starts.

## Main definitions

* `Place.Holds`: A handle on an archive of a tree, or on one inside a file.
* `Place.Serves`: The fact about all handles that are kept.
* `Place.RootOf`: The place of a tree that fills a known buffer.

## Theorems

* `Place.serves_closed`: The fact holds of whatever is opened.
* `Place.Holds.archive_eq`: The handle at the offset of an archive is on it.
* `Place.resolve_leads`: Every archive of the tree is found.
-/

namespace NestedZip

namespace Place

open Resolver

/-- A handle on an archive of the tree, or on an archive that lies inside the
    content of a file of the tree. -/
inductive Holds (root : Place) (h : Handle) : Prop
  | archive {path : List Bytes} {q : Place} {members : List (Label × Node)} :
      root.Leads path q → q.node = .archive members → h.archive = q.archive members →
      h.address = none → Holds root h
  | buried {path : List Bytes} {q : Place} {content : Bytes} :
      root.Leads path q → q.node = .file content →
      q.window.offset ≤ h.archive.window.offset →
      h.archive.window.offset + h.archive.window.length ≤ q.window.offset + q.window.length →
      0 < h.archive.window.length → h.address = none → Holds root h

theorem Holds.address {root : Place} {h : Handle} (hh : root.Holds h) : h.address = none := by
  cases hh with
  | archive _ _ _ hbuffer => exact hbuffer
  | buried _ _ _ _ _ hbuffer => exact hbuffer

/-- What a handle is on is kept under its source and its offset, and if that is
    the source of the tree, it is on something of the tree. -/
structure Serves (root : Place) (key : CacheKey) (h : Handle) : Prop where
  identity : h.archive.window.identity = key.identity
  offset : h.archive.window.offset = key.offset
  holds : key.identity = root.window.identity → root.Holds h

/-- The place of a tree that fills a buffer known under its name. -/
structure RootOf (root : Place) (buffers : List (String × Source)) (name : String)
    (members : List (Label × Node)) : Prop where
  named : Named buffers
  sound : root.Sound
  node : root.node = .archive members
  window : root.window = .whole root.window.backing
  identity : root.window.identity = memoryScheme ++ name
  container : root.container = root.window.identity
  known : ∃ source, buffers.lookup root.window.identity = some source ∧
    source.backing = root.window.backing

variable {root : Place} {start : Resolver} {name : String}
  {members : List (Label × Node)}

/-- The root of a known source is the root of the tree, if it is its source. -/
theorem holds_of_opens (hroot : root.RootOf start.buffers name members) {container : String}
    {source : Source} {a : Archive} (hopens : Opens start.outside start.buffers container source)
    (ha : (Archive.ofBacking source.backing).outcome = .ok a)
    (hidentity : source.backing.identity = root.window.identity) (number : Nat) :
    root.Holds { number, source := source.number, address := source.address, archive := a } := by
  cases hopens with
  | buffer _ hlookup =>
      -- A buffer with the name of the tree is the buffer of the tree.
      rcases hroot.named container source hlookup with ⟨hcontainer, hbuffer⟩
      rcases hroot.known with ⟨known, hknown, hbacking⟩
      rw [← hidentity, hcontainer, hlookup, Option.some.injEq] at hknown
      subst hknown
      have hopened := ofWindow_archive hroot.sound hroot.node
      rw [hroot.container, hroot.window] at hopened
      rw [hbacking] at ha
      refine .archive (.here root) hroot.node ?_ hbuffer
      exact Except.ok.inj (ha.symm.trans hopened)
  | found _ _ _ _ =>
      -- Nothing outside has such a name.
      have hmemory := memory_prefix name
      rw [← hroot.identity, ← hidentity] at hmemory
      exact absurd hmemory (not_memory_outside _ _)

/-- What is nested in a handle on something of the tree is something of the tree
    again. -/
theorem holds_of_nested (hroot : root.RootOf start.buffers name members) {parent : Handle}
    (hparent : root.Holds parent) {entry : Bytes} {data : Window} {a : Archive}
    (hdata : (parent.archive.nestedSource entry).outcome = .ok data)
    (ha : (Archive.ofWindow data (parent.archive.entryUrl entry)).outcome = .ok a)
    (number source : Nat) :
    root.Holds { number, source, address := parent.address, archive := a } := by
  rcases Archive.ofWindow_eq_ok ha with ⟨_, hlength, _, hwindow, _⟩
  have hpositive : 0 < data.length := Nat.lt_of_lt_of_le (by decide) hlength
  have hbuffer := hparent.address
  cases hparent with
  | @archive path q inner hq hnode harchive =>
      rw [harchive] at hdata ha
      have hsound := hroot.sound.leads hq
      -- The entry that was found is a member, so what is in it is a node of the tree.
      by_cases habsent : ∀ m ∈ inner, m.1.name ≠ entry
      · rw [Archive.nestedSource, entry?_of_absent q habsent] at hdata
        exact absurd hdata error_ne_ok
      · simp only [not_forall, ne_eq, Decidable.not_not] at habsent
        rcases habsent with ⟨⟨label, node⟩, hmem, rfl⟩
        have hchild := hq.append (.inside hnode hmem (.here _))
        rw [nestedSource_member hsound hnode hmem, Except.ok.injEq] at hdata
        subst hdata
        cases hnested : node with
        | file content =>
            rw [hnested] at hchild hwindow hpositive
            refine .buried hchild rfl ?_ ?_ (hwindow ▸ hpositive) hbuffer
            · exact Nat.le_of_eq (congrArg Window.offset hwindow.symm)
            · exact Nat.le_of_eq (by rw [hwindow])
        | archive deeper =>
            have hopened := ofWindow_archive (hsound.child hnode hmem) hnested
            rw [hnested] at hchild hopened ha
            exact .archive hchild rfl (Except.ok.inj (ha.symm.trans hopened)) hbuffer
  | @buried path q content hq hnode hstart hend =>
      -- Whatever is found in a file stays inside the file.
      rcases Archive.nestedSource_eq_ok hdata with ⟨offset, length, _, hfits, rfl⟩
      simp only [Window.part] at hwindow
      refine .buried hq hnode ?_ ?_ (by rw [hwindow]; exact hpositive) hbuffer
      · simp only [hwindow]
        omega
      · simp only [hwindow]
        omega

/-- Whatever is opened of the buffer is the archive packed at that place, from the root or from an
    archive around it. -/
theorem serves_closed (hroot : root.RootOf start.buffers name members) :
    Closed start root.Serves where
  root := by
    intro container source number a hopens ha
    rcases Archive.ofWindow_eq_ok ha with ⟨_, _, _, hwindow, _⟩
    exact ⟨congrArg Window.identity hwindow, congrArg Window.offset hwindow,
      fun hidentity => holds_of_opens hroot hopens ha hidentity number⟩
  nested := by
    intro key parent r entry data number a hparent _ hdata ha
    rcases Archive.ofWindow_eq_ok ha with ⟨_, _, _, hwindow, _⟩
    have hidentity := (identity_of_nestedSource hdata).trans hparent.identity
    refine ⟨congrArg Window.identity hwindow, congrArg Window.offset hwindow, fun htree => ?_⟩
    have hholds := hparent.holds (hidentity.symm.trans htree)
    rw [present_of_buffer r hholds.address] at hdata
    exact holds_of_nested hroot hholds hdata ha number parent.source

/-- A handle that starts where an archive of the tree starts is on that archive:
    no other archive of the tree starts there, and no file has it inside. -/
theorem Holds.archive_eq (hroot : root.RootOf start.buffers name members) {h : Handle}
    (hh : root.Holds h) {path : List Bytes} {q : Place} {inner : List (Label × Node)}
    (hq : root.Leads path q) (hnode : q.node = .archive inner)
    (hoffset : h.archive.window.offset = q.window.offset) : h.archive = q.archive inner := by
  have hpositive := length_pos_of_archive (hroot.sound.leads hq) hnode
  cases hh with
  | @archive other t others ht hother harchive =>
      have hpositive' := length_pos_of_archive (hroot.sound.leads ht) hother
      rw [harchive] at hoffset
      change t.window.offset = q.window.offset at hoffset
      -- Each of the two starts inside the other, so their paths are the same.
      have hdown := prefix_of_within hroot.sound ht hq (by omega) (by omega)
      have hup := prefix_of_within hroot.sound hq ht (by omega) (by omega)
      have hpath : other = path := hdown.eq_of_length_le hup.length_le
      subst hpath
      have hsame := leads_unique hroot.sound ht hq
      subst hsame
      rw [hnode, Node.archive.injEq] at hother
      rw [harchive, hother]
  | @buried other t content ht hother hstart hend hsome =>
      -- An archive of the tree that starts inside a file would be below the file.
      rcases prefix_of_within hroot.sound ht hq (by omega) (by omega) with ⟨more, hmore⟩
      rw [← hmore] at hq
      rcases hq.split with ⟨mid, hmid, hrest⟩
      rw [leads_unique hroot.sound hmid ht] at hrest
      rw [hrest.of_file hother, hother] at hnode
      exact absurd hnode (by simp only [reduceCtorEq, not_false_eq_true])

/-- From a handle on an archive of the tree to a handle on one nested in it,
    kept or not. -/
theorem openNested_leads (hroot : root.RootOf start.buffers name members) {path : List Bytes}
    {q : Place} {inner deeper : List (Label × Node)} {label : Label} (hq : root.Leads path q)
    (hnode : q.node = .archive inner) (hmem : (label, .archive deeper) ∈ inner) {h : Handle}
    (harchive : h.archive = q.archive inner) (hbuffer : h.address = none) {r : Resolver}
    (hr : Knows start root.Serves r) :
    ∃ (nested : Handle) (s : Resolver), openNested h label.name r = .ok nested s ∧
      nested.archive = (q.child inner label (.archive deeper)).archive deeper ∧
      nested.address = none := by
  have hsound := hroot.sound.leads hq
  have hsource := nestedSource_member hsound hnode hmem
  have hopened := ofWindow_archive (hsound.child hnode hmem) rfl
  have hchild := hq.append (.inside hnode hmem (.here _))
  have hidentity : (q.child inner label (.archive deeper)).window.identity =
      root.window.identity := congrArg Backing.identity hchild.backing
  rw [openNested_apply, present_of_buffer r hbuffer, harchive, hsource]
  -- Finding the data is counted, and changes nothing that is kept.
  have hcharge : ∃ s : Resolver, charge h.source ({
      outcome := .ok (q.child inner label (.archive deeper)).window
      fetched := LocalHeader.length } : Metered Error Window) r =
        .ok (q.child inner label (.archive deeper)).window s ∧ Knows start root.Serves s :=
            ⟨_, rfl, hr.fetch _ _⟩
  rcases hcharge with ⟨s, hcharge, hs⟩
  rw [Resolving.bind_of_ok hcharge, keep_apply]
  -- The archive is opened where it lies, unless a handle that starts there is kept.
  rcases hget : s.cache.get? _ with _ | kept
  · have hentry : (q.archive inner).entryUrl label.name =
        (q.child inner label (.archive deeper)).container := rfl
    simp only [charge, hentry, hopened]
    exact ⟨_, _, rfl, rfl, hbuffer⟩
  · have hkept := hs.kept _ kept hget
    have hholds := hkept.holds hidentity
    exact ⟨kept, s, rfl, hholds.archive_eq hroot hchild rfl hkept.offset, hholds.address⟩

/-- The root of the tree is found, kept or not. -/
theorem openRoot_root (hroot : root.RootOf start.buffers name members) {r : Resolver}
    (hr : Knows start root.Serves r) :
    ∃ (h : Handle) (s : Resolver), openRoot root.window.identity r = .ok h s ∧
      h.archive = root.archive members ∧ h.address = none := by
  have hoffset : root.window.offset = 0 := congrArg Window.offset hroot.window
  rw [openRoot_apply]
  -- The root may have been kept, and then it is the archive that it was.
  rcases hget : r.cache.get? { identity := root.window.identity, offset := 0 } with _ | kept
  · rcases hroot.known with ⟨source, hsource, hbacking⟩
    have hopen : openSource root.window.identity r = .ok source r :=
      openSource_of_known (by rw [hroot.identity]; exact memory_prefix name)
        (by rw [hr.buffers]; exact hsource)
    rcases hroot.named _ _ hsource with ⟨hidentity, hbuffer⟩
    have hopened := ofWindow_archive hroot.sound hroot.node
    rw [hroot.container, hroot.window] at hopened
    change (Archive.ofBacking root.window.backing).outcome = _ at hopened
    simp only
    rw [Resolving.bind_of_ok hopen, keep_apply, hidentity, hget, hbacking]
    simp only [charge, hopened]
    exact ⟨_, _, rfl, rfl, hbuffer⟩
  · have hkept := hr.kept _ kept hget
    have hholds := hkept.holds rfl
    exact ⟨kept, r, rfl, hholds.archive_eq hroot (.here root) hroot.node
      (hkept.offset.trans hoffset.symm), hholds.address⟩

/-- From a handle on an archive of the tree along the names of archives in it. -/
theorem foldlM_leads (hroot : root.RootOf start.buffers name members) {above path : List Bytes}
    {p q : Place} {outer inner : List (Label × Node)} (hp : root.Leads above p)
    (hstart : p.node = .archive outer) (hq : p.Leads path q) (hnode : q.node = .archive inner)
    {h : Handle} (harchive : h.archive = p.archive outer) (hbuffer : h.address = none)
    (hkey : ∃ key, root.Serves key h) {r : Resolver} (hr : Knows start root.Serves r) :
    ∃ (nested : Handle) (s : Resolver), path.foldlM openNested h r = .ok nested s ∧
      nested.archive = q.archive inner ∧ nested.address = none ∧ Knows start root.Serves s := by
  induction hq generalizing above outer h r with
  | here p =>
      rw [hnode, Node.archive.injEq] at hstart
      subst hstart
      exact ⟨h, r, rfl, harchive, hbuffer, hr⟩
  | @inside p q members label node path hmembers hmem hrest ih =>
      rw [hmembers, Node.archive.injEq] at hstart
      subst hstart
      -- What is on the way to an archive is an archive.
      cases node with
      | file content =>
          rw [hrest.of_file rfl] at hnode
          exact absurd hnode (by simp only [child, reduceCtorEq, not_false_eq_true])
      | archive deeper =>
          rcases openNested_leads hroot hp hmembers hmem harchive hbuffer hr with
            ⟨nested, s, hopen, hnested, hnested'⟩
          have hs := preserves_openNested (serves_closed hroot) hkey label.name r hr
          rw [hopen] at hs
          rw [List.foldlM_cons, Resolving.bind_of_ok hopen]
          exact ih (hp.append (.inside hmembers hmem (.here _))) rfl hnode hnested hnested'
            hs.2 hs.1

/-- Every archive of the tree is found by the names that lead to it. -/
theorem resolve_leads (hroot : root.RootOf start.buffers name members) {path : List Bytes}
    {q : Place} {inner : List (Label × Node)} (hq : root.Leads path q)
    (hnode : q.node = .archive inner) (entry : Option Bytes) {r : Resolver}
    (hr : Knows start root.Serves r) :
    ∃ (h : Handle) (s : Resolver),
      resolve { root := root.window.identity, archives := path, entry } r = .ok h s ∧
        h.archive = q.archive inner ∧ h.address = none ∧ Knows start root.Serves s := by
  rcases openRoot_root hroot hr with ⟨h, s, hopen, harchive, hbuffer⟩
  have hs := preserves_openRoot (serves_closed hroot) root.window.identity r hr
  rw [hopen] at hs
  change ∃ h s, (openRoot root.window.identity >>= fun root => path.foldlM openNested root) r =
    .ok h s ∧ _
  -- What is known about the cache is still known behind the root, so the names can be followed.
  rw [Resolving.bind_of_ok hopen]
  exact foldlM_leads hroot (.here root) hroot.node hq hnode harchive hbuffer hs.2 hs.1

end Place

end NestedZip
