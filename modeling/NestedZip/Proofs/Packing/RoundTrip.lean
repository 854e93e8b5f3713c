import NestedZip.Proofs.Connection
import NestedZip.Proofs.Locator
import NestedZip.Proofs.Packing.Serving

/-!
# Packing and Reading Back

Whatever is packed can be read back, through the written locator of every node.

The parts are settled: a written locator is read back, an archive of a tree is
opened where it lies, and a resolver that serves a tree finds each of them. What
is added here is the time in between. A resolver serves a tree from the moment
its buffer is registered until another buffer takes the name. Before that it may
have known another buffer of the name, all archives of which were dropped, and
after that it may register other buffers, resolve any locators at all and drop
what it likes.

## Main definitions

* `Place.ofBuffer`: The place of a tree that is all of a buffer.
* `Place.Served`: A resolver that knows the buffer of a tree and serves the tree.

## Theorems

* `Place.served_register`, `Place.served_of_run`: From when on a tree is served.
* `Place.delivers_node`, `Place.delivers_nested`, `Place.fails_missing`: What
  the locators of a tree lead to.
* `Node.round_trip`: All of it, in terms of texts and bytes.
-/

namespace NestedZip

namespace Place

open Resolver

/-- The place of a tree that is all of the buffer of a name. -/
def ofBuffer (name : String) (members : List (Label × Node)) : Place where
  node := .archive members
  window := .whole (.memory name ⟨(Node.archive members).bytes.toArray⟩)
  container := memoryScheme ++ name

/-- A resolver that knows the buffer of a tree, and keeps of it only what is
    there. -/
def Served (root : Place) (name : String) (members : List (Label × Node)) (r : Resolver) : Prop :=
  Upholds (fun buffers => root.RootOf buffers name members) (fun _ => root.Serves) r

variable {root : Place} {name : String} {members : List (Label × Node)}

theorem sound_ofBuffer (h : (Node.archive members).Packable) : (ofBuffer name members).Sound where
  intact := Window.intact_whole_memory _ _
  bytes := Window.bytes_whole_memory _ _
  packable := h

/-- A tree is served once its buffer is registered, whatever was known under its
    name before. -/
theorem served_register (hpackable : (Node.archive members).Packable) {r : Resolver}
    (hr : r.Sane) :
    (ofBuffer name members).Served name members
      (r.register name ⟨(Node.archive members).bytes.toArray⟩).2 := by
  have hsane := sane_register hr name ⟨(Node.archive members).bytes.toArray⟩
  refine ⟨⟨hsane.order, sound_ofBuffer hpackable, rfl, rfl, rfl, rfl, ?_⟩, rfl, rfl,
    Nat.le_refl _, ?_⟩
  · refine ⟨_, (lookup_register r name _ _).trans (if_pos rfl), rfl⟩
  · intro key h hget
    have hkept := hsane.knows.kept key h hget
    refine ⟨hkept.identity, hkept.offset, fun hkey => ?_⟩
    -- Nothing is kept of a buffer that was just registered.
    rw [get?_register_eq_none hr name _ hkey] at hget
    exact absurd hget (by simp only [reduceCtorEq, not_false_eq_true])

/-- A buffer stays served when another one is registered. -/
theorem served_register_other {r : Resolver} (h : root.Served name members r) {other : String}
    (hother : other ≠ name) (content : ByteArray) :
    root.Served name members (r.register other content).2 := by
  refine ⟨⟨named_register h.order.named other content, h.order.sound, h.order.node, h.order.window,
    h.order.identity, h.order.container, ?_⟩, rfl, rfl, Nat.le_refl _, fun key handle hget => ?_⟩
  · rcases h.order.known with ⟨source, hsource, hbacking⟩
    refine ⟨source, ?_, hbacking⟩
    rw [lookup_register, if_neg, hsource]
    -- Two names that differ still do behind the scheme.
    rw [h.order.identity]
    exact fun heq => hother (String.append_right_inj _ |>.mp heq).symm
  · exact h.knows.kept key handle (get?_of_register hget).1

/-- A tree stays served until another buffer takes its name. -/
theorem served_of_run {r s : Resolver} (hrun : Run (· ≠ name) r s)
    (h : root.Served name members r) : root.Served name members s :=
  upholds_of_run serves_closed (fun _ content hother h => served_register_other h hother content)
    hrun h

/-- Names that lead somewhere are not empty. -/
theorem Leads.names_ne_nil {p q : Place} {path : List Bytes} (hp : p.Sound) (h : p.Leads path q) :
    ∀ name ∈ path, name ≠ [] := by
  induction h with
  | here p => exact fun name hmem => absurd hmem List.not_mem_nil
  | inside hnode hmem _ ih =>
      rw [List.forall_mem_cons]
      exact ⟨(hp.fit hnode).nonempty _ (Node.mem_packed hmem), ih (hp.child hnode hmem)⟩

/-- A locator below a buffer can be written, unless the name of the buffer holds
    a separator. -/
theorem readable_memory (hname : ¬ Locator.separatorChars <:+: name.toList) {l : Locator}
    (hroot : l.root = memoryScheme ++ name) (harchives : ∀ n ∈ l.archives, n ≠ [])
    (hentry : ∀ n, l.entry = some n → n ≠ []) : l.Readable := by
  have htext : l.root.toList = 'm' :: 'e' :: 'm' :: ':' :: name.toList := by
    rw [hroot, String.toList_append]
    rfl
  refine ⟨?_, ?_, ?_, harchives, hentry⟩
  · rw [htext]
    exact List.cons_ne_nil _ _
  · -- The scheme has no exclamation mark, so a separator would be one of the name.
    simp only [htext, Locator.separatorChars, List.infix_cons_iff, List.cons_prefix_cons,
      Char.reduceEq, false_and, false_or]
    exact hname
  · rw [htext, List.cons_prefix_cons]
    exact fun h => absurd h.1 (by decide)

/-- Below such a buffer the written locator of an archive is read back, -/
theorem decode_ofArchivePath (hname : ¬ Locator.separatorChars <:+: name.toList)
    {path : List Bytes} (hnames : ∀ n ∈ path, n ≠ []) :
    Locator.decode (Locator.ofArchivePath (memoryScheme ++ name) path).toString =
      .ok (Locator.ofArchivePath (memoryScheme ++ name) path) := by
  refine Locator.decode_toString (readable_memory hname rfl hnames fun n hn => ?_)
  exact absurd hn (by simp only [Locator.ofArchivePath, reduceCtorEq, not_false_eq_true])

/-- and so is that of an entry. -/
theorem decode_ofPath (hname : ¬ Locator.separatorChars <:+: name.toList) {path : List Bytes}
    (hnames : ∀ n ∈ path, n ≠ []) :
    Locator.decode (Locator.ofPath (memoryScheme ++ name) path).toString =
      .ok (Locator.ofPath (memoryScheme ++ name) path) := by
  rcases List.eq_nil_or_concat path with rfl | ⟨front, last, rfl⟩
  · exact decode_ofArchivePath hname hnames
  · rw [List.concat_eq_append, List.forall_mem_append, List.forall_mem_singleton] at hnames
    rw [List.concat_eq_append, Locator.ofPath_concat]
    refine Locator.decode_toString (readable_memory hname rfl hnames.1 fun n hn => ?_)
    -- The last name is the entry, and no name of the path is empty.
    rw [← Option.some.inj hn]
    exact hnames.2

variable {free : String → Prop} {start s : Resolver}

/-- The locator of an archive leads to it. -/
theorem delivers_nested (h : root.Served name members s) (hrun : Run free start s)
    {path : List Bytes} {q : Place} {inner : List (Label × Node)} (hq : root.Leads path q)
    (hnode : q.node = .archive inner) :
    Connection.Delivers free start s (Locator.ofArchivePath root.window.identity path)
      q.node.bytes := by
  have hsound := h.order.sound.leads hq
  rcases resolve_leads h.order hq hnode none h.knows with
    ⟨handle, t, hresolve, harchive, hbuffer, _⟩
  have hwindow : handle.archive.window = q.window := congrArg Archive.window harchive
  rw [← hsound.bytes, ← hwindow]
  exact Connection.delivers_archive hrun rfl hresolve hbuffer (hwindow ▸ hsound.intact)

/-- The locator of a node leads to it. -/
theorem delivers_node (h : root.Served name members s) (hrun : Run free start s)
    {path : List Bytes} {q : Place} (hq : root.Leads path q) :
    Connection.Delivers free start s (Locator.ofPath root.window.identity path) q.node.bytes := by
  rcases List.eq_nil_or_concat path with rfl | ⟨front, last, rfl⟩
  · -- The empty path means the archive that is the whole buffer.
    cases hq
    exact delivers_nested h hrun (.here root) h.order.node
  · rw [List.concat_eq_append] at hq ⊢
    -- The last name of a path is an entry of the archive that the others lead to.
    rcases hq.last with ⟨t, inner, label, node, ht, hnode, hmem, rfl, rfl⟩
    have hsound := h.order.sound.leads ht
    rcases resolve_leads h.order ht hnode (some label.name) h.knows with
      ⟨handle, after, hresolve, harchive, hbuffer, _⟩
    rcases entry_member hsound hnode hmem with ⟨_, hsize, hdirectory⟩
    rcases recordData_member hsound hnode hmem with ⟨_, hdata, hbytes⟩
    have hfind : Connection.findEntry handle.archive label.name =
        .ok (Member.entry ⟨label, node.bytes⟩
          (Member.position label.name (Node.packed inner))) := by
      rw [harchive, Connection.findEntry, entry?_member hsound hnode hmem]
      rfl
    rw [← harchive] at hdata
    rw [Locator.ofPath_concat, ← (hsound.child hnode hmem).bytes]
    exact Connection.delivers_entry hrun rfl hresolve hbuffer hfind hdirectory hdata
      (hsound.child hnode hmem).intact hsize

/-- A name that no member of an archive has leads nowhere. -/
theorem fails_missing (h : root.Served name members s) (hrun : Run free start s)
    {path : List Bytes} {q : Place} {inner : List (Label × Node)} (hq : root.Leads path q)
    (hnode : q.node = .archive inner) {missing : Bytes}
    (hmissing : ∀ m ∈ inner, m.1.name ≠ missing) :
    Connection.Fails free start s (Locator.ofPath root.window.identity (path ++ [missing]))
      (.entryNotFound (Locator.ofArchivePath root.window.identity path).toString
        (Text.decodeLossy missing)) := by
  have hsound := h.order.sound.leads hq
  rcases resolve_leads h.order hq hnode (some missing) h.knows with
    ⟨handle, t, hresolve, harchive, _, _⟩
  -- A name is also looked for as a directory, but no name of a member ends in a slash.
  have hslash : ∀ m ∈ inner, m.1.name ≠ missing ++ [Entry.slash] := by
    intro m hm hname
    refine (hsound.fit hnode).notDirectory _ (Node.mem_packed hm) ?_
    rw [hname, List.getLast?_concat]
  have hurl : (q.archive inner).url =
      (Locator.ofArchivePath root.window.identity path).toString := by
    rw [Archive.url, archive, hq.container, h.order.container, Locator.toString]
    exact (String.append_empty).symm
  rw [Locator.ofPath_concat]
  refine Connection.fails_of_findEntry hrun rfl hresolve ?_
  rw [harchive, Connection.findEntry, entry?_of_absent q hmissing, entry?_of_absent q hslash,
    hurl]
  by_cases hlast : missing.getLast? = some Entry.slash
  · rw [if_pos hlast]
    rfl
  · rw [if_neg hlast]
    rfl

end Place

namespace Node

open Resolver

/-- Whatever is packed can be read back. The buffer of a packed tree is
    registered, whatever the resolver was asked before, and whatever it is asked
    then, as long as no other buffer takes the name. The written locator of every
    node is read back and delivers the bytes of the node, and that of an archive
    with a separator behind it delivers the archive. A name that an archive does
    not have leads nowhere, and the message says so. -/
theorem round_trip {members : List (Label × Node)} (hpackable : (archive members).Packable)
    {name : String} (hname : ¬ Locator.separatorChars <:+: name.toList) {directory : String}
    {outside : Surroundings} {before s : Resolver}
    (hbefore : Run (fun _ => True) { libraryDirectory := directory, outside } before)
    (hrun : Run (· ≠ name) (before.register name ⟨(archive members).bytes.toArray⟩).2 s) :
    let (root, registered) := before.register name ⟨(archive members).bytes.toArray⟩
    (∀ path node, (archive members).Reaches path node →
      Locator.decode (Locator.ofPath root path).toString = .ok (Locator.ofPath root path) ∧
      Connection.Delivers (· ≠ name) registered s (Locator.ofPath root path) node.bytes) ∧
    (∀ path inner, path ≠ [] → (archive members).Reaches path (archive inner) →
      Locator.decode ((Locator.ofPath root path).toString ++ Locator.separator) =
        .ok (Locator.ofArchivePath root path) ∧
      Connection.Delivers (· ≠ name) registered s (Locator.ofArchivePath root path)
        (archive inner).bytes) ∧
    (∀ path inner missing, (archive members).Reaches path (archive inner) → missing ≠ [] →
      (∀ m ∈ inner, m.1.name ≠ missing) →
      Locator.decode (Locator.ofPath root (path ++ [missing])).toString =
        .ok (Locator.ofPath root (path ++ [missing])) ∧
      Connection.Fails (· ≠ name) registered s (Locator.ofPath root (path ++ [missing]))
        (.entryNotFound (Locator.ofArchivePath root path).toString
          (Text.decodeLossy missing))) := by
  have hsane := sane_of_run hbefore (sane_new directory outside)
  have hserved := Place.served_of_run hrun (Place.served_register hpackable hsane)
  have hsound := hserved.order.sound
  have hread := @Place.decode_ofPath name hname
  refine ⟨fun path node hreaches => ?_, fun path inner hne hreaches => ?_,
    fun path inner missing hreaches hne hmissing => ?_⟩
  · -- What a path reaches in the tree has its place in the buffer, and it is read from there.
    rcases @Place.leads_of_reaches (.ofBuffer name members) _ _ hreaches with ⟨q, hq, rfl⟩
    exact ⟨hread (hq.names_ne_nil hsound), Place.delivers_node hserved hrun hq⟩
  · rcases @Place.leads_of_reaches (.ofBuffer name members) _ _ hreaches with ⟨q, hq, hnode⟩
    rw [← Locator.toString_ofArchivePath _ hne, ← hnode]
    exact ⟨Place.decode_ofArchivePath hname (hq.names_ne_nil hsound),
      Place.delivers_nested hserved hrun hq hnode⟩
  · rcases @Place.leads_of_reaches (.ofBuffer name members) _ _ hreaches with ⟨q, hq, hnode⟩
    refine ⟨hread ?_, Place.fails_missing hserved hrun hq hnode hmissing⟩
    rw [List.forall_mem_append, List.forall_mem_singleton]
    exact ⟨hq.names_ne_nil hsound, hne⟩

/-- A name with headers that say nothing else. -/
def plainLabel (name : Bytes) : Label where
  name
  inFront := {
    needed := 10, flags := 0, method := 0, packedTime := 0, packedDate := 0x21, crc := 0
    compressedSize := 0, uncompressedSize := 0, nameLength := 0, extraLength := 0 }
  inDirectory := {
    madeBy := 10, needed := 10, flags := 0, method := 0, packedTime := 0, packedDate := 0x21
    crc := 0, compressedSize := 0, uncompressedSize := 0, nameLength := 0, extraLength := 0
    commentLength := 0, startDisk := 0, internalAttributes := 0, externalAttributes := 0
    headerOffset := 0 }

/-- One file `a`. -/
def single : List (Label × Node) := [(plainLabel [0x61], file [7, 8])]

/-- An empty file whose name is no text and has a separator in it, and behind it
    an archive `b`. -/
def boxed : List (Label × Node) :=
  [(plainLabel [0xFF, 0x21, 0x2F, 0x2E], file []), (plainLabel [0x62], archive single)]

/-- An archive with one file in it can be packed. -/
theorem packable_single : (archive single).Packable := by
  refine .archive ?_ fun m hm => ?_
  · exact {
      distinct := by decide
      nonempty := by decide
      short := by decide
      notDirectory := by decide
      count := by decide
      body := by decide +kernel
      directory := by decide +kernel }
  · rw [List.mem_singleton.mp hm]
    exact .file _

/-- And so can one with that archive in it. -/
theorem packable_boxed : (archive boxed).Packable := by
  refine .archive ?_ ?_
  · exact {
      distinct := by decide
      nonempty := by decide
      short := by decide
      notDirectory := by decide
      count := by decide
      body := by decide +kernel
      directory := by decide +kernel }
  · rw [boxed, List.forall_mem_cons, List.forall_mem_singleton]
    exact ⟨.file _, packable_single⟩

/-- The file inside the archive inside the buffer, where the buffer replaces
    another one and a locator was resolved before. -/
theorem round_trip_boxed :
    let before := (({} : Resolver).register "app" ⟨#[7]⟩).2
    let (root, registered) := before.register "app" ⟨(archive boxed).bytes.toArray⟩
    let asked := after (resolve (Locator.ofArchivePath root [[0x62]])) registered
    (archive boxed).Packable ∧ ¬ Locator.separatorChars <:+: "app".toList ∧
      Run (fun _ => True) {} before ∧ Run (· ≠ "app") registered asked ∧
      Locator.decode "mem:app!/b!/a" = .ok (Locator.ofPath "mem:app" [[0x62], [0x61]]) ∧
      Connection.Delivers (· ≠ "app") registered asked
        (Locator.ofPath root [[0x62], [0x61]]) [7, 8] := by
  intro before
  have hname : ¬ Locator.separatorChars <:+: "app".toList := by decide
  have hbefore : Run (fun _ => True) {} before := .register "app" ⟨#[7]⟩ (.refl _) trivial
  have hrun : Run (· ≠ "app") (before.register "app" ⟨(archive boxed).bytes.toArray⟩).2
      (after (resolve (Locator.ofArchivePath "mem:app" [[0x62]]))
        (before.register "app" ⟨(archive boxed).bytes.toArray⟩).2) := .resolve _ (.refl _)
  have hinner : (archive single).Reaches [[0x61]] (file [7, 8]) :=
    .inside List.mem_cons_self (.here _)
  have hreaches : (archive boxed).Reaches [[0x62], [0x61]] (file [7, 8]) :=
    .inside (List.mem_cons_of_mem _ List.mem_cons_self) hinner
  rcases (round_trip packable_boxed hname hbefore hrun).1 _ _ hreaches with ⟨hdecode, hdelivers⟩
  exact ⟨packable_boxed, hname, hbefore, hrun, hdecode, hdelivers⟩

end Node

end NestedZip
