import NestedZip.Proofs.Packing.RoundTrip
import NestedZip.Proofs.Percent
import NestedZip.Proofs.Resolving.Composition
import NestedZip.Proofs.Resolving.Soundness

/-!
# When the Cache Cannot Be Seen

What a locator leads to, and whether that depends on what was asked before.

A handle is kept under the place where its archive starts, and nothing else.
Two entries whose data starts at the same place therefore share a handle: the
one that is opened first answers for both, though the other may be longer, hold
other entries, and always has another name. So in general it does matter what
was resolved before, and `resolve_twins` is an archive of that kind.

It matters in no other way. Everything that is kept was walked to, and a source
is told by its name. If no other names lead to a place where a level of a
locator starts, then whatever is kept there is that level. The locator then
leads where it leads without a cache, over every history, whatever was opened,
dropped or asked of a connection.

## Main definitions

* `Backing.Unshared`: No level along some names starts where other names lead.
* `Resolver.Unshared`: A locator of which this holds.

## Theorems

* `Resolver.rootBacking_injective`: Sources of one name are the same.
* `Resolver.answer_resolve`: An unshared locator leads where it leads without a cache.
* `Resolver.resolve_transparent`: It leads there after every history.
* `Resolver.resolve_twins`: With a shared place, the history is seen.
-/

namespace NestedZip

/-- Where a level along some names starts, no other names lead to an archive. -/
def Backing.Unshared (source : Backing) (names : List Bytes) : Prop :=
  ∀ (front : List Bytes) (name : Bytes) (rest : List Bytes) (parent : Archive) (data : Window)
    (others : List Bytes) (a : Archive), names = front ++ name :: rest →
    (Archive.walk source front).outcome = .ok parent →
    (parent.nestedSource name).outcome = .ok data →
    (Archive.walk source others).outcome = .ok a → a.window.offset = data.offset →
    others = front ++ [name]

namespace Resolver

open Resolving

/-- A locator whose levels share no place with other names. Its root as written is
    not the name of a source that it does not name. -/
structure Unshared (r : Resolver) (l : Locator) : Prop where
  root : ∀ container source, r.rootBacking container = .ok source → source.identity = l.root →
    r.rootBacking l.root = .ok source
  nested : ∀ source, r.rootBacking l.root = .ok source → source.Unshared l.archives

/-- What a root opens is what it names. -/
theorem rootBacking_of_opens {r : Resolver} {container : String} {source : Source}
    (h : Opens r.outside r.buffers container source) :
    r.rootBacking container = .ok source.backing := by
  unfold rootBacking
  cases h with
  | buffer hmemory hlookup => rw [if_pos hmemory, hlookup]
  | found number hmemory haddress hcontent =>
      rw [if_neg hmemory, haddress, except_ok_bind, hcontent]
      rfl

/-- A source is a known buffer under its name, or outside under the name of its address. -/
theorem rootBacking_eq_ok {r : Resolver} {container : String} {source : Backing}
    (h : r.rootBacking container = .ok source) :
    (memoryScheme.toList.isPrefixOf container.toList ∧
      ∃ known, r.buffers.lookup container = some known ∧ known.backing = source) ∨
    ∃ address content, r.outside.read address = .ok content ∧
      source = backingAt address content := by
  unfold rootBacking at h
  by_cases hmemory : memoryScheme.toList.isPrefixOf container.toList
  · rw [if_pos hmemory] at h
    rcases hlookup : r.buffers.lookup container with _ | known
    · rw [hlookup] at h
      exact absurd h error_ne_ok
    · rw [hlookup] at h
      exact Or.inl ⟨hmemory, known, rfl, Except.ok.inj h⟩
  · rw [if_neg hmemory] at h
    rcases except_bind_eq_ok_iff.mp h with ⟨address, _, hrest⟩
    rcases except_bind_eq_ok_iff.mp hrest with ⟨content, hcontent, hsource⟩
    exact Or.inr ⟨address, content, hcontent, (Except.ok.inj hsource).symm⟩

/-- Two sources of the same name are the same. -/
theorem rootBacking_injective {r : Resolver} (hnamed : Named r.buffers) {first second : String}
    {a b : Backing} (ha : r.rootBacking first = .ok a) (hb : r.rootBacking second = .ok b)
    (hsame : a.identity = b.identity) : a = b := by
  rcases rootBacking_eq_ok ha with ⟨hmemory, known, hlookup, rfl⟩ | ⟨address, content, hread, rfl⟩
  · have hfirst := (hnamed first known hlookup).1
    rcases rootBacking_eq_ok hb with ⟨_, other, hother, rfl⟩ | ⟨address, content, _, rfl⟩
    · have hsecond := (hnamed second other hother).1
      rw [hfirst, hsecond] at hsame
      rw [hsame, hother, Option.some.injEq] at hlookup
      rw [hlookup]
    · -- A buffer and something outside never have one name.
      rw [← hfirst, hsame] at hmemory
      exact absurd hmemory (not_memory_outside _ _)
  · rcases rootBacking_eq_ok hb with
      ⟨hmemory, other, hother, rfl⟩ | ⟨address', content', hread', rfl⟩
    · rw [← (hnamed second other hother).1, ← hsame] at hmemory
      exact absurd hmemory (not_memory_outside _ _)
    · -- The name of a source tells its address, and that its bytes.
      have haddress := address_of_identity hsame
      subst haddress
      rw [hread, Except.ok.injEq] at hread'
      rw [hread']

variable {r : Resolver}

/-- Below a root that is written as its source is named only the levels matter. -/
theorem unshared_of_name (hnamed : Named r.buffers) {l : Locator} {source : Backing}
    (hsource : r.rootBacking l.root = .ok source) (hname : source.identity = l.root)
    (hnested : source.Unshared l.archives) : r.Unshared l := by
  refine ⟨fun container other hother hidentity => ?_, fun other hother => ?_⟩
  · rw [hsource, rootBacking_injective hnamed hother hsource (hidentity.trans hname.symm)]
  · rw [hsource, Except.ok.injEq] at hother
    rw [← hother]
    exact hnested

/-- What is kept under a source was walked to in that source. -/
theorem walk_of_kept (hr : r.Faithful) {s : Resolver}
    (hs : Knows r (Walked r.outside r.buffers) s) {root : String} {source : Backing}
    (hsource : r.rootBacking root = .ok source) {key : CacheKey} {h : Handle}
    (hget : s.cache.get? key = some h) (hidentity : key.identity = source.identity) :
    ∃ others, (Archive.walk source others).outcome = .ok h.archive ∧
      h.archive.window.offset = key.offset := by
  have hwalked := hs.kept key h hget
  rcases hwalked.walk with ⟨container, known, others, hopens, hwalk, _⟩
  have hsame := rootBacking_injective hr.order (rootBacking_of_opens hopens) hsource
    ((hwalked.identity hwalk).symm.trans hidentity)
  rw [hsame] at hwalk
  exact ⟨others, hwalk, by rw [hwalked.key]; rfl⟩

/-- At the very start of a source only its root is kept. -/
theorem root_of_kept (hr : r.Faithful) {s : Resolver}
    (hs : Knows r (Walked r.outside r.buffers) s) {root : String} {source : Backing}
    (hsource : r.rootBacking root = .ok source) {key : CacheKey} {h : Handle}
    (hget : s.cache.get? key = some h) (hidentity : key.identity = source.identity)
    (hzero : key.offset = 0) : (Archive.walk source []).outcome = .ok h.archive := by
  rcases walk_of_kept hr hs hsource hget hidentity with ⟨names, hwalk, hoffset⟩
  have hnil := (Archive.walk_inside hwalk).2.mp (hoffset.trans hzero)
  subst hnil
  exact hwalk

/-- From a level of a walk on, whatever is kept. -/
theorem answer_foldlM (hr : r.Faithful) {root : String} {source : Backing}
    (hsource : r.rootBacking root = .ok source) {names : List Bytes}
    (hunshared : source.Unshared names) {front rest : List Bytes} (hnames : names = front ++ rest)
    {h : Handle} {s : Resolver} (hs : Knows r (Walked r.outside r.buffers) s)
    (hh : ∃ key, Walked r.outside r.buffers key h)
    (hfront : (Archive.walk source front).outcome = .ok h.archive) :
    answer (rest.foldlM openNested h) s = (Archive.walk source names).outcome := by
  -- The names in front grow as the others are used up; what is kept meanwhile may change.
  induction rest generalizing front h s with
  | nil =>
      rw [hnames, List.append_nil, hfront]
      rfl
  | cons name rest ih =>
      have hpresent : s.present h = h.archive :=
        hh.elim fun key hkey => present_of_walked hr.order hkey hs.outside
      have hopening := opening_openNested hpresent name
      have hstep := preserves_openNested (walked_closed hr.order) hh name s hs
      rw [List.foldlM_cons]
      rcases hresult : openNested h name s with ⟨inner, t⟩ | ⟨e, t⟩
      · rw [hresult] at hopening hstep
        rw [(answer_of_ok hresult).1]
        refine @ih (front ++ [name]) (by rw [hnames, List.append_assoc]; rfl) inner t hstep.1
          hstep.2 ?_
        -- It remains that the handle is on the next level, from wherever it came.
        cases hopening with
        | kept hwanted hget _ =>
            -- What is kept where the level starts is that level.
            rcases hwanted with ⟨data, hdata, rfl⟩
            have hidentity : data.identity = source.identity := by
              have hdescends := identity_of_nestedSource (r := s) (by rw [hpresent]; exact hdata)
              rw [hdescends, Window.identity, (Archive.walk_inside hfront).1]
            rcases walk_of_kept hr hs hsource hget hidentity with ⟨others, hothers, hoffset⟩
            rw [← hunshared front name rest _ data others _ hnames hfront hdata hothers hoffset]
            exact hothers
        | opened hopened _ _ _ =>
            rw [Archive.walk_append_of_ok hfront, Archive.descend_singleton]
            exact hopened
      · rw [hresult] at hopening
        rw [(answer_of_error hresult).1]
        cases hopening with
        | failed hfailed _ =>
            rw [hnames, Archive.walk_append_of_ok hfront, Archive.descend_cons_of_error hfailed]

/-- An unshared locator leads where it leads without a cache, whatever is kept. -/
theorem answer_resolve (hr : r.Faithful) {l : Locator} (hl : r.Unshared l) :
    answer (resolve l) r = r.walk l := by
  rcases opening_openRoot l.root r with ⟨address, hopening⟩
  have hstep := preserves_openRoot (walked_closed hr.order) l.root r hr.knows
  unfold resolve
  rcases hresult : openRoot l.root r with ⟨root, s⟩ | ⟨e, s⟩
  · rw [hresult] at hopening hstep
    rw [(answer_of_ok hresult).1]
    have hroot : ∃ source, r.rootBacking l.root = .ok source ∧
        (Archive.walk source []).outcome = .ok root.archive := by
      cases hopening with
      | @kept key _ _ hwanted hget _ =>
          have hsource : ∃ source, r.rootBacking l.root = .ok source ∧
              key.identity = source.identity ∧ key.offset = 0 := by
            rcases hwanted with rfl | ⟨source, hsource, rfl⟩
            · -- A handle under the root as written is on the source of that name.
              rcases (hr.knows.kept _ root hget).walk with
                ⟨container, known, names, hopens, hwalk, _⟩
              have hidentity := (hr.knows.kept _ root hget).identity hwalk
              exact ⟨known.backing, hl.root container known.backing (rootBacking_of_opens hopens)
                hidentity.symm, hidentity, rfl⟩
            · exact ⟨source, hsource, rfl, rfl⟩
          rcases hsource with ⟨source, hsource, hidentity, hzero⟩
          exact ⟨source, hsource, root_of_kept hr hr.knows hsource hget hidentity hzero⟩
      | opened hopened _ _ _ =>
          rcases except_bind_eq_ok_iff.mp hopened with ⟨source, hsource, hopened⟩
          exact ⟨source, hsource, Archive.walk_of_ok hopened []⟩
    -- From the root on, each step down answers what the walk does.
    rcases hroot with ⟨source, hsource, hwalk⟩
    unfold walk
    rw [hsource, except_ok_bind]
    exact answer_foldlM hr hsource (hl.nested source hsource) (List.nil_append _).symm hstep.1
      hstep.2 hwalk
  · rw [hresult] at hopening
    rw [(answer_of_error hresult).1]
    cases hopening with
    | failed hfailed _ =>
        unfold walk
        rcases hsource : r.rootBacking l.root with e' | source
        · rw [hsource] at hfailed
          exact hfailed.symm
        · rw [hsource, except_ok_bind] at hfailed
          rw [except_ok_bind, Archive.walk_of_error hfailed]

/-- What a root names depends on the surroundings and on the bytes of the buffers. -/
theorem rootBacking_congr {s : Resolver} (houtside : r.outside = s.outside)
    (hbuffers : ∀ container, (r.buffers.lookup container).map Source.backing =
      (s.buffers.lookup container).map Source.backing) : r.rootBacking = s.rootBacking := by
  funext container
  have hlookup := hbuffers container
  unfold rootBacking
  rw [houtside]
  rcases hr : r.buffers.lookup container with _ | source
  · rw [hr, Option.map_none] at hlookup
    rw [Option.map_eq_none_iff.mp hlookup.symm]
  · rw [hr, Option.map_some] at hlookup
    rcases Option.map_eq_some_iff.mp hlookup.symm with ⟨other, hother, hbacking⟩
    rw [hother]
    simp only [hbacking]

/-- Two histories that end with the same bytes in their buffers cannot be told
    apart by an unshared locator. -/
theorem resolve_transparent (directory : String) (outside : Surroundings)
    (actions others : List Action) (l : Locator) :
    let r := play actions (new directory outside)
    let s := play others (new directory outside)
    (∀ container, (r.buffers.lookup container).map Source.backing =
      (s.buffers.lookup container).map Source.backing) → r.Unshared l →
    answer (resolve l) r = answer (resolve l) s := by
  intro r s hbuffers hl
  rcases faithful_play directory outside actions with ⟨houtside, hr⟩
  rcases faithful_play directory outside others with ⟨houtside', hs⟩
  have hroots : r.rootBacking = s.rootBacking :=
    rootBacking_congr (houtside.trans houtside'.symm) hbuffers
  have hl' : s.Unshared l := ⟨hroots ▸ hl.root, hroots ▸ hl.nested⟩
  -- Both answer the walk, and the walk knows nothing of the cache.
  rw [answer_resolve hr hl, answer_resolve hs hl', walk, walk, hroots]

theorem buffers_after_resolve (l : Locator) (r : Resolver) :
    (after (resolve l) r).buffers = r.buffers := by
  rcases register_or_same (.resolve l) r with ⟨_, _, _, hregister⟩ | hsame
  · exact absurd hregister (by simp only [reduceCtorEq, not_false_eq_true])
  · exact hsame.1

/-- A buffer with an archive `b` without entries. -/
def hollow : Backing :=
  .memory "app" ⟨(Node.archive [(Node.plainLabel [0x62], .archive [])]).bytes.toArray⟩

/-- In this file there are two archives, the root and the one inside. -/
theorem names_of_walk_hollow {names : List Bytes} {a : Archive}
    (h : (Archive.walk hollow names).outcome = .ok a) : names = [] ∨ names = [[0x62]] := by
  have hroot : (Archive.walk hollow []).outcome.map (fun a => a.entries.map Entry.name) =
      .ok [[0x62]] := by decide +kernel
  have hinner : (Archive.walk hollow [[0x62]]).outcome.map (fun a => a.entries.map Entry.name) =
      .ok [] := by decide +kernel
  rcases names with _ | ⟨name, names⟩
  · exact Or.inl rfl
  rcases @Archive.walk_on_the_way a name [] names hollow h with ⟨root, hwalk, hmem⟩
  rw [hwalk] at hroot
  rw [show root.entries.map Entry.name = [[0x62]] from Except.ok.inj hroot,
    List.mem_singleton] at hmem
  subst hmem
  rcases names with _ | ⟨deeper, names⟩
  · exact Or.inr rfl
  rcases @Archive.walk_on_the_way a deeper [[0x62]] names hollow h with ⟨inner, hwalk, hmem⟩
  rw [hwalk] at hinner
  rw [show inner.entries.map Entry.name = [] from Except.ok.inj hinner] at hmem
  exact absurd hmem List.not_mem_nil

/-- They start at different places, so no place is shared. -/
theorem unshared_hollow : hollow.Unshared [[0x62]] := by
  intro front name rest parent data others a hnames hfront hdata hothers hoffset
  have hfirst : front = [] ∧ name = [0x62] := by
    rcases front with _ | ⟨first, front⟩
    · rw [List.nil_append, List.cons.injEq] at hnames
      exact ⟨rfl, hnames.1.symm⟩
    · have hlength := congrArg List.length hnames
      simp only [List.length_cons, List.length_nil, List.length_append] at hlength
      omega
  rcases names_of_walk_hollow hothers with rfl | rfl
  · -- The root starts in front of all that is nested.
    have hzero := (Archive.walk_inside hothers).2.mpr rfl
    rcases Archive.nestedSource_eq_ok hdata with ⟨offset, length, hpositive, _, rfl⟩
    simp only [Window.part] at hoffset
    omega
  · rw [hfirst.1, hfirst.2, List.nil_append]

/-- Resolving before, with the root dropped again, is not seen. -/
theorem resolve_transparent_hollow :
    let l := Locator.ofArchivePath "mem:app" [[0x62]]
    let r := play [.register "app" hollow.content] (new "lib/" {})
    let s := play [.register "app" hollow.content, .resolve l,
      .evict { identity := "mem:app", offset := 0 }] (new "lib/" {})
    (∀ container, (r.buffers.lookup container).map Source.backing =
      (s.buffers.lookup container).map Source.backing) ∧ r.Unshared l ∧ s.cache.size = 1 ∧
    answer (resolve l) r = answer (resolve l) s := by
  intro l r s
  have hbuffers : s.buffers = r.buffers := buffers_after_resolve l r
  have hsize : s.cache.size = 1 := by decide +kernel
  have hlookup : ∀ container, r.buffers.lookup container =
      if container = "mem:app" then some { number := 0, backing := hollow } else none :=
    lookup_register (new "lib/" {}) "app" hollow.content
  have hroot : r.rootBacking l.root = .ok hollow := by
    unfold rootBacking
    rw [if_pos (show memoryScheme.toList.isPrefixOf l.root.toList by decide), hlookup,
      if_pos (show l.root = "mem:app" from rfl)]
  have hnamed : Named r.buffers := (faithful_play "lib/" _ [.register "app" hollow.content]).2.order
  have hl : r.Unshared l := unshared_of_name hnamed hroot rfl unshared_hollow
  have hsame : ∀ container, (r.buffers.lookup container).map Source.backing =
      (s.buffers.lookup container).map Source.backing := fun container => by rw [hbuffers]
  exact ⟨hsame, hl, hsize, resolve_transparent "lib/" _ _ _ l hsame hl⟩

/-- The record of a stored entry whose local header is at the start. -/
def twinRecord (name : UInt8) (size : UInt32) : Bytes :=
  RecordHeader.toBytes { (Node.plainLabel [name]).inDirectory with
    compressedSize := size, uncompressedSize := size, nameLength := 1 } ++ [name]

/-- The end record of an archive whose directory is right in front of it. -/
def twinEnd (count : UInt16) (size offset : UInt32) : Bytes :=
  EndRecord.toBytes {
    diskNumber := 0, directoryDisk := 0, diskEntries := count, totalEntries := count
    directorySize := size, directoryOffset := offset, commentLength := 0 }

/-- An archive with two entries `a` and `b` that have one local header and so start
    at one place. The data of `a` is an archive without entries. That of `b` goes on
    behind it and is an archive with an entry `x`. -/
def twins : ByteArray :=
  let inFront := LocalHeader.toBytes { (Node.plainLabel [0x61]).inFront with nameLength := 1 }
  let data := twinEnd 0 0 0 ++ (twinRecord 0x78 0 ++ twinEnd 1 47 22)
  let directory := twinRecord 0x61 22 ++ twinRecord 0x62 91
  ⟨(inFront ++ [0x61] ++ data ++ directory ++ twinEnd 2 94 122).toArray⟩

/-- What `b` leads to depends on whether `a` was resolved before. -/
theorem resolve_twins :
    let a := Locator.ofArchivePath "mem:t" [[0x61]]
    let b := Locator.ofArchivePath "mem:t" [[0x62]]
    let r := play [.register "t" twins] (new "lib/" {})
    let s := play [.register "t" twins, .resolve a] (new "lib/" {})
    s.buffers = r.buffers ∧
    (answer (resolve b) r).map (fun x => (x.url, x.size, x.entries.length)) =
      .ok ("mem:t!/b!/", 91, 1) ∧
    (answer (resolve b) s).map (fun x => (x.url, x.size, x.entries.length)) =
      .ok ("mem:t!/a!/", 22, 0) ∧
    answer (resolve b) r ≠ answer (resolve b) s := by
  intro a b r s
  have hbuffers : s.buffers = r.buffers := buffers_after_resolve a r
  have hfirst : (answer (resolve b) r).map (fun x => (x.url, x.size, x.entries.length)) =
      .ok ("mem:t!/b!/", 91, 1) := by decide +kernel
  have hsecond : (answer (resolve b) s).map (fun x => (x.url, x.size, x.entries.length)) =
      .ok ("mem:t!/a!/", 22, 0) := by decide +kernel
  refine ⟨hbuffers, hfirst, hsecond, fun hsame => ?_⟩
  rw [hsame, hsecond, Except.ok.injEq, Prod.mk.injEq] at hfirst
  exact absurd hfirst.1 (by decide)

end Resolver

end NestedZip
