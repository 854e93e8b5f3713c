import NestedZip.Proofs.Locator.Navigation
import NestedZip.Proofs.Packing.RoundTrip
import NestedZip.Proofs.Resolving.Again
import NestedZip.Proofs.Resolving.Opening

/-!
# Locators of Entries Lead Back

The locator of an entry names that entry, in the archive that it was taken from.

An archive writes the locators of its entries itself, from the name it was given
when it was opened. That name starts with the name of the source and not with
the root that was asked for. The two differ for a file, of which there are
several spellings. It is the name of the source that the root is kept under,
though, so the written locator leads to the handle that is there, without
another look outside, and from there along the trail that resolving has left.

For this the written form has to be read back, which is a question of the name
of the source alone. The name of a file is percent-encoded and holds no
exclamation mark. The names of a buffer and of a source on another machine may
hold some, but each of them is only found by a root that is written just like it
and was cut out of a text, and so it holds no separator.

## Main definitions

* `Locator.Rooted`: A root that is read back.

## Theorems

* `Locator.Rooted.decode_url`: Such a root and a separator are the locator of its archive.
* `Resolver.rooted_of_opens`: The names of sources are read back as roots.
* `Resolver.resolve_named`: The archive that is answered is named after its
  locator, with the name of the source for the root, and is kept there.
* `Connection.entry_urls_lead_back`: The locator of an entry leads back to the same
  handle and to the entry.
-/

namespace NestedZip

namespace Locator

/-- A root that is read back: it is not empty nor taken for something else. -/
structure Rooted (root : String) : Prop where
  nonempty : root.toList ≠ []
  unsplit : ¬ separatorChars <:+: root.toList
  unschemed : ¬ ['j', 'a', 'r', ':'] <+: root.toList

/-- With names that are not empty it makes a locator that is read back. -/
theorem Rooted.readable {root : String} (hroot : Rooted root) {names : List Bytes} {name : Bytes}
    (hnames : ∀ n ∈ names, n ≠ []) (hname : name ≠ []) :
    Readable { root, archives := names, entry := some name } where
  root := hroot.nonempty
  unsplit := hroot.unsplit
  unschemed := hroot.unschemed
  archives := hnames
  entry := fun n hn => by
    rw [← Option.some.inj hn]
    exact hname

/-- By itself it makes the locator of the archive that is the whole source. -/
theorem Rooted.decode_url {root : String} (hroot : Rooted root) :
    decode (root ++ separator) = .ok { root } := by
  have hreadable : Readable { root } := ⟨hroot.nonempty, hroot.unsplit, hroot.unschemed,
    fun _ hname => absurd hname List.not_mem_nil, fun _ hname => nomatch hname⟩
  have hread := decode_toString hreadable
  rw [toString, List.foldl_nil, Option.map_none, Option.getD_none, String.append_empty] at hread
  exact hread

end Locator

namespace Archive

/-- An archive that is named after the names that lead to it writes the locator of
    an entry as the locator is written. -/
theorem entryUrl_eq_toString {a : Archive} {root : String} {names : List Bytes}
    (h : a.container =
      names.foldl (fun text name => text ++ Locator.separator ++ Percent.encode name) root)
    (name : Bytes) :
    a.entryUrl name =
      ({ root, archives := names, entry := some name } : Locator).toString := by
  unfold entryUrl url
  rw [h]
  rfl

end Archive

namespace Resolver

variable {outside : Surroundings} {buffers : List (String × Source)}
  {l : Locator} {r s : Resolver} {h : Handle}

/-- The name of a file holds no exclamation mark, so it is read back as a root. -/
theorem rooted_fileBacking (path : String) (content : ByteArray) :
    Locator.Rooted (fileBacking path content).identity := by
  have hchars : (fileBacking path content).identity.toList =
      'f' :: 'i' :: 'l' :: 'e' :: ':' :: (Percent.encode (Text.encode path)).toList :=
    String.toList_append
  refine ⟨?_, Locator.unsplit_of_not_mem ?_, ?_⟩
  · simp only [hchars, ne_eq, reduceCtorEq, not_false_eq_true]
  · have hplain := Percent.not_mem_encode (Text.encode path)
    simp only [hchars, List.mem_cons, Char.reduceEq, false_or]
    exact hplain
  · simp only [hchars]
    rintro ⟨tail, htail⟩
    exact absurd (List.cons.inj htail).1 (by decide)

/-- So is the name of a source on another machine that was cut out of a text. -/
theorem rooted_of_remote {url : String} (hremote : Locator.isRemote url = true)
    (hunsplit : ¬ Locator.separatorChars <:+: url.toList) : Locator.Rooted url := by
  obtain ⟨rest, hchars⟩ : ∃ rest, url.toList = 'h' :: 't' :: 't' :: 'p' :: rest := by
    rcases isRemote_iff.mp hremote with ⟨rest, hrest⟩ | ⟨rest, hrest⟩
    · exact ⟨_, hrest.symm⟩
    · exact ⟨_, hrest.symm⟩
  refine ⟨?_, hunsplit, ?_⟩
  · simp only [hchars, ne_eq, reduceCtorEq, not_false_eq_true]
  · simp only [hchars]
    rintro ⟨tail, htail⟩
    exact absurd (List.cons.inj htail).1 (by decide)

/-- It is written as its root is. -/
theorem remote_of_addressOf {container url : String} {h : Locator.isRemote url = true}
    (haddress : addressOf container = .ok (.remote url h)) : url = container := by
  unfold addressOf at haddress
  by_cases hremote : Locator.isRemote container
  · rw [dif_pos hremote] at haddress
    exact (Address.remote.inj (Except.ok.inj haddress)).symm
  · -- A root that is not remote names a file if anything.
    rw [dif_neg hremote] at haddress
    rcases hpath : filePath container with e | path
    · rw [hpath] at haddress
      exact absurd haddress error_ne_ok
    · rw [hpath] at haddress
      exact nomatch Except.ok.inj haddress

/-- The names of sources are read back as roots. -/
theorem rooted_of_opens (hnamed : Named buffers) {container : String} {source : Source}
    (hopens : Opens outside buffers container source)
    (hunsplit : ¬ Locator.separatorChars <:+: container.toList) :
    Locator.Rooted source.backing.identity := by
  cases hopens with
  | buffer hmemory hlookup =>
      -- A buffer is named as its root is written, and the root was cut out of a text.
      rw [(hnamed container source hlookup).1]
      rcases List.isPrefixOf_iff_prefix.mp hmemory with ⟨rest, hrest⟩
      refine ⟨?_, hunsplit, ?_⟩
      · rw [← hrest]
        exact List.cons_ne_nil _ _
      · rw [← hrest]
        rintro ⟨tail, htail⟩
        exact absurd (List.cons.inj htail).1 (by decide)
  | @found number address content _ haddress _ =>
      cases address with
      | file path => exact rooted_fileBacking path content
      | remote url h =>
          have hsame := remote_of_addressOf haddress
          subst hsame
          exact rooted_of_remote h hunsplit

/-- If nothing was kept before, an archive that is answered is named after its
    locator, with the name of its source for the root. The root is kept under that
    name, and from it a trail leads to the archive. -/
theorem resolve_named (hnamed : Named r.buffers) (hempty : ∀ key, r.cache.get? key = none)
    (hresolve : resolve l r = .ok h s) :
    ∃ (source : Source) (root : Handle),
      Opens r.outside r.buffers l.root source ∧
      s.cache.get? { identity := source.backing.identity, offset := 0 } = some root ∧
      Trail s root l.archives h ∧
      h.archive.container =
        l.archives.foldl (fun text name => text ++ Locator.separator ++ Percent.encode name)
          source.backing.identity := by
  unfold resolve at hresolve
  rcases Resolving.bind_eq_ok_iff.mp hresolve with ⟨root, t, hroot, hnames⟩
  rcases alone_of_openRoot hnamed hempty hroot with ⟨halone, source, hopens, hcontainer, hkept⟩
  -- Behind the root each name adds its handle and its text.
  have hlaid := laid_alone halone hnames
  refine ⟨source, root, hopens, hlaid.extended.kept _ _ hkept, hlaid.trail, ?_⟩
  rw [hlaid.container, hcontainer]

/-- A root that is kept under the name of its source is answered under it, and
    then a trail is followed. -/
theorem resolve_again {identity : String} {root : Handle} {names : List Bytes}
    (hkept : s.cache.get? { identity, offset := 0 } = some root) (htrail : Trail s root names h)
    (entry : Option Bytes) :
    resolve { root := identity, archives := names, entry } s =
      .ok h (s.fetching h.source (names.length * LocalHeader.length)) := by
  have hroot : openRoot identity s = .ok root s := by
    rw [openRoot_apply, hkept]
  unfold resolve
  rw [Resolving.bind_of_ok hroot, htrail.again, htrail.source]

end Resolver

namespace Connection

open Resolver

/-- A name that an entry has leads to that entry and not to a directory. -/
theorem findEntry_of_some {a : Archive} {name : Bytes} {e : Entry}
    (h : Archive.entry? a name = some e) : findEntry a name = .ok e := by
  unfold findEntry
  rw [h]
  rfl

/-- Whatever a text names as an archive, if it is resolved while nothing is kept, the
    archive writes for each of its entries a locator that can be read, and is
    written as it was read. A new connection for it finds the same handle and the
    entry, and what this changes is that one local header for each nested archive
    was fetched. -/
theorem entry_urls_lead_back (directory : String) (outside : Surroundings)
    (actions : List Action) (text : String) (l : Locator) (h : Handle) (s : Resolver)
    (name : Bytes) (e : Entry)
    (hempty : (play actions (new directory outside)).cache.isEmpty)
    (htext : Locator.decode text = .ok l)
    (hresolve : resolve l (play actions (new directory outside)) = .ok h s)
    (hname : name ≠ []) (hentry : Archive.entry? h.archive name = some e) :
    ∃ link : Locator,
      Locator.decode (h.archive.entryUrl name) = .ok link ∧
      link.toString = h.archive.entryUrl name ∧
      target ({ locator := link }, s) =
        .ok { handle := h, entry := some e }
          (found link { handle := h, entry := some e },
            { s with fetched :=
                s.fetched.modify h.source (· + l.depth * LocalHeader.length) }) := by
  have hnamed := (faithful_play directory outside actions).2.order
  have hnone : ∀ key, (play actions (new directory outside)).cache.get? key = none := by
    intro key
    rw [Cache.get?, List.isEmpty_iff.mp hempty]
    rfl
  rcases resolve_named hnamed hnone hresolve with ⟨source, root, hopens, hkept, htrail, hcontainer⟩
  -- The written form starts with the name of the source, so that is what has to be read back.
  rcases Locator.sound_of_decode htext with ⟨_, hunsplit, harchives, _⟩
  have hrooted := rooted_of_opens hnamed hopens hunsplit
  have hurl := Archive.entryUrl_eq_toString hcontainer name
  have hreadable := hrooted.readable harchives hname
  refine ⟨_, by rw [hurl]; exact Locator.decode_toString hreadable, hurl.symm, target_of_ok ?_⟩
  rw [locate_of_some rfl (resolve_again hkept htrail (some name)), findEntry_of_some hentry]
  rfl

/-- A file whose name holds an exclamation mark, asked for in a spelling that is not
    the name of the source, and an archive inside it. -/
theorem entry_urls_lead_back_spelled :
    let content : ByteArray := ⟨(Node.archive Node.boxed).bytes.toArray⟩
    let outside : Surroundings := {
      fileAt := fun path => if path = "/a!.jar" then .ok content else .error .noSuchFile }
    let r := play [] (new "lib/" outside)
    let l : Locator := { root := "file:///a!.jar", archives := [[0x62]] }
    r.cache.isEmpty ∧ Locator.decode "jar:file:///a!.jar!/b!/" = .ok l ∧
      ∃ h s e link, resolve l r = .ok h s ∧ Archive.entry? h.archive [0x61] = some e ∧
        Locator.decode "file:/a%21.jar!/b!/a" = .ok link ∧
        target ({ locator := link }, s) =
          .ok { handle := h, entry := some e }
            (found link { handle := h, entry := some e },
              { s with fetched := s.fetched.modify h.source (· + LocalHeader.length) }) := by
  intro content outside r l
  have hempty : r.cache.isEmpty := rfl
  have htext : Locator.decode "jar:file:///a!.jar!/b!/" = .ok l := by decide +kernel
  have hanswer : (Resolving.answer (resolve l) r).map
      (fun a => (a.entryUrl [0x61], (Archive.entry? a [0x61]).isSome)) =
        .ok ("file:/a%21.jar!/b!/a", true) := by decide +kernel
  rcases Resolving.of_answer hanswer with ⟨h, s, hresolve, hfound⟩
  rcases Prod.mk.inj hfound with ⟨hurl, hsome⟩
  rcases Option.isSome_iff_exists.mp hsome with ⟨e, hentry⟩
  rcases entry_urls_lead_back "lib/" outside [] "jar:file:///a!.jar!/b!/" l h s [0x61] e hempty
    htext hresolve (by decide) hentry with ⟨link, hdecode, _, htarget⟩
  rw [hurl] at hdecode
  exact ⟨hempty, htext, h, s, e, link, hresolve, hentry, hdecode, htarget⟩

end Connection

end NestedZip
