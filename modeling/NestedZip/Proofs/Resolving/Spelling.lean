import NestedZip.Files.Tree
import NestedZip.Proofs.Resolving.Transparency
import NestedZip.Proofs.Text

/-!
# Spellings of One File

A file can be written as a root in three ways, and all of them are meant to lead
to one handle.

A root is looked up as it is written before its source is opened. That is meant
for roots that are written as their source is named: what is found for them is
what would have been opened. For the other spellings it is in order only if
nothing is kept under them. A spelling that starts with a slash is the name of
no source. One with the scheme in front is the name of a source only if the path
in it is written as paths are written in names, and then the name is that of the
file itself. All of this follows from the walks that led to what is kept, so it
holds after every history.

The spelling with two more slashes is another matter. It may be the name of a
file whose path starts with three slashes, and such a path is read as it is where
it stands without the scheme. An archive that was opened that way is kept there,
and it answers for a spelling of another file. So `spellings_agree` holds just
while none is kept there, and `spellings_differ` is a history after which two
spellings lead to two handles.

## Main definitions

* `Resolver.spellings`: How the file at a path is written as a root.

## Theorems

* `Resolver.encodedPath_of_scheme`: A path is read back behind the scheme, unless it starts
  with three slashes.
* `Resolver.rootBacking_of_mem_spellings`: All spellings name the file at the path.
* `Resolver.openRoot_of_source`: What a root comes to if its source can be opened.
* `Resolver.openRoot_mapM`: Roots of one source are answered alike, one after the
  other, and at most one handle is new.
* `Resolver.spelling_of_kept`: Under which spelling something may be kept.
* `Resolver.spellings_agree`, `Resolver.spellings_differ`: When the spellings agree.
-/

namespace NestedZip

namespace Resolver

open Resolving

/-- How the file at a path is written as a root: as the percent-encoded path after
    the scheme, with two slashes in between, or alone. -/
def spellings (encoded : String) : List String :=
  [fileScheme ++ encoded, fileScheme ++ ("//" ++ encoded), encoded]

variable {encoded : String} {rest : List Char}

theorem isPrefixOf_scheme (text : String) :
    fileScheme.toList.isPrefixOf (fileScheme ++ text).toList = true := by
  rw [String.toList_append, List.isPrefixOf_iff_prefix]
  exact List.prefix_append _ _

/-- Behind the scheme a path stands as it is, unless it starts with three slashes. Of
    these two would be taken for the start of what is no path yet. -/
theorem encodedPath_of_scheme (h : ¬ ['/', '/', '/'] <+: encoded.toList) :
    encodedPath? (fileScheme ++ encoded) = some encoded := by
  have hdrop : (fileScheme ++ encoded).toList.drop fileScheme.length = encoded.toList := by
    rw [String.toList_append]
    exact List.drop_left
  unfold encodedPath?
  rw [if_pos (isPrefixOf_scheme encoded), hdrop]
  split
  · rename_i chars heq
    exact absurd ⟨chars, heq.symm⟩ h
  · rw [String.ofList_toList]

/-- All spellings of a path that starts with one slash are read as that path. -/
theorem encodedPath_of_mem_spellings (hslash : encoded.toList = '/' :: rest)
    (hsingle : rest.head? ≠ some '/') {container : String} (h : container ∈ spellings encoded) :
    encodedPath? container = some encoded := by
  simp only [spellings, List.mem_cons, List.not_mem_nil, or_false] at h
  rcases h with rfl | rfl | rfl
  · refine encodedPath_of_scheme ?_
    -- Two slashes after the scheme would need a second one at the start of the path.
    rintro ⟨tail, htail⟩
    rw [hslash, List.cons_append, List.cons_append] at htail
    exact hsingle (by rw [← (List.cons.inj htail).2]; rfl)
  · have hdrop : (fileScheme ++ ("//" ++ encoded)).toList.drop fileScheme.length =
        '/' :: '/' :: '/' :: rest := by
      rw [String.toList_append, String.toList_append, hslash]
      rfl
    unfold encodedPath?
    rw [if_pos (isPrefixOf_scheme _), hdrop]
    simp only
    rw [← hslash, String.ofList_toList]
  · unfold encodedPath?
    simp only [hslash]
    rfl

/-- A root that is read as the path of a file is that file. -/
theorem rootBacking_of_filePath {r : Resolver} {container path : String} {content : ByteArray}
    (hmemory : ¬ memoryScheme.toList.isPrefixOf container.toList)
    (hremote : Locator.isRemote container = false) (hpath : filePath container = .ok path)
    (hfile : r.outside.fileAt path = .ok content) :
    r.rootBacking container = .ok (fileBacking path content) := by
  have haddress : addressOf container = .ok (.file path) := by
    unfold addressOf
    rw [dif_neg (by rw [hremote]; exact Bool.false_ne_true), hpath]
    rfl
  unfold rootBacking
  rw [if_neg hmemory, haddress, except_ok_bind, Surroundings.read, hfile]
  rfl

/-- No spelling of a file is taken for a buffer or for a source on another machine. -/
theorem outside_of_mem_spellings (hslash : encoded.toList = '/' :: rest) {container : String}
    (h : container ∈ spellings encoded) :
    ¬ memoryScheme.toList.isPrefixOf container.toList ∧ Locator.isRemote container = false := by
  simp only [spellings, List.mem_cons, List.not_mem_nil, or_false] at h
  rcases h with rfl | rfl | rfl
  · rw [String.toList_append]
    exact ⟨Bool.false_ne_true, not_isRemote_scheme _⟩
  · rw [String.toList_append]
    exact ⟨Bool.false_ne_true, not_isRemote_scheme _⟩
  · rw [hslash]
    exact ⟨Bool.false_ne_true, not_isRemote_of_cons hslash (by decide)⟩

/-- All of them name the file at the path. -/
theorem rootBacking_of_mem_spellings {r : Resolver} {bytes : Bytes} {path : String}
    {content : ByteArray} (hslash : encoded.toList = '/' :: rest)
    (hsingle : rest.head? ≠ some '/') (hbytes : Percent.decode encoded = .ok bytes)
    (hpath : Text.decode? bytes = some path) (hfile : r.outside.fileAt path = .ok content)
    {container : String} (h : container ∈ spellings encoded) :
    r.rootBacking container = .ok (fileBacking path content) := by
  have hfilePath : filePath container = .ok path := by
    unfold filePath
    rw [encodedPath_of_mem_spellings hslash hsingle h]
    simp only
    rw [hbytes, except_ok_bind, hpath]
    rfl
  rcases outside_of_mem_spellings hslash h with ⟨hmemory, hremote⟩
  exact rootBacking_of_filePath hmemory hremote hfilePath hfile

section

variable {r s : Resolver} {source : Backing} {a : Archive} {container : String}
  {containers : List String}

theorem openRoot_of_kept {h : Handle}
    (hget : s.cache.get? { identity := container, offset := 0 } = some h) :
    openRoot container s = .ok h s := by
  rw [openRoot_apply, hget]

/-- The root of a source that can be opened is answered, and is then kept under the
    name of the source. Nothing else is new. -/
theorem openRoot_of_source (hr : r.Faithful) (hs : Knows r (Walked r.outside r.buffers) s)
    (hsource : r.rootBacking container = .ok source)
    (ha : (Archive.ofBacking source).outcome = .ok a)
    (hverbatim : ∀ h, s.cache.get? { identity := container, offset := 0 } = some h →
      container = source.identity) :
    let key : CacheKey := { identity := source.identity, offset := 0 }
    ∃ h t, openRoot container s = .ok h t ∧ Knows r (Walked r.outside r.buffers) t ∧
      h.archive = a ∧ t.cache.get? key = some h ∧
      (t.cache = s.cache ∨ s.cache.get? key = none ∧ t.cache = s.cache.insert key h) := by
  intro key
  have hroot : s.rootBacking container = .ok source := by
    rw [rootBacking_congr hs.outside fun container => by rw [hs.buffers], hsource]
  rcases opening_openRoot container s with ⟨address, hopening⟩
  have hstep := preserves_openRoot (walked_closed hr.order) container s hs
  rw [hroot, except_ok_bind, ha] at hopening
  rcases hresult : openRoot container s with ⟨h, t⟩ | ⟨e, t⟩
  · rw [hresult] at hopening hstep
    refine ⟨h, t, rfl, hstep.1, ?_⟩
    cases hopening with
    | @kept wanted _ _ hwanted hget hcache =>
        have hkey : wanted = key := by
          rcases hwanted with rfl | ⟨other, hother, rfl⟩
          · exact congrArg (CacheKey.mk · 0) (hverbatim h hget)
          · rw [← Except.ok.inj hother]
        subst hkey
        have hwalk := root_of_kept hr hs hsource hget rfl rfl
        rw [Archive.walk_of_ok ha] at hwalk
        exact ⟨(Except.ok.inj hwalk).symm, by rw [hcache]; exact hget, Or.inl hcache⟩
    | opened hopened _ hnone hcache =>
        -- The archive is kept where it starts, which is the start of the source.
        have hsame := (Except.ok.inj hopened).symm
        have hkey : h.archive.key = key := by
          rw [hsame, Archive.key, Archive.ofBacking_eq_ok ha]
          rfl
        rw [hkey] at hnone hcache
        refine ⟨hsame, ?_, Or.inr ⟨hnone, hcache⟩⟩
        rw [hcache, Cache.get?_insert, if_pos rfl]
  · rw [hresult] at hopening
    cases hopening with
    | failed hfailed _ => exact absurd hfailed.symm error_ne_ok

/-- Once the root of a source is kept, each of its spellings is answered from there. -/
theorem openRoot_mapM_of_kept (hr : r.Faithful) (hs : Knows r (Walked r.outside r.buffers) s)
    (ha : (Archive.ofBacking source).outcome = .ok a)
    (hsource : ∀ container ∈ containers, r.rootBacking container = .ok source)
    (hverbatim : ∀ container ∈ containers, ∀ h,
      s.cache.get? { identity := container, offset := 0 } = some h → container = source.identity)
    {h : Handle} (hget : s.cache.get? { identity := source.identity, offset := 0 } = some h) :
    ∃ t, containers.mapM openRoot s = .ok (List.replicate containers.length h) t ∧
      t.cache = s.cache := by
  induction containers generalizing s with
  | nil => exact ⟨s, rfl, rfl⟩
  | cons container containers ih =>
      rcases openRoot_of_source hr hs (hsource _ List.mem_cons_self) ha
        (hverbatim _ List.mem_cons_self) with ⟨k, t, hopen, ht, _, hkept, hcase⟩
      -- It is kept under the name of its source, so nothing more is kept.
      have hcache : t.cache = s.cache := by
        rcases hcase with hcache | ⟨hnone, _⟩
        · exact hcache
        · exact absurd (hnone.symm.trans hget) (by simp only [reduceCtorEq, not_false_eq_true])
      rw [hcache, hget, Option.some.injEq] at hkept
      subst hkept
      rcases ih ht (fun container hmem => hsource container (List.mem_cons_of_mem _ hmem))
        (fun container hmem => by
          rw [hcache]
          exact hverbatim container (List.mem_cons_of_mem _ hmem))
        (by rw [hcache]; exact hget) with ⟨u, hrest, hsame⟩
      refine ⟨u, ?_, hsame.trans hcache⟩
      rw [List.mapM_cons, Resolving.bind_of_ok hopen, Resolving.bind_of_ok hrest]
      rfl

/-- So they are answered alike in any order, and at most one handle is new. -/
theorem openRoot_mapM (hr : r.Faithful) (ha : (Archive.ofBacking source).outcome = .ok a)
    (hsource : ∀ container ∈ containers, r.rootBacking container = .ok source)
    (hverbatim : ∀ container ∈ containers, ∀ h,
      r.cache.get? { identity := container, offset := 0 } = some h → container = source.identity)
    (hne : containers ≠ []) :
    let key : CacheKey := { identity := source.identity, offset := 0 }
    ∃ h t, containers.mapM openRoot r = .ok (List.replicate containers.length h) t ∧
      h.archive = a ∧
      (t.cache = r.cache ∨ r.cache.get? key = none ∧ t.cache = r.cache.insert key h) := by
  intro key
  rcases containers with _ | ⟨container, containers⟩
  · exact absurd rfl hne
  rcases openRoot_of_source hr hr.knows (hsource _ List.mem_cons_self) ha
    (hverbatim _ List.mem_cons_self) with ⟨h, s, hopen, hs, harchive, hkept, hcase⟩
  rcases openRoot_mapM_of_kept hr hs ha
    (fun container hmem => hsource container (List.mem_cons_of_mem _ hmem))
    (fun other hmem k hget => by
      -- What is new is kept under the name of the source.
      rcases hcase with hcache | ⟨_, hcache⟩
      · rw [hcache] at hget
        exact hverbatim other (List.mem_cons_of_mem _ hmem) k hget
      · rw [hcache, Cache.get?_insert] at hget
        by_cases hkey : ({ identity := other, offset := 0 } : CacheKey) = key
        · exact congrArg CacheKey.identity hkey
        · rw [if_neg hkey] at hget
          exact hverbatim other (List.mem_cons_of_mem _ hmem) k hget)
    hkept with ⟨t, hrest, hcache⟩
  refine ⟨h, t, ?_, harchive, by rw [hcache]; exact hcase⟩
  rw [List.mapM_cons, Resolving.bind_of_ok hopen, Resolving.bind_of_ok hrest]
  rfl

end

/-- What is kept is kept under the name of a buffer, under that of a file, which has
    a path as paths are written, or under the URL of a source on another machine. -/
theorem identity_of_kept {r : Resolver} (hr : r.Faithful) {key : CacheKey} {h : Handle}
    (hget : r.cache.get? key = some h) :
    memoryScheme.toList.isPrefixOf key.identity.toList ∨
      (∃ bytes, key.identity = fileScheme ++ Percent.encode bytes) ∨
      Locator.isRemote key.identity = true := by
  have hwalked := hr.knows.kept key h hget
  rcases hwalked.walk with ⟨container, source, names, hopens, hwalk, _⟩
  -- A nested archive has the identity of the root it lies in.
  rw [hwalked.identity hwalk]
  rcases rootBacking_eq_ok (rootBacking_of_opens hopens) with
    ⟨hmemory, known, hlookup, hsame⟩ | ⟨address, content, _, hsame⟩
  · rw [← hsame, (hr.order _ _ hlookup).1]
    exact Or.inl hmemory
  · rw [hsame]
    cases address with
    | file path => exact Or.inr (Or.inl ⟨Text.encode path, rfl⟩)
    | remote url hremote => exact Or.inr (Or.inr hremote)

/-- A file is kept under a name that is written as names of files are. -/
theorem written_of_kept {r : Resolver} (hr : r.Faithful) {container : String}
    (hslash : encoded.toList = '/' :: rest) (hmem : container ∈ spellings encoded) {h : Handle}
    (hget : r.cache.get? { identity := container, offset := 0 } = some h) :
    ∃ written, container = fileScheme ++ Percent.encode written := by
  rcases outside_of_mem_spellings hslash hmem with ⟨hmemory, hremote⟩
  rcases identity_of_kept hr hget with hbuffer | hwritten | hurl
  · exact absurd hbuffer hmemory
  · exact hwritten
  · rw [hremote] at hurl
    exact absurd hurl Bool.false_ne_true

/-- If something is kept under a spelling, that is the name of the file, or it is
    the one with two more slashes. -/
theorem spelling_of_kept {r : Resolver} (hr : r.Faithful) {bytes : Bytes}
    (hslash : encoded.toList = '/' :: rest) (hbytes : Percent.decode encoded = .ok bytes)
    {container : String} (hmem : container ∈ spellings encoded) {h : Handle}
    (hget : r.cache.get? { identity := container, offset := 0 } = some h) :
    container = fileScheme ++ Percent.encode bytes ∨
      container = fileScheme ++ ("//" ++ encoded) := by
  obtain ⟨written, hname⟩ := written_of_kept hr hslash hmem hget
  simp only [spellings, List.mem_cons, List.not_mem_nil, or_false] at hmem
  rcases hmem with rfl | rfl | rfl
  · -- A written path is read back, so it is the only one that is read as this path.
    have hsame : encoded = Percent.encode written := (String.append_right_inj _).mp hname
    rw [hsame, Percent.decode_encode, Except.ok.injEq] at hbytes
    rw [hsame, hbytes]
    exact Or.inl rfl
  · exact Or.inr rfl
  · -- A path alone is the name of nothing.
    have hchars := congrArg String.toList hname
    rw [hslash, String.toList_append] at hchars
    exact absurd (List.cons.inj hchars).1 (by decide)

/-- The spelling with two more slashes is not the name of the file. -/
theorem slashes_ne_name {bytes : Bytes} (hbytes : Percent.decode encoded = .ok bytes) :
    fileScheme ++ ("//" ++ encoded) ≠ fileScheme ++ Percent.encode bytes := by
  intro hsame
  have hread := Percent.decode_slashes hbytes
  rw [(String.append_right_inj _).mp hsame, Percent.decode_encode, Except.ok.injEq] at hread
  have hlength := congrArg List.length hread
  simp only [List.length_cons] at hlength
  omega

/-- If a root is answered with the whole of a source of another name, then not because
    it was kept. -/
theorem not_kept_of_answered {r s : Resolver} (hr : r.Faithful) {container : String} {h : Handle}
    (hopen : openRoot container r = .ok h s) {source : Backing}
    (hopens : (Archive.ofBacking source).outcome = .ok h.archive)
    (hne : container ≠ source.identity) :
    r.cache.get? { identity := container, offset := 0 } = none := by
  rw [Option.eq_none_iff_forall_ne_some]
  intro k hget
  rcases (openRoot_of_kept hget).symm.trans hopen with ⟨⟩
  have hkey := (hr.knows.kept _ h hget).key
  rw [Archive.key, Archive.ofBacking_eq_ok hopens] at hkey
  exact hne (congrArg CacheKey.identity hkey)

/-- The spellings of a file that can be opened lead to one handle, in any order, just
    if nothing is kept under the one with two more slashes. Then the handle has the
    name of the file, and nothing else is new. -/
theorem spellings_agree (directory : String) (outside : Surroundings)
    (actions : List Action) {encoded : String} {rest : List Char} {bytes : Bytes} {path : String}
    {content : ByteArray} (hslash : encoded.toList = '/' :: rest)
    (hsingle : rest.head? ≠ some '/') (hbytes : Percent.decode encoded = .ok bytes)
    (hpath : Text.decode? bytes = some path) (hfile : outside.fileAt path = .ok content)
    (hopens : (Archive.ofBacking (fileBacking path content)).outcome.isOk) :
    let r := play actions (new directory outside)
    let key : CacheKey := { identity := fileScheme ++ Percent.encode bytes, offset := 0 }
    r.cache.get? { identity := fileScheme ++ ("//" ++ encoded), offset := 0 } = none ↔
      ∀ containers, containers ≠ [] → (∀ container ∈ containers, container ∈ spellings encoded) →
        ∃ h s, containers.mapM openRoot r = .ok (List.replicate containers.length h) s ∧
          (Archive.ofBacking (fileBacking path content)).outcome = .ok h.archive ∧
          h.archive.container = fileScheme ++ Percent.encode bytes ∧
          (s.cache = r.cache ∨ r.cache.get? key = none ∧ s.cache = r.cache.insert key h) := by
  intro r key
  rcases faithful_play directory outside actions with ⟨houtside, hr⟩
  have hidentity : (fileBacking path content).identity = fileScheme ++ Percent.encode bytes := by
    rw [fileBacking, Text.encode_of_decode? hpath]
  constructor
  · -- No spelling is the key of anything but the file, so each is opened under the name of the
    -- file.
    intro hnone containers hne hmem
    rcases ha : (Archive.ofBacking (fileBacking path content)).outcome with e | a
    · rw [ha] at hopens
      exact absurd hopens Bool.false_ne_true
    rcases openRoot_mapM hr ha
      (fun container h => rootBacking_of_mem_spellings hslash hsingle hbytes hpath
        (by rw [houtside]; exact hfile) (hmem container h))
      (fun container h k hget => by
        rw [hidentity]
        rcases spelling_of_kept hr hslash hbytes (hmem container h) hget with hname | hslashes
        · exact hname
        · rw [hslashes, hnone] at hget
          exact absurd hget (by simp only [reduceCtorEq, not_false_eq_true]))
      hne with ⟨h, s, hopened, harchive, hcase⟩
    rw [hidentity] at hcase
    refine ⟨h, s, hopened, by rw [harchive], ?_, hcase⟩
    rw [harchive, ← hidentity]
    exact (Archive.ofWindow_eq_ok ha).2.2.2.2
  · -- The spelling with slashes is asked alone: were it kept, the handle under it would be
    -- answered.
    intro hagree
    rcases hagree [fileScheme ++ ("//" ++ encoded)] (List.cons_ne_nil _ _) (by
      simp only [spellings, List.mem_cons, List.not_mem_nil, or_false]
      rintro container rfl
      exact Or.inr (Or.inl rfl)) with ⟨h, s, hopened, hopens, _, _⟩
    rw [List.mapM_cons] at hopened
    rcases Resolving.bind_eq_ok_iff.mp hopened with ⟨k, t, hopen, hrest⟩
    rcases hrest with ⟨⟩
    refine not_kept_of_answered hr hopen hopens ?_
    rw [hidentity]
    exact slashes_ne_name hbytes

/-- An archive without entries, opened by its path before. -/
theorem spellings_agree_escaped :
    let content : ByteArray := ⟨(twinEnd 0 0 0).toArray⟩
    let outside : Surroundings := { fileAt := (FileTree.write {} "/a.jar" content).read }
    let r := play [.openRoot "/a.jar"] (new "lib/" outside)
    "/%61.jar".toList = '/' :: "%61.jar".toList ∧ "%61.jar".toList.head? ≠ some '/' ∧
    Percent.decode "/%61.jar" = .ok (Text.encode "/a.jar") ∧
    Text.decode? (Text.encode "/a.jar") = some "/a.jar" ∧ outside.fileAt "/a.jar" = .ok content ∧
    (Archive.ofBacking (fileBacking "/a.jar" content)).outcome.isOk ∧
    ∃ h s, ["/%61.jar", "file:///%61.jar", "file:/%61.jar"].mapM openRoot r =
        .ok (List.replicate 3 h) s ∧
      h.archive.container = "file:/a.jar" ∧ s.cache.size = 1 := by
  intro content outside r
  have hslash : "/%61.jar".toList = '/' :: "%61.jar".toList := by decide +kernel
  have hsingle : "%61.jar".toList.head? ≠ some '/' := by decide +kernel
  have hbytes : Percent.decode "/%61.jar" = .ok (Text.encode "/a.jar") := by decide +kernel
  have hpath : Text.decode? (Text.encode "/a.jar") = some "/a.jar" := by decide +kernel
  have hfile : outside.fileAt "/a.jar" = .ok content := by decide +kernel
  have hopens : (Archive.ofBacking (fileBacking "/a.jar" content)).outcome.isOk := by
    decide +kernel
  have hname : fileScheme ++ Percent.encode (Text.encode "/a.jar") = "file:/a.jar" := by
    decide +kernel
  have hnone : (r.cache.get? { identity := "file:///%61.jar", offset := 0 }).isNone := by
    decide +kernel
  have hkept : (r.cache.get? { identity := "file:/a.jar", offset := 0 }).isSome := by
    decide +kernel
  have hsize : r.cache.size = 1 := by decide +kernel
  rcases (spellings_agree "lib/" outside [.openRoot "/a.jar"] hslash hsingle hbytes hpath hfile
    hopens).mp (Option.isNone_iff_eq_none.mp hnone)
    ["/%61.jar", "file:///%61.jar", "file:/%61.jar"] (List.cons_ne_nil _ _) (by decide +kernel)
    with ⟨h, s, hopened, _, hcontainer, hcase⟩
  rw [hname] at hcontainer hcase
  refine ⟨hslash, hsingle, hbytes, hpath, hfile, hopens, h, s, hopened, hcontainer, ?_⟩
  rcases hcase with hcache | ⟨hnew, _⟩
  · rw [hcache]
    exact hsize
  · rw [Option.isSome_iff_ne_none] at hkept
    exact absurd hnew hkept

/-- After a path with three slashes was opened, two spellings lead to two handles. -/
theorem spellings_differ :
    let content : ByteArray := ⟨(twinEnd 0 0 0).toArray⟩
    let outside : Surroundings := { fileAt := (FileTree.write {} "/a.jar" content).read }
    let r := play [.openRoot "///a.jar"] (new "lib/" outside)
    Percent.decode "/a.jar" = .ok (Text.encode "/a.jar") ∧ outside.fileAt "/a.jar" = .ok content ∧
    (Archive.ofBacking (fileBacking "/a.jar" content)).outcome.isOk ∧
    (answer (openRoot "file:/a.jar") r).map Archive.container = .ok "file:/a.jar" ∧
    (answer (openRoot "file:///a.jar") r).map Archive.container = .ok "file:///a.jar" ∧
    ¬ ∃ h s, ["file:/a.jar", "file:///a.jar"].mapM openRoot r = .ok (List.replicate 2 h) s := by
  intro content outside r
  have hfirst : (answer (openRoot "file:/a.jar") r).map Archive.container = .ok "file:/a.jar" := by
    decide +kernel
  have hsecond : (answer (openRoot "file:///a.jar") r).map Archive.container =
      .ok "file:///a.jar" := by decide +kernel
  have hboth : (match ["file:/a.jar", "file:///a.jar"].mapM openRoot r with
      | .ok handles _ => handles.map fun h => h.archive.container
      | .error _ _ => []) = ["file:/a.jar", "file:///a.jar"] := by decide +kernel
  refine ⟨by decide +kernel, by decide +kernel, by decide +kernel, hfirst, hsecond, ?_⟩
  rintro ⟨h, s, hopened⟩
  rw [hopened] at hboth
  simp only [List.replicate, List.map_cons, List.map_nil, List.cons.injEq] at hboth
  exact absurd (hboth.1.symm.trans hboth.2.1) (by decide)

end Resolver

end NestedZip
