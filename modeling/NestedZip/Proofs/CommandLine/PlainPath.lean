import NestedZip.CommandLine.Arguments
import NestedZip.Proofs.Percent.Denotation
import NestedZip.Proofs.Resolving.EntryUrl
import NestedZip.Proofs.Resolving.Spelling

/-!
# Plain Paths as Arguments

A path that is given as an argument leads to the file at that path, and to no other.

Three pieces of the program spell the name of a file. The argument is made
absolute and percent-encoded behind the scheme; the root that is cut out of it
is stripped of the scheme and decoded; and the opened file is named by its path,
encoded once more. Nothing makes them agree but that encoding is undone by
decoding and leaves no exclamation mark, and that a slash is written as a slash.

The last point has two sides. Behind the scheme, two slashes in front of a third
are dropped, since a root may also be written with them. So the path has to have
less than three slashes in front, and since the encoded path has as many of them
as the path, that is a condition on the path alone. Making a path absolute
establishes it: from the root, more than two slashes are as good as one, and
below a directory nothing is put in front.

## Main definitions

* `Path.Rooted`: A path from the root, with no more than two slashes in front.
* `Arguments.Plain`: An argument that is neither a locator nor a root.

## Theorems

* `Path.rooted_absolute`: A path that was made absolute is rooted.
* `Percent.slashes_of_encode`: An encoded text starts with no more slashes than the text.
* `Resolver.filePath_of_rooted`: The name of a file is read as its path.
* `Arguments.locatorText_of_plain`: A plain argument becomes the locator of the whole file.
* `Arguments.plain_path_names_file`: From the argument to the opened archive.
-/

namespace NestedZip

namespace Path

/-- A path from the root, with one or two slashes in front. -/
structure Rooted (path : List Char) : Prop where
  absolute : isAbsolute path = true
  few : ¬ ['/', '/', '/'] <+: path

/-- What is put behind a rooted path leaves it rooted, if no slash meets a slash. -/
theorem Rooted.append {start tail : List Char} (h : Rooted start)
    (hedge : start.getLast? = some '/' → tail.head? ≠ some '/') : Rooted (start ++ tail) := by
  have hne : start ≠ [] := by
    rintro rfl
    exact absurd h.absolute Bool.false_ne_true
  refine ⟨?_, fun hslashes => ?_⟩
  · unfold isAbsolute
    rw [List.head?_append_of_ne_nil start hne]
    exact h.absolute
  -- Three slashes could only stand across the place where the two meet.
  rcases List.prefix_or_prefix_of_prefix hslashes (List.prefix_append start tail) with
    hinside | ⟨across, hacross⟩
  · exact h.few hinside
  have hall : ∀ c ∈ start ++ across, c = '/' := by
    rw [hacross]
    exact fun c hc => List.eq_of_mem_replicate (n := 3) hc
  rw [← hacross, List.prefix_append_right_inj] at hslashes
  rcases across with _ | ⟨c, across⟩
  · rw [List.append_nil] at hacross
    exact h.few (by rw [hacross])
  · have hlast : start.getLast hne = '/' :=
      hall _ (List.mem_append_left _ (List.getLast_mem hne))
    refine hedge (by rw [List.getLast?_eq_some_getLast hne, hlast]) ?_
    rcases hslashes with ⟨rest, rfl⟩
    rw [hall c (List.mem_append_right _ List.mem_cons_self)]
    rfl

theorem rooted_absoluteStart (path : List Char) : Rooted (absoluteStart path) := by
  unfold absoluteStart
  split
  · exact ⟨rfl, by decide⟩
  · exact ⟨rfl, by decide⟩
  · exact ⟨rfl, by decide⟩

/-- Below a rooted path names are put with one slash in front of each, and that is no
    third one. -/
theorem Rooted.below {start : List Char} (h : Rooted start) {names : List (List Char)}
    (hnames : ((names.flatMap fun name => '/' :: name).drop 1).head? ≠ some '/') :
    Rooted (below start names) := by
  unfold Path.below
  by_cases hlast : start.getLast? = some '/'
  · rw [if_pos hlast]
    exact h.append fun _ => hnames
  · rw [if_neg hlast]
    exact h.append fun hslash => absurd hslash hlast

/-- Between two slashes of a path there is none. -/
theorem not_mem_pieces (path : List Char) : ∀ piece ∈ pieces path, '/' ∉ piece := by
  fun_induction pieces path with
  | case1 => simp only [List.mem_singleton, forall_eq, List.not_mem_nil, not_false_eq_true]
  | case2 rest ih =>
      intro piece hpiece
      rcases List.mem_cons.mp hpiece with rfl | hpiece
      · exact List.not_mem_nil
      · exact ih piece hpiece
  | case3 c rest hc hnil ih =>
      intro piece hpiece
      rw [List.mem_singleton.mp hpiece, List.mem_singleton]
      exact fun hslash => hc hslash.symm
  | case4 c rest hc first others hrest ih =>
      intro piece hpiece
      rw [hrest] at ih
      rcases List.mem_cons.mp hpiece with rfl | hpiece
      · intro hslash
        rcases List.mem_cons.mp hslash with hslash | hslash
        · exact hc hslash.symm
        · exact ih first List.mem_cons_self hslash
      · exact ih piece (List.mem_cons_of_mem _ hpiece)

/-- The names in a path start with no slash. -/
theorem head_names (path : List Char) :
    (((names path).flatMap fun name => '/' :: name).drop 1).head? ≠ some '/' := by
  rcases hnames : names path with _ | ⟨name, others⟩
  · exact fun h => nomatch h
  -- There is a first name. It is not empty, and its first character is no slash.
  have hname : name ∈ names path := by
    rw [hnames]
    exact List.mem_cons_self
  have hmem := List.mem_filter.mp hname
  have hslash := not_mem_pieces path name hmem.1
  rcases name with _ | ⟨c, rest⟩
  · exact absurd hmem.2 (by decide)
  · rw [List.flatMap_cons]
    intro hhead
    exact hslash (by rw [← Option.some.inj hhead]; exact List.mem_cons_self)

/-- A path that was made absolute is rooted, if the directory is that it starts from. -/
theorem rooted_absolute {base path reached : String}
    (hstart : isAbsolute path.toList = true ∨ Rooted base.toList)
    (h : Path.absolute base path = .ok reached) : Rooted reached.toList := by
  unfold Path.absolute at h
  by_cases hempty : path.toList.isEmpty
  · simp only [if_pos hempty] at h
    exact absurd h error_ne_ok
  simp only [if_neg hempty, Except.ok.injEq] at h
  have hroot : Rooted (if isAbsolute path.toList then absoluteStart path.toList
      else base.toList) := by
    by_cases habsolute : isAbsolute path.toList
    · rw [if_pos habsolute]
      exact rooted_absoluteStart _
    · rw [if_neg habsolute]
      exact hstart.resolve_left habsolute
  have hreached := hroot.below (head_names path.toList)
  -- A slash at the end is put there as one more name, which is empty.
  rw [← h, String.toList_ofList]
  by_cases hdirectory : path.toList.getLast? = some '/'
  · rw [if_pos hdirectory]
    exact hreached.below (by decide)
  · rw [if_neg hdirectory]
    exact hreached

end Path

namespace Percent

theorem eq_slash_of_encodeByte (b : UInt8) : (encodeByte b).head? = some '/' → b = 0x2F :=
  forall_byte (P := fun b => (encodeByte b).head? = some '/' → b = 0x2F) (by decide +kernel) b

/-- What is written with slashes in front has them in front. -/
theorem slashes_of_encode (count : Nat) {text : List Char}
    (h : List.replicate count '/' <+:
      (text.flatMap String.utf8EncodeChar).flatMap encodeByte) :
    List.replicate count '/' <+: text := by
  induction count generalizing text with
  | zero => exact List.nil_prefix
  | succ count ih =>
      rw [List.replicate_succ] at h ⊢
      rcases hbytes : text.flatMap String.utf8EncodeChar with _ | ⟨b, rest⟩
      · rw [hbytes] at h
        exact absurd (List.prefix_nil.mp h) (List.cons_ne_nil _ _)
      rw [hbytes, List.flatMap_cons] at h
      -- A slash is written by the byte of a slash only, and that is the character.
      have hslash : b = 0x2F := by
        rcases h with ⟨more, hmore⟩
        refine eq_slash_of_encodeByte b ?_
        rw [← List.head?_append_of_ne_nil _ (encodeByte_ne_nil b), ← hmore]
        rfl
      subst hslash
      obtain ⟨behind, rfl, hbehind⟩ := Text.exists_head_of_ascii (by decide) hbytes
      rw [← hbehind] at h
      exact List.cons_prefix_cons.mpr ⟨rfl, ih (List.cons_prefix_cons.mp h).2⟩

end Percent

namespace Resolver

/-- The name of a file is read as its path, unless that starts with three slashes. -/
theorem filePath_of_rooted {path : String} (h : ¬ ['/', '/', '/'] <+: path.toList)
    (content : ByteArray) : filePath (fileBacking path content).identity = .ok path := by
  have hwritten : ¬ ['/', '/', '/'] <+: (Percent.encode (Text.encode path)).toList := by
    rw [Percent.toList_encode]
    exact fun hslashes => h (Percent.slashes_of_encode 3 hslashes)
  unfold filePath fileBacking
  rw [encodedPath_of_scheme hwritten]
  simp only
  rw [Percent.decode_encode, except_ok_bind, Text.decode?_encode]
  rfl

/-- A root by itself is resolved by opening it. -/
theorem resolve_of_openRoot {container : String} {r s : Resolver} {h : Handle}
    (hopen : openRoot container r = .ok h s) : resolve { root := container } r = .ok h s :=
  Resolving.bind_of_ok hopen _

end Resolver

namespace Arguments

open Resolver

/-- An argument that is neither a locator nor a root on its own. -/
structure Plain (text : String) : Prop where
  nonempty : text ≠ ""
  unsplit : ¬ Locator.separatorChars <:+: text.toList
  unschemed : ∀ scheme ∈ ["http://", "https://", "file:"], ¬ scheme.toList <+: text.toList

/-- Any path but the empty one can be made absolute. -/
theorem Plain.exists_absolute {text : String} (h : Plain text) (base : String) :
    ∃ path, Path.absolute base text = .ok path := by
  have hempty : ¬ text.toList.isEmpty := by
    rw [List.isEmpty_iff, String.toList_eq_nil_iff]
    exact h.nonempty
  unfold Path.absolute
  simp only [if_neg hempty]
  exact ⟨_, rfl⟩

/-- Such an argument becomes the name of the file at its absolute path, and a separator. -/
theorem locatorText_of_plain {a : Arguments} (h : Plain a.locator) {base path : String}
    (habsolute : Path.absolute base a.locator = .ok path) (content : ByteArray) :
    a.locatorText base = .ok ((fileBacking path content).identity ++ Locator.separator) := by
  have hscheme : ∀ scheme ∈ ["http://", "https://", "file:"],
      scheme.toList.isPrefixOf a.locator.toList = false := by
    intro scheme hmem
    rw [← Bool.not_eq_true, List.isPrefixOf_iff_prefix]
    exact h.unschemed scheme hmem
  -- So the argument is no locator already: nothing separates names in it, and it has no scheme.
  have hwhole : hasSeparator a.locator = false := by
    unfold hasSeparator
    rw [Locator.segments_of_unsplit h.unsplit]
    rfl
  have hlocal : a.isRemote = false := by
    rw [isRemote, ← Bool.not_eq_true, isRemote_iff]
    rintro (hhttp | hhttps)
    · exact h.unschemed _ List.mem_cons_self hhttp
    · exact h.unschemed _ (.tail _ List.mem_cons_self) hhttps
  unfold locatorText
  rw [if_neg (by rw [hwhole]; exact Bool.false_ne_true), if_neg, habsolute, except_ok_bind]
  · rfl
  · rw [hlocal, hscheme _ (.tail _ (.tail _ List.mem_cons_self))]
    exact Bool.false_ne_true

/-- A plain argument, made absolute, becomes the locator of the whole file at that path and
    of nothing else. Its root is read as just that path, and is how the file is named. So
    whatever was asked before, the archive in the file is answered for it, with the root
    for its name and for the key that it is kept under. That the path is rooted is only
    asked of the directory that relative paths start from. -/
theorem plain_path_names_file (a : Arguments) (base : String) (h : Plain a.locator) :
    ∃ path, Path.absolute base a.locator = .ok path ∧
      (Path.isAbsolute a.locator.toList = true ∨ Path.Rooted base.toList →
        Path.Rooted path.toList) ∧
      (Path.Rooted path.toList → ∃ root : String,
        a.locatorText base = .ok (root ++ "!/") ∧
        Locator.decode (root ++ "!/") = .ok { root, archives := [], entry := none } ∧
        filePath root = .ok path ∧
        (∀ content, (fileBacking path content).identity = root) ∧
        ∀ (directory : String) (outside : Surroundings) (actions : List Action)
          (content : ByteArray) (x : Archive), outside.fileAt path = .ok content →
          (Archive.ofBacking (fileBacking path content)).outcome = .ok x →
          x.container = root ∧ x.window.identity = root ∧ x.window.offset = 0 ∧
          ∃ opened s,
            resolve { root, archives := [], entry := none } (play actions (new directory outside)) =
              .ok opened s ∧
            opened.archive = x ∧
            s.cache.get? { identity := root, offset := 0 } = some opened) := by
  obtain ⟨path, hpath⟩ := h.exists_absolute base
  refine ⟨path, hpath, fun hstart => Path.rooted_absolute hstart hpath, fun hrooted => ?_⟩
  refine ⟨fileScheme ++ Percent.encode (Text.encode path), locatorText_of_plain h hpath ⟨#[]⟩,
    (rooted_fileBacking path ⟨#[]⟩).decode_url, filePath_of_rooted hrooted.few ⟨#[]⟩,
    fun _ => rfl, ?_⟩
  intro directory outside actions content x hfile hopens
  have hwindow := Archive.ofBacking_eq_ok hopens
  refine ⟨(Archive.ofWindow_eq_ok hopens).2.2.2.2, by rw [hwindow]; rfl, by rw [hwindow]; rfl, ?_⟩
  obtain ⟨houtside, hfaithful⟩ := faithful_play directory outside actions
  -- The root is how the file is named, so what is kept under it is of that file.
  have hsource : (play actions (new directory outside)).rootBacking
      (fileBacking path content).identity = .ok (fileBacking path content) :=
    rootBacking_of_filePath
      (not_memory_outside (.file path) content)
      (not_isRemote_scheme _) (filePath_of_rooted hrooted.few content)
      (by rw [houtside]; exact hfile)
  obtain ⟨opened, s, hopened, -, harchive, hkept, -⟩ :=
    openRoot_of_source hfaithful hfaithful.knows hsource hopens fun _ _ => rfl
  exact ⟨opened, s, resolve_of_openRoot hopened, harchive, hkept⟩

/-- The path of a file whose name has all that could be taken for something else: two
    slashes in front, an escape, a blank, and exclamation marks, one of them at the end. -/
theorem plain_path_names_file_marked :
    let a : Arguments := { locator := "//a!%41 é!" }
    let root := "file://a%21%2541%20%C3%A9%21"
    let content : ByteArray := ⟨(twinEnd 0 0 0).toArray⟩
    let outside : Surroundings := {
      fileAt := (FileTree.write {} "//a!%41 é!" content).read }
    Plain a.locator ∧ a.locatorText "/" = .ok (root ++ "!/") ∧ filePath root = .ok a.locator ∧
    ∃ opened s, resolve { root } (new "lib/" outside) = .ok opened s ∧
      opened.archive.container = root ∧
      s.cache.get? { identity := root, offset := 0 } = some opened := by
  intro a root content outside
  have hplain : Plain a.locator := ⟨by decide, by decide +kernel, by decide +kernel⟩
  have hfile : outside.fileAt "//a!%41 é!" = .ok content := by decide +kernel
  obtain ⟨path, hpath, hstart, hnames⟩ := plain_path_names_file a "/" hplain
  have hsame : Path.absolute "/" a.locator = .ok "//a!%41 é!" := by decide +kernel
  obtain rfl : path = "//a!%41 é!" := Except.ok.inj (hpath.symm.trans hsame)
  obtain ⟨name, htext, -, hread, hname, hopen⟩ := hnames (hstart (.inl (by decide +kernel)))
  obtain rfl : name = root := (hname content).symm.trans (by decide +kernel)
  have hok : (Archive.ofBacking (fileBacking "//a!%41 é!" content)).outcome.isOk := by
    decide +kernel
  rcases hopens : (Archive.ofBacking (fileBacking "//a!%41 é!" content)).outcome with e | x
  · rw [hopens] at hok
    exact absurd hok Bool.false_ne_true
  obtain ⟨hcontainer, -, -, opened, s, hresolve, harchive, hkept⟩ :=
    hopen "lib/" outside [] content x hfile hopens
  exact ⟨hplain, htext, hread, opened, s, hresolve, by rw [harchive, hcontainer], hkept⟩

end Arguments

end NestedZip
