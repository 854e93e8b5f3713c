import Mathlib.Data.List.Forall2
import NestedZip.Proofs.Locator.Descent

/-!
# Which Texts are Locators

A text is a locator by what its cut looks like, and says what its pieces say.

Without the scheme, a text is cut at its separators. There has to be one, the
piece in front of the first is the root and is not empty, and the pieces behind
it are written forms of names. The last of these may be empty, and then an
archive is meant and not an entry; the others may not. That is all: nothing else
about the text matters, and what is not of this kind is refused as malformed.

Reading goes through the pieces from the front, and the row it goes through
gets shorter until one piece is left, which is treated differently. The bridge
`decodeNames_eq_ok_iff` is therefore stated for a row with its last piece taken
apart, and the row of pieces in front of it is what the induction is on.

## Main definitions

* `Locator.Spells`: A piece is a written form of a name.
* `Locator.Ends`: What the last piece says.

## Theorems

* `Locator.decodeNames_eq_ok_iff`: When the pieces behind a root are read.
* `Locator.decode_eq_ok_iff_of_segments`, `Locator.decode_eq_ok_iff`: When a text is
  read, and as which locator.
* `Locator.sound_of_decode`: What holds of every locator that was read.
* `Locator.decode_eq_error`: Whatever is refused is malformed.
* `Locator.exists_names_iff`: Which pieces are the names of some locator.
* `Locator.decode_accepts`: The grammar of locators.
-/

namespace NestedZip

namespace Locator

/-- The piece is not empty, and a written form of the name. -/
def Spells (piece : List Char) (name : Bytes) : Prop :=
  piece ≠ [] ∧ Percent.decode (String.ofList piece) = .ok name

/-- The last piece names the entry. If it is empty, there is none. -/
def Ends (last : List Char) : Option Bytes → Prop
  | none => last = []
  | some name => Spells last name

theorem Spells.name_ne_nil {piece : List Char} {name : Bytes} (h : Spells piece name) :
    name ≠ [] := Percent.ne_nil_of_decode h.2 h.1

theorem ne_nil_of_spelled {front : List (List Char)} {names : List Bytes}
    (h : List.Forall₂ Spells front names) : ∀ name ∈ names, name ≠ [] := by
  induction h with
  | nil => exact fun _ hname => absurd hname List.not_mem_nil
  | cons hname _ ih => exact List.forall_mem_cons.mpr ⟨hname.name_ne_nil, ih⟩

/-- The last piece stands for the entry or for none. -/
theorem decodeNames_singleton_eq_ok_iff {text : String} {last : List Char}
    {archives : List Bytes} {entry : Option Bytes} :
    decodeNames text [last] = .ok (archives, entry) ↔ archives = [] ∧ Ends last entry := by
  rw [decodeNames]
  -- An empty piece is no entry at all, and no other one is.
  by_cases hempty : last.isEmpty
  · rw [if_pos hempty, Except.ok.injEq, Prod.mk.injEq]
    rw [List.isEmpty_iff] at hempty
    subst hempty
    cases entry with
    | none => simp only [Ends, eq_comm, and_true]
    | some name =>
        simp only [Ends, Spells, reduceCtorEq, and_false, ne_eq, not_true_eq_false, false_and]
  · rw [if_neg hempty, except_bind_eq_ok_iff]
    rw [List.isEmpty_iff] at hempty
    constructor
    · rintro ⟨name, hname, hresult⟩
      rcases Prod.mk.inj (Except.ok.inj hresult) with ⟨rfl, rfl⟩
      exact ⟨rfl, hempty, hname⟩
    · rintro ⟨rfl, hends⟩
      cases entry with
      | none => exact absurd hends hempty
      | some name => exact ⟨name, hends.2, rfl⟩

/-- The pieces in front of the last one are archives, and none of them is empty. -/
theorem decodeNames_eq_ok_iff {text : String} {front : List (List Char)} {last : List Char}
    {archives : List Bytes} {entry : Option Bytes} :
    decodeNames text (front ++ [last]) = .ok (archives, entry) ↔
      List.Forall₂ Spells front archives ∧ Ends last entry := by
  -- The pieces in front are names, one after the other, until the last one is left.
  induction front generalizing archives with
  | nil =>
      rw [List.nil_append, decodeNames_singleton_eq_ok_iff, List.forall₂_nil_left_iff]
  | cons piece front ih =>
      rw [List.cons_append, decodeNames.eq_3 _ _ _ (by simp), List.forall₂_cons_left_iff]
      by_cases hempty : piece.isEmpty
      · rw [if_pos hempty]
        rw [List.isEmpty_iff] at hempty
        constructor
        · intro h
          exact absurd h error_ne_ok
        · rintro ⟨⟨name, names, hname, _⟩, _⟩
          exact absurd hempty hname.1
      · rw [if_neg hempty, except_bind_eq_ok_iff]
        rw [List.isEmpty_iff] at hempty
        constructor
        · rintro ⟨name, hname, hrest⟩
          rcases except_bind_eq_ok_iff.mp hrest with ⟨⟨names, last'⟩, hnames, hresult⟩
          rcases Prod.mk.inj (Except.ok.inj hresult) with ⟨rfl, rfl⟩
          rcases ih.mp hnames with ⟨hfront, hlast⟩
          exact ⟨⟨name, names, ⟨hempty, hname⟩, hfront, rfl⟩, hlast⟩
        · rintro ⟨⟨name, names, hname, hfront, rfl⟩, hlast⟩
          refine ⟨name, hname.2, ?_⟩
          rw [ih.mpr ⟨hfront, hlast⟩]
          rfl

/-- A text is read by its segments: the first is the root, which is not empty, and
    the others are the names. -/
theorem decode_eq_ok_iff_of_segments {text : String} {root last : List Char}
    {front : List (List Char)} {l : Locator}
    (h : segments (dropScheme text.toList) = root :: (front ++ [last])) :
    decode text = .ok l ↔
      root ≠ [] ∧ root = l.root.toList ∧ List.Forall₂ Spells front l.archives ∧
        Ends last l.entry := by
  have hne := List.append_ne_nil_of_right_ne_nil front (List.cons_ne_nil last [])
  rw [decode_of_segments h hne, ofPieces_eq_ok_iff, decodeNames_eq_ok_iff]

/-- A text is read as a locator if its segments are a root, which is not empty,
    the archives of the locator, and its entry. -/
theorem decode_eq_ok_iff {text : String} {l : Locator} :
    decode text = .ok l ↔
      ∃ (front : List (List Char)) (last : List Char),
        segments (dropScheme text.toList) = l.root.toList :: (front ++ [last]) ∧
        l.root.toList ≠ [] ∧ List.Forall₂ Spells front l.archives ∧ Ends last l.entry := by
  constructor
  · intro h
    rcases hpieces : segments (dropScheme text.toList) with _ | ⟨root, names⟩
    · exact absurd hpieces (segments_ne_nil _)
    -- Only a root is no locator, so there is a last piece.
    rcases List.eq_nil_or_concat names with rfl | ⟨front, last, rfl⟩
    · rw [decode_of_segments_singleton hpieces] at h
      exact absurd h error_ne_ok
    rw [List.concat_eq_append] at hpieces ⊢
    rcases (decode_eq_ok_iff_of_segments hpieces).mp h with ⟨hroot, rfl, hnames⟩
    exact ⟨front, last, rfl, hroot, hnames⟩
  · rintro ⟨front, last, hpieces, hroot, hnames⟩
    exact (decode_eq_ok_iff_of_segments hpieces).mpr ⟨hroot, rfl, hnames⟩

/-- What was read has a root that is not empty and holds no separator, and names
    that are not empty. -/
theorem sound_of_decode {text : String} {l : Locator} (h : decode text = .ok l) :
    l.root.toList ≠ [] ∧ ¬ separatorChars <:+: l.root.toList ∧
      (∀ name ∈ l.archives, name ≠ []) ∧ ∀ name, l.entry = some name → name ≠ [] := by
  rcases decode_eq_ok_iff.mp h with ⟨front, last, hpieces, hroot, hfront, hlast⟩
  refine ⟨hroot, unsplit_of_mem_segments (by rw [hpieces]; exact List.mem_cons_self),
    ne_nil_of_spelled hfront, fun name hname => ?_⟩
  rw [hname] at hlast
  exact hlast.name_ne_nil

/-- Names that cannot be read are a fault of the locator. -/
theorem decodeNames_eq_error {text : String} {names : List (List Char)} {e : Error}
    (h : decodeNames text names = .error e) :
    ∃ written fault, e = .malformedLocator written fault := by
  fun_induction decodeNames text names with
  | case1 => exact absurd h.symm error_ne_ok
  | case2 => exact absurd h.symm error_ne_ok
  | case3 name _ =>
      rcases except_bind_eq_error h with hname | ⟨entry, _, hdone⟩
      · exact ⟨_, Percent.decode_eq_error hname⟩
      · exact absurd hdone.symm error_ne_ok
  | case4 => exact ⟨_, _, (Except.error.inj h).symm⟩
  | case5 name names _ _ ih =>
      rcases except_bind_eq_error h with hname | ⟨archive, _, hrest⟩
      · exact ⟨_, Percent.decode_eq_error hname⟩
      rcases except_bind_eq_error hrest with hnames | ⟨read, _, hdone⟩
      · exact ih hnames
      · exact absurd hdone.symm error_ne_ok

/-- Whatever is refused is malformed. -/
theorem decode_eq_error {text : String} {e : Error} (h : decode text = .error e) :
    ∃ written fault, e = .malformedLocator written fault := by
  rcases hpieces : segments (dropScheme text.toList) with _ | ⟨root, names⟩
  · exact absurd hpieces (segments_ne_nil _)
  by_cases hnames : names = []
  · rw [hnames] at hpieces
    rw [decode_of_segments_singleton hpieces] at h
    exact ⟨_, _, (Except.error.inj h).symm⟩
  -- With a piece behind it, it is an empty root or one of the names that is at fault.
  rw [decode_of_segments hpieces hnames, ofPieces] at h
  by_cases hempty : root.isEmpty
  · rw [if_pos hempty] at h
    exact ⟨_, _, (Except.error.inj h).symm⟩
  rw [if_neg hempty] at h
  rcases except_bind_eq_error h with hread | ⟨read, _, hdone⟩
  · exact decodeNames_eq_error hread
  · exact absurd hdone.symm error_ne_ok

/-- Pieces spell some names if each of them spells one. -/
theorem exists_spelled_iff {front : List (List Char)} :
    (∃ archives, List.Forall₂ Spells front archives) ↔
      ∀ piece ∈ front, ∃ name, Spells piece name := by
  induction front with
  | nil => exact ⟨fun _ _ hpiece => absurd hpiece List.not_mem_nil, fun _ => ⟨[], .nil⟩⟩
  | cons piece front ih =>
      rw [List.forall_mem_cons, ← ih]
      constructor
      · rintro ⟨_, _ | ⟨hname, hfront⟩⟩
        exact ⟨⟨_, hname⟩, _, hfront⟩
      · rintro ⟨⟨name, hname⟩, archives, hfront⟩
        exact ⟨name :: archives, .cons hname hfront⟩

/-- A last piece ends a locator if it can be decoded, as an empty one can. -/
theorem Ends.exists_iff {last : List Char} :
    (∃ entry, Ends last entry) ↔ ∃ name, Percent.decode (String.ofList last) = .ok name := by
  constructor
  · rintro ⟨_ | name, hends⟩
    · subst hends
      exact ⟨[], rfl⟩
    · exact ⟨name, hends.2⟩
  · rintro ⟨name, hname⟩
    by_cases hempty : last = []
    · exact ⟨none, hempty⟩
    · exact ⟨some name, hempty, hname⟩

/-- Which pieces behind a root are the names of some locator. -/
theorem exists_names_iff {front : List (List Char)} {last : List Char} :
    (∃ archives entry, List.Forall₂ Spells front archives ∧ Ends last entry) ↔
      (∀ piece ∈ front, piece ≠ []) ∧
      ∀ piece ∈ front ++ [last], ∃ name, Percent.decode (String.ofList piece) = .ok name := by
  constructor
  · rintro ⟨archives, entry, hfront, hlast⟩
    have hspelled := exists_spelled_iff.mp ⟨archives, hfront⟩
    refine ⟨fun piece hpiece => ?_, fun piece hpiece => ?_⟩
    · rcases hspelled piece hpiece with ⟨name, hname⟩
      exact hname.1
    · rcases List.mem_append.mp hpiece with hpiece | hpiece
      · rcases hspelled piece hpiece with ⟨name, hname⟩
        exact ⟨name, hname.2⟩
      · rw [List.mem_singleton.mp hpiece]
        exact Ends.exists_iff.mp ⟨entry, hlast⟩
  · rintro ⟨hne, hread⟩
    -- All pieces can be decoded, and all but the last one are names.
    have hspelled : ∀ piece ∈ front, ∃ name, Spells piece name := fun piece hpiece => by
      rcases hread piece (List.mem_append_left _ hpiece) with ⟨name, hname⟩
      exact ⟨name, hne piece hpiece, hname⟩
    rcases exists_spelled_iff.mpr hspelled with ⟨archives, hfront⟩
    rcases Ends.exists_iff.mpr (hread last (List.mem_append_right _ List.mem_cons_self)) with
      ⟨entry, hlast⟩
    exact ⟨archives, entry, hfront, hlast⟩

/-- The grammar of locators. Behind the scheme a text is cut at every separator,
    into a root and pieces behind it. It is read if there is a piece behind the
    root, only the last of these is empty, if any, the root is not, and all are
    written forms. Then the root is taken as it stands, and each piece but the
    last for an archive and the last for the entry, if it is not empty. Every
    other text is malformed, and it does not matter whether the last separator is
    looked for first or last. -/
theorem decode_accepts (text : String) :
    let body := if ['j', 'a', 'r', ':'] <+: text.toList then text.toList.drop 4 else text.toList
    ∃ (root : List Char) (names : List (List Char)),
      (∀ pieces, Cut body pieces ↔ pieces = root :: names) ∧
      ((∃ l, decode text = .ok l) ↔
        names ≠ [] ∧ root ≠ [] ∧ (∀ piece ∈ names.dropLast, piece ≠ []) ∧
        ∀ piece ∈ names, ∃ name, Percent.decode (String.ofList piece) = .ok name) ∧
      (∀ l, decode text = .ok l →
        l.root.toList = root ∧
        List.Forall₂ (fun piece name => Percent.decode (String.ofList piece) = .ok name)
          names.dropLast l.archives ∧
        (names.getLast? = some [] → l.entry = none) ∧
        ∀ piece, names.getLast? = some piece → piece ≠ [] →
          ∃ name, Percent.decode (String.ofList piece) = .ok name ∧ l.entry = some name) ∧
      (∀ e, decode text = .error e → ∃ written fault, e = .malformedLocator written fault) ∧
      decodeFromLast text = decode text := by
  intro body
  rcases hpieces : segments (dropScheme text.toList) with _ | ⟨root, names⟩
  · exact absurd hpieces (segments_ne_nil _)
  have hcut : ∀ pieces, Cut body pieces ↔ pieces = root :: names := by
    intro pieces
    rw [← show dropScheme text.toList = body from dropScheme_eq text.toList, cut_iff, hpieces]
  refine ⟨root, names, hcut, ?_⟩
  rcases List.eq_nil_or_concat names with rfl | ⟨front, last, rfl⟩
  · -- Without a piece behind the root there is nothing to be read.
    have hrefused : ∀ l, decode text ≠ .ok l := fun l hl => by
      rw [decode_of_segments_singleton hpieces] at hl
      exact absurd hl error_ne_ok
    exact ⟨⟨fun ⟨l, hl⟩ => absurd hl (hrefused l), fun h => absurd rfl h.1⟩,
      fun l hl => absurd hl (hrefused l), fun e => decode_eq_error, decodeFromLast_eq text⟩
  rw [List.concat_eq_append] at hpieces ⊢
  rw [List.dropLast_concat, List.getLast?_concat]
  have hread : ∀ l, decode text = .ok l ↔ _ := fun l => decode_eq_ok_iff_of_segments hpieces
  refine ⟨⟨?_, ?_⟩, fun l hl => ?_, fun e => decode_eq_error, decodeFromLast_eq text⟩
  · rintro ⟨l, hl⟩
    rcases (hread l).mp hl with ⟨hroot, _, hfront, hlast⟩
    exact ⟨List.append_ne_nil_of_right_ne_nil front (List.cons_ne_nil last []), hroot,
      exists_names_iff.mp ⟨l.archives, l.entry, hfront, hlast⟩⟩
  · rintro ⟨_, hroot, hnames⟩
    rcases exists_names_iff.mpr hnames with ⟨archives, entry, hfront, hlast⟩
    exact ⟨{ root := String.ofList root, archives, entry },
      (hread _).mpr ⟨hroot, String.toList_ofList.symm, hfront, hlast⟩⟩
  · rcases (hread l).mp hl with ⟨_, hroot, hfront, hlast⟩
    refine ⟨hroot.symm, hfront.imp fun piece name hname => hname.2, fun hempty => ?_,
      fun piece hpiece hne => ?_⟩
    · -- The last piece is the entry, and an entry is never written as nothing.
      rcases hentry : l.entry with _ | name
      · rfl
      · rw [hentry] at hlast
        exact absurd (Option.some.inj hempty) hlast.1
    · rw [← Option.some.inj hpiece] at hne ⊢
      rcases hentry : l.entry with _ | name
      · rw [hentry] at hlast
        exact absurd hlast hne
      · rw [hentry] at hlast
        exact ⟨name, hlast.2, rfl⟩

/-- A root may end in the sign that a separator starts with. -/
example : decode "jar:a!!/b!/" = .ok { root := "a!", archives := [[0x62]] } := by decide +kernel

end Locator

end NestedZip
