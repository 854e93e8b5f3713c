import Mathlib.Data.List.Forall2
import NestedZip.CommandLine.Glob

/-!
# What a Pattern Matches

A pattern matches a text if the text can be cut into pieces, one for each
character of the pattern, and each piece is something its character stands for.

That says nothing of how a cut is found. A star may stand for any piece, so a
text may have many cuts, and looking for one means trying: a star takes nothing
first, and one more character each time what follows fails. `search` goes this
way, with two ways to go on at a star, and `Glob.matchesChars` goes through what
the star may leave. Neither of the two remembers the cut that it found, but both
find one just if there is one.

From there on patterns are compared by their cuts alone. A cut of two patterns
one behind the other is a cut of each, so matching goes along with putting
together, and a run of stars stands for what a single one stands for.

## Main definitions

* `Glob.StandsFor`: The pieces that a character of a pattern stands for.
* `Glob.Cut`: A text that can be cut into such pieces.
* `Glob.search`: Looking for a cut by trying both ways at a star.

## Theorems

* `Glob.matchesChars_iff`: A pattern matches the texts that it can cut.
* `Glob.search_eq`: Looking by trying finds the same.
* `Glob.cut_append_iff`: Cuts of patterns that are put together.
* `Glob.isMatch_exact`: What a pattern matches, runs of stars, and putting together.
-/

namespace NestedZip

namespace Glob

/-- The pieces that a character of a pattern stands for. -/
inductive StandsFor : Char → List Char → Prop
  | star (piece : List Char) : StandsFor '*' piece
  | one (c : Char) : StandsFor '?' [c]
  | itself {c : Char} : c ≠ '*' → c ≠ '?' → StandsFor c [c]

/-- The text is cut into pieces, one for each character of the pattern. -/
def Cut (pattern text : List Char) : Prop :=
  ∃ pieces : List (List Char), List.Forall₂ StandsFor pattern pieces ∧ pieces.flatten = text

/-- Looks for a cut. A star stands for nothing, or else for one more character. -/
def search (pattern text : List Char) : Bool :=
  match pattern, text with
  | [], [] => true
  | '*' :: rest, [] => search rest []
  | '*' :: rest, c :: behind => search rest (c :: behind) || search ('*' :: rest) behind
  | '?' :: rest, _ :: behind => search rest behind
  | p :: rest, c :: behind => p == c && search rest behind
  | _, _ => false
termination_by pattern.length + text.length

variable {pattern text : List Char} {p : Char}

/-- A test passes on some suffix of a text if it passes on the rest behind some front of it. -/
theorem onSomeSuffix_iff {f : List Char → Bool} :
    onSomeSuffix f text = true ↔ ∃ front rest, text = front ++ rest ∧ f rest = true := by
  induction text with
  | nil =>
      rw [onSomeSuffix]
      constructor
      · exact fun h => ⟨[], [], rfl, h⟩
      · rintro ⟨front, rest, hcut, h⟩
        rw [(List.append_eq_nil_iff.mp hcut.symm).2] at h
        exact h
  | cons c text ih =>
      rw [onSomeSuffix, Bool.or_eq_true, ih]
      constructor
      · rintro (h | ⟨front, rest, rfl, h⟩)
        · exact ⟨[], c :: text, rfl, h⟩
        · exact ⟨c :: front, rest, rfl, h⟩
      · rintro ⟨front, rest, hcut, h⟩
        -- Either nothing stands in front, or the first character does.
        rcases List.cons_eq_append_iff.mp hcut with ⟨_, rfl⟩ | ⟨front', _, rfl⟩
        · exact Or.inl h
        · exact Or.inr ⟨front', rest, rfl, h⟩

theorem standsFor_star_iff {piece : List Char} : StandsFor '*' piece ↔ True :=
  iff_true_intro (.star piece)

/-- What is no star stands for one character. -/
theorem standsFor_iff (hstar : p ≠ '*') {piece : List Char} :
    StandsFor p piece ↔ ∃ c, piece = [c] ∧ (p = '?' ∨ p = c) := by
  constructor
  · intro h
    cases h with
    | star => exact absurd rfl hstar
    | one c => exact ⟨c, rfl, Or.inl rfl⟩
    | itself _ _ => exact ⟨p, rfl, Or.inr rfl⟩
  · rintro ⟨c, rfl, rfl | rfl⟩
    · exact .one c
    · by_cases hone : p = '?'
      · rw [hone]
        exact .one _
      · exact .itself hstar hone

theorem cut_nil_iff : Cut [] text ↔ text = [] := by
  unfold Cut
  simp only [List.forall₂_nil_left_iff, exists_eq_left, List.flatten_nil, eq_comm]

/-- The first piece is for the first character, and the rest is cut by the others. -/
theorem cut_cons_iff :
    Cut (p :: pattern) text ↔
      ∃ piece rest, text = piece ++ rest ∧ StandsFor p piece ∧ Cut pattern rest := by
  constructor
  · rintro ⟨pieces, hpieces, rfl⟩
    rcases List.forall₂_cons_left_iff.mp hpieces with ⟨piece, others, hpiece, hothers, rfl⟩
    exact ⟨piece, others.flatten, List.flatten_cons, hpiece, others, hothers, rfl⟩
  · rintro ⟨piece, _, rfl, hpiece, others, hothers, rfl⟩
    exact ⟨piece :: others, List.Forall₂.cons hpiece hothers, List.flatten_cons⟩

theorem matchesChars_star :
    matchesChars ('*' :: pattern) text = onSomeSuffix (matchesChars pattern) text := by
  cases text <;> rfl

/-- At a star matching goes on behind it, or else behind the next character. -/
theorem matchesChars_star_cons (c : Char) :
    matchesChars ('*' :: pattern) (c :: text) =
      (matchesChars pattern (c :: text) || matchesChars ('*' :: pattern) text) := rfl

/-- Any other character takes the next one, if it stands for it. -/
theorem matchesChars_cons_cons (hstar : p ≠ '*') (c : Char) :
    matchesChars (p :: pattern) (c :: text) = ((p = '?' || p = c) && matchesChars pattern text) :=
  if_neg hstar

theorem matchesChars_cons_nil (hstar : p ≠ '*') : matchesChars (p :: pattern) [] = false :=
  if_neg hstar

/-- A pattern matches just the texts that it can cut. -/
theorem matchesChars_iff : matchesChars pattern text = true ↔ Cut pattern text := by
  induction pattern generalizing text with
  | nil => rw [cut_nil_iff, ← List.isEmpty_iff, matchesChars.eq_def]
  | cons p pattern ih =>
      rw [cut_cons_iff]
      by_cases hstar : p = '*'
      · subst hstar
        rw [matchesChars_star, onSomeSuffix_iff]
        simp only [standsFor_star_iff, true_and, ih]
      -- Any other character stands for one character, so a text without one is not matched.
      simp only [standsFor_iff hstar]
      cases text with
      | nil =>
          rw [matchesChars_cons_nil hstar]
          constructor
          · exact fun h => absurd h Bool.false_ne_true
          · rintro ⟨_, rest, hcut, ⟨c, rfl, _⟩, _⟩
            exact nomatch hcut
      | cons c text =>
          rw [matchesChars_cons_cons hstar, Bool.and_eq_true, Bool.or_eq_true, decide_eq_true_iff,
            decide_eq_true_iff, ih]
          constructor
          · rintro ⟨hc, hcut⟩
            exact ⟨[c], text, rfl, ⟨c, rfl, hc⟩, hcut⟩
          · rintro ⟨_, rest, hcut, ⟨d, rfl, hd⟩, hrest⟩
            rcases List.cons.inj hcut with ⟨rfl, rfl⟩
            exact ⟨hd, hrest⟩

/-- Looking for a cut by trying both ways at a star finds one if there is one. -/
theorem search_eq (pattern text : List Char) : search pattern text = matchesChars pattern text := by
  fun_induction search pattern text with
  | case1 => rfl
  | case2 rest ih =>
      rw [ih]
      rfl
  | case3 rest c behind ih ihmore => rw [ih, ihmore, matchesChars_star_cons]
  | case4 rest c behind ih =>
      rw [ih, matchesChars_cons_cons (by decide)]
      rfl
  | case5 p rest c behind hstar hone ih =>
      rw [ih, matchesChars_cons_cons hstar, decide_eq_false hone, Bool.false_or, beq_eq_decide]
  | case6 pattern text hend hstar _ _ hother =>
      -- One of the two has ended and the other goes on, with no star that could stand for nothing.
      cases pattern with
      | nil =>
          cases text with
          | nil => exact absurd rfl (hend rfl)
          | cons c behind => rfl
      | cons p rest =>
          cases text with
          | nil =>
              rw [matchesChars_cons_nil]
              rintro rfl
              exact hstar rest rfl rfl
          | cons c behind => exact (hother p rest c behind rfl rfl).elim

/-- A text is cut by one pattern behind another if its front is cut by the one and its
    rest by the other. -/
theorem cut_append_iff {other : List Char} :
    Cut (pattern ++ other) text ↔
      ∃ front rest, text = front ++ rest ∧ Cut pattern front ∧ Cut other rest := by
  induction pattern generalizing text with
  | nil =>
      simp only [List.nil_append, cut_nil_iff]
      constructor
      · exact fun h => ⟨[], text, rfl, rfl, h⟩
      · rintro ⟨_, rest, rfl, rfl, h⟩
        exact h
  | cons p pattern ih =>
      rw [List.cons_append, cut_cons_iff]
      -- The pieces of the first characters are put together, or taken apart again.
      constructor
      · rintro ⟨piece, _, rfl, hpiece, hcut⟩
        rcases ih.mp hcut with ⟨front, rest, rfl, hfront, hrest⟩
        exact ⟨piece ++ front, rest, (List.append_assoc _ _ _).symm,
          cut_cons_iff.mpr ⟨piece, front, rfl, hpiece, hfront⟩, hrest⟩
      · rintro ⟨_, rest, rfl, hfront, hrest⟩
        rcases cut_cons_iff.mp hfront with ⟨piece, front, rfl, hpiece, hfront⟩
        exact ⟨piece, front ++ rest, List.append_assoc _ _ _, hpiece,
          ih.mpr ⟨front, rest, rfl, hfront, hrest⟩⟩

/-- A run of stars can take any text, as a single one can. -/
theorem cut_stars (count : Nat) (text : List Char) : Cut (List.replicate (count + 1) '*') text := by
  induction count generalizing text with
  | zero =>
      exact cut_cons_iff.mpr ⟨text, [], (List.append_nil _).symm, .star _, cut_nil_iff.mpr rfl⟩
  | succ count ih => exact cut_cons_iff.mpr ⟨[], text, rfl, .star _, ih text⟩

/-- Patterns that cut the same texts can be put for each other inside a pattern. -/
theorem cut_within_iff {middle other front back : List Char}
    (h : ∀ piece, Cut middle piece ↔ Cut other piece) :
    Cut (front ++ middle ++ back) text ↔ Cut (front ++ other ++ back) text := by
  simp only [cut_append_iff, h]

theorem isMatch_iff {pattern name : String} :
    isMatch pattern name = true ↔ Cut pattern.toList name.toList := matchesChars_iff

/-- A pattern matches a name just if the name can be cut into pieces, one for each
    character of the pattern: any piece for a star, one character for a question mark,
    and for any other character that character. Looking for a cut by trying finds the
    same. A run of stars may be replaced by a single one anywhere, and patterns that
    match two names match them put together when they are put together. -/
theorem isMatch_exact (pattern name : String) :
    (isMatch pattern name = true ↔
      ∃ pieces : List (List Char), List.Forall₂ StandsFor pattern.toList pieces ∧
        pieces.flatten = name.toList) ∧
    search pattern.toList name.toList = isMatch pattern name ∧
    (∀ (front back : String) (count : Nat),
      pattern = front ++ String.ofList (List.replicate (count + 1) '*') ++ back →
        isMatch pattern name = isMatch (front ++ "*" ++ back) name) ∧
    ∀ other rest : String, isMatch pattern name = true → isMatch other rest = true →
      isMatch (pattern ++ other) (name ++ rest) = true := by
  refine ⟨isMatch_iff, search_eq _ _, ?_, fun other rest hname hrest => ?_⟩
  · rintro front back count rfl
    rw [Bool.eq_iff_iff, isMatch_iff, isMatch_iff]
    simp only [String.toList_append, String.toList_ofList]
    exact cut_within_iff fun piece => ⟨fun _ => cut_stars 0 piece, fun _ => cut_stars count piece⟩
  · rw [isMatch_iff] at hname hrest ⊢
    rw [String.toList_append, String.toList_append]
    exact cut_append_iff.mpr ⟨_, _, rfl, hname, hrest⟩

/-- A run of stars at the end of one pattern and one at the start of the next. -/
theorem isMatch_exact_stars :
    isMatch "lib/***" "lib/" = true ∧ isMatch "*?.jar" "é*.jar" = true ∧
    "lib/***" = "lib/" ++ String.ofList (List.replicate (2 + 1) '*') ++ "" ∧
    isMatch "lib/***" "lib/" = isMatch "lib/*" "lib/" ∧
    isMatch "lib/****?.jar" "lib/é*.jar" = true := by
  have hfirst : isMatch "lib/***" "lib/" = true := by decide +kernel
  have hsecond : isMatch "*?.jar" "é*.jar" = true := by decide +kernel
  have hrun : "lib/***" = "lib/" ++ String.ofList (List.replicate (2 + 1) '*') ++ "" := by
    decide +kernel
  rcases isMatch_exact "lib/***" "lib/" with ⟨_, _, hstars, hjoin⟩
  exact ⟨hfirst, hsecond, hrun, hstars _ _ _ hrun, hjoin _ _ hfirst hsecond⟩

end Glob

end NestedZip
