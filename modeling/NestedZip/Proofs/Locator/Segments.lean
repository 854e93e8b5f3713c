import NestedZip.Proofs.Locator

/-!
# Cutting at the Separators

What the segments of a text are, said without cutting it.

A cut of a text is a row of pieces that gives the text back when the pieces are
put together with a separator between them, and no piece holds a separator
itself. A text has exactly one cut, because two separators never overlap: the
one starts with an exclamation mark, and what follows it is a slash. So it makes
no difference in which order the separators are looked for, and whatever is
proved of the cut holds of a reader that goes from left to right as well as of
one that starts with the last separator.

## Main definitions

* `Locator.Cut`: A row of pieces that a text is cut into.
* `Locator.ofPieces`: What a root and the pieces behind it are read as.

## Theorems

* `Locator.intercalate_segments`: The segments put together are the text.
* `Locator.unsplit_of_mem_segments`: No segment holds a separator.
* `Locator.segments_intercalate`: Pieces that were put together are found again.
* `Locator.cut_iff`: The segments are the only cut.
* `Locator.segments_concat`: What stands behind the last separator.
* `Locator.decode_of_segments`: A text is read by its segments.
-/

namespace NestedZip

namespace Locator

/-- The pieces of a text between its separators, from left to right. -/
structure Cut (text : List Char) (pieces : List (List Char)) : Prop where
  nonempty : pieces ≠ []
  joined : separatorChars.intercalate pieces = text
  unsplit : ∀ piece ∈ pieces, ¬ separatorChars <:+: piece

/-- There is always a piece, be it empty. -/
theorem segments_ne_nil (text : List Char) : segments text ≠ [] := by
  fun_induction segments text with
  | case1 => exact List.cons_ne_nil _ _
  | case2 => exact List.cons_ne_nil _ _
  | case3 => exact List.cons_ne_nil _ _
  | case4 => exact List.cons_ne_nil _ _

theorem intercalate_cons_cons (first second : List Char) (pieces : List (List Char)) :
    separatorChars.intercalate (first :: second :: pieces) =
      first ++ '!' :: '/' :: separatorChars.intercalate (second :: pieces) := by
  rw [List.intercalate_cons_cons, List.append_assoc]
  rfl

/-- The first piece is in front of all that is put together. -/
theorem prefix_intercalate (first : List Char) (pieces : List (List Char)) :
    first <+: separatorChars.intercalate (first :: pieces) := by
  cases pieces with
  | nil => exact ⟨[], by rw [List.append_nil, List.intercalate_singleton]⟩
  | cons second pieces =>
      rw [intercalate_cons_cons]
      exact List.prefix_append first _

/-- A character in front belongs to the first piece. -/
theorem intercalate_cons_char (c : Char) (first : List Char) (pieces : List (List Char)) :
    separatorChars.intercalate ((c :: first) :: pieces) =
      c :: separatorChars.intercalate (first :: pieces) := by
  cases pieces with
  | nil => rw [List.intercalate_singleton, List.intercalate_singleton]
  | cons second pieces => rw [intercalate_cons_cons, intercalate_cons_cons, List.cons_append]

/-- The segments put together with separators are the text. -/
theorem intercalate_segments (text : List Char) :
    separatorChars.intercalate (segments text) = text := by
  fun_induction segments text with
  | case1 => rfl
  | case2 rest ih =>
      rcases hrest : segments rest with _ | ⟨first, pieces⟩
      · exact absurd hrest (segments_ne_nil rest)
      · rw [intercalate_cons_cons, ← hrest, ih, List.nil_append]
  -- A text that is cut has a piece, so this case does not happen.
  | case3 c rest _ hnil ih => exact absurd hnil (segments_ne_nil rest)
  | case4 c rest _ first pieces hrest ih =>
      rw [intercalate_cons_char, ← hrest, ih]

/-- The first segment is in front of the whole text. -/
theorem prefix_of_segments {text first : List Char} {pieces : List (List Char)}
    (h : segments text = first :: pieces) : first <+: text := by
  rw [← intercalate_segments text, h]
  exact prefix_intercalate first pieces

/-- No piece has a separator inside. -/
theorem unsplit_of_mem_segments {text piece : List Char} (h : piece ∈ segments text) :
    ¬ separatorChars <:+: piece := by
  fun_induction segments text generalizing piece with
  | case1 =>
      rw [List.mem_singleton.mp h]
      exact unsplit_of_not_mem List.not_mem_nil
  | case2 rest ih =>
      rcases List.mem_cons.mp h with rfl | hmem
      · exact unsplit_of_not_mem List.not_mem_nil
      · exact ih hmem
  | case3 c rest _ hnil _ => exact absurd hnil (segments_ne_nil rest)
  | case4 c rest hother first pieces hrest ih =>
      rcases List.mem_cons.mp h with rfl | hmem
      · intro hinside
        rcases List.infix_cons_iff.mp hinside with ⟨tail, htail⟩ | hlater
        · -- Then the text itself starts with a separator, and was cut right there.
          rcases prefix_of_segments hrest with ⟨more, rfl⟩
          rw [separatorChars, List.cons_append, List.cons.injEq] at htail
          rcases htail with ⟨rfl, rfl⟩
          exact hother _ rfl rfl
        · exact ih (by rw [hrest]; exact List.mem_cons_self) hlater
      · exact ih (by rw [hrest]; exact List.mem_cons_of_mem first hmem)

/-- Pieces without separators that were put together are found again. -/
theorem segments_intercalate {pieces : List (List Char)} (hne : pieces ≠ [])
    (h : ∀ piece ∈ pieces, ¬ separatorChars <:+: piece) :
    segments (separatorChars.intercalate pieces) = pieces := by
  induction pieces with
  | nil => exact absurd rfl hne
  | cons first pieces ih =>
      have hfirst := h first List.mem_cons_self
      cases pieces with
      | nil => rw [List.intercalate_singleton, segments_of_unsplit hfirst]
      | cons second pieces =>
          rw [intercalate_cons_cons, segments_append hfirst,
            ih (List.cons_ne_nil _ _) fun piece hmem => h piece (List.mem_cons_of_mem first hmem)]

/-- The segments are the one row of pieces that a text is cut into. -/
theorem cut_iff {text : List Char} {pieces : List (List Char)} :
    Cut text pieces ↔ pieces = segments text := by
  constructor
  · intro hcut
    rw [← hcut.joined, segments_intercalate hcut.nonempty hcut.unsplit]
  · rintro rfl
    exact ⟨segments_ne_nil text, intercalate_segments text, fun _ => unsplit_of_mem_segments⟩

/-- One piece more comes behind a separator. -/
theorem intercalate_concat {pieces : List (List Char)} (hne : pieces ≠ []) (last : List Char) :
    separatorChars.intercalate (pieces ++ [last]) =
      separatorChars.intercalate pieces ++ '!' :: '/' :: last := by
  induction pieces with
  | nil => exact absurd rfl hne
  | cons first pieces ih =>
      cases pieces with
      | nil =>
          rw [List.singleton_append, intercalate_cons_cons, List.intercalate_singleton,
            List.intercalate_singleton]
      | cons second pieces =>
          rw [List.cons_append, List.cons_append, intercalate_cons_cons, ← List.cons_append,
            ih (List.cons_ne_nil _ _), intercalate_cons_cons, List.append_assoc, List.cons_append,
            List.cons_append]

/-- What stands behind the last separator is the last segment. -/
theorem segments_concat (front : List Char) {last : List Char}
    (hlast : ¬ separatorChars <:+: last) :
    segments (front ++ '!' :: '/' :: last) = segments front ++ [last] := by
  have hne := segments_ne_nil front
  -- Joined they are the text and none has a separator inside, and only the cut is like that.
  refine (cut_iff.mp ⟨List.append_ne_nil_of_left_ne_nil hne _, ?_, ?_⟩).symm
  · rw [intercalate_concat hne, intercalate_segments]
  · intro piece hmem
    rcases List.mem_append.mp hmem with hfront | hend
    · exact unsplit_of_mem_segments hfront
    · rw [List.mem_singleton.mp hend]
      exact hlast

/-- The scheme is dropped once, and only in front. -/
theorem dropScheme_eq (text : List Char) :
    dropScheme text = if ['j', 'a', 'r', ':'] <+: text then text.drop 4 else text := by
  by_cases h : ['j', 'a', 'r', ':'] <+: text
  · rw [if_pos h]
    rcases h with ⟨rest, rfl⟩
    rfl
  · rw [if_neg h, dropScheme.eq_2]
    rintro rest rfl
    exact h ⟨rest, rfl⟩

/-- What a root and the pieces behind it are read as. -/
def ofPieces (text : String) (root : List Char) (names : List (List Char)) :
    Except Error Locator :=
  if root.isEmpty then .error (.malformedLocator text .emptyRoot)
  else do
    let (archives, entry) ← decodeNames text names
    return { root := String.ofList root, archives, entry }

theorem decode_of_segments {text : String} {root : List Char} {names : List (List Char)}
    (h : segments (dropScheme text.toList) = root :: names) (hne : names ≠ []) :
    decode text = ofPieces text root names := by
  unfold decode ofPieces
  cases names with
  | nil => exact absurd rfl hne
  | cons name names => rw [h]

/-- Pieces make a locator if the first one is its root and the others are its names. -/
theorem ofPieces_eq_ok_iff {text : String} {root : List Char} {names : List (List Char)}
    {l : Locator} :
    ofPieces text root names = .ok l ↔
      root ≠ [] ∧ root = l.root.toList ∧ decodeNames text names = .ok (l.archives, l.entry) := by
  unfold ofPieces
  by_cases hempty : root.isEmpty
  · -- Nothing is opened without a root.
    rw [if_pos hempty]
    rw [List.isEmpty_iff] at hempty
    exact ⟨fun h => absurd h error_ne_ok, fun h => absurd hempty h.1⟩
  · rw [if_neg hempty, except_bind_eq_ok_iff]
    rw [List.isEmpty_iff] at hempty
    constructor
    · rintro ⟨⟨archives, entry⟩, hnames, hresult⟩
      rw [← Except.ok.inj hresult]
      exact ⟨hempty, String.toList_ofList.symm, hnames⟩
    · rintro ⟨_, rfl, hnames⟩
      exact ⟨_, hnames, by rw [String.ofList_toList]; rfl⟩

/-- A text without a separator is not read. -/
theorem decode_of_segments_singleton {text : String} {root : List Char}
    (h : segments (dropScheme text.toList) = [root]) :
    decode text = .error (.malformedLocator text .noSeparator) := by
  unfold decode
  rw [h]

end Locator

end NestedZip
