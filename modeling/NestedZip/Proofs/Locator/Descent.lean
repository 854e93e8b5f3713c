import NestedZip.Proofs.Locator.Segments

/-!
# Reading from the Last Separator

A locator is a container, a separator and a name in it, and the container is a
root or again a locator.

Taken at its word this is another way to read a text: cut it at its last
separator, read what is in front in the same way, and take the entry found there
for the archive that the name behind the separator is in. It comes to the root
last, while `decode` starts with it. The two agree on every text, also on which
of several faults they report, since the descent cannot report anything before
it has been at the root, and then comes back through the names from the front.

What is in front of a separator must name an archive. That an entry is missing
there is no fault for the root, and only for the root, which is why the descent
has to ask whether the container has a separator of its own.

## Main definitions

* `Locator.cutLast?`: What stands in front of the last separator, and behind it.
* `Locator.archivesAround`: The archives to descend through to a name in a container.
* `Locator.readContainer`, `Locator.decodeFromLast`: The descent.

## Theorems

* `Locator.cutLast?_eq_some`: Behind the last separator there is no other.
* `Locator.decodeNames_concat`: One more name behind some names.
* `Locator.decodeFromLast_eq`: The descent reads what reading from the front reads.
-/

namespace NestedZip

namespace Locator

/-- What stands in front of the last separator of a text, and behind it. -/
def cutLast? : List Char → Option (List Char × List Char)
  | [] => none
  | c :: rest =>
    match cutLast? rest with
    | some (front, last) => some (c :: front, last)
    | none => if separatorChars.isPrefixOf (c :: rest) then some ([], rest.tail) else none

theorem cutLast?_cons_of_some {c : Char} {rest front last : List Char}
    (h : cutLast? rest = some (front, last)) : cutLast? (c :: rest) = some (c :: front, last) := by
  rw [cutLast?, h]

theorem cutLast?_cons_of_none {c : Char} {rest : List Char} (h : cutLast? rest = none) :
    cutLast? (c :: rest) =
      if separatorChars.isPrefixOf (c :: rest) then some ([], rest.tail) else none := by
  rw [cutLast?, h]

/-- Only a text without a separator has no last one. -/
theorem unsplit_of_cutLast? {text : List Char} (h : cutLast? text = none) :
    ¬ separatorChars <:+: text := by
  induction text with
  | nil => exact unsplit_of_not_mem List.not_mem_nil
  | cons c rest ih =>
      -- There is a cut behind this character or there is none, and then it is here or nowhere.
      rcases hrest : cutLast? rest with _ | ⟨front, last⟩
      · rw [cutLast?_cons_of_none hrest] at h
        by_cases hfront : separatorChars.isPrefixOf (c :: rest)
        · rw [if_pos hfront] at h
          exact absurd h (by simp only [reduceCtorEq, not_false_eq_true])
        · rw [List.isPrefixOf_iff_prefix] at hfront
          rw [List.infix_cons_iff, not_or]
          exact ⟨hfront, ih hrest⟩
      · rw [cutLast?_cons_of_some hrest] at h
        exact absurd h (by simp only [reduceCtorEq, not_false_eq_true])

/-- Behind the last separator there is no other. -/
theorem cutLast?_eq_some {text front last : List Char} (h : cutLast? text = some (front, last)) :
    text = front ++ '!' :: '/' :: last ∧ ¬ separatorChars <:+: last := by
  induction text generalizing front with
  | nil => exact absurd h (by simp only [cutLast?, reduceCtorEq, not_false_eq_true])
  | cons c rest ih =>
      rcases hrest : cutLast? rest with _ | ⟨before, behind⟩
      · rw [cutLast?_cons_of_none hrest] at h
        by_cases hfront : separatorChars.isPrefixOf (c :: rest)
        · -- The separator that is in front of all others is the last one, if it is the only one.
          rw [if_pos hfront, Option.some.injEq, Prod.mk.injEq] at h
          rcases h with ⟨rfl, rfl⟩
          rcases List.isPrefixOf_iff_prefix.mp hfront with ⟨tail, htail⟩
          rw [separatorChars, List.cons_append, List.cons.injEq] at htail
          rcases htail with ⟨rfl, rfl⟩
          refine ⟨rfl, fun hinside => unsplit_of_cutLast? hrest ?_⟩
          exact hinside.trans (List.suffix_cons '/' _).isInfix
        · rw [if_neg hfront] at h
          exact absurd h (by simp only [reduceCtorEq, not_false_eq_true])
      · rw [cutLast?_cons_of_some hrest, Option.some.injEq, Prod.mk.injEq] at h
        rcases h with ⟨rfl, rfl⟩
        rcases ih hrest with ⟨rfl, hlast⟩
        exact ⟨rfl, hlast⟩

/-- A text has a last separator if it is cut into more than one piece. -/
theorem isSome_cutLast? {text root : List Char} {names : List (List Char)}
    (h : segments text = root :: names) : (cutLast? text).isSome = !names.isEmpty := by
  rcases hcut : cutLast? text with _ | ⟨front, last⟩
  · rw [segments_of_unsplit (unsplit_of_cutLast? hcut), List.cons.injEq] at h
    rw [← h.2]
    rfl
  · -- The text is cut, so there is a piece in front of the last one.
    rcases cutLast?_eq_some hcut with ⟨rfl, hlast⟩
    rw [segments_concat front hlast] at h
    cases names with
    | nil =>
        have hlength := congrArg List.length h
        rw [List.length_append, List.length_singleton, List.length_singleton] at hlength
        have hpos := List.length_pos_iff.mpr (segments_ne_nil front)
        omega
    | cons name names => rfl

/-- The archives of a container: an entry that is a container is one more. Only a
    root may be a container without naming an entry. -/
def archivesAround (text : String) (separated : Bool) (archives : List Bytes) :
    Option Bytes → Except Error (List Bytes)
  | some nested => .ok (archives ++ [nested])
  | none =>
    if !archives.isEmpty || separated then .error (.malformedLocator text .emptyNestedName)
    else .ok archives

/-- The entry that the last name stands for, unless it is empty. -/
def entryNamed (name : List Char) : Except Error (Option Bytes) :=
  if name.isEmpty then .ok none else some <$> Percent.decode (String.ofList name)

/-- Reads a root, or a container and then a name in it. -/
def readContainer (text : String) (body : List Char) : Except Error Locator :=
  match _hcut : cutLast? body with
  | none =>
    if body.isEmpty then .error (.malformedLocator text .emptyRoot)
    else .ok { root := String.ofList body }
  | some (container, name) => do
    let inner ← readContainer text container
    let archives ←
      archivesAround text (cutLast? container).isSome inner.archives inner.entry
    let entry ← entryNamed name
    return { root := inner.root, archives, entry }
termination_by body.length
decreasing_by
  rw [(cutLast?_eq_some _hcut).1, List.length_append, List.length_cons]
  omega

/-- Reads a locator, the last name last. -/
def decodeFromLast (text : String) : Except Error Locator :=
  let body := dropScheme text.toList
  if (cutLast? body).isSome then readContainer text body
  else .error (.malformedLocator text .noSeparator)

theorem entryNamed_of_ne_nil {name : List Char} (hne : ¬ name.isEmpty) :
    entryNamed name = some <$> Percent.decode (String.ofList name) := if_neg hne

/-- The last piece is the entry, or nothing. -/
theorem decodeNames_singleton (text : String) (last : List Char) :
    decodeNames text [last] = (do
      let entry ← entryNamed last
      return ([], entry)) := by
  rw [decodeNames]
  -- A trailing separator leaves an empty name, and that names the archive.
  by_cases hempty : last.isEmpty
  · rw [if_pos hempty, entryNamed, if_pos hempty]
    rfl
  · rw [if_neg hempty, entryNamed_of_ne_nil hempty]
    cases Percent.decode (String.ofList last) with
    | error e => rfl
    | ok name => rfl

/-- Any other piece is a nested archive, which has a name. -/
theorem decodeNames_cons (text : String) (piece : List Char) {names : List (List Char)}
    (hne : names ≠ []) :
    decodeNames text (piece :: names) =
      if piece.isEmpty then .error (.malformedLocator text .emptyNestedName)
      else do
        let archive ← Percent.decode (String.ofList piece)
        let (archives, entry) ← decodeNames text names
        return (archive :: archives, entry) :=
  decodeNames.eq_3 text piece names hne

/-- Behind a name there is always a separator. -/
theorem archivesAround_cons (text : String) (archive : Bytes) (archives : List Bytes)
    (entry : Option Bytes) :
    archivesAround text true (archive :: archives) entry =
      (archive :: ·) <$> archivesAround text true archives entry := by
  cases entry with
  | none =>
      simp only [archivesAround, Bool.or_true, if_true]
      rfl
  | some nested => rfl

/-- One more name makes an archive of the entry that was named so far. -/
theorem decodeNames_concat (text : String) (front : List (List Char)) (last : List Char) :
    decodeNames text (front ++ [last]) = (do
      let (archives, entry) ← decodeNames text front
      let archives ← archivesAround text (!front.isEmpty) archives entry
      let entry ← entryNamed last
      return (archives, entry)) := by
  induction front with
  | nil => exact decodeNames_singleton text last
  | cons piece front ih =>
      rw [List.cons_append, decodeNames_cons text piece (by simp)]
      -- The last of the names in front is the one that may still turn out to be missing.
      cases front with
      | nil =>
          rw [List.nil_append, decodeNames_singleton, decodeNames_singleton]
          by_cases hempty : piece.isEmpty
          · rw [if_pos hempty]
            simp only [entryNamed, hempty, if_true]
            rfl
          · rw [if_neg hempty, entryNamed_of_ne_nil hempty]
            cases Percent.decode (String.ofList piece) with
            | error e => rfl
            | ok archive =>
                cases entryNamed last with
                | error e => rfl
                | ok entry => rfl
      | cons second front =>
          rw [decodeNames_cons text piece (List.cons_ne_nil _ _), ih]
          by_cases hempty : piece.isEmpty
          · rw [if_pos hempty, if_pos hempty]
            rfl
          · rw [if_neg hempty, if_neg hempty]
            cases Percent.decode (String.ofList piece) with
            | error e => rfl
            | ok archive =>
                rcases decodeNames text (second :: front) with e | ⟨archives, entry⟩
                · rfl
                · simp only [List.isEmpty_cons, Bool.not_false, except_ok_bind, pure_bind,
                    archivesAround_cons]
                  cases archivesAround text true archives entry with
                  | error e => rfl
                  | ok around =>
                      cases entryNamed last with
                      | error e => rfl
                      | ok entry => rfl

/-- A piece more at the end turns the entry of what is in front into an archive. -/
theorem ofPieces_concat (text : String) (root : List Char) (front : List (List Char))
    (last : List Char) :
    ofPieces text root (front ++ [last]) = (do
      let inner ← ofPieces text root front
      let archives ← archivesAround text (!front.isEmpty) inner.archives inner.entry
      let entry ← entryNamed last
      return { root := inner.root, archives, entry }) := by
  unfold ofPieces
  by_cases hempty : root.isEmpty
  · rw [if_pos hempty, if_pos hempty]
    rfl
  · rw [if_neg hempty, if_neg hempty, decodeNames_concat]
    -- A fault in the names in front is found first, in both ways of reading.
    rcases decodeNames text front with e | ⟨archives, entry⟩
    · rfl
    · simp only [except_ok_bind, pure_bind]
      cases archivesAround text (!front.isEmpty) archives entry with
      | error e => rfl
      | ok around =>
          cases entryNamed last with
          | error e => rfl
          | ok entry => rfl

/-- A container is read as its root and the names behind it, one after the other. -/
theorem readContainer_eq (text : String) {body root : List Char} {names : List (List Char)}
    (h : segments body = root :: names) : readContainer text body = ofPieces text root names := by
  -- The cases are the stops of the descent: a root, none, or a name behind a container.
  fun_induction readContainer text body generalizing names with
  | case1 body hcut hempty =>
      rw [segments_of_unsplit (unsplit_of_cutLast? hcut), List.cons.injEq] at h
      rcases h with ⟨rfl, rfl⟩
      rw [ofPieces, if_pos hempty]
  | case2 body hcut hempty =>
      rw [segments_of_unsplit (unsplit_of_cutLast? hcut), List.cons.injEq] at h
      rcases h with ⟨rfl, rfl⟩
      rw [ofPieces, if_neg hempty]
      rfl
  | case3 body container name hcut ih =>
      rcases cutLast?_eq_some hcut with ⟨rfl, hname⟩
      rcases hcontainer : segments container with _ | ⟨first, front⟩
      · exact absurd hcontainer (segments_ne_nil container)
      rw [segments_concat container hname, hcontainer, List.cons_append, List.cons.injEq] at h
      rcases h with ⟨rfl, rfl⟩
      rw [ofPieces_concat, ih hcontainer, isSome_cutLast? hcontainer]

/-- Whether the last separator is looked for first or the root, a text is read as
    the same locator, or refused for the same reason. -/
theorem decodeFromLast_eq (text : String) : decodeFromLast text = decode text := by
  unfold decodeFromLast
  rcases hpieces : segments (dropScheme text.toList) with _ | ⟨root, names⟩
  · exact absurd hpieces (segments_ne_nil _)
  simp only [isSome_cutLast? hpieces]
  -- Cutting at the last separator finds one exactly if there are names behind the root.
  cases names with
  | nil =>
      rw [decode_of_segments_singleton hpieces]
      rfl
  | cons name names =>
      rw [decode_of_segments hpieces (List.cons_ne_nil _ _), ← readContainer_eq text hpieces]
      rfl

end Locator

end NestedZip
