import NestedZip.Proofs.Locator.Grammar

/-!
# Moving among Written Locators

Only a locator that can be written is read back, and moving keeps it so.

That a locator can be written is all that `decode_toString` needs. Nothing less
would do: what reading gives has a root that was a segment in front of others,
so it is not empty and holds no separator, and names that were pieces, so none
of them is empty. The one condition that does not come from the cut is that on
the scheme. A root with the scheme in front loses it in reading, and comes back
shorter than it was.

A move goes down to a name, up to where the name was found, or to the archive
that holds it. Going down brings in one name and going up takes it out again,
and none of them touches the root. So from a locator that can be written, every
walk that names what it goes down to ends at one that can be written.

## Main definitions

* `Locator.Move`: One step down, up, or to the archive.
* `Locator.walk`: Some steps, one after the other.

## Theorems

* `Locator.decode_toString_iff`: Which locators are read back.
* `Locator.Readable.of_move`: What one step keeps.
* `Locator.Readable.of_walk`: What a walk keeps.
* `Locator.reads_back_along_walks`: Which locators are read back, before and after
  a walk.
-/

namespace NestedZip

namespace Locator

/-- A root is read back only without the scheme, which would be dropped. -/
theorem unschemed_of_segments {text root : List Char} {rest : List Char}
    {names : List (List Char)} (htext : text = root ++ '!' :: '/' :: rest)
    (hroot : ¬ separatorChars <:+: root) (h : segments (dropScheme text) = root :: names) :
    ¬ ['j', 'a', 'r', ':'] <+: root := by
  rintro ⟨bare, rfl⟩
  have hbare : ¬ separatorChars <:+: bare := fun hinside =>
    hroot (hinside.trans (List.suffix_append ['j', 'a', 'r', ':'] bare).isInfix)
  have hdrop : dropScheme text = bare ++ '!' :: '/' :: rest := by
    rw [htext]
    rfl
  rw [hdrop, segments_append hbare, List.cons.injEq] at h
  -- What is left of the root would be as long as the root with the scheme.
  have hlength := congrArg List.length h.1
  rw [List.length_append, List.length_cons] at hlength
  omega

/-- Just the locators that can be written are read back. -/
theorem decode_toString_iff {l : Locator} : decode l.toString = .ok l ↔ l.Readable := by
  refine ⟨fun h => ?_, decode_toString⟩
  rcases sound_of_decode h with ⟨hroot, hunsplit, harchives, hentry⟩
  rcases decode_eq_ok_iff.mp h with ⟨front, last, hpieces, _⟩
  -- Behind the root there is always a separator.
  have htext : ∃ rest, l.toString.toList = l.root.toList ++ '!' :: '/' :: rest := by
    rw [toList_toString]
    cases l.archives with
    | nil => exact ⟨l.lastChars, rfl⟩
    | cons name names =>
        rw [written, List.flatMap_cons, List.cons_append, List.cons_append]
        exact ⟨_, rfl⟩
  rcases htext with ⟨rest, htext⟩
  exact ⟨hroot, hunsplit, unschemed_of_segments htext hunsplit hpieces, harchives, hentry⟩

/-- A step from one locator to another. -/
inductive Move
  | down (name : Bytes)
  | up
  | archive
deriving DecidableEq, Repr

namespace Move

/-- Where a step leads. Nothing is above the root archive. -/
def apply (l : Locator) : Move → Option Locator
  | down name => some (l.join name)
  | up => l.parent?
  | archive => some l.archiveLocator

/-- A step down goes to a name that is not empty. -/
def Named : Move → Prop
  | down name => name ≠ []
  | up => True
  | archive => True

instance (move : Move) : Decidable move.Named :=
  match move with
  | down name => inferInstanceAs (Decidable (name ≠ []))
  | up => inferInstanceAs (Decidable True)
  | archive => inferInstanceAs (Decidable True)

end Move

/-- Where some steps lead, one after the other. -/
def walk (l : Locator) (moves : List Move) : Option Locator := moves.foldlM Move.apply l

/-- A readable locator stays one when a name is joined to it. -/
theorem Readable.join {l : Locator} (hl : l.Readable) {name : Bytes} (hname : name ≠ []) :
    (l.join name).Readable where
  root := hl.root
  unsplit := hl.unsplit
  unschemed := hl.unschemed
  archives := fun archive hmem => by
    rcases List.mem_append.mp hmem with harchive | hentry
    · exact hl.archives archive harchive
    · exact hl.entry archive (Option.mem_toList.mp hentry)
  entry := fun entry hentry => by
    rw [← Option.some.inj hentry]
    exact hname

theorem Readable.archiveLocator {l : Locator} (hl : l.Readable) : l.archiveLocator.Readable where
  root := hl.root
  unsplit := hl.unsplit
  unschemed := hl.unschemed
  archives := hl.archives
  entry := fun _ hentry => absurd hentry (by simp only [Locator.archiveLocator, reduceCtorEq,
    not_false_eq_true])

/-- The entry of what is above an archive is the last of the archives. -/
theorem Readable.parent {l p : Locator} (hl : l.Readable) (h : l.parent? = some p) :
    p.Readable := by
  unfold parent? at h
  -- Above an entry is its archive, and above an archive the entry that it is stored as.
  cases hentry : l.entry with
  | some name =>
      rw [hentry] at h
      rw [← Option.some.inj h]
      exact hl.archiveLocator
  | none =>
      rw [hentry] at h
      rcases Option.map_eq_some_iff.mp h with ⟨last, hlast, rfl⟩
      exact
        { root := hl.root
          unsplit := hl.unsplit
          unschemed := hl.unschemed
          archives := fun name hname =>
            hl.archives name ((List.dropLast_sublist l.archives).subset hname)
          entry := fun name hname => by
            rw [← Option.some.inj hname]
            exact hl.archives last (List.mem_of_getLast? hlast) }

/-- What one step keeps. -/
theorem Readable.of_move {l m : Locator} {move : Move} (hl : l.Readable) (hmove : move.Named)
    (h : move.apply l = some m) : m.Readable := by
  cases move with
  | down name =>
      rw [← Option.some.inj h]
      exact hl.join hmove
  | up => exact hl.parent h
  | archive =>
      rw [← Option.some.inj h]
      exact hl.archiveLocator

/-- What a walk keeps. -/
theorem Readable.of_walk {l m : Locator} {moves : List Move} (hl : l.Readable)
    (hmoves : ∀ move ∈ moves, move.Named) (h : l.walk moves = some m) : m.Readable := by
  induction moves generalizing l with
  | nil =>
      rw [← Option.some.inj h]
      exact hl
  | cons move moves ih =>
      rw [List.forall_mem_cons] at hmoves
      rcases Option.bind_eq_some_iff.mp h with ⟨next, hnext, hrest⟩
      exact ih (hl.of_move hmoves.1 hnext) hmoves.2 hrest

/-- A locator is read back from its written form just if it can be written. Going
    down to a name, going up and going to the archive lead from such locators to
    such locators only, and so does any walk made of these. -/
theorem reads_back_along_walks :
    (∀ l : Locator, decode l.toString = .ok l ↔ l.Readable) ∧
    (∀ l : Locator, l.Readable →
      (∀ name, name ≠ [] → (l.join name).Readable) ∧
      (∀ p, l.parent? = some p → p.Readable) ∧ l.archiveLocator.Readable) ∧
    ∀ (l m : Locator) (moves : List Move), l.Readable → (∀ move ∈ moves, move.Named) →
      l.walk moves = some m → m.Readable ∧ decode m.toString = .ok m :=
  ⟨fun _ => decode_toString_iff,
    fun _ hl => ⟨fun _ => hl.join, fun _ => hl.parent, hl.archiveLocator⟩,
    fun _ _ _ hl hmoves h => ⟨hl.of_walk hmoves h, decode_toString (hl.of_walk hmoves h)⟩⟩

/-- The root of this locator ends in an exclamation mark, its archive is called
    `!/`, and the walk goes through a name that is not text. -/
theorem reads_back_odd_names :
    ∃ m : Locator,
      ({ root := "file:/a!", archives := [[0x21, 0x2F]] } : Locator).walk
        [.down [0xFF], .down [0x25], .up, .up, .archive] = some m ∧
      m.Readable ∧ decode m.toString = .ok m := by
  have hl : ({ root := "file:/a!", archives := [[0x21, 0x2F]] } : Locator).Readable :=
    reads_back_along_walks.1 _ |>.mp (by decide +kernel)
  exact ⟨_, rfl, reads_back_along_walks.2.2 _ _ [.down [0xFF], .down [0x25], .up, .up, .archive]
    hl (by decide) rfl⟩

end Locator

end NestedZip
