import NestedZip.Proofs.InPlace.Stream

/-!
# Windows at Two Places

Two windows that show the same bytes, one of them further into its source than
the other, and what is read through them.

A failure tells at which place of the source it arose, so two runs over such
windows cannot fail alike to the letter. Two failures are the same if nothing
but this place sets them apart, and `Metered.Agree` says of two whole runs that
they fetch as much and have the same failure, or answers in a given relation.
The relation differs from one operation to the next, so composing two steps is
one lemma for all of them, `Metered.Agree.bind`.

## Main definitions

* `Error.placeless`: A failure without the place of the source it arose at.
* `Metered.Agree`: Two runs that cannot be told apart.
* `Window.Mirrors`: Two windows that show the same bytes.

## Theorems

* `Metered.Agree.bind`: Runs that agree, one after the other.
* `Window.Mirrors.carve`: Windows inside mirrored windows are mirrored.
* `Window.Mirrors.readExactAt`: Reading at a position.
* `Window.Mirrors.deliver`: Reading from front to back, inflated or not, however that is
  done.
-/

namespace NestedZip

/-- A failure without the place of the source at which it arose. -/
def Error.placeless : Error → Error
  | .outOfBounds name _ length available => .outOfBounds name 0 length available
  | .notRandomAccess name _ => .notRandomAccess name 0
  | e => e

namespace Metered

variable {α β γ δ : Type}

/-- Answers in the relation, or failures that differ at most in their place. -/
inductive SameOutcome (R : α → β → Prop) : Except Error α → Except Error β → Prop
  | ok {a : α} {b : β} : R a b → SameOutcome R (.ok a) (.ok b)
  | error {e f : Error} : e.placeless = f.placeless → SameOutcome R (.error e) (.error f)

/-- Two runs with the same outcome for the same price. -/
structure Agree (R : α → β → Prop) (m : Metered Error α) (n : Metered Error β) : Prop where
  fetched : m.fetched = n.fetched
  outcome : SameOutcome R m.outcome n.outcome

theorem agree_pure {R : α → β → Prop} {a : α} {b : β} (h : R a b) :
    Agree R (pure a : Metered Error α) (pure b) := ⟨rfl, .ok h⟩

theorem agree_fail {R : α → β → Prop} {e f : Error} (h : e.placeless = f.placeless) :
    Agree R (fail e : Metered Error α) (fail f) := ⟨rfl, .error h⟩

theorem agree_ofExcept {R : α → β → Prop} {x : Except Error α} {y : Except Error β}
    (h : SameOutcome R x y) : Agree R (ofExcept x) (ofExcept y) := ⟨rfl, h⟩

/-- Whatever is measured agrees with itself. -/
theorem agree_refl (m : Metered Error α) : Agree Eq m m := by
  refine ⟨rfl, ?_⟩
  rcases m.outcome with e | a
  · exact .error rfl
  · exact .ok rfl

/-- What agrees under a relation agrees under a weaker one. -/
theorem SameOutcome.mono {R S : α → β → Prop} (hRS : ∀ a b, R a b → S a b)
    {x : Except Error α} {y : Except Error β} (h : SameOutcome R x y) : SameOutcome S x y := by
  cases h with
  | ok hab => exact .ok (hRS _ _ hab)
  | error he => exact .error he

theorem Agree.mono {R S : α → β → Prop} (hRS : ∀ a b, R a b → S a b) {m : Metered Error α}
    {n : Metered Error β} (h : Agree R m n) : Agree S m n :=
  ⟨h.fetched, h.outcome.mono hRS⟩

/-- Runs that agree may be followed by runs that agree on related answers. -/
theorem Agree.bind {R : α → β → Prop} {S : γ → δ → Prop} {m : Metered Error α}
    {n : Metered Error β} {f : α → Metered Error γ} {g : β → Metered Error δ} (h : Agree R m n)
    (hnext : ∀ a b, R a b → Agree S (f a) (g b)) : Agree S (m >>= f) (n >>= g) := by
  have houtcome := h.outcome
  generalize hm : m.outcome = here at houtcome
  generalize hn : n.outcome = there at houtcome
  -- What is done next is done in both or in neither.
  cases houtcome with
  | ok hab =>
      have hboth := hnext _ _ hab
      rw [bind_of_ok hm, bind_of_ok hn, h.fetched, hboth.fetched]
      exact ⟨rfl, hboth.outcome⟩
  | error he =>
      rw [bind_of_error hm, bind_of_error hn, h.fetched]
      exact ⟨rfl, .error he⟩

end Metered

/-- Two windows that show the same bytes of sources of one name. The first one is
    further into its source by `shift`. -/
structure Window.Mirrors (shift : Nat) (w v : Window) : Prop where
  identity : w.identity = v.identity
  offset : w.offset = v.offset + shift
  length : w.length = v.length
  inflatedSize : w.inflatedSize = v.inflatedSize
  stream : w.stream.Mirrors v.stream

namespace Window.Mirrors

variable {shift : Nat} {w v : Window}

theorem bytes (h : w.Mirrors shift v) : w.bytes = v.bytes := by
  rw [← left_stream, ← left_stream, h.stream.left]

theorem size (h : w.Mirrors shift v) : w.size = v.size := by
  rw [Window.size, Window.size, h.inflatedSize, h.length]

theorem isCompressed (h : w.Mirrors shift v) : w.isCompressed = v.isCompressed :=
  congrArg Option.isSome h.inflatedSize

theorem intact (h : w.Mirrors shift v) (hplain : v.inflatedSize = none) : w.Intact :=
  ⟨h.inflatedSize.trans hplain, h.stream.sound.within, h.stream.sound.flowing⟩

theorem intact' (h : w.Mirrors shift v) (hplain : v.inflatedSize = none) : v.Intact :=
  ⟨hplain, h.stream.sound'.within, h.stream.sound'.flowing⟩

/-- Two intact windows are mirrored if they show the same bytes. -/
theorem of_intact (hw : w.Intact) (hv : v.Intact) (hidentity : w.identity = v.identity)
    (hoffset : w.offset = v.offset + shift) (hbytes : w.bytes = v.bytes)
    (hperRead : w.backing.perRead = v.backing.perRead) : w.Mirrors shift v := by
  refine ⟨hidentity, hoffset, ?_, hw.plain.trans hv.plain.symm, ?_⟩
  · rw [← length_bytes hw, ← length_bytes hv, hbytes]
  · exact ⟨by rw [left_stream, left_stream, hbytes], hperRead, sound_stream hw, sound_stream hv⟩

theorem inflating (h : w.Mirrors shift v) (size : Nat) :
    (w.inflating size).Mirrors shift (v.inflating size) :=
  ⟨h.identity, h.offset, h.length, rfl, h.stream⟩

/-- The parts at the same place of two windows are related as the windows are. -/
theorem part (h : w.Mirrors shift v) (hplain : v.inflatedSize = none) (offset length : Nat)
    (hfits : offset + length ≤ v.length) :
    (w.part offset length).Mirrors shift (v.part offset length) := by
  have hfits' : offset + length ≤ w.length := by rw [h.length]; exact hfits
  refine of_intact ((h.intact hplain).part _ _ hfits') ((h.intact' hplain).part _ _ hfits)
    h.identity ?_ ?_ h.stream.perRead
  · -- The part starts as far behind its window on either side.
    have hoffset := h.offset
    change w.offset + offset = v.offset + offset + shift
    omega
  · rw [bytes_part w _ _ hfits', bytes_part v _ _ hfits, h.bytes]

/-- Carving succeeds in both windows or in neither. -/
theorem carve (h : w.Mirrors shift v) (offset length : Nat) :
    Metered.SameOutcome (Mirrors shift) (w.carve offset length) (v.carve offset length) := by
  rcases hplain : v.inflatedSize with _ | size
  · -- The lengths are equal, so a range fits in both or in neither.
    by_cases hfits : offset + length ≤ v.length
    · have hfits' : offset + length ≤ w.length := by rw [h.length]; exact hfits
      rw [carve_of_plain hplain _ _ hfits, carve_of_plain (h.intact hplain).plain _ _ hfits']
      exact .ok (h.part hplain _ _ hfits)
    · have hfits' : ¬ offset + length ≤ w.length := by rw [h.length]; exact hfits
      rw [carve_of_past hplain hfits, carve_of_past (h.intact hplain).plain hfits', h.identity,
        h.length]
      exact .error rfl
  · -- Only the place in the message is another one.
    rw [carve_of_compressed hplain, carve_of_compressed (h.inflatedSize.trans hplain), h.identity]
    exact .error rfl

/-- A read that is inside the windows is the same to the letter. -/
theorem readExactAt_of_fits (h : w.Mirrors shift v) (hplain : v.inflatedSize = none)
    {offset count : Nat} (hfits : offset + count ≤ v.length) :
    w.readExactAt offset count = v.readExactAt offset count := by
  rw [readExactAt_of_intact (h.intact hplain) _ _ (by rw [h.length]; exact hfits),
    readExactAt_of_intact (h.intact' hplain) _ _ hfits, h.bytes]

/-- Reading at the same place of both brings the same bytes for the same price. -/
theorem readExactAt (h : w.Mirrors shift v) (offset count : Nat) :
    Metered.Agree Eq (w.readExactAt offset count) (v.readExactAt offset count) := by
  by_cases hfits : v.inflatedSize = none ∧ offset + count ≤ v.length
  · rw [h.readExactAt_of_fits hfits.1 hfits.2]
    exact Metered.agree_refl _
  · -- Both windows refuse to be carved, and nothing is read.
    have hcarve := h.carve offset count
    unfold Window.readExactAt
    rcases hv : v.carve offset count with e | part
    · rcases hw : w.carve offset count with f | part
      · rw [hv, hw] at hcarve
        cases hcarve with
        | error he => exact ⟨rfl, .error he⟩
      · rw [hv, hw] at hcarve
        cases hcarve
    · rcases carve_eq_ok_iff.mp hv with ⟨hplain, hle, _⟩
      exact absurd ⟨hplain, hle⟩ hfits

/-- Reading from front to back is the same to the letter, inflated or not. The streams may be at
    different places, but what they bring is the same, and a decompressor is told no more. -/
theorem deliver (h : w.Mirrors shift v) (inflate : Decompressor) (sink : Sink) :
    w.deliver inflate sink = v.deliver inflate sink := by
  unfold Window.deliver
  rw [h.isCompressed, h.stream.raw, h.stream.drain]

/-- Both windows claim the same size, so a buffer for all their bytes can be made for both or for
    neither. -/
theorem readAll (h : w.Mirrors shift v) (inflate : Decompressor) :
    w.readAll inflate = v.readAll inflate := by
  unfold Window.readAll
  rw [h.size, h.deliver]

end Window.Mirrors

end NestedZip
