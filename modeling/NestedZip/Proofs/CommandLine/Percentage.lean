import Mathlib.Logic.Basic
import NestedZip.CommandLine.Listing
import NestedZip.Proofs.Checked.Arithmetic

/-!
# The Percentage That Is Saved

What a listing says is saved, and for which sizes it says the right thing.

The percentage is a quotient of a hundredfold, rounded in favour of what is
saved. In numbers that know no bound there is nothing to it: where the data got
no larger the quotient is at most a hundred, and so is what is left of a hundred.

A program computes it with words. The sizes are words, but the hundredfold of a
word need not be one, and this is the only step that can go wrong: the quotient
is small again, and taking it from a hundred never goes below zero. So the
percentage is the right one for the sizes whose hundredfold is a word. It is the
stored size that decides, and the largest that will do is a little over 184
petabytes.

For all larger ones it goes wrong, in one of two ways. A build with checked
arithmetic ends there. One with wrapping arithmetic has lost a multiple of the
first number that is no word. Since the other size is a word, the quotient is
then too small by at least one, and more is said to be saved than was.

## Main definitions

* `Checked.ofWord`: What a checked build computes, or the trap that it ends in.
* `Checked.mul`, `Checked.percentSaved`: The percentage with every step asked for.
* `Listing.percent`: The percentage in numbers that know no bound.
* `Listing.Fits`: Sizes of which the percentage can be taken.
* `Listing.savedText`, `Listing.wrappedText`: What the column for it should say, and what
  it says with wrapping arithmetic.
* `Listing.Exact`: What holds of the percentage of two sizes.

## Theorems

* `Listing.percent_mem`: It is a number from zero to a hundred.
* `Checked.percentSaved_eq`: Taking it from a hundred goes below zero for no sizes.
* `Listing.savedColumn_of_fits`, `Listing.savedColumn_of_not_fits`,
  `Listing.savedColumn_wrapping`: What the column says.
* `Listing.percent_lt_wrapped`: Wrapping arithmetic never hits the right percentage by
  chance.
* `Listing.exact_of_le`: The percentage of data that got no larger.
-/

namespace NestedZip

namespace Arithmetic

variable {o : Overflow} {n : Nat}

/-- No build does anything to a word. -/
theorem word_of_lt (a : Arithmetic) (h : n < wordLimit) : a.word o n = .ok n := if_pos h

theorem word_checked (o : Overflow) (n : Nat) :
    checked.word o n = if n < wordLimit then .ok n else .error o := rfl

/-- Wrapping takes the remainder, which is the number itself if that is a word. -/
theorem word_wrapping (o : Overflow) (n : Nat) : wrapping.word o n = .ok (n % wordLimit) := by
  by_cases h : n < wordLimit
  · rw [word_of_lt _ h, Nat.mod_eq_of_lt h]
  · exact if_neg h

end Arithmetic

namespace Checked

variable {ε α β : Type}

/-- What a checked build computes, or the trap if it ends in front of a number that is no
    word. -/
def ofWord : Except Overflow α → Checked ε α
  | .ok a => .ok a
  | .error _ => trap .overflow

@[simp]
theorem ofWord_ok (a : α) : (ofWord (.ok a) : Checked ε α) = .ok a := rfl

@[simp]
theorem ofWord_error (o : Overflow) : (ofWord (.error o) : Checked ε α) = trap .overflow := rfl

theorem ofWord_bind (x : Except Overflow α) (f : α → Except Overflow β) :
    (ofWord (x >>= f) : Checked ε β) = ofWord x >>= fun a => ofWord (f a) := by
  cases x <;> rfl

/-- The product of two words. -/
def mul (a b : Nat) : Checked ε Nat := if a * b < wordLimit then .ok (a * b) else trap .overflow

/-- A checked word is the number, or it traps where the number is no word. -/
theorem ofWord_word (o : Overflow) (n : Nat) :
    (ofWord (Arithmetic.checked.word o n) : Checked ε Nat) =
      if n < wordLimit then .ok n else trap .overflow := by
  rw [Arithmetic.word_checked]
  by_cases h : n < wordLimit
  · rw [if_pos h, if_pos h, ofWord_ok]
  · rw [if_neg h, if_neg h, ofWord_error]

theorem add_eq (o : Overflow) (a b : Nat) :
    (add a b : Checked ε Nat) = ofWord (Arithmetic.checked.word o (a + b)) :=
  (ofWord_word o (a + b)).symm

/-- The part that is saved, in percent. Every step that may leave the words is asked for. -/
def percentSaved (compressed size : Nat) : Checked ε Nat :=
  if 0 < size ∧ compressed ≤ size then do
    let hundredfold ← mul compressed 100
    sub 100 (hundredfold / size)
  else .ok 0

end Checked

namespace Listing

variable {compressed size : Nat}

/-- The part that is saved, in percent, whatever the sizes. -/
def percent (compressed size : Nat) : Int := 100 - 100 * (compressed : Int) / size

/-- The largest number whose hundredfold is a word. -/
def maxHundredth : Nat := 184467440737095516

/-- The percentage of these sizes can be taken, or there is none to be taken. -/
def Fits (compressed size : Nat) : Prop :=
  0 < size ∧ compressed ≤ size → compressed ≤ maxHundredth

instance (compressed size : Nat) : Decidable (Fits compressed size) :=
  inferInstanceAs (Decidable (_ → _))

/-- The column for what is saved. -/
def savedText (compressed size : Nat) : String :=
  if 0 < size ∧ compressed ≤ size then alignRight 4 (toString (percent compressed size)) ++ "%"
  else "  0%"

/-- The percentage as wrapping arithmetic has it, for data that got no larger. -/
def wrappedPercent (compressed size : Nat) : Nat := 100 - compressed * 100 % wordLimit / size

/-- The column for what is saved, as wrapping arithmetic has it. -/
def wrappedText (compressed size : Nat) : String :=
  if 0 < size ∧ compressed ≤ size then
    alignRight 4 (toString (wrappedPercent compressed size)) ++ "%"
  else "  0%"

theorem hundredfold_lt_iff : compressed * 100 < wordLimit ↔ compressed ≤ maxHundredth := by
  have hlimit : wordLimit = 100 * maxHundredth + 16 := rfl
  omega

theorem quotient_le (hle : compressed ≤ size) : compressed * 100 / size ≤ 100 :=
  Nat.div_le_of_le_mul (Nat.mul_le_mul_right 100 hle)

/-- Where the quotient is at most a hundred, the difference is the one of integers. -/
theorem percent_eq (hle : compressed ≤ size) :
    percent compressed size = ((100 - compressed * 100 / size : Nat) : Int) := by
  have hquotient : 100 * (compressed : Int) / size = ((compressed * 100 / size : Nat) : Int) := by
    rw [Int.natCast_ediv, Int.natCast_mul, Int.mul_comm]
    rfl
  rw [percent, hquotient, Int.natCast_sub (quotient_le hle)]
  rfl

theorem percent_mem (hle : compressed ≤ size) :
    0 ≤ percent compressed size ∧ percent compressed size ≤ 100 := by
  rw [percent_eq hle]
  exact ⟨Int.natCast_nonneg _, Int.ofNat_le.mpr (Nat.sub_le _ _)⟩

theorem fits_iff_of_le (hsize : 0 < size) (hle : compressed ≤ size) :
    Fits compressed size ↔ compressed ≤ maxHundredth :=
  ⟨fun h => h ⟨hsize, hle⟩, fun h _ => h⟩

/-- A product that is a word is what wrapping makes of it. -/
theorem wrappedPercent_of_le (hfits : compressed ≤ maxHundredth) (hle : compressed ≤ size) :
    (wrappedPercent compressed size : Int) = percent compressed size := by
  rw [percent_eq hle, wrappedPercent, Nat.mod_eq_of_lt (hundredfold_lt_iff.mpr hfits)]

/-- What wrapping takes off a product that is no word is more than the divisor, so the
    quotient is smaller and more is said to be saved. -/
theorem percent_lt_wrapped (hsize : 0 < size) (hword : size < wordLimit) (hle : compressed ≤ size)
    (hlarge : maxHundredth < compressed) :
    percent compressed size < (wrappedPercent compressed size : Int) ∧
      wrappedPercent compressed size ≤ 100 := by
  have hover : wordLimit ≤ compressed * 100 :=
    Nat.le_of_not_lt fun h => Nat.not_le_of_lt hlarge (hundredfold_lt_iff.mp h)
  -- What wrapping takes away is at least a word, and so more than the size.
  have hrest : compressed * 100 % wordLimit + size ≤ compressed * 100 := by
    have hmod := Nat.mod_le (compressed * 100 - wordLimit) wordLimit
    rw [Nat.mod_eq_sub_mod hover]
    omega
  have hquotient : compressed * 100 % wordLimit / size + 1 ≤ compressed * 100 / size := by
    rw [← Nat.add_div_right _ hsize]
    exact Nat.div_le_div_right hrest
  have hmost := quotient_le hle
  rw [percent_eq hle, wrappedPercent]
  generalize compressed * 100 % wordLimit / size = wrapped at hquotient ⊢
  generalize compressed * 100 / size = quotient at hquotient hmost ⊢
  omega

/-- The product is the only step of a checked build that can fail. -/
theorem percentSaved_checked (hsize : 0 < size) (hle : compressed ≤ size) :
    percentSaved .checked compressed size =
      if compressed ≤ maxHundredth then .ok (100 - compressed * 100 / size)
      else .error .hundredfold := by
  rw [percentSaved, if_pos ⟨hsize, hle⟩, Arithmetic.word_checked]
  by_cases hfits : compressed ≤ maxHundredth
  · rw [if_pos (hundredfold_lt_iff.mpr hfits), if_pos hfits]
    rfl
  · rw [if_neg (fun h => hfits (hundredfold_lt_iff.mp h)), if_neg hfits]
    rfl

theorem percentSaved_wrapping (hsize : 0 < size) (hle : compressed ≤ size) :
    percentSaved .wrapping compressed size = .ok (wrappedPercent compressed size) := by
  rw [percentSaved, if_pos ⟨hsize, hle⟩, Arithmetic.word_wrapping]
  rfl

/-- No build computes anything for data that got larger, or for no data. -/
theorem savedColumn_of_not (a : Arithmetic) (hsaves : ¬ (0 < size ∧ compressed ≤ size)) :
    savedColumn a compressed size = .ok "  0%" := by
  have hnone : percentSaved a compressed size = .ok 0 := if_neg hsaves
  have hblank : alignRight 3 (toString 0) ++ "%" = "  0%" := by decide +kernel
  rw [savedColumn, hnone, ← hblank]
  simp only [if_neg hsaves]
  rfl

/-- With wrapping arithmetic there is always something to be said. -/
theorem savedColumn_wrapping (compressed size : Nat) :
    savedColumn .wrapping compressed size = .ok (wrappedText compressed size) := by
  rw [wrappedText]
  by_cases hsaves : 0 < size ∧ compressed ≤ size
  · rw [savedColumn, percentSaved_wrapping hsaves.1 hsaves.2, if_pos hsaves]
    simp only [if_pos hsaves]
    rfl
  · rw [savedColumn_of_not _ hsaves, if_neg hsaves]

/-- Where nothing wraps around, the wrapped percentage is the saved one. -/
theorem wrappedText_of_fits (h : Fits compressed size) :
    wrappedText compressed size = savedText compressed size := by
  rw [wrappedText, savedText]
  by_cases hsaves : 0 < size ∧ compressed ≤ size
  · rw [if_pos hsaves, if_pos hsaves, ← wrappedPercent_of_le (h hsaves) hsaves.2]
    rfl
  · rw [if_neg hsaves, if_neg hsaves]

/-- The column is the text that it should be, in every build, for all sizes of which the
    percentage can be taken. -/
theorem savedColumn_of_fits (a : Arithmetic) (h : Fits compressed size) :
    savedColumn a compressed size = .ok (savedText compressed size) := by
  cases a with
  | wrapping => rw [savedColumn_wrapping, wrappedText_of_fits h]
  | checked =>
      rw [savedText]
      by_cases hsaves : 0 < size ∧ compressed ≤ size
      · -- Saving nothing shows zero, and otherwise the product is a word and is computed.
        rw [savedColumn, percentSaved_checked hsaves.1 hsaves.2, if_pos (h hsaves), if_pos hsaves,
          percent_eq hsaves.2]
        simp only [if_pos hsaves]
        rfl
      · rw [savedColumn_of_not _ hsaves, if_neg hsaves]

/-- For all other sizes a checked build ends at the product. -/
theorem savedColumn_of_not_fits (h : ¬ Fits compressed size) :
    savedColumn .checked compressed size = .error .hundredfold := by
  have ⟨hsaves, hlarge⟩ := Classical.not_imp.mp h
  rw [savedColumn, percentSaved_checked hsaves.1 hsaves.2, if_neg hlarge]
  rfl

end Listing

namespace Checked

variable {ε : Type}

/-- With words there is nothing more to go wrong than in a checked build: where the product is
    a word the difference is not below zero. -/
theorem percentSaved_eq (compressed size : Nat) :
    (percentSaved compressed size : Checked ε Nat) =
      ofWord (Listing.percentSaved .checked compressed size) := by
  by_cases hsaves : 0 < size ∧ compressed ≤ size
  · rw [Listing.percentSaved_checked hsaves.1 hsaves.2, percentSaved, if_pos hsaves, mul]
    by_cases hfits : compressed ≤ Listing.maxHundredth
    · rw [if_pos (Listing.hundredfold_lt_iff.mpr hfits), if_pos hfits, except_ok_bind,
        sub_of_le (Listing.quotient_le hsaves.2), ofWord_ok]
    · rw [if_neg (fun h => hfits (Listing.hundredfold_lt_iff.mp h)), if_neg hfits]
      rfl
  · -- Nothing is multiplied where nothing was saved.
    have hnone : Listing.percentSaved .checked compressed size = .ok 0 := if_neg hsaves
    rw [hnone, percentSaved, if_neg hsaves, ofWord_ok]

end Checked

namespace Listing

/-- What holds of the percentage of two sizes. It is a number from zero to a hundred. If the
    hundredfold of the stored size is a word, a computation with words arrives at it and it is
    what the column says. If not, that product is where the computation ends. A checked build
    ends there too, and one with wrapping arithmetic prints a number that is too large. -/
structure Exact (compressed size : Nat) : Prop where
  bounds : 0 ≤ percent compressed size ∧ percent compressed size ≤ 100
  computed : compressed ≤ maxHundredth →
    (∃ n : Nat, (n : Int) = percent compressed size ∧
      (Checked.percentSaved compressed size : Checked Error Nat) = .ok n) ∧
    ∀ a : Arithmetic, savedColumn a compressed size =
      .ok (alignRight 4 (toString (percent compressed size)) ++ "%")
  overflows : maxHundredth < compressed →
    (Checked.percentSaved compressed size : Checked Error Nat) = Checked.trap .overflow ∧
    savedColumn .checked compressed size = .error .hundredfold ∧
    ∃ n : Nat, percent compressed size < n ∧ n ≤ 100 ∧
      savedColumn .wrapping compressed size = .ok (alignRight 4 (toString n) ++ "%")

/-- All of this holds of the sizes of data that got no larger. -/
theorem exact_of_le {compressed size : Nat} (hsize : 0 < size) (hword : size < wordLimit)
    (hle : compressed ≤ size) : Exact compressed size where
  bounds := percent_mem hle
  computed := by
    intro hfits
    refine ⟨⟨_, (percent_eq hle).symm, ?_⟩, fun a => ?_⟩
    · rw [Checked.percentSaved_eq, percentSaved_checked hsize hle, if_pos hfits,
        Checked.ofWord_ok]
    · rw [savedColumn_of_fits a ((fits_iff_of_le hsize hle).mpr hfits), savedText,
        if_pos ⟨hsize, hle⟩]
  overflows := by
    intro hlarge
    have hnot := Nat.not_le_of_lt hlarge
    -- What wraps around shows more than what was saved.
    have hmore := percent_lt_wrapped hsize hword hle hlarge
    refine ⟨?_, ?_, _, hmore.1, hmore.2, ?_⟩
    · rw [Checked.percentSaved_eq, percentSaved_checked hsize hle, if_neg hnot,
        Checked.ofWord_error]
    · exact savedColumn_of_not_fits fun h => hnot ((fits_iff_of_le hsize hle).mp h)
    · rw [savedColumn_wrapping, wrappedText, if_pos ⟨hsize, hle⟩]

end Listing

end NestedZip
