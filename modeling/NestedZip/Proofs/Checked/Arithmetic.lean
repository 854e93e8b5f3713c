import NestedZip.Proofs.Window

/-!
# Checked Computations

Computing with words and buffers, where numbers and lists would not notice
that anything is wrong.

A natural number has no largest value, a difference of two of them is never
negative, and a list may be cut at any place. So a proof about numbers and
lists says nothing yet about a program that computes with 64-bit words and
slices buffers: a sum may wrap, a difference may leave the words downwards,
and a slice may reach past its buffer. Here every such operation asks first,
and stops the computation with a `Trap` if it cannot be done. To be free of
traps is then a property that can be stated and proved.

Failing is no trap. An archive may be malformed, and a program that says so
has computed well. `Stop` keeps the two apart. A checked computation `Follows`
one with numbers if it succeeds where that one does, with an answer that fits,
and fails where that one does, with the same failure. There is no third way to
follow, so a computation that follows another one has met no trap. Of the
failures it says at the same time which ones there may be.

## Main definitions

* `Trap`: What no computation may run into.
* `Stop`, `Checked`: How a checked computation ends.
* `Checked.add`, `Checked.sub`, `Checked.slice`: Sums, differences and slices.
* `Checked.reserve`, `Checked.read`: Buffers, and reading into them.
* `Checked.lift`: An outcome that was settled without a trap.
* `Checked.Follows`: A checked computation that does what one with numbers does.

## Theorems

* `Checked.Follows.bind`: Computations that follow others, one after the other.
* `Checked.read_of_intact`: Reading inside an intact window meets no trap.
-/

namespace NestedZip

/-- What a computation with words and buffers may run into, where one with
    numbers and lists goes on. -/
inductive Trap where
  /-- A sum that leaves 64 bits, or a difference below zero. -/
  | overflow
  /-- A slice that reaches past the end of its buffer. -/
  | outOfRange
  /-- A buffer for more than there is to be read. -/
  | oversized
  /-- A loop that goes on when it should have ended. -/
  | endless
deriving DecidableEq, Repr

/-- How a checked computation ends early. -/
inductive Stop (ε : Type) where
  | trap (t : Trap)
  | failure (e : ε)
deriving DecidableEq, Repr

/-- A computation in which everything that may go wrong is asked for first. -/
abbrev Checked (ε : Type) := Except (Stop ε)

namespace Checked

variable {ε ε' α β : Type}

/-- Runs into a trap. -/
def trap (t : Trap) : Checked ε α := .error (.trap t)

/-- Fails, which is no trap. -/
def fail (e : ε) : Checked ε α := .error (.failure e)

/-- An outcome that was settled without a trap. -/
def lift (x : Except ε α) : Checked ε α := x.mapError .failure

/-- Restates the failure, if there is one. A trap stays what it is. -/
def mapFailure (f : ε → ε') (x : Checked ε α) : Checked ε' α :=
  x.mapError fun
    | .trap t => .trap t
    | .failure e => .failure (f e)

/-- The sum of two words. -/
def add (a b : Nat) : Checked ε Nat := if a + b < wordLimit then .ok (a + b) else trap .overflow

/-- The difference of two words. -/
def sub (a b : Nat) : Checked ε Nat := if b ≤ a then .ok (a - b) else trap .overflow

/-- The bytes of a buffer from `start` to `stop`. -/
def slice (buffer : Bytes) (start stop : Nat) : Checked ε Bytes :=
  if start ≤ stop ∧ stop ≤ buffer.length then .ok ((buffer.drop start).take (stop - start))
  else trap .outOfRange

/-- Room for `count` bytes, or for as many records, of what is in a window. -/
def reserve (w : Window) (count : Nat) : Checked ε Unit :=
  if count ≤ w.size then .ok () else trap .oversized

/-- A new buffer, filled from a place of a window. The source is read at words
    up to the one behind the last byte. -/
def read (w : Window) (offset count : Nat) : Checked Error Bytes := do
  reserve w count
  let part ← lift (w.carve offset count)
  let position ← add w.offset offset
  let _ ← add position count
  lift ((w.backing.readExactAt part.offset count).mapError .io).outcome

@[simp]
theorem lift_ok (a : α) : (lift (.ok a) : Checked ε α) = .ok a := rfl

/-- A checked computation that ends as the one with numbers does: with an answer
    that fits, or with the same failure, which is of the kind that is expected. -/
inductive Follows (expected : ε → Prop) (R : α → β → Prop) : Except ε α → Checked ε β → Prop
  | ok {a : α} {b : β} : R a b → Follows expected R (.ok a) (.ok b)
  | fail {e : ε} : expected e → Follows expected R (.error e) (fail e)

section

variable {γ δ : Type} {expected : ε → Prop} {R : α → β → Prop} {S : γ → δ → Prop}

/-- Whatever follows step by step follows on the whole. -/
theorem Follows.bind {x : Except ε α} {c : Checked ε β} {f : α → Except ε γ}
    {g : β → Checked ε δ} (h : Follows expected R x c)
    (hnext : ∀ a b, R a b → Follows expected S (f a) (g b)) :
    Follows expected S (x >>= f) (c >>= g) := by
  cases h with
  | ok hab => exact hnext _ _ hab
  | fail he => exact .fail he

/-- The same where the steps with numbers are counted. -/
theorem Follows.bind_outcome {m : Metered ε α} {c : Checked ε β} {f : α → Metered ε γ}
    {g : β → Checked ε δ} (h : Follows expected R m.outcome c)
    (hnext : ∀ a b, m.outcome = .ok a → R a b → Follows expected S (f a).outcome (g b)) :
    Follows expected S (m >>= f).outcome (c >>= g) := by
  -- What a read costs has no counterpart, so the two are compared behind its outcome.
  rcases hm : m.outcome with e | a
  · rw [hm] at h
    cases h with
    | fail he =>
        rw [Metered.bind_of_error hm]
        exact .fail he
  · rw [hm] at h
    cases h with
    | ok hab =>
        rw [Metered.bind_of_ok hm]
        exact hnext _ _ hm hab

end

theorem add_of_lt {a b : Nat} (h : a + b < wordLimit) : (add a b : Checked ε Nat) = .ok (a + b) :=
  if_pos h

theorem sub_of_le {a b : Nat} (h : b ≤ a) : (sub a b : Checked ε Nat) = .ok (a - b) := if_pos h

theorem slice_of_le {buffer : Bytes} {start stop : Nat} (hstart : start ≤ stop)
    (hstop : stop ≤ buffer.length) :
    (slice buffer start stop : Checked ε Bytes) = .ok ((buffer.drop start).take (stop - start)) :=
  if_pos ⟨hstart, hstop⟩

theorem reserve_of_le {w : Window} {count : Nat} (h : count ≤ w.size) :
    (reserve w count : Checked ε Unit) = .ok () := if_pos h

/-- Reading inside an intact window meets no trap, and does not fall short. -/
theorem read_of_intact {w : Window} (hw : w.Intact) (hwords : w.backing.bytes.length < wordLimit)
    {offset count : Nat} (h : offset + count ≤ w.length) :
    read w offset count = .ok ((w.bytes.drop offset).take count) := by
  have hwithin := hw.within
  have hbytes := Window.readExactAt_of_intact hw offset count h
  unfold Window.readExactAt at hbytes
  rw [Window.carve_of_plain hw.plain offset count h,
    Metered.bind_of_ok (Metered.outcome_ofExcept _)] at hbytes
  have houtcome := congrArg Metered.outcome hbytes
  simp only at houtcome
  -- The two sums are at most the length of the source, which is a word.
  unfold read
  rw [reserve_of_le (by rw [Window.size_of_intact hw]; omega), except_ok_bind,
    Window.carve_of_plain hw.plain offset count h, lift_ok, except_ok_bind,
    add_of_lt (by omega), except_ok_bind, add_of_lt (by omega), except_ok_bind, houtcome, lift_ok]

theorem read_follows {expected : Error → Prop} {w : Window} (hw : w.Intact)
    (hwords : w.backing.bytes.length < wordLimit) {offset count : Nat}
    (h : offset + count ≤ w.length) :
    Follows expected (fun a b => a = (w.bytes.drop offset).take count ∧ b = a)
      (w.readExactAt offset count).outcome (read w offset count) := by
  rw [Window.readExactAt_of_intact hw offset count h, read_of_intact hw hwords h]
  exact .ok ⟨rfl, rfl⟩

end Checked

end NestedZip
