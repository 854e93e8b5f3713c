import NestedZip.Metered

/-!
# Outcomes of Metered Steps

How the outcome of a sequence of reading steps comes from the outcomes of its
steps.

A `do` block over `Metered` is a chain of `bind`s, and every proof about one
asks one of two things: what must have happened for the block to succeed, or
what the block answers once a step's answer is known. `bind_outcome_eq_ok_iff`
is the first and `bind_of_ok` the second.

## Main definitions

* `Metered.map`: A step whose answer is carried over.

## Theorems

* `except_bind_eq_ok_iff`, `except_bind_eq_error`: The same for outcomes that cost
  nothing, and where a failure comes from.
* `bind_outcome_eq_ok_iff`: A chain succeeds when both of its parts do.
* `bind_of_ok`: A chain whose first step is known.
* `bind_congr_of_ok`: Chains with the same first step.
* `mapError_outcome_eq_ok_iff`: Restating a failure changes no success.
* `map_bind`, `bind_of_map`: Carrying over in a chain.
-/

namespace NestedZip

/-- Two steps succeed if the first one does and then the second. -/
theorem except_bind_eq_ok_iff {ε α β : Type} {m : Except ε α} {next : α → Except ε β} {b : β} :
    (m >>= next) = .ok b ↔ ∃ a, m = .ok a ∧ next a = .ok b := by
  cases m with
  | error e =>
      change Except.error e = Except.ok b ↔ _
      simp only [reduceCtorEq, false_and, exists_false]
  | ok a =>
      change next a = .ok b ↔ _
      simp only [Except.ok.injEq, exists_eq_left']

theorem except_bind_eq_error {ε α β : Type} {m : Except ε α} {next : α → Except ε β} {e : ε}
    (h : (m >>= next) = .error e) : m = .error e ∨ ∃ a, m = .ok a ∧ next a = .error e := by
  cases m with
  | error e' => exact Or.inl (congrArg Except.error (Except.error.inj h))
  | ok a => exact Or.inr ⟨a, rfl, h⟩

theorem except_ok_bind {ε α β : Type} (a : α) (next : α → Except ε β) :
    (Except.ok a >>= next) = next a := rfl

/-- A success does not depend on how failures are told. -/
theorem except_mapError_eq_ok_iff {ε ε' α : Type} {f : ε → ε'} {x : Except ε α} {a : α} :
    x.mapError f = .ok a ↔ x = .ok a := by
  cases x with
  | error e =>
      change Except.error (f e) = Except.ok a ↔ _
      simp only [reduceCtorEq]
  | ok b =>
      change Except.ok b = Except.ok a ↔ _
      rw [Except.ok.injEq, Except.ok.injEq]

theorem error_ne_ok {ε α : Type} {e : ε} {a : α} : (.error e : Except ε α) ≠ .ok a := by
  simp only [ne_eq, reduceCtorEq, not_false_eq_true]

namespace Metered

variable {ε ε' α β : Type}

@[simp]
theorem outcome_pure (a : α) : (pure a : Metered ε α).outcome = .ok a := rfl

@[simp]
theorem outcome_fail (e : ε) : (fail e : Metered ε α).outcome = .error e := rfl

@[simp]
theorem outcome_ofExcept (x : Except ε α) : (ofExcept x).outcome = x := rfl

/-- A first step with a known answer leaves the rest of the chain, which also
    pays for that step. -/
theorem bind_of_ok {m : Metered ε α} {a : α} (h : m.outcome = .ok a) (next : α → Metered ε β) :
    m >>= next = { outcome := (next a).outcome, fetched := m.fetched + (next a).fetched } := by
  change m.bind next = _
  unfold Metered.bind
  rw [h]

theorem bind_of_error {m : Metered ε α} {e : ε} (h : m.outcome = .error e)
    (next : α → Metered ε β) : m >>= next = { outcome := .error e, fetched := m.fetched } := by
  change m.bind next = _
  unfold Metered.bind
  rw [h]

/-- What follows a step matters only for the answers that the step can give. -/
theorem bind_congr_of_ok {m : Metered ε α} {f g : α → Metered ε β}
    (h : ∀ a, m.outcome = .ok a → f a = g a) : m >>= f = m >>= g := by
  cases hm : m.outcome with
  | error e => rw [bind_of_error hm, bind_of_error hm]
  | ok a => rw [bind_of_ok hm, bind_of_ok hm, h a hm]

/-- So do two steps that are metered. -/
theorem bind_outcome_eq_ok_iff {m : Metered ε α} {next : α → Metered ε β} {b : β} :
    (m >>= next).outcome = .ok b ↔ ∃ a, m.outcome = .ok a ∧ (next a).outcome = .ok b := by
  cases h : m.outcome with
  | error e =>
      rw [bind_of_error h]
      simp only [reduceCtorEq, false_and, exists_false]
  | ok a =>
      rw [bind_of_ok h]
      simp only [Except.ok.injEq, exists_eq_left']

theorem mapError_outcome_eq_ok_iff {f : ε → ε'} {m : Metered ε α} {a : α} :
    (m.mapError f).outcome = .ok a ↔ m.outcome = .ok a := except_mapError_eq_ok_iff

variable {γ : Type}

/-- The operation with its answer carried over. It fails alike and fetches as much. -/
def map (f : α → β) (m : Metered ε α) : Metered ε β :=
  { outcome := m.outcome.map f, fetched := m.fetched }

theorem outcome_map_of_ok {m : Metered ε α} {a : α} (h : m.outcome = .ok a) (f : α → β) :
    (m.map f).outcome = .ok (f a) := by
  unfold map
  rw [h]
  rfl

theorem map_pure (f : α → β) (a : α) : (pure a : Metered ε α).map f = pure (f a) := rfl

theorem map_ofExcept (f : α → β) (x : Except ε α) :
    (ofExcept x).map f = ofExcept (x.map f) := rfl

/-- What follows may as well carry the answer over by itself. -/
theorem bind_of_map (m : Metered ε α) (f : α → β) (next : β → Metered ε γ) :
    m.map f >>= next = m >>= fun a => next (f a) := by
  rcases hm : m.outcome with e | a
  · rw [bind_of_error hm, bind_of_error (e := e) (by rw [map, hm]; rfl)]
    rfl
  · rw [bind_of_ok hm, bind_of_ok (a := f a) (by rw [map, hm]; rfl)]
    rfl

/-- A chain is carried over by what follows its first step. -/
theorem map_bind {m : Metered ε α} {g : β → γ} {next : α → Metered ε β}
    {next' : α → Metered ε γ} (h : ∀ a, m.outcome = .ok a → next' a = (next a).map g) :
    m >>= next' = (m >>= next).map g := by
  rcases hm : m.outcome with e | a
  · rw [bind_of_error hm, bind_of_error hm]
    rfl
  · rw [bind_of_ok hm, bind_of_ok hm, h a hm]
    rfl

end Metered

end NestedZip
