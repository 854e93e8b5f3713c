/-!
# Metered reading

What an operation answers is one thing, and how many bytes it took from the source is another.
Both are part of what an archive promises: a nested archive is opened without reading the data
around it, and one that has been opened before is found again for the price of its local header.
So an operation that reads is a value with both: its outcome, and the bytes it fetched whether it
succeeded or not.

## Main definitions

* `Metered`: An outcome and the bytes fetched for it.
* `Metered.bind`: One operation after the other; the fetched bytes add up, and nothing is fetched
  after a failure.

## Theorems

* `Metered.bind_assoc`, `Metered.pure_bind`, `Metered.bind_pure`: Grouping does not matter.
-/

namespace NestedZip

/-- The outcome of an operation that reads, and the number of bytes it fetched. -/
structure Metered (ε α : Type) where
  outcome : Except ε α
  fetched : Nat := 0

namespace Metered

variable {ε ε' α β γ : Type}

/-- Succeeds without reading. -/
protected def pure (a : α) : Metered ε α := { outcome := .ok a }

/-- Fails without reading. -/
def fail (e : ε) : Metered ε α := { outcome := .error e }

/-- An outcome that was settled without reading. -/
def ofExcept (outcome : Except ε α) : Metered ε α := { outcome }

/-- Runs `next` on the answer, unless there is none. -/
protected def bind (first : Metered ε α) (next : α → Metered ε β) : Metered ε β :=
  match first.outcome with
  | .ok a =>
    let second := next a
    { outcome := second.outcome, fetched := first.fetched + second.fetched }
  | .error e => { outcome := .error e, fetched := first.fetched }

instance : Monad (Metered ε) where
  pure := Metered.pure
  bind := Metered.bind

/-- Restates the failure, if there is one. -/
def mapError (f : ε → ε') (m : Metered ε α) : Metered ε' α :=
  { outcome := m.outcome.mapError f, fetched := m.fetched }

theorem ext {m n : Metered ε α} (outcome : m.outcome = n.outcome)
    (fetched : m.fetched = n.fetched) : m = n := by
  cases m; cases n; simp_all

theorem pure_bind (a : α) (next : α → Metered ε β) : (Metered.pure a).bind next = next a := by
  apply ext <;> simp [Metered.pure, Metered.bind]

theorem bind_pure (m : Metered ε α) : m.bind Metered.pure = m := by
  unfold Metered.bind Metered.pure
  cases m with
  | mk outcome fetched => cases outcome <;> rfl

/-- Costs add up, and a failure costs what was fetched before it. -/
theorem bind_assoc (m : Metered ε α) (f : α → Metered ε β) (g : β → Metered ε γ) :
    (m.bind f).bind g = m.bind fun a => (f a).bind g := by
  cases m with
  | mk outcome fetched =>
    cases outcome with
    | error e => rfl
    | ok a =>
      simp only [Metered.bind]
      cases (f a).outcome with
      | error e => rfl
      | ok b => simp [Nat.add_assoc]

instance : LawfulMonad (Metered ε) :=
  LawfulMonad.mk' (Metered ε) bind_pure pure_bind bind_assoc

end Metered

end NestedZip
