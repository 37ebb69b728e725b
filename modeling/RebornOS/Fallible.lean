import Mathlib.Tactic

/-!
# Fallible computations

This module is independent of the kernel.  A function that can panic returns
`Except`; these rules take a sequence of such calls apart at its result.
-/

namespace RebornOS
namespace Fallible

universe u v

variable {π : Type u} {α β : Type v} {x : Except π α}

/-- A result goes on to the rest. -/
theorem ok_bind
    (a : α) (f : α → Except π β) : (Except.ok a >>= f) = f a :=
  rfl

/-- A sequence succeeds exactly when both of its parts do. -/
theorem bind_eq_ok
    {f : α → Except π β} {b : β} :
    (x >>= f) = .ok b ↔ ∃ a, x = .ok a ∧ f a = .ok b := by
  cases x with
  | error e =>
      constructor
      · intro h
        cases h
      · rintro ⟨a, ha, _⟩
        cases ha
  | ok a =>
      constructor
      · intro h
        exact ⟨a, rfl, h⟩
      · rintro ⟨a', ha, hf⟩
        cases ha
        exact hf

/-- A sequence panics in its first part or in its second. -/
theorem bind_eq_error
    {f : α → Except π β} {e : π} :
    (x >>= f) = .error e ↔
      x = .error e ∨ ∃ a, x = .ok a ∧ f a = .error e := by
  cases x with
  | error e' =>
      constructor
      · intro h
        cases h
        exact Or.inl rfl
      · rintro (h | ⟨a, ha, _⟩)
        · cases h
          rfl
        · cases ha
  | ok a =>
      constructor
      · intro h
        exact Or.inr ⟨a, rfl, h⟩
      · rintro (h | ⟨a', ha, hf⟩)
        · cases h
        · cases ha
          exact hf

/-- Mapping a result does not change whether there is one. -/
theorem map_eq_ok
    {f : α → β} {b : β} : x.map f = .ok b ↔ ∃ a, x = .ok a ∧ f a = b := by
  cases x with
  | error e =>
      simp [Except.map]
  | ok a =>
      simp [Except.map]

theorem map_some_injective :
    Function.Injective (Except.map some : Except π α → Except π (Option α)) := by
  intro x y h
  cases x with
  | error e =>
      cases y with
      | error e' => exact congrArg _ (Except.error.inj h)
      | ok b => cases h
  | ok a =>
      cases y with
      | error e' => cases h
      | ok b => exact congrArg _ (Option.some.inj (Except.ok.inj h))

/-- A result survives as an option exactly when nothing went wrong. -/
theorem toOption_eq_some
    {a : α} : x.toOption = some a ↔ x = .ok a := by
  cases x with
  | error e =>
      simp [Except.toOption]
  | ok b =>
      simp [Except.toOption]

/-- A computable way to say that a result exists and has a property. -/
theorem any_toOption
    {p : α → Bool} : x.toOption.any p = true ↔ ∃ a, x = .ok a ∧ p a = true := by
  cases x with
  | error e =>
      simp [Except.toOption]
  | ok b =>
      simp [Except.toOption]

/-- The panic, if there is one. -/
def panicOf : Except π α → Option π
  | .error e => some e
  | .ok _ => none

theorem panicOf_eq_some
    {e : π} : panicOf x = some e ↔ x = .error e := by
  cases x with
  | error e' =>
      simp [panicOf]
  | ok b =>
      simp [panicOf]

end Fallible
end RebornOS
