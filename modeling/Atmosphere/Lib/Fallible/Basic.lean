import Mathlib

/-!
# Computations that can fail

How a sequence of two computations in `Except` returns and how it fails.
-/

namespace Fallible

variable {ε α β : Type} {x : Except ε α} {f : α → Except ε β}

theorem ok_bind {a : α} (h : x = .ok a) : (x >>= f) = f a := by
  rw [h]
  rfl

/-- A computation that returned did so step by step. -/
theorem bind_eq_ok {b : β} : (x >>= f) = .ok b ↔ ∃ a, x = .ok a ∧ f a = .ok b := by
  cases x with
  | error e | ok a => simp [bind, Except.bind]

/-- A computation that failed did so in one of its steps. -/
theorem bind_eq_error {e : ε} :
    (x >>= f) = .error e ↔ x = .error e ∨ ∃ a, x = .ok a ∧ f a = .error e := by
  cases x with
  | error e' | ok a => simp [bind, Except.bind]

end Fallible
