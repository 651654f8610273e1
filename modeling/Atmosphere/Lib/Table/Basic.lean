import Mathlib

/-!
# Tables of fixed size

A table is a function on its indices, and an entry is changed with `Function.update`.
`find` is the loop over a table that stops at the first entry with a property.
-/

namespace Table

variable {n : ℕ} {α M : Type*} {p : Fin n → Bool} {i : Fin n}

/-- The first index with a property. -/
def find (p : Fin n → Bool) : Option (Fin n) := (List.finRange n).find? p

theorem of_find_eq_some (h : find p = some i) : p i = true := by
  have := List.find?_some h
  exact this

theorem find_eq_none : find p = none ↔ ∀ i, p i = false := by
  rw [find]
  simp

theorem exists_find_of (h : p i = true) : ∃ j, find p = some j := by
  rw [← Option.ne_none_iff_exists']
  intro hnone
  rw [find_eq_none.mp hnone i] at h
  cases h

/-- A sum over the entries when one entry changes. -/
theorem sum_update_add [AddCommMonoid M] (f : α → M) (t : Fin n → α) (i : Fin n) (x : α) :
    ∑ j, f (Function.update t i x j) + f (t i) = ∑ j, f (t j) + f x := by
  have hcomp : (fun j => f (Function.update t i x j)) =
      Function.update (fun j => f (t j)) i (f x) := by
    funext j
    exact Function.apply_update (fun _ => f) t i x j
  rw [hcomp, Finset.sum_update_of_mem (Finset.mem_univ i),
    Finset.sum_eq_add_sum_sdiff_singleton_of_mem (Finset.mem_univ i) fun j => f (t j)]
  abel

end Table
