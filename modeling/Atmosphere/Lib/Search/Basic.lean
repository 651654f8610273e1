import Mathlib

/-!
# Binary search

`upperBound` halves an interval of positions whose values increase, and returns the first
position whose value is above a bound. The values are read in a monad, so that reading can
fail. The position before it is the last one whose value is at most the bound (`IsLast`), and
a search over a large interval can be cut into a search for a segment and one inside it.
-/

namespace Search

variable {m : Type → Type} [Monad m] {β : Type} [LinearOrder β]

/-- The first position, among `count` of them from `pos` on, whose value is above `bound`. -/
def upperBound (read : ℕ → m β) (bound : β) (pos count : ℕ) : m ℕ :=
  if h : 0 < count then do
    let value ← read (pos + count / 2)
    if value ≤ bound then
      upperBound read bound (pos + count / 2 + 1) (count - (count / 2 + 1))
    else
      upperBound read bound pos (count / 2)
  else pure pos
termination_by count

/-- The last position of an interval whose value is at most the bound. -/
structure IsLast (f : ℕ → β) (lo hi : ℕ) (bound : β) (k : ℕ) : Prop where
  ge : lo ≤ k
  lt : k < hi
  le : f k ≤ bound
  after : ∀ j, k < j → j < hi → bound < f j

variable {read : ℕ → m β} {f : ℕ → β} {bound : β} {pos count : ℕ}

section

variable [LawfulMonad m] (hread : ∀ i, pos ≤ i → i < pos + count → read i = pure (f i))
  (hmono : ∀ i j, pos ≤ i → i ≤ j → j < pos + count → f i ≤ f j)
include hread hmono

/-- The search separates the values up to the bound from those above it. -/
theorem upperBound_separates :
    ∃ k, upperBound read bound pos count = pure k ∧ pos ≤ k ∧ k ≤ pos + count ∧
      (∀ i, pos ≤ i → i < k → f i ≤ bound) ∧ ∀ i, k ≤ i → i < pos + count → bound < f i := by
  induction count using Nat.strong_induction_on generalizing pos with
  | _ count ih =>
    rw [upperBound]
    split_ifs with hpos
    · rw [hread (pos + count / 2) (by omega) (by omega), pure_bind]
      split_ifs with hle
      · obtain ⟨k, hrun, hk, hk', hbelow, habove⟩ := @ih (count - (count / 2 + 1)) (by omega)
          (pos + count / 2 + 1) (fun i hi hi' => hread i (by omega) (by omega))
          (fun i j hi hij hj => hmono i j (by omega) hij (by omega))
        refine ⟨k, hrun, by omega, by omega, fun i hi hik => ?_,
          fun i hik hi => habove i hik (by omega)⟩
        obtain hlow | hhigh := Nat.lt_or_ge i (pos + count / 2 + 1)
        · exact (hmono i (pos + count / 2) hi (by omega) (by omega)).trans hle
        · exact hbelow i hhigh hik
      · obtain ⟨k, hrun, hk, hk', hbelow, habove⟩ := @ih (count / 2) (by omega) pos
          (fun i hi hi' => hread i hi (by omega)) (fun i j hi hij hj => hmono i j hi hij (by omega))
        refine ⟨k, hrun, hk, by omega, hbelow, fun i hik hi => ?_⟩
        obtain hlow | hhigh := Nat.lt_or_ge i (pos + count / 2)
        · exact habove i hik hlow
        · exact (not_le.mp hle).trans_le (hmono (pos + count / 2) i (by omega) hhigh hi)
    · exact ⟨pos, rfl, le_rfl, by omega, fun i hi hi' => by omega, fun i hi hi' => by omega⟩

/-- The position before the result is the last one whose value is at most the bound. -/
theorem upperBound_spec (hfirst : f pos ≤ bound) (hcount : 0 < count) :
    ∃ k, upperBound read bound pos count = pure (k + 1) ∧
      IsLast f pos (pos + count) bound k := by
  obtain ⟨k, hrun, hk, hk', hbelow, habove⟩ := upperBound_separates hread hmono
  have hlt : pos < k := by
    by_contra hnot
    have := habove pos (by omega) (by omega)
    exact absurd hfirst (not_le.mpr this)
  refine ⟨k - 1, ?_, by omega, by omega, hbelow (k - 1) (by omega) (by omega),
    fun j hj hj' => habove j (by omega) hj'⟩
  rw [hrun, Nat.sub_add_cancel (by omega)]

/-- If the first value is above the bound, the search returns the start. -/
theorem upperBound_eq_start (hfirst : bound < f pos) :
    upperBound read bound pos count = pure pos := by
  obtain ⟨k, hrun, hk, -, hbelow, -⟩ := upperBound_separates hread hmono
  have heq : k = pos := by
    by_contra hne
    exact absurd (hbelow pos le_rfl (by omega)) (not_le.mpr hfirst)
  rw [hrun, heq]

end

namespace IsLast

variable {lo hi a b k : ℕ}

/-- A position found in a segment is the last one of all when the values after the segment
are above the bound. -/
theorem of_segment (hlast : IsLast f a b bound k) (hlo : lo ≤ a) (hhi : b ≤ hi)
    (hmono : ∀ i j, lo ≤ i → i ≤ j → j < hi → f i ≤ f j) (hnext : b < hi → bound < f b) :
    IsLast f lo hi bound k := by
  have hk := hlast.ge
  have hk' := hlast.lt
  refine ⟨by omega, by omega, hlast.le, fun j hkj hj => ?_⟩
  obtain hlow | hhigh := Nat.lt_or_ge j b
  · exact hlast.after j hkj hlow
  · exact (hnext (by omega)).trans_le (hmono b j (by omega) hhigh hj)

/-- Positions that are counted from the start of a segment. -/
theorem translate {n : ℕ} (hlast : IsLast (fun i => f (a + i)) 0 n bound k) :
    IsLast f a (a + n) bound (a + k) := by
  obtain ⟨-, hlt, hle, hafter⟩ := hlast
  refine ⟨by omega, by omega, hle, fun j hj hj' => ?_⟩
  have := hafter (j - a) (by omega) (by omega)
  rw [Nat.add_sub_cancel' (by omega)] at this
  exact this

/-- Positions that are read at another place. -/
theorem shift {g : ℕ → β} {d : ℕ} (hlast : IsLast g lo hi bound k) (hd : d ≤ lo)
    (hg : ∀ i, lo ≤ i → i < hi → g i = f (i - d)) :
    IsLast f (lo - d) (hi - d) bound (k - d) := by
  obtain ⟨hge, hlt, hle, hafter⟩ := hlast
  refine ⟨by omega, by omega, ?_, fun j hj hj' => ?_⟩
  · rw [← hg k hge hlt]
    exact hle
  · have := hafter (j + d) (by omega) (by omega)
    rw [hg (j + d) (by omega) (by omega), Nat.add_sub_cancel] at this
    exact this

end IsLast

end Search
