import Mathlib

/-!
# Aligned blocks

The addresses are cut into blocks of one size, each starting at a multiple of the
size; two addresses are in the same block if they have the same quotient. A size
that divides another cuts every larger block into whole smaller ones.
-/

namespace AlignedBlock

variable {s S a b : ℕ}

/-- The first address of the block. -/
def start (S a : ℕ) : ℕ := a / S * S

/-- The addresses of a block. -/
theorem div_eq_iff (hS : 0 < S) : a / S = b / S ↔ start S b ≤ a ∧ a < start S b + S := by
  unfold start
  rw [Nat.div_eq_iff hS]
  constructor <;> omega

/-- Addresses in one small block are in one large block. -/
theorem div_eq_of_dvd (hd : s ∣ S) (h : a / s = b / s) : a / S = b / S := by
  obtain ⟨k, rfl⟩ := hd
  rw [← Nat.div_div_eq_div_mul, ← Nat.div_div_eq_div_mul, h]

/-- A block is determined by the larger block around it and its number there. -/
theorem div_eq_of_mod_eq {k : ℕ} (h : a / (s * k) = b / (s * k)) (hm : a / s % k = b / s % k) :
    a / s = b / s := by
  rw [← Nat.div_div_eq_div_mul, ← Nat.div_div_eq_div_mul] at h
  rw [← Nat.div_add_mod (a / s) k, ← Nat.div_add_mod (b / s) k, h, hm]

/-- A block lies in the larger block in which it starts. -/
theorem mod_add_le (hd : s ∣ S) (hS : 0 < S) (ha : s ∣ a) : a % S + s ≤ S :=
  Nat.le_of_lt_add_of_dvd (Nat.add_lt_add_right (Nat.mod_lt a hS) s)
    (Nat.dvd_add ((Nat.dvd_mod_iff hd).mpr ha) (Nat.dvd_refl s)) hd

end AlignedBlock
