import Mathlib

/-!
# Fields of a machine word

A word that packs several fields is read and written with masks. A value that
lies under one mask is invisible through every disjoint mask, so a word composed
of values under disjoint masks gives each of them back. A field that holds an
aligned address stores the address itself, without a shift.
-/

namespace BitField

variable {w : ℕ} {x y m m' : BitVec w}

/-- Every bit of the value is a bit of the mask. -/
def Under (x m : BitVec w) : Prop := x &&& m = x

instance (x m : BitVec w) : Decidable (Under x m) := inferInstanceAs (Decidable (_ = _))

theorem under_and (x m : BitVec w) : Under (x &&& m) m := by
  unfold Under
  rw [BitVec.and_assoc, BitVec.and_self]

theorem Under.mono (h : Under x m) (hm : m &&& m' = m) : Under x m' := by
  calc x &&& m' = (x &&& m) &&& m' := by rw [h]
    _ = x &&& (m &&& m') := BitVec.and_assoc ..
    _ = x := by rw [hm, h]

/-- A value under one mask has no bit under a disjoint one. -/
theorem Under.and_eq_zero (h : Under x m) (hm : m &&& m' = 0#w) : x &&& m' = 0#w := by
  calc x &&& m' = (x &&& m) &&& m' := by rw [h]
    _ = x &&& (m &&& m') := BitVec.and_assoc ..
    _ = 0#w := by rw [hm, BitVec.and_zero]

/-- A mask looks through a union part by part. -/
theorem or_and (x y m : BitVec w) : (x ||| y) &&& m = (x &&& m) ||| (y &&& m) := by
  rw [BitVec.and_comm, BitVec.and_or_distrib_left, BitVec.and_comm m x, BitVec.and_comm m y]

/-- Looking through a mask and then through a larger one. -/
theorem and_and_of_subset (hm : m' &&& m = m) : (x &&& m') &&& m = x &&& m := by
  rw [BitVec.and_assoc, hm]

/-- The mask of `count` bits from bit `offset` on. -/
def field (w offset count : ℕ) : BitVec w := ((1#w <<< count) - 1#w) <<< offset

variable {offset count : ℕ}

/-- The mask of the lowest bits. -/
theorem toNat_ones (h : count < w) : ((1#w <<< count) - 1#w).toNat = 2 ^ count - 1 := by
  have hone : (1#w).toNat = 1 :=
    (BitVec.toNat_ofNat ..).trans (Nat.mod_eq_of_lt (Nat.one_lt_two_pow (by omega)))
  have hshift : (1#w <<< count).toNat = 2 ^ count := by
    rw [BitVec.toNat_shiftLeft, hone, Nat.shiftLeft_eq, Nat.one_mul,
      Nat.mod_eq_of_lt (Nat.pow_lt_pow_right (by decide) h)]
  rw [BitVec.toNat_sub_of_le, hshift, hone]
  rw [BitVec.le_def, hshift, hone]
  exact Nat.one_le_two_pow

theorem getLsbD_ones (h : count < w) (j : ℕ) :
    ((1#w <<< count) - 1#w).getLsbD j = decide (j < count) := by
  rw [BitVec.getLsbD, toNat_ones h, Nat.testBit_two_pow_sub_one]

variable (h : offset + count ≤ w) (hpos : 0 < offset)
include h hpos

theorem toNat_field :
    (field w offset count).toNat = (2 ^ count - 1) * 2 ^ offset := by
  have hbound : (2 ^ count - 1) * 2 ^ offset < 2 ^ w := by
    calc (2 ^ count - 1) * 2 ^ offset < 2 ^ count * 2 ^ offset :=
          Nat.mul_lt_mul_of_pos_right (Nat.sub_lt (Nat.two_pow_pos _) Nat.one_pos)
            (Nat.two_pow_pos _)
      _ = 2 ^ (offset + count) := by rw [← Nat.pow_add, Nat.add_comm]
      _ ≤ 2 ^ w := Nat.pow_le_pow_right (by decide) h
  unfold field
  rw [BitVec.toNat_shiftLeft, toNat_ones (by omega), Nat.shiftLeft_eq, Nat.mod_eq_of_lt hbound]

/-- What a field reads, as a number. -/
theorem toNat_and_field (x : BitVec w) :
    (x &&& field w offset count).toNat = x.toNat / 2 ^ offset % 2 ^ count * 2 ^ offset := by
  rw [BitVec.toNat_and, toNat_field h hpos]
  apply Nat.eq_of_testBit_eq
  intro i
  rw [Nat.testBit_and, Nat.testBit_mul_two_pow, Nat.testBit_mul_two_pow, Nat.testBit_mod_two_pow,
    Nat.testBit_div_two_pow]
  by_cases hi : offset ≤ i
  · simp [hi, Bool.and_comm]
  · simp [hi]

theorem toNat_and_field_lt (x : BitVec w) :
    (x &&& field w offset count).toNat < 2 ^ (offset + count) := by
  rw [toNat_and_field h hpos x, Nat.pow_add, Nat.mul_comm (2 ^ offset)]
  exact Nat.mul_lt_mul_of_pos_right (Nat.mod_lt _ (Nat.two_pow_pos _)) (Nat.two_pow_pos _)

/-- An aligned number that fits lies under its field. -/
theorem ofNat_under_field {n : ℕ} (hdvd : 2 ^ offset ∣ n) (hlt : n < 2 ^ (offset + count)) :
    Under (BitVec.ofNat w n) (field w offset count) := by
  have hw : n < 2 ^ w := Nat.lt_of_lt_of_le hlt (Nat.pow_le_pow_right (by decide) h)
  apply BitVec.eq_of_toNat_eq
  rw [toNat_and_field h hpos, BitVec.toNat_ofNat, Nat.mod_eq_of_lt hw]
  have hq : n / 2 ^ offset < 2 ^ count := by
    rw [Nat.div_lt_iff_lt_mul (Nat.two_pow_pos _), ← Nat.pow_add, Nat.add_comm]
    exact hlt
  rw [Nat.mod_eq_of_lt hq, Nat.div_mul_cancel hdvd]

end BitField
