import Mathlib

/-!
# Scanning the bits of a word

Counts of leading and trailing zeros, and the loop that takes the set bits of a
word one after the other from the lowest up.
-/

namespace BitScan

variable {w : ℕ}

/-- The first index below `n` with the property, or `n`. -/
def first (p : ℕ → Bool) (n : ℕ) : ℕ := ((List.range n).find? p).getD n

theorem first_spec (p : ℕ → Bool) (n : ℕ) :
    (first p n < n ∧ p (first p n) = true ∧ ∀ j < first p n, p j = false) ∨
      (first p n = n ∧ ∀ j < n, p j = false) := by
  rw [first]
  cases hfind : (List.range n).find? p with
  | none =>
    refine .inr ⟨rfl, fun j hj => ?_⟩
    have := List.find?_eq_none.mp hfind j (List.mem_range.mpr hj)
    simpa using this
  | some k =>
    obtain ⟨hk, hmem, hlt⟩ := List.find?_range_eq_some.mp hfind
    exact .inl ⟨List.mem_range.mp hmem, hk, fun j hj => by simpa using hlt j hj⟩

/-- `__builtin_ctzll`, and the width for zero. -/
def countTrailingZeros (v : BitVec w) : ℕ := first v.getLsbD w

/-- `util::CountLeadingZeros`, and the width for zero. -/
def countLeadingZeros (v : BitVec w) : ℕ := first v.getMsbD w

/-- The indices of the set bits, in ascending order. -/
def bits (v : BitVec w) : List ℕ := (List.range w).filter v.getLsbD

variable {v : BitVec w} {k j : ℕ} {l : List ℕ}

theorem mem_bits : k ∈ bits v ↔ v.getLsbD k = true := by
  rw [bits, List.mem_filter, List.mem_range, and_iff_right_iff_imp]
  exact BitVec.lt_of_getLsbD

theorem nodup_bits (v : BitVec w) : (bits v).Nodup := List.nodup_range.filter _

theorem length_bits_le (v : BitVec w) : (bits v).length ≤ w := by
  exact (List.length_filter_le _ _).trans_eq List.length_range

theorem bits_eq_nil : bits v = [] ↔ v = 0#w := by
  constructor
  · intro h
    refine BitVec.eq_of_getLsbD_eq fun k _ => ?_
    rw [BitVec.getLsbD_zero, Bool.eq_false_iff]
    intro hk
    have hmem := mem_bits.mpr hk
    rw [h] at hmem
    cases hmem
  · rintro rfl
    simp [bits]

/-- Clears one bit. -/
def clearBit (v : BitVec w) (k : ℕ) : BitVec w := v &&& ~~~(1#w <<< k)

theorem getLsbD_clearBit : (clearBit v k).getLsbD j = (v.getLsbD j && !decide (j = k)) := by
  rw [clearBit, ← BitVec.twoPow_eq]
  by_cases hj : j < w
  · by_cases hjk : k = j
    · simp [hjk, hj]
    · simp [hj, Ne.symm hjk]
  · simp [BitVec.getLsbD_of_ge v j (by omega)]

/-- The lowest bit is the first one, and the others are those left when it is cleared. -/
theorem bits_eq_cons (h : v ≠ 0#w) :
    bits v = countTrailingZeros v :: bits (clearBit v (countTrailingZeros v)) := by
  have hne : bits v ≠ [] := fun hnil => h (bits_eq_nil.mp hnil)
  obtain ⟨k, rest, hcons⟩ := List.exists_cons_of_ne_nil hne
  have hk : countTrailingZeros v = k := by
    rw [countTrailingZeros, first, ← List.head?_filter]
    change (bits v).head?.getD w = k
    rw [hcons]
    rfl
  have hnot : k ∉ rest := (List.nodup_cons.mp (hcons ▸ nodup_bits v)).1
  have hrest : bits (clearBit v k) = rest := by
    have hfilter : bits (clearBit v k) = (bits v).filter fun j => !decide (j = k) := by
      rw [bits, bits, List.filter_filter]
      refine List.filter_congr fun j _ => ?_
      rw [getLsbD_clearBit, Bool.and_comm]
    rw [hfilter, hcons, List.filter_cons_of_neg (by simp), List.filter_eq_self]
    intro j hj
    simpa using ne_of_mem_of_not_mem hj hnot
  rw [hk, hrest, hcons]

theorem getLsbD_one_shiftLeft (hk : k < w) : (1#w <<< k).getLsbD j = decide (j = k) := by
  simp [← BitVec.twoPow_eq, hk, eq_comm]

theorem getLsbD_set (hk : k < w) :
    (v ||| (1#w <<< k)).getLsbD j = if j = k then true else v.getLsbD j := by
  rw [BitVec.getLsbD_or, getLsbD_one_shiftLeft hk]
  by_cases hj : j = k <;> simp [hj]

theorem getLsbD_clear :
    (v &&& ~~~(1#w <<< k)).getLsbD j = if j = k then false else v.getLsbD j := by
  refine getLsbD_clearBit.trans ?_
  by_cases hj : j = k <;> simp [hj]

/-- The test of one bit. -/
theorem and_one_shiftLeft_eq_zero (hk : k < w) : v &&& 1#w <<< k = 0#w ↔ v.getLsbD k = false := by
  rw [← BitVec.twoPow_eq, BitVec.and_twoPow]
  cases v.getLsbD k with
  | false => simp
  | true =>
    refine iff_of_false (fun hzero => ?_) (by decide)
    have hget := congrArg (BitVec.getLsbD · k) hzero
    simp [hk] at hget

theorem and_one_shiftLeft_bne_zero (hk : k < w) : (v &&& 1#w <<< k != 0#w) = v.getLsbD k := by
  rw [Bool.eq_iff_iff, bne_iff_ne, ne_eq, and_one_shiftLeft_eq_zero hk, Bool.not_eq_false]

/-- The highest bit of a word that is not zero. -/
theorem getLsbD_highest (h : v ≠ 0#w) :
    countLeadingZeros v < w ∧ v.getLsbD (w - 1 - countLeadingZeros v) = true := by
  obtain ⟨hlt, hset, -⟩ | ⟨-, hnone⟩ := first_spec v.getMsbD w
  · refine ⟨hlt, ?_⟩
    rw [countLeadingZeros, ← hset, BitVec.getMsbD_eq_getLsbD]
    simp [hlt]
  · refine absurd (BitVec.eq_of_getMsbD_eq fun j hj => ?_) h
    rw [hnone j hj, BitVec.getMsbD_zero]

/-- A loop that sets a bit for every index. -/
theorem getLsbD_foldl_or {f : ℕ → ℕ} (hf : ∀ k, f k < w) :
    (l.foldl (fun v k => v ||| 1#w <<< f k) v).getLsbD j = true ↔
      v.getLsbD j = true ∨ ∃ k ∈ l, f k = j := by
  induction l generalizing v with
  | nil => simp
  | cons k l ih =>
    rw [List.foldl_cons, ih, BitVec.getLsbD_or, getLsbD_one_shiftLeft (hf k), Bool.or_eq_true,
      decide_eq_true_eq, List.exists_mem_cons_iff, or_assoc, @eq_comm _ j (f k)]

/-- A loop that sets the bits with a property. -/
theorem mem_bits_foldl {p : ℕ → Bool} (hl : ∀ k ∈ l, k < w) :
    j ∈ bits (l.foldl (fun v k => if p k then v ||| (1#w <<< k) else v) v) ↔
      j ∈ bits v ∨ j ∈ l ∧ p j = true := by
  induction l generalizing v with
  | nil => simp
  | cons k l ih =>
    rw [List.foldl_cons, ih fun k' hk' => hl k' (.tail _ hk')]
    by_cases hp : p k = true
    · rw [if_pos hp, mem_bits, mem_bits, getLsbD_set (hl k (.head _))]
      by_cases hjk : j = k <;> simp [hjk, hp]
    · rw [if_neg hp]
      by_cases hjk : j = k <;> simp [hjk, hp]

/-- `while (mask) { … }` with the lowest set bit taken out in each round. -/
def forBits {σ : Type*} (f : ℕ → σ → σ) : ℕ → BitVec w → σ → σ
  | 0, _, s => s
  | fuel + 1, v, s =>
    if v = 0#w then s
    else
      let k := countTrailingZeros v
      forBits f fuel (clearBit v k) (f k s)

/-- The loop is a fold over the set bits. -/
theorem forBits_eq_foldl {σ : Type*} {f : ℕ → σ → σ} {fuel : ℕ} {s : σ}
    (hfuel : (bits v).length ≤ fuel) :
    forBits f fuel v s = (bits v).foldl (fun s k => f k s) s := by
  induction fuel generalizing v s with
  | zero =>
    rw [List.eq_nil_of_length_eq_zero (Nat.le_zero.mp hfuel)]
    rfl
  | succ fuel ih =>
    rw [forBits]
    by_cases hzero : v = 0#w
    · rw [if_pos hzero, bits_eq_nil.mpr hzero]
      rfl
    · rw [if_neg hzero]
      have hcons := bits_eq_cons hzero
      rw [hcons, List.length_cons] at hfuel
      rw [ih (by omega), hcons]
      rfl

end BitScan
