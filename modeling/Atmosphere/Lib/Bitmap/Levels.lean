import Mathlib

/-!
# Bitmaps of words in levels

A bitmap with many bits is kept in levels of words. The bits of the last level
are the bitmap; a bit of any other level says whether the word with that index
on the next level has a bit. The first level then says with one word whether
there is any bit, and a search goes down one word per level.

The words are functions of the level and the index, so that an update is a
function update and nothing has to be said about array bounds.
-/

namespace Bitmap

/-- The words of a bitmap, by level and index. -/
abbrev Levels (w : ℕ) := ℕ → ℕ → BitVec w

namespace Levels

variable {w : ℕ} (st : Levels w)

/-- Bit `i` of level `d`. -/
def bit (d i : ℕ) : Bool := (st d (i / w)).getLsbD (i % w)

/-- Writes one word. -/
def setWord (d i : ℕ) (v : BitVec w) : Levels w :=
  fun e j => if e = d ∧ j = i then v else st e j

/-- In the first `n` levels, a bit of a level is set exactly when the word it stands
for is not zero. -/
def Linked (n : ℕ) : Prop := ∀ d, d + 1 < n → ∀ i, st.bit d i = true ↔ st (d + 1) i ≠ 0#w

variable {st} {st' : Levels w} {d e i j k n : ℕ} {v : BitVec w}

theorem setWord_same : st.setWord d i v d i = v := if_pos ⟨rfl, rfl⟩

theorem setWord_of_ne (h : e ≠ d ∨ j ≠ i) : st.setWord d i v e j = st e j :=
  if_neg fun hc => h.elim (fun h => h hc.1) fun h => h hc.2

theorem setWord_level (h : e ≠ d) : st.setWord d i v e = st e :=
  funext fun _ => setWord_of_ne (.inl h)

theorem bit_setWord_same (h : j / w = i) : (st.setWord d i v).bit d j = v.getLsbD (j % w) := by
  rw [bit, h, setWord_same]

theorem bit_setWord_of_ne (h : e ≠ d ∨ j / w ≠ i) : (st.setWord d i v).bit e j = st.bit e j := by
  rw [bit, setWord_of_ne h, bit]

theorem bit_congr (h : st' d = st d) : st'.bit d i = st.bit d i := by
  rw [bit, bit, h]

theorem ne_zero_of_bit (h : st.bit d i = true) : st d (i / w) ≠ 0#w := by
  intro hzero
  rw [bit, hzero, BitVec.getLsbD_zero] at h
  cases h

theorem Linked.mono (h : st.Linked n) (hk : k ≤ n) : st.Linked k :=
  fun d hd => h d (Nat.lt_of_lt_of_le hd hk)

/-- Where two bitmaps agree on the first levels, both are linked there. -/
theorem Linked.congr (h : st.Linked n) (heq : ∀ d < n, st' d = st d) :
    st'.Linked n := by
  intro d hd i
  rw [bit_congr (heq d (by omega)), heq (d + 1) hd]
  exact h d hd i

/-- A bit of any level shows in the word above it on the first level. -/
theorem Linked.root_ne_zero (h : st.Linked n) (hd : d < n) (hbit : st.bit d i = true) :
    st 0 (i / w ^ (d + 1)) ≠ 0#w := by
  induction d generalizing i with
  | zero =>
    rw [Nat.pow_one]
    exact ne_zero_of_bit hbit
  | succ d ih =>
    have hup : st.bit d (i / w) = true := (h d hd (i / w)).mpr (ne_zero_of_bit hbit)
    have hroot := ih (by omega) hup
    rwa [Nat.div_div_eq_div_mul, ← Nat.pow_succ'] at hroot

/-- One more level is linked when its words agree with the bits above. -/
theorem Linked.succ (h : st.Linked n)
    (hlast : ∀ d, n = d + 1 → ∀ i, st.bit d i = true ↔ st n i ≠ 0#w) : st.Linked (n + 1) := by
  intro d hd i
  by_cases hn : d + 1 < n
  · exact h d hn i
  · obtain rfl : n = d + 1 := by omega
    exact hlast d rfl i

/-- Writing a word that stays zero or stays different from zero. -/
theorem Linked.setWord (h : st.Linked (n + 1)) (hv : v ≠ 0#w ↔ st n i ≠ 0#w) :
    (st.setWord n i v).Linked (n + 1) := by
  refine Linked.succ ((h.mono (Nat.le_succ n)).congr fun d hd => setWord_level (by omega)) ?_
  rintro d rfl j
  rw [bit_setWord_of_ne (.inl (by omega)), h d (by omega) j]
  by_cases hj : j = i
  · rw [hj, setWord_same, hv]
  · rw [setWord_of_ne (.inr hj)]

/-- Bit `i` of the last of `n` levels is `b` now and the levels are linked. Those below did not
change. -/
structure Updated (n i : ℕ) (b : Bool) (st st' : Levels w) : Prop where
  below : ∀ d, n ≤ d → st' d = st d
  linked : st'.Linked n
  bit : ∀ d, n = d + 1 → ∀ j, st'.bit d j = if j = i then b else st.bit d j

/-- A word is written, and the bit above it too where that changes. -/
theorem Linked.write (h : st.Linked (n + 1))
    (hst : (v ≠ 0#w ↔ st n i ≠ 0#w) ∧ st' = st.setWord n i v ∨ ((st.setWord n i v).Linked n →
      Updated n i (decide (v ≠ 0#w)) (st.setWord n i v) st')) :
    (∀ d, n < d → st' d = st d) ∧ st' n = st.setWord n i v n ∧ st'.Linked (n + 1) := by
  have hlevel : ∀ {d}, d ≠ n → st.setWord n i v d = st d := setWord_level
  obtain ⟨hv, rfl⟩ | hup := hst
  · exact ⟨fun d hd => hlevel (by omega), rfl, h.setWord hv⟩
  · obtain ⟨hbelow, hlink, hbit⟩ :=
      hup ((h.mono (Nat.le_succ n)).congr fun d hd => hlevel (by omega))
    refine ⟨fun d hd => (hbelow d (by omega)).trans (hlevel (by omega)), hbelow n (Nat.le_refl n),
      hlink.succ ?_⟩
    rintro d rfl j
    rw [hbit d rfl j, hbelow _ (Nat.le_refl _)]
    by_cases hj : j = i
    · rw [if_pos hj, hj, setWord_same, decide_eq_true_eq]
    · rw [if_neg hj, setWord_of_ne (.inr hj), bit_congr (hlevel (by omega)), h d (by omega) j]

/-- One bit is written on level `n`, and the bits above it where they change. -/
theorem Linked.updated {b : Bool} (h : st.Linked (n + 1))
    (hv : ∀ j, v.getLsbD j = if j = i % w then b else (st n (i / w)).getLsbD j)
    (hst : (v ≠ 0#w ↔ st n (i / w) ≠ 0#w) ∧ st' = st.setWord n (i / w) v ∨
      ((st.setWord n (i / w) v).Linked n →
        Updated n (i / w) (decide (v ≠ 0#w)) (st.setWord n (i / w) v) st')) :
    Updated (n + 1) i b st st' := by
  obtain ⟨hbelow, hn, hlink⟩ := h.write hst
  refine ⟨hbelow, hlink, fun d hd j => ?_⟩
  obtain rfl : n = d := by omega
  rw [bit_congr hn]
  by_cases hj : j / w = i / w
  · rw [bit_setWord_same hj, hv, bit, hj]
    refine if_congr ⟨fun hm => ?_, fun h => h ▸ rfl⟩ rfl rfl
    rw [← Nat.div_add_mod j w, hj, hm, Nat.div_add_mod]
  · rw [bit_setWord_of_ne (.inr hj), if_neg fun h => hj (by rw [h])]

end Levels

end Bitmap
