import Atmosphere.Lib.BitField.Basic
import Atmosphere.Lib.BitScan.Basic

/-!
# Bit sets

`util::BitSet` keeps its flags in words, the first flag of a word in the highest bit. `GetNextSet`
masks every word that it looks at and not only the first one, so that it passes over flags of later
words whose place in the word is not behind that of the start.
-/

namespace Atmosphere.Util

/-- `util::impl::BitSet` with words of `w` bits. -/
structure BitSet (w capacity : ℕ) where
  words : List (BitVec w)
  length_eq : words.length = (capacity + (w - 1)) / w

namespace BitSet

def getBitMask (w bit : ℕ) : BitVec w := 1#w <<< (w - 1 - bit)

/-- The loop of `GetNextSet`, with the words from index `i` on. -/
def getNextSetLoop {w : ℕ} (n : ℕ) : ℕ → List (BitVec w) → Option ℕ
  | _, [] => none
  | i, word :: words =>
    let word := if (n + 1) % w ≠ 0 then word &&& (getBitMask w (n % w) - 1#w) else word
    if word ≠ 0#w then some (w * i + BitScan.countLeadingZeros word)
    else getNextSetLoop n (i + 1) words

variable {w capacity : ℕ} (s : BitSet w capacity)

def getNextSet (n : ℕ) : ℕ :=
  (getNextSetLoop n ((n + 1) / w) (s.words.drop ((n + 1) / w))).getD (w * s.words.length)

/-- The flag that `SetBit` sets. -/
def test (i : ℕ) : Bool := s.words.getD (i / w) 0#w &&& getBitMask w (i % w) != 0#w

/-- The flags that the mask leaves. -/
def Seen (n i : ℕ) : Prop := s.test i = true ∧ ((n + 1) % w = 0 ∨ n % w < i % w)

variable {s} {n i : ℕ}

theorem test_eq (hw : 0 < w) : s.test i = (s.words.getD (i / w) 0#w).getMsbD (i % w) := by
  have hlt := Nat.mod_lt i hw
  rw [test, getBitMask, BitScan.and_one_shiftLeft_bne_zero (by omega), BitVec.getMsbD_eq_getLsbD]
  simp [hlt]

/-- A flag of a masked word. -/
theorem getMsbD_masked (hw : 0 < w) (word : BitVec w) {b : ℕ} (hb : b < w) :
    (if (n + 1) % w ≠ 0 then word &&& (getBitMask w (n % w) - 1#w) else word).getMsbD b = true ↔
      word.getMsbD b = true ∧ ((n + 1) % w = 0 ∨ n % w < b) := by
  have hlt := Nat.mod_lt n hw
  split_ifs with hmask
  · rw [BitVec.getMsbD_and, Bool.and_eq_true, or_iff_right hmask,
      BitVec.getMsbD_eq_getLsbD (getBitMask w (n % w) - 1#w), getBitMask,
      BitField.getLsbD_ones (by omega)]
    simp only [hb, decide_true, Bool.true_and, decide_eq_true_eq]
    exact and_congr_right fun _ => by omega
  · simp [not_not.mp hmask]

/-- The loop finds the first flag that is left, from its first word on. -/
theorem getNextSetLoop_spec (hw : 0 < w) (words : List (BitVec w))
    (hwords : s.words.drop i = words) :
    match getNextSetLoop n i words with
    | none => ∀ j, i ≤ j / w → ¬ s.Seen n j
    | some r => IsLeast {j | i ≤ j / w ∧ s.Seen n j} r := by
  induction words generalizing i with
  | nil =>
    intro j hj hseen
    have hlen := List.drop_eq_nil_iff.mp hwords
    simp [Seen, test_eq hw, List.getElem?_eq_none (hlen.trans hj)] at hseen
  | cons word words ih =>
    have hget : s.words.getD i 0#w = word := by
      rw [List.getD_eq_getElem?_getD, ← List.head?_drop, hwords]
      rfl
    have hnext := ih (i := i + 1) (by rw [← List.tail_drop, hwords]; rfl)
    have hseen : ∀ j, j / w = i → (s.Seen n j ↔ _) := fun j hj => by
      rw [Seen, test_eq hw, hj, hget, ← getMsbD_masked hw word (Nat.mod_lt j hw)]
    rw [getNextSetLoop]
    generalize (if (n + 1) % w ≠ 0 then _ else _) = masked at hseen ⊢
    obtain ⟨hlt, hset, hbefore⟩ | ⟨-, hnone⟩ := BitScan.first_spec masked.getMsbD w
    · have hne : masked ≠ 0#w := by
        rintro rfl
        simp at hset
      rw [if_pos hne]
      change IsLeast _ (w * i + BitScan.first masked.getMsbD w)
      generalize BitScan.first masked.getMsbD w = c at *
      have hdiv : (w * i + c) / w = i := by
        rw [Nat.mul_add_div hw, Nat.div_eq_of_lt hlt, Nat.add_zero]
      refine ⟨⟨hdiv.ge, (hseen _ hdiv).mpr ?_⟩, fun j hj => ?_⟩
      · rwa [Nat.mul_add_mod, Nat.mod_eq_of_lt hlt]
      · rw [← Nat.div_add_mod j w]
        obtain heq | hgt := hj.1.eq_or_lt
        · have hbit := (hseen j heq.symm).mp hj.2
          have hc : c ≤ j % w := not_lt.mp fun hlt => by simp [hbefore _ hlt] at hbit
          rw [← heq]
          exact Nat.add_le_add_left hc _
        · have hmul := Nat.mul_le_mul_left w hgt
          rw [Nat.mul_succ] at hmul
          omega
    · have hzero : masked = 0#w := BitVec.eq_of_getMsbD_eq fun b hb => by
        rw [hnone b hb, BitVec.getMsbD_zero]
      have hskip : ∀ j, i ≤ j / w → s.Seen n j → i + 1 ≤ j / w := by
        intro j hj hs
        refine hj.lt_of_ne' fun heq => ?_
        simp [hseen j heq, hzero] at hs
      rw [if_neg (not_not.mpr hzero)]
      split at hnext
      · exact fun j hj hs => hnext j (hskip j hj hs) hs
      · exact ⟨⟨Nat.le_of_succ_le hnext.1.1, hnext.1.2⟩,
          fun j hj => hnext.2 ⟨hskip j hj.1 hj.2, hj.2⟩⟩

/-- A flag that the loop can find is behind `n`. -/
theorem lt_of_seen (hj : (n + 1) / w ≤ i / w) (hseen : s.Seen n i) : n < i := by
  have hi := Nat.div_add_mod i w
  obtain haligned | hplace := hseen.2
  · have hmul := Nat.mul_le_mul_left w hj
    have hn := Nat.div_add_mod (n + 1) w
    omega
  · have hmul := Nat.mul_le_mul_left w ((Nat.div_le_div_right n.le_succ).trans hj)
    have hn := Nat.div_add_mod n w
    omega

theorem test_lt (hw : 0 < w) (htest : s.test i = true) : i < w * s.words.length := by
  by_contra hge
  have hlen : s.words.length ≤ i / w := (Nat.le_div_iff_mul_le hw).mpr (by
    rw [Nat.mul_comm]
    exact not_lt.mp hge)
  simp [test_eq hw, List.getElem?_eq_none hlen] at htest

/-- The call gives the next flag, or the number of all bits if there is none, exactly if `n` is the
last place of its word or the next flag, if there is one, has a later place in its word than `n`. -/
theorem getNextSet_isLeast_iff (hw : 0 < w) (s : BitSet w capacity) (n : ℕ) :
    (((∃ j, n < j ∧ s.test j = true) →
        IsLeast {j | n < j ∧ s.test j = true} (s.getNextSet n)) ∧
      ((¬ ∃ j, n < j ∧ s.test j = true) → s.getNextSet n = w * s.words.length)) ↔
    (n + 1) % w = 0 ∨ ∀ j, IsLeast {j | n < j ∧ s.test j = true} j → n % w < j % w := by
  have hspec := getNextSetLoop_spec (s := s) (n := n) (i := (n + 1) / w) hw _ rfl
  rw [getNextSet]
  constructor
  · rintro ⟨hsome, -⟩
    refine or_iff_not_imp_left.mpr fun hmask j hj => ?_
    have heq := (hsome ⟨j, hj.1⟩).unique hj
    split at hspec
    · next hnone =>
      -- the number of all bits is no flag
      rw [hnone] at heq
      exact absurd (test_lt hw hj.1.2) (not_lt.mpr heq.le)
    · next r hr =>
      rw [hr] at heq
      obtain rfl : r = j := heq
      exact hspec.1.2.2.resolve_left hmask
  · intro hplace
    have hseen : ∀ j, IsLeast {j | n < j ∧ s.test j = true} j →
        (n + 1) / w ≤ j / w ∧ s.Seen n j := fun j hj =>
      ⟨Nat.div_le_div_right hj.1.1, hj.1.2, hplace.imp_right fun h => h j hj⟩
    split at hspec
    · next hnone =>
      rw [hnone]
      refine ⟨fun hex => ?_, fun _ => rfl⟩
      have hj := Nat.isLeast_find hex
      exact absurd (hseen _ hj).2 (hspec _ (hseen _ hj).1)
    · next r hr =>
      have hmem : n < r ∧ s.test r = true := ⟨lt_of_seen hspec.1.1 hspec.1.2, hspec.1.2.1⟩
      rw [hr]
      refine ⟨fun hex => ?_, fun hnot => absurd ⟨r, hmem⟩ hnot⟩
      have hj := Nat.isLeast_find hex
      rwa [Option.getD_some, le_antisymm (hspec.2 (hseen _ hj)) (hj.2 hmem)]

/-- A set of two words with the flag 8. -/
def secondWord : BitSet 8 16 := ⟨[0, 0x80], rfl⟩

theorem getNextSet_isLeast_secondWord :
    0 < 8 ∧ IsLeast {j | 7 < j ∧ secondWord.test j = true} 8 :=
  ⟨by decide, ((getNextSet_isLeast_iff (by decide) secondWord 7).mpr (.inl rfl)).1
    ⟨8, by decide⟩⟩

/-- From flag 0 on, the flag 8 is masked. -/
theorem getNextSet_passes_over : secondWord.test 8 = true ∧ secondWord.getNextSet 0 = 16 := by
  decide

end BitSet

end Atmosphere.Util
