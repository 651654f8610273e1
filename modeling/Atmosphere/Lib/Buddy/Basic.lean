import Mathlib

/-!
# Buddy systems

A buddy system keeps a set of positions as aligned blocks of several sizes, where
each size divides the next. Block `q` of level `k` has the positions `x` with
`x / size k = q`, so that every statement about blocks is one about quotients.

The blocks are disjoint and no group of blocks that makes up a block of the
next level is complete. A block is added by completing its group, as long as
that happens, and then by inserting it. If all positions of an aligned block are
in the set, then a block of its level or above is there.
-/

namespace Buddy

open Function (update update_self update_of_ne)
open Finset

/-- The sizes of the blocks, by level. -/
structure Ladder where
  size : ℕ → ℕ
  size_zero : size 0 = 1
  size_pos : ∀ k, 0 < size k
  size_dvd : ∀ k, size k ∣ size (k + 1)

namespace Ladder

variable (l : Ladder)

/-- The blocks that make up a block of the next level. -/
def ratio (k : ℕ) : ℕ := l.size (k + 1) / l.size k

theorem size_succ (k : ℕ) : l.size (k + 1) = l.size k * l.ratio k :=
  (Nat.mul_div_cancel' (l.size_dvd k)).symm

theorem ratio_pos (k : ℕ) : 0 < l.ratio k :=
  Nat.div_pos (Nat.le_of_dvd (l.size_pos _) (l.size_dvd k)) (l.size_pos k)

theorem div_size_succ (x k : ℕ) : x / l.size (k + 1) = x / l.size k / l.ratio k := by
  rw [size_succ, Nat.div_div_eq_div_mul]

theorem div_size_zero (x : ℕ) : x / l.size 0 = x := by rw [l.size_zero, Nat.div_one]

theorem size_dvd_of_le {i j : ℕ} (h : i ≤ j) : l.size i ∣ l.size j := by
  induction h with
  | refl => exact dvd_rfl
  | step _ ih => exact ih.trans (l.size_dvd _)

/-- Every block has a position. -/
theorem exists_position (k q : ℕ) : q * l.size k / l.size k = q :=
  Nat.mul_div_cancel q (l.size_pos k)

/-- The positions of a block. -/
theorem div_eq_iff_mem (x k q : ℕ) :
    x / l.size k = q ↔ x ∈ Ico (q * l.size k) (q * l.size k + l.size k) := by
  rw [mem_Ico, Nat.div_eq_iff (l.size_pos k)]
  have := l.size_pos k
  omega

/-- Some block of the first `n` levels has the position `x`. -/
def Covers (B : ℕ → Finset ℕ) (n x : ℕ) : Prop := ∃ k < n, x / l.size k ∈ B k

/-- No position of block `q` of level `k` is covered. -/
def Fresh (B : ℕ → Finset ℕ) (n k q : ℕ) : Prop := ∀ x, x / l.size k = q → ¬ l.Covers B n x

/-- The blocks are disjoint and no group is complete. -/
structure Good (n : ℕ) (B : ℕ → Finset ℕ) : Prop where
  level_unique : ∀ x k k', k < n → k' < n → x / l.size k ∈ B k → x / l.size k' ∈ B k' → k = k'
  incomplete : ∀ k, k + 1 < n → ∀ p, ∃ j, j / l.ratio k = p ∧ j ∉ B k

variable {l} {B B' : ℕ → Finset ℕ} {n k q : ℕ}

theorem good_empty (l : Ladder) (n : ℕ) : l.Good n fun _ => ∅ where
  level_unique := by simp
  incomplete k _ p := ⟨p * l.ratio k, Nat.mul_div_cancel p (l.ratio_pos k), by simp⟩

/-- Where all positions of a block are covered, one of its positions is covered on
its level or above: on a lower level the blocks would make a complete group. -/
theorem Good.exists_level (h : l.Good n B) (hk : k < n)
    (hall : ∀ x, x / l.size k = q → l.Covers B n x) :
    ∃ k', k ≤ k' ∧ k' < n ∧ ∃ x, x / l.size k = q ∧ x / l.size k' ∈ B k' := by
  induction k generalizing q with
  | zero =>
    obtain ⟨k', hk', hmem⟩ := hall q (l.div_size_zero q)
    exact ⟨k', Nat.zero_le _, hk', q, l.div_size_zero q, hmem⟩
  | succ k ih =>
    obtain ⟨j, hj, hnot⟩ := h.incomplete k hk q
    obtain ⟨k', hle, hk', x, hx, hmem⟩ := ih (q := j) (by omega) fun x hx =>
      hall x (by rw [div_size_succ, hx, hj])
    have hne : k' ≠ k := by
      rintro rfl
      exact hnot (hx ▸ hmem)
    exact ⟨k', by omega, hk', x, by rw [div_size_succ, hx, hj], hmem⟩

/-- Fewer blocks are still disjoint and in incomplete groups. -/
theorem Good.mono (h : l.Good n B) (hsub : ∀ k, B' k ⊆ B k) : l.Good n B' where
  level_unique x k k' hk hk' hx hx' := h.level_unique x k k' hk hk' (hsub k hx) (hsub k' hx')
  incomplete k hk p := by
    obtain ⟨j, hj, hnot⟩ := h.incomplete k hk p
    exact ⟨j, hj, fun hmem => hnot (hsub k hmem)⟩

variable {s : Finset ℕ}

theorem covers_update (hk : k < n) (x : ℕ) : l.Covers (update B k s) n x ↔
      x / l.size k ∈ s ∨ ∃ k' < n, k' ≠ k ∧ x / l.size k' ∈ B k' := by
  constructor
  · rintro ⟨k', hk', hmem⟩
    by_cases heq : k' = k
    · subst heq
      rw [update_self] at hmem
      exact .inl hmem
    · rw [update_of_ne heq] at hmem
      exact .inr ⟨k', hk', heq, hmem⟩
  · rintro (hmem | ⟨k', hk', hne, hmem⟩)
    · exact ⟨k, hk, by rwa [update_self]⟩
    · exact ⟨k', hk', by rwa [update_of_ne hne]⟩

theorem covers_split (hk : k < n) (x : ℕ) : l.Covers B n x ↔
      x / l.size k ∈ B k ∨ ∃ k' < n, k' ≠ k ∧ x / l.size k' ∈ B k' := by
  rw [← covers_update hk, Function.update_eq_self]

theorem update_subset (hs : s ⊆ B k) (k' : ℕ) : update B k s k' ⊆ B k' := by
  by_cases heq : k' = k
  · subst heq
    rwa [update_self]
  · rw [update_of_ne heq]

/-- Taking a block out takes out its positions. -/
theorem Good.erase (h : l.Good n B) (hk : k < n) (hq : q ∈ B k) :
    l.Good n (update B k ((B k).erase q)) ∧ ∀ x, l.Covers (update B k ((B k).erase q)) n x ↔
        l.Covers B n x ∧ x / l.size k ≠ q := by
  refine ⟨h.mono fun k' => update_subset (erase_subset _ _) k', fun x => ?_⟩
  have hother : (∃ k' < n, k' ≠ k ∧ x / l.size k' ∈ B k') → x / l.size k ≠ q := by
    rintro ⟨k', hk', hne, hmem⟩ rfl
    exact hne (h.level_unique x k' k hk' hk hmem hq)
  rw [covers_update hk, covers_split hk, mem_erase]
  grind

/-- A new block whose group stays incomplete is put in. -/
theorem Good.insert (h : l.Good n B) (hk : k < n) (hfresh : l.Fresh B n k q)
    (hgroup : k + 1 < n → ∃ j, j / l.ratio k = q / l.ratio k ∧ j ∉ Insert.insert q (B k)) :
    l.Good n (update B k (Insert.insert q (B k))) ∧
      ∀ x, l.Covers (update B k (Insert.insert q (B k))) n x ↔
        l.Covers B n x ∨ x / l.size k = q := by
  have hcovers : ∀ x, l.Covers (update B k (Insert.insert q (B k))) n x ↔
      l.Covers B n x ∨ x / l.size k = q := by
    intro x
    rw [covers_update hk, covers_split hk, mem_insert]
    grind
  refine ⟨⟨?_, ?_⟩, hcovers⟩
  · -- a position of the new block is covered by no other
    have hother : ∀ x i j, i < n → j < n → i = k → j ≠ k →
        x / l.size i ∈ update B k (Insert.insert q (B k)) i →
        x / l.size j ∈ update B k (Insert.insert q (B k)) j → False := by
      rintro x i j hi hj rfl hne hx hx'
      rw [update_self, mem_insert] at hx
      rw [update_of_ne hne] at hx'
      obtain hx | hx := hx
      · exact hfresh x hx ⟨j, hj, hx'⟩
      · exact hne (h.level_unique x j i hj hi hx' hx)
    intro x i j hi hj hx hx'
    by_cases hik : i = k
    · by_cases hjk : j = k
      · rw [hik, hjk]
      · exact (hother x i j hi hj hik hjk hx hx').elim
    · by_cases hjk : j = k
      · exact (hother x j i hj hi hjk hik hx' hx).elim
      · rw [update_of_ne hik] at hx
        rw [update_of_ne hjk] at hx'
        exact h.level_unique x i j hi hj hx hx'
  · intro i hi p
    by_cases hik : i = k
    · subst hik
      rw [update_self]
      by_cases hp : p = q / l.ratio i
      · subst hp
        exact hgroup hi
      · obtain ⟨j, hj, hnot⟩ := h.incomplete i hi p
        refine ⟨j, hj, fun hmem => ?_⟩
        obtain rfl | hmem := mem_insert.mp hmem
        · exact hp hj.symm
        · exact hnot hmem
    · rw [update_of_ne hik]
      exact h.incomplete i hi p

/-- A new block that completes its group: the group is taken out, and the block of
the next level is new. -/
theorem Good.rise (h : l.Good n B) (hk : k + 1 < n) (hfresh : l.Fresh B n k q)
    (hfull : ∀ j, j / l.ratio k = q / l.ratio k → j ∈ Insert.insert q (B k))
    (hs : ∀ j, j ∈ s ↔ j ∈ Insert.insert q (B k) ∧ j / l.ratio k ≠ q / l.ratio k) :
    l.Good n (update B k s) ∧ l.Fresh (update B k s) n (k + 1) (q / l.ratio k) ∧
      ∀ x, l.Covers (update B k s) n x ∨ x / l.size (k + 1) = q / l.ratio k ↔
        l.Covers B n x ∨ x / l.size k = q := by
  have hsub : s ⊆ B k := by
    intro j hj
    obtain ⟨hmem, hne⟩ := (hs j).mp hj
    obtain rfl | hmem := mem_insert.mp hmem
    · exact absurd rfl hne
    · exact hmem
  refine ⟨h.mono fun k' => update_subset hsub k', ?_, ?_⟩
  · intro x hx hcov
    rw [div_size_succ] at hx
    obtain hmem | ⟨k', hk', hne, hmem⟩ := (covers_update (by omega) x).mp hcov
    · exact ((hs _).mp hmem).2 hx
    · obtain hq | hold := mem_insert.mp (hfull _ hx)
      · exact hfresh x hq ⟨k', hk', hmem⟩
      · exact hne (h.level_unique x k' k hk' (by omega) hmem hold)
  · intro x
    have hgroup := hfull (x / l.size k)
    have hself : x / l.size k = q → x / l.size k / l.ratio k = q / l.ratio k := congrArg (· / _)
    rw [covers_update (by omega), covers_split (k := k) (by omega), div_size_succ, hs]
    rw [mem_insert] at hgroup ⊢
    grind

/-- The size of the blocks after one level was changed. -/
theorem sum_update (l : Ladder) (B : ℕ → Finset ℕ) (hk : k < n) :
    ∑ j ∈ range n, (update B k s j).card * l.size j + (B k).card * l.size k =
      ∑ j ∈ range n, (B j).card * l.size j + s.card * l.size k := by
  have hmem := mem_range.mpr hk
  rw [← add_sum_erase _ _ hmem, ← add_sum_erase _ (fun j => (B j).card * _) hmem, update_self]
  have hrest : ∑ j ∈ (range n).erase k, (update B k s j).card * l.size j =
      ∑ j ∈ (range n).erase k, (B j).card * l.size j := by
    refine sum_congr rfl fun j hj => ?_
    rw [update_of_ne (ne_of_mem_erase hj)]
  omega

/-- The positions determine the blocks. -/
theorem Good.eq_of_covers (h : l.Good n B) (h' : l.Good n B')
    (hcovers : ∀ x, l.Covers B n x ↔ l.Covers B' n x) (hk : k < n) : B k ⊆ B' k := by
  intro q hq
  have hall : ∀ x, x / l.size k = q → l.Covers B' n x := fun x hx =>
    (hcovers x).mp ⟨k, hk, hx ▸ hq⟩
  obtain ⟨k', hle, hk', x, hx, hmem⟩ := h'.exists_level hk hall
  rcases Nat.eq_or_lt_of_le hle with rfl | hlt
  · exact hx ▸ hmem
  · -- the larger block would be covered from above, with the block itself in it
    have hall' : ∀ y, y / l.size k' = x / l.size k' → l.Covers B n y := fun y hy =>
      (hcovers y).mpr ⟨k', hk', hy ▸ hmem⟩
    obtain ⟨k'', hle', hk'', y, hy, hmem'⟩ := h.exists_level hk' hall'
    obtain ⟨r, hr⟩ := l.size_dvd_of_le hle'
    have hsame : y / l.size k'' = x / l.size k'' := by
      rw [hr, ← Nat.div_div_eq_div_mul, ← Nat.div_div_eq_div_mul, hy]
    have heq := h.level_unique x k k'' hk hk'' (hx ▸ hq) (hsame ▸ hmem')
    omega

/-- The positions of the blocks, counted block by block. -/
theorem Good.card (h : l.Good n B) {F : Finset ℕ} (hF : ∀ x, x ∈ F ↔ l.Covers B n x) :
    ∑ k ∈ range n, (B k).card * l.size k = F.card := by
  have hlevel : ∀ k, ((B k).biUnion fun q =>
      Ico (q * l.size k) (q * l.size k + l.size k)).card = (B k).card * l.size k := by
    intro k
    rw [card_biUnion]
    · simp
    · intro p _ q _ hne
      rw [Function.onFun, disjoint_left]
      intro x hp hq
      exact hne (((l.div_eq_iff_mem x k p).mpr hp).symm.trans ((l.div_eq_iff_mem x k q).mpr hq))
  have hmem : ∀ x k, x ∈ ((B k).biUnion fun q =>
      Ico (q * l.size k) (q * l.size k + l.size k)) ↔ x / l.size k ∈ B k := by
    intro x k
    simp only [mem_biUnion, ← l.div_eq_iff_mem]
    exact ⟨fun ⟨q, hq, hx⟩ => hx ▸ hq, fun hx => ⟨_, hx, rfl⟩⟩
  have hunion : F = (range n).biUnion fun k =>
      (B k).biUnion fun q => Ico (q * l.size k) (q * l.size k + l.size k) := by
    ext x
    rw [hF, mem_biUnion]
    simp only [hmem, mem_range]
    rfl
  rw [hunion, card_biUnion]
  · exact sum_congr rfl fun k _ => (hlevel k).symm
  · intro k hk k' hk' hne
    rw [Function.onFun, disjoint_left]
    intro x hx hx'
    exact hne (h.level_unique x k k' (mem_range.mp hk) (mem_range.mp hk')
      ((hmem x k).mp hx) ((hmem x k').mp hx'))

end Ladder

/-! ## Pairs of buddies -/

/-- Every block has two halves. -/
def binary : Ladder where
  size k := 2 ^ k
  size_zero := rfl
  size_pos _ := Nat.two_pow_pos _
  size_dvd k := Nat.pow_dvd_pow 2 (Nat.le_succ k)

theorem binary_size (k : ℕ) : binary.size k = 2 ^ k := rfl

theorem binary_ratio (k : ℕ) : binary.ratio k = 2 := by
  change 2 ^ (k + 1) / 2 ^ k = 2
  rw [Nat.pow_succ, Nat.mul_div_cancel_left _ (Nat.two_pow_pos k)]

theorem binary_div_succ (x k : ℕ) : x / binary.size (k + 1) = x / binary.size k / 2 := by
  rw [Ladder.div_size_succ, binary_ratio]

namespace Ladder

variable {B : ℕ → Finset ℕ} {n k q : ℕ}

theorem Fresh.notMem {l : Ladder} (h : l.Fresh B n k q) (hk : k < n) : q ∉ B k := fun hq =>
  h (q * l.size k) (l.exists_position k q) ⟨k, hk, (l.exists_position k q).symm ▸ hq⟩

/-- The halves of a new block are new. -/
theorem Fresh.half (h : binary.Fresh B n (k + 1) (q / 2)) : binary.Fresh B n k q := fun x hx =>
  h x (by rw [binary_div_succ, hx])

/-- The right half of a new block is put in, and the left half is new. -/
theorem Good.split (h : binary.Good n B) (hk : k + 1 < n) (hfresh : binary.Fresh B n (k + 1) q) :
    binary.Fresh (update B k (Insert.insert (2 * q + 1) (B k))) n k (2 * q) ∧
      ∀ x, binary.Covers (update B k (Insert.insert (2 * q + 1) (B k))) n x ∨
          x / binary.size k = 2 * q ↔
        binary.Covers B n x ∨ x / binary.size (k + 1) = q := by
  have hright : binary.Fresh B n k (2 * q + 1) :=
    Fresh.half (by rwa [show (2 * q + 1) / 2 = q by omega])
  have hleft : binary.Fresh B n k (2 * q) :=
    Fresh.half (by rwa [show 2 * q / 2 = q by omega])
  obtain ⟨-, hcovers⟩ := h.insert (by omega) hright fun _ => by
    refine ⟨2 * q, ?_, fun hmem => ?_⟩
    · rw [binary_ratio]
      omega
    · rcases mem_insert.mp hmem with heq | hmem
      · omega
      · exact hleft.notMem (by omega) hmem
  refine ⟨fun x hx hcov => ?_, fun x => ?_⟩
  · rcases (hcovers x).mp hcov with hcov | hx'
    · exact hleft x hx hcov
    · omega
  · rw [hcovers, binary_div_succ, or_assoc]
    refine or_congr_right ?_
    omega

/-- A new block whose buddy is there: the buddy is taken out and both make a new block. -/
theorem Good.join (h : binary.Good n B) (hk : k + 1 < n) (hfresh : binary.Fresh B n k q) {b : ℕ}
    (hb : b ∈ B k) (hbuddy : b / 2 = q / 2) :
    binary.Good n (update B k ((B k).erase b)) ∧
      binary.Fresh (update B k ((B k).erase b)) n (k + 1) (q / 2) ∧
      ∀ x, binary.Covers (update B k ((B k).erase b)) n x ∨ x / binary.size (k + 1) = q / 2 ↔
        binary.Covers B n x ∨ x / binary.size k = q := by
  have hq : q ∉ B k := hfresh.notMem (by omega)
  have hne : b ≠ q := fun heq => hq (heq ▸ hb)
  have hrise := h.rise hk hfresh (s := (B k).erase b) (fun j hj => ?_) fun j => ?_
  · rwa [binary_ratio] at hrise
  · rw [binary_ratio] at hj
    obtain rfl | rfl : j = q ∨ j = b := by omega
    · exact mem_insert_self _ _
    · exact mem_insert_of_mem hb
  · rw [binary_ratio, mem_erase, mem_insert]
    constructor
    · rintro ⟨hjb, hj⟩
      refine ⟨.inr hj, fun heq => ?_⟩
      obtain rfl | rfl : j = q ∨ j = b := by omega
      · exact hq hj
      · exact hjb rfl
    · rintro ⟨rfl | hj, hneq⟩
      · exact absurd rfl hneq
      · exact ⟨fun heq => hneq (heq ▸ hbuddy), hj⟩

end Ladder

end Buddy
