import Atmosphere.Kern.PageHeapSpec

/-!
# Runs of the page heap

Any sequence of `Free` and `AllocateBlock` calls on a new heap. The bitmaps are
read as sets of block addresses, and compared with the set of pages that have been
freed and not been given out since.
-/

namespace Atmosphere.Kern.KPageHeap

open Finset

/-- The addresses of the free blocks in a bitmap, as `PopBlock` computes them. -/
def Block.freeBlocks (b : Block) : Finset ℕ :=
  ((range b.endOffset).filter fun o =>
    b.bitmap.bitStorages.bit (b.bitmap.usedDepths - 1) o = true).image fun o =>
      b.heapAddress + (o <<< b.blockShift)

/-- The addresses of the free blocks of a level. -/
def freeBlocks (h : KPageHeap) (k : ℕ) : Finset ℕ :=
  (h.blocks[k]?.map Block.freeBlocks).getD ∅

/-- The pages of the block of level `k` at an address. -/
def blockPages (k address : ℕ) : Finset ℕ :=
  Ico (address / pageSize) ((address + getBlockSize k) / pageSize)

/-- The bitmaps describe the free pages `F`. -/
structure Describes (h : KPageHeap) (F : Finset ℕ) : Prop where
  /-- Blocks are naturally aligned. -/
  aligned : ∀ k, ∀ a ∈ h.freeBlocks k, getBlockSize k ∣ a
  /-- Different blocks, of one level or of two, have no page in common. -/
  disjoint : ∀ k, ∀ a ∈ h.freeBlocks k, ∀ k', ∀ a' ∈ h.freeBlocks k', (k, a) ≠ (k', a') →
    Disjoint (blockPages k a) (blockPages k' a')
  /-- The blocks together are the free pages. -/
  union : ∀ x, x ∈ F ↔ ∃ k, ∃ a ∈ h.freeBlocks k, x ∈ blockPages k a
  /-- An aligned block of the next level has a part that is not a free block. -/
  maximal : ∀ k, k + 1 < numMemoryBlockPageShifts → ∀ a, getBlockSize (k + 1) ∣ a →
    ∃ a', getBlockSize k ∣ a' ∧ a ≤ a' ∧ a' < a + getBlockSize (k + 1) ∧ a' ∉ h.freeBlocks k
  numFreePages : h.getNumFreePages = F.card

variable {lo hi k : ℕ} {h : KPageHeap} {F : Finset ℕ} {B : ℕ → Finset ℕ}

theorem getBlockSize_eq (k : ℕ) : getBlockSize k = pageLadder.size k * pageSize := by
  rw [← two_pow_shiftAt, getBlockSize, Nat.shiftLeft_eq, Nat.one_mul, shiftAt]

theorem blockPages_mul (k p : ℕ) : blockPages k (p * pageSize) = Ico p (p + pageLadder.size k) := by
  rw [blockPages, getBlockSize_eq, ← Nat.add_mul, Nat.mul_div_cancel _ (by decide),
    Nat.mul_div_cancel _ (by decide)]

theorem mem_blockPages {x q : ℕ} :
    x ∈ blockPages k (q * pageLadder.size k * pageSize) ↔ x / pageLadder.size k = q := by
  rw [blockPages_mul, pageLadder.div_eq_iff_mem]

variable {a : ℕ}

/-- An aligned address is that of a block number. -/
theorem exists_number (h : getBlockSize k ∣ a) : ∃ q, a = q * pageLadder.size k * pageSize := by
  obtain ⟨q, rfl⟩ := h
  exact ⟨q, by rw [getBlockSize_eq, Nat.mul_comm, Nat.mul_assoc]⟩

theorem Block.Keeps.freeBlocks {b : Block} {s : Finset ℕ} (h : b.Keeps lo hi k s) :
    b.freeBlocks = s.image fun q => q * pageLadder.size k * pageSize := by
  obtain ⟨t, hrep, rfl⟩ := h.offsets
  have hfilter : (range b.endOffset).filter (fun o =>
      b.bitmap.bitStorages.bit (b.bitmap.usedDepths - 1) o = true) = t := by
    ext o
    rw [mem_filter, mem_range, hrep.bit_iff]
    exact ⟨And.right, fun ho => ⟨hrep.lt_size o ho, ho⟩⟩
  rw [Block.freeBlocks, hfilter, image_image]
  refine image_congr fun o _ => ?_
  change _ = (b.base + o) * pageLadder.size k * pageSize
  rw [h.address, two_pow_shiftAt, Nat.mul_assoc]

theorem KeepsBlocks.mem_freeBlocks (hB : KeepsBlocks lo hi h.blocks B) :
    a ∈ h.freeBlocks k ↔ k < 7 ∧ ∃ q ∈ B k, a = q * pageLadder.size k * pageSize := by
  rw [KPageHeap.freeBlocks]
  by_cases hk : k < 7
  · obtain ⟨b, hb, hkeeps⟩ := hB.keeps.get (i := k) (by rwa [hB.length])
    rw [Nat.zero_add] at hkeeps
    simp only [hb, Option.map_some, Option.getD_some, hkeeps.freeBlocks, mem_image, hk,
      true_and, eq_comm]
  · rw [List.getElem?_eq_none (by rw [hB.length]; omega)]
    simp [hk]

theorem KeepsFrom.getNumFreePages {blocks : List Block} (h : KeepsFrom lo hi B k blocks) :
    (blocks.map Block.getNumFreePages).sum =
      ∑ i ∈ range blocks.length, (B (k + i)).card * pageLadder.size (k + i) := by
  induction blocks generalizing k with
  | nil => rfl
  | cons b rest ih =>
    obtain ⟨t, hrep, hs⟩ := h.1.offsets
    have hpages : b.getNumPages = pageLadder.size k := by
      rw [Block.getNumPages, h.1.getSize, two_pow_shiftAt, Nat.mul_div_cancel _ (by decide)]
    have hcard : (B k).card = t.card := by
      rw [hs, card_image_of_injective _ (add_right_injective b.base)]
    rw [List.map_cons, List.sum_cons, ih h.2, List.length_cons, sum_range_succ',
      Block.getNumFreePages, Block.getNumFreeBlocks, hrep.numBits, hpages, Nat.add_zero k, hcard,
      Nat.add_comm]
    simp only [Nat.add_assoc, Nat.add_comm 1]

/-- What the proofs keep is what the bitmaps describe. -/
theorem HoldsPages.describes (hh : HoldsPages lo hi h.blocks F) : h.Describes F := by
  obtain ⟨B, hB, hF⟩ := hh
  refine ⟨?_, ?_, ?_, ?_, ?_⟩
  · intro k a ha
    obtain ⟨_, q, _, rfl⟩ := hB.mem_freeBlocks.mp ha
    rw [getBlockSize_eq, Nat.mul_assoc]
    exact Nat.dvd_mul_left _ _
  · intro k a ha k' a' ha' hne
    obtain ⟨hk, q, hq, rfl⟩ := hB.mem_freeBlocks.mp ha
    obtain ⟨hk', q', hq', rfl⟩ := hB.mem_freeBlocks.mp ha'
    rw [disjoint_left]
    intro x hx hx'
    rw [mem_blockPages] at hx hx'
    obtain rfl : k = k' := hB.good.level_unique x k k' hk hk' (hx ▸ hq) (hx' ▸ hq')
    exact hne (by rw [← hx, ← hx'])
  · intro x
    rw [hF]
    constructor
    · rintro ⟨k, hk, hx⟩
      exact ⟨k, _, hB.mem_freeBlocks.mpr ⟨hk, _, hx, rfl⟩, mem_blockPages.mpr rfl⟩
    · rintro ⟨k, a, ha, hx⟩
      obtain ⟨hk, q, hq, rfl⟩ := hB.mem_freeBlocks.mp ha
      exact ⟨k, hk, mem_blockPages.mp hx ▸ hq⟩
  · intro k hk a ha
    obtain ⟨p, rfl⟩ := exists_number ha
    obtain ⟨j, hj, hnot⟩ := hB.good.incomplete k hk p
    refine ⟨j * pageLadder.size k * pageSize, ?_, ?_, ?_, fun hmem => hnot ?_⟩
    · rw [getBlockSize_eq, Nat.mul_assoc]
      exact Nat.dvd_mul_left _ _
    · refine Nat.mul_le_mul_right _ ?_
      rw [pageLadder.size_succ, ← Nat.mul_assoc, Nat.mul_right_comm]
      exact Nat.mul_le_mul_right _ (hj ▸ Nat.div_mul_le_self j _)
    · rw [getBlockSize_eq, ← Nat.add_mul, ← Nat.succ_mul]
      refine Nat.mul_lt_mul_of_pos_right ?_ (by decide)
      rw [pageLadder.size_succ, ← Nat.mul_assoc, Nat.mul_right_comm]
      exact Nat.mul_lt_mul_of_pos_right
        ((Nat.div_lt_iff_lt_mul (pageLadder.ratio_pos k)).mp (hj ▸ Nat.lt_succ_self _))
        (pageLadder.size_pos k)
    · obtain ⟨_, q, hq, heq⟩ := hB.mem_freeBlocks.mp hmem
      rw [Nat.mul_left_inj (by decide), Nat.mul_left_inj (pageLadder.size_pos k).ne'] at heq
      exact heq ▸ hq
  · rw [KPageHeap.getNumFreePages, hB.keeps.getNumFreePages, hB.length]
    exact hB.good.card hF

/-! ## Runs -/

/-- Runs of a heap of the pages `[lo, hi)`, with the pages that were freed and have not
been given out since. A range is freed only while none of its pages is free. -/
inductive HeapRun (rngs : ℕ → RandomBitGenerator) (lo hi : ℕ) : KPageHeap → Finset ℕ → Prop where
  | start : HeapRun rngs lo hi (initializeHeap rngs (lo * pageSize) ((hi - lo) * pageSize)) ∅
  | free {h : KPageHeap} {F : Finset ℕ} (hrun : HeapRun rngs lo hi h F) (p n : ℕ)
      (hfree : Freeable lo hi F p (p + n)) :
      HeapRun rngs lo hi (h.free (p * pageSize) n) (F ∪ Ico p (p + n))
  | allocate {h : KPageHeap} {F : Finset ℕ} (hrun : HeapRun rngs lo hi h F) (index : ℕ)
      (hindex : index < numMemoryBlockPageShifts) (random : Bool) :
      HeapRun rngs lo hi (h.allocateBlock index random).2
        (if (h.allocateBlock index random).1 = 0 then F
          else F \ blockPages index (h.allocateBlock index random).1)

variable {rngs : ℕ → RandomBitGenerator}

theorem HoldsPages.inside (hh : HoldsPages lo hi h.blocks F) {x : ℕ} (hx : x ∈ F) :
    lo ≤ x ∧ x < hi := by
  obtain ⟨B, hB, hF⟩ := hh
  exact hB.inside x ((hF x).mp hx)

theorem HoldsPages.block_inside (hh : HoldsPages lo hi h.blocks F) (ha : getBlockSize k ∣ a)
    (hsub : blockPages k a ⊆ F) : lo * pageSize ≤ a ∧ a + getBlockSize k ≤ hi * pageSize := by
  obtain ⟨q, rfl⟩ := exists_number ha
  have hsize := pageLadder.size_pos k
  rw [blockPages_mul] at hsub
  rw [getBlockSize_eq, ← Nat.add_mul]
  generalize q * pageLadder.size k = p at hsub ⊢
  have hfirst := hh.inside (hsub (mem_Ico.mpr ⟨le_rfl, by omega⟩))
  have hlast : p + pageLadder.size k - 1 ∈ F := hsub (mem_Ico.mpr ⟨by omega, by omega⟩)
  have hlast := hh.inside hlast
  exact ⟨Nat.mul_le_mul_right _ hfirst.1, Nat.mul_le_mul_right _ (by omega)⟩

/-- `AllocateBlock`: null, or a block of free pages. -/
theorem HoldsPages.allocateBlock (hlo : 0 < lo) (hh : HoldsPages lo hi h.blocks F) (hk : k < 7)
    (random : Bool) :
    ((h.allocateBlock k random).1 = 0 ∧ (¬ ∃ a, getBlockSize k ∣ a ∧ blockPages k a ⊆ F) ∧
        HoldsPages lo hi (h.allocateBlock k random).2.blocks F) ∨
      ((h.allocateBlock k random).1 ≠ 0 ∧ getBlockSize k ∣ (h.allocateBlock k random).1 ∧
        blockPages k (h.allocateBlock k random).1 ⊆ F ∧
        HoldsPages lo hi (h.allocateBlock k random).2.blocks
          (F \ blockPages k (h.allocateBlock k random).1)) := by
  have hsize := hh.sizeAt hk
  have ⟨B, hB, hF⟩ := hh
  have hlen := hB.length
  have hout : AllocateOutcome lo hi k F
      ((h.allocateBlock k random).1, (h.allocateBlock k random).2.blocks) := by
    rw [KPageHeap.allocateBlock, hsize]
    exact hB.allocateBlockLoop hlo random hk hF le_rfl (by omega)
      fun j hj hlt => absurd hlt (by omega)
  generalize (h.allocateBlock k random).1 = addr at hout ⊢
  cases hout with
  | null hnone hholds =>
    refine .inl ⟨rfl, ?_, hholds⟩
    rintro ⟨a, ha, hsub⟩
    obtain ⟨q, rfl⟩ := exists_number ha
    rw [blockPages_mul] at hsub
    exact hnone ⟨_, Nat.dvd_mul_left _ q, hsub⟩
  | @block p _ hp hsub hholds =>
    have hmem : p ∈ F := hsub (mem_Ico.mpr
      ⟨le_rfl, Nat.lt_add_of_pos_right (pageLadder.size_pos k)⟩)
    have hpos : 0 < p := hlo.trans_le (hh.inside hmem).1
    rw [← blockPages_mul] at hsub hholds
    refine .inr ⟨Nat.mul_ne_zero hpos.ne' (by decide), ?_, hsub, hholds⟩
    rw [getBlockSize_eq]
    exact Nat.mul_dvd_mul_right hp _

theorem HeapRun.holdsPages (hlo : 0 < lo) (hle : lo ≤ hi) (hrun : HeapRun rngs lo hi h F) :
    HoldsPages lo hi h.blocks F := by
  induction hrun with
  | start => exact initializeHeap_holdsPages rngs hle
  | free _ p n hfree ih => exact ih.freePages hlo hfree
  | allocate _ index hindex random ih =>
    obtain ⟨hnull, _, hholds⟩ | ⟨hne, _, _, hholds⟩ := ih.allocateBlock hlo hindex random
    · rwa [if_pos hnull]
    · rwa [if_neg hne]

/-- After any run the bitmaps describe exactly the free pages as disjoint aligned
blocks with no complete group; `Free` adds exactly its pages; `AllocateBlock` gives
out an aligned block of free pages and takes exactly its pages, or null where there is
no such block. The random bits `rngs` are arbitrary. -/
theorem heapRun_describes_free_pages (hlo : 0 < lo) (hle : lo ≤ hi)
    (hrun : HeapRun rngs lo hi h F) :
    h.Describes F ∧ (∀ p n, Freeable lo hi F p (p + n) →
        (h.free (p * pageSize) n).Describes (F ∪ Ico p (p + n))) ∧
      ∀ k < numMemoryBlockPageShifts, ∀ random : Bool, ((h.allocateBlock k random).1 = 0 ↔
          ¬ ∃ a, getBlockSize k ∣ a ∧ lo * pageSize ≤ a ∧ a + getBlockSize k ≤ hi * pageSize ∧
            blockPages k a ⊆ F) ∧
        ((h.allocateBlock k random).1 = 0 → (h.allocateBlock k random).2.Describes F) ∧
        ((h.allocateBlock k random).1 ≠ 0 → getBlockSize k ∣ (h.allocateBlock k random).1 ∧
          blockPages k (h.allocateBlock k random).1 ⊆ F ∧
          (h.allocateBlock k random).2.Describes
            (F \ blockPages k (h.allocateBlock k random).1)) := by
  have hh := hrun.holdsPages hlo hle
  refine ⟨hh.describes, fun p n hfree => (hh.freePages hlo hfree).describes, fun k hk random => ?_⟩
  obtain ⟨hnull, hnone, hholds⟩ | ⟨hne, hdvd, hsub, hholds⟩ := hh.allocateBlock hlo hk random
  · refine ⟨iff_of_true hnull ?_, fun _ => hholds.describes, fun hne => absurd hnull hne⟩
    rintro ⟨a, ha, _, _, hsub⟩
    exact hnone ⟨a, ha, hsub⟩
  · obtain ⟨hlow, hhigh⟩ := hh.block_inside hdvd hsub
    exact ⟨iff_of_false hne (not_not.mpr ⟨_, hdvd, hlow, hhigh, hsub⟩),
      fun hnull => absurd hnull hne, fun _ => ⟨hdvd, hsub, hholds.describes⟩⟩

/-- Thirty-three pages, freed in two parts, count as such; the aligned block of
sixteen pages among them can be allocated, one of 2 MiB cannot. -/
theorem describes_of_two_ranges :
    let h := ((initializeHeap (fun _ _ => false) (1 * pageSize) ((40 - 1) * pageSize)).free
      (20 * pageSize) 16).free (3 * pageSize) 17
    h.getNumFreePages = 33 ∧ (h.allocateBlock 1 true).1 ≠ 0 ∧ (h.allocateBlock 2 true).1 = 0 := by
  intro h
  have hfirst : HeapRun (fun _ _ => false) 1 40 _ _ :=
    .free .start 20 16 fun x hx hx' => ⟨by omega, by omega, notMem_empty x⟩
  have hrun : HeapRun (fun _ _ => false) 1 40 h _ :=
    .free hfirst 3 17 fun x hx hx' => ⟨by omega, by omega, by simp; omega⟩
  obtain ⟨hdesc, -, halloc⟩ := heapRun_describes_free_pages (by decide) (by decide) hrun
  refine ⟨hdesc.numFreePages.trans (by decide), fun hnull => ?_, ?_⟩
  · refine (halloc 1 (by decide) true).1.mp hnull ⟨16 * pageSize, ?_, ?_, ?_, ?_⟩
    all_goals decide
  · refine (halloc 2 (by decide) true).1.mpr ?_
    rintro ⟨a, _, hlow, hhigh, _⟩
    change a + 512 * 4096 ≤ 40 * 4096 at hhigh
    omega

end Atmosphere.Kern.KPageHeap
