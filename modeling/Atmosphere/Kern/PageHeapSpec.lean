import Atmosphere.Kern.PageHeap
import Atmosphere.Lib.AlignedBlock.Basic
import Atmosphere.Lib.Buddy.Basic

/-!
# The page heap is a buddy system

The bitmaps of a page heap keep the blocks of a buddy system over page numbers:
block `q` of a size is the block at the address `q` times that size. Each
function of the heap is a rule of the buddy system, and the free pages of the heap
change by exactly the pages that are freed or allocated.
-/

namespace Atmosphere.Kern.KPageHeap

open Buddy
open Function (update update_self update_of_ne)
open Finset

/-! ## The sizes -/

def shiftAt (k : ℕ) : ℕ := memoryBlockPageShifts.getD k 0x1E

theorem shiftAt_of_ge {k : ℕ} (hk : 7 ≤ k) : shiftAt k = 0x1E := by
  rw [shiftAt, List.getD_eq_getElem?_getD, List.getElem?_eq_none hk]
  rfl

theorem shiftAt_le_succ (k : ℕ) : shiftAt k ≤ shiftAt (k + 1) := by
  by_cases hk : k < 7
  · revert k
    decide
  · rw [shiftAt_of_ge (by omega), shiftAt_of_ge (by omega)]

theorem le_shiftAt (k : ℕ) : 12 ≤ shiftAt k := by
  induction k with
  | zero => decide
  | succ k ih => exact ih.trans (shiftAt_le_succ k)

/-- The block sizes in pages. -/
def pageLadder : Ladder where
  size k := 2 ^ (shiftAt k - 12)
  size_zero := rfl
  size_pos _ := Nat.two_pow_pos _
  size_dvd k := Nat.pow_dvd_pow 2 (Nat.sub_le_sub_right (shiftAt_le_succ k) 12)

theorem two_pow_shiftAt (k : ℕ) : 2 ^ shiftAt k = pageLadder.size k * pageSize := by
  have h := le_shiftAt k
  change 2 ^ shiftAt k = 2 ^ (shiftAt k - 12) * 2 ^ 12
  rw [← Nat.pow_add, Nat.sub_add_cancel h]

theorem ratio_eq (k : ℕ) : pageLadder.ratio k = 2 ^ (shiftAt (k + 1) - shiftAt k) := by
  have h := le_shiftAt k
  have h' := shiftAt_le_succ k
  change 2 ^ (shiftAt (k + 1) - 12) / 2 ^ (shiftAt k - 12) = _
  rw [Nat.pow_div (by omega) (by omega)]
  congr 1
  omega

theorem two_pow_shiftAt_succ (k : ℕ) :
    2 ^ shiftAt (k + 1) = pageLadder.ratio k * 2 ^ shiftAt k := by
  rw [two_pow_shiftAt, two_pow_shiftAt, pageLadder.size_succ, Nat.mul_comm (pageLadder.size k),
    Nat.mul_assoc]

/-- The groups of every level lie inside the words of a bitmap. -/
theorem ratio_dvd {k : ℕ} (hk : k + 1 < 7) : pageLadder.ratio k ∣ 64 ∧ pageLadder.ratio k < 64 := by
  rw [ratio_eq]
  have hall : ∀ k < 6, 2 ^ (shiftAt (k + 1) - shiftAt k) ∣ 64 ∧
      2 ^ (shiftAt (k + 1) - shiftAt k) < 64 := by decide
  exact hall k (by omega)

/-! ## One level -/

/-- The number of the first block of the bitmap. -/
def Block.base (b : Block) : ℕ := b.heapAddress / 2 ^ b.blockShift

/-- The block is that of level `k` for the pages `[lo, hi)`. -/
structure Block.Shape (lo hi k : ℕ) (b : Block) : Prop where
  blockShift : b.blockShift = shiftAt k
  nextBlockShift : b.nextBlockShift = if k + 1 < 7 then shiftAt (k + 1) else 0
  heapAddress : b.heapAddress = b.base * 2 ^ shiftAt k
  base_dvd : k + 1 < 7 → pageLadder.ratio k ∣ b.base
  covers : ∀ x, lo ≤ x → x < hi →
    b.base ≤ x / pageLadder.size k ∧ x / pageLadder.size k < b.base + b.endOffset

/-- The bitmap keeps the blocks with the numbers in `s`. -/
structure Block.Keeps (lo hi k : ℕ) (b : Block) (s : Finset ℕ) : Prop extends b.Shape lo hi k where
  offsets : ∃ t, b.bitmap.Represents b.endOffset t ∧ s = t.image (b.base + ·)

variable {lo hi k q : ℕ} {b : Block} {s : Finset ℕ}

section

variable (h : b.Shape lo hi k)
include h

theorem Block.Shape.next_ne_zero : b.nextBlockShift ≠ 0 ↔ k + 1 < 7 := by
  rw [h.nextBlockShift]
  have := le_shiftAt (k + 1)
  split
  · exact iff_of_true (by omega) ‹_›
  · exact iff_of_false (by simp) ‹_›

theorem Block.Shape.getSize : b.getSize = 2 ^ shiftAt k := by
  rw [Block.getSize, h.blockShift, Nat.one_shiftLeft]

/-- The address of an offset, and back. -/
theorem Block.Shape.address (o : ℕ) :
    b.heapAddress + (o <<< b.blockShift) = (b.base + o) * 2 ^ shiftAt k := by
  rw [h.blockShift, Nat.shiftLeft_eq, h.heapAddress, Nat.add_mul]

theorem Block.Shape.offset (q : ℕ) :
    (q * 2 ^ shiftAt k - b.heapAddress) >>> b.blockShift = q - b.base := by
  rw [h.blockShift, Nat.shiftRight_eq_div_pow, h.heapAddress, ← Nat.sub_mul,
    Nat.mul_div_cancel _ (Nat.two_pow_pos _)]

/-- Another bitmap in the same block. -/
theorem Block.Shape.withBitmap (bitmap : KPageBitmap) :
    Block.Shape lo hi k { b with bitmap := bitmap } :=
  ⟨h.blockShift, h.nextBlockShift, h.heapAddress, h.base_dvd, h.covers⟩

/-- The group of an offset is that of its block. -/
theorem Block.Shape.group_iff (hk : k + 1 < 7) (o o' : ℕ) :
    o' ∈ Ico (alignDown o (pageLadder.ratio k))
        (alignDown o (pageLadder.ratio k) + pageLadder.ratio k) ↔
      (b.base + o') / pageLadder.ratio k = (b.base + o) / pageLadder.ratio k := by
  obtain ⟨c, hc⟩ := h.base_dvd hk
  have hpos := pageLadder.ratio_pos k
  rw [hc, Nat.mul_add_div hpos, Nat.mul_add_div hpos, mem_Ico, alignDown,
    Nat.add_left_cancel_iff, Nat.div_eq_iff hpos]
  omega

/-- A block of the group of one of the bitmap's blocks is one of the bitmap's. -/
theorem Block.Shape.le_of_group (hk : k + 1 < 7) {j o : ℕ}
    (hj : j / pageLadder.ratio k = (b.base + o) / pageLadder.ratio k) : b.base ≤ j := by
  obtain ⟨c, hc⟩ := h.base_dvd hk
  have hpos := pageLadder.ratio_pos k
  rw [hc, Nat.mul_add_div hpos] at hj
  have hle : c * pageLadder.ratio k ≤ j :=
    (Nat.le_div_iff_mul_le hpos).mp (hj ▸ Nat.le_add_right _ _)
  rw [hc, Nat.mul_comm]
  exact hle

theorem Block.Shape.base_add_alignDown (hk : k + 1 < 7) (o : ℕ) :
    b.base + alignDown o (pageLadder.ratio k) =
      (b.base + o) / pageLadder.ratio k * pageLadder.ratio k := by
  obtain ⟨c, hc⟩ := h.base_dvd hk
  rw [hc, Nat.mul_add_div (pageLadder.ratio_pos k), Nat.add_mul, Nat.mul_comm c, alignDown]

end

theorem add_mem_image_iff {base o : ℕ} {t : Finset ℕ} : base + o ∈ t.image (base + ·) ↔ o ∈ t :=
  (add_right_injective base).mem_finset_image

/-- `PushBlock` of a block that is not there: either it completes a group, which is
taken out, and its address is that of the block of the next level; or it is
put in. -/
theorem Block.Keeps.pushBlock (h : b.Keeps lo hi k s) (hq : q ∉ s) {x : ℕ} (hlo : lo ≤ x)
    (hhi : x < hi) (hx : x / pageLadder.size k = q) :
    (k + 1 < 7 ∧ (∀ j, j / pageLadder.ratio k = q / pageLadder.ratio k → j ∈ insert q s) ∧
        ∃ b', b.pushBlock (q * 2 ^ shiftAt k) = (q / pageLadder.ratio k * 2 ^ shiftAt (k + 1), b') ∧
          b'.Keeps lo hi k ((insert q s).filter fun j =>
            j / pageLadder.ratio k ≠ q / pageLadder.ratio k)) ∨
      (k + 1 < 7 → ∃ j, j / pageLadder.ratio k = q / pageLadder.ratio k ∧ j ∉ insert q s) ∧
        ∃ b', b.pushBlock (q * 2 ^ shiftAt k) = (0, b') ∧ b'.Keeps lo hi k (insert q s) := by
  obtain ⟨t, hrep, rfl⟩ := h.offsets
  obtain ⟨hbase, hend⟩ := h.covers x hlo hhi
  rw [hx] at hbase hend
  obtain ⟨o, rfl⟩ := Nat.exists_eq_add_of_le hbase
  have hset := hrep.setBit (by omega) fun ho => hq (add_mem_image_iff.mpr ho)
  rw [← image_insert]
  have hoff : (((b.base + o) * 2 ^ shiftAt k) - b.heapAddress) >>> b.blockShift = o := by
    rw [h.offset, Nat.add_sub_cancel_left]
  by_cases hk : k + 1 < 7
  · have hdiff : 1 <<< (b.nextBlockShift - b.blockShift) = pageLadder.ratio k := by
      rw [h.nextBlockShift, if_pos hk, h.blockShift, Nat.one_shiftLeft, ratio_eq]
    obtain ⟨hdvd, hlt⟩ := ratio_dvd hk
    have hgroup := h.group_iff hk o
    have hspec := hset.clearRange (alignDown o (pageLadder.ratio k)) (pageLadder.ratio k) hlt
      (AlignedBlock.mod_add_le hdvd (by decide) (dvd_alignDown _ _))
    rw [Block.pushBlock, if_pos (h.next_ne_zero.mpr hk), hoff]
    simp only [hdiff]
    split at hspec
    · rename_i hsub
      obtain ⟨htrue, hrep'⟩ := hspec
      generalize (b.bitmap.setBit o).clearRange (alignDown o (pageLadder.ratio k))
        (pageLadder.ratio k) = res at htrue hrep'
      obtain ⟨_, bitmap⟩ := res
      obtain rfl : _ = true := htrue
      refine .inl ⟨hk, fun j hj => ?_, { b with bitmap := bitmap }, ?_, h.withBitmap _, _,
        hrep', ?_⟩
      · have hj' : b.base ≤ j := h.le_of_group hk hj
        obtain ⟨o', rfl⟩ := Nat.exists_eq_add_of_le hj'
        exact add_mem_image_iff.mpr (hsub ((hgroup o').mpr hj))
      · simp only [h.address, h.base_add_alignDown hk, two_pow_shiftAt_succ, Nat.mul_assoc]
      · ext j
        simp only [mem_filter, mem_image, mem_sdiff]
        constructor
        · rintro ⟨⟨o', ho', rfl⟩, hne⟩
          exact ⟨o', ⟨ho', fun hin => hne ((hgroup o').mp hin)⟩, rfl⟩
        · rintro ⟨o', ⟨ho', hout⟩, rfl⟩
          exact ⟨⟨o', ho', rfl⟩, fun heq => hout ((hgroup o').mpr heq)⟩
    · rename_i hsub
      rw [hspec]
      refine .inr ⟨fun _ => ?_, { b with bitmap := b.bitmap.setBit o }, rfl, h.withBitmap _,
        insert o t, hset, rfl⟩
      obtain ⟨o', ho', hnot⟩ := not_subset.mp hsub
      exact ⟨b.base + o', (hgroup o').mp ho', fun hmem => hnot (add_mem_image_iff.mp hmem)⟩
  · refine .inr ⟨fun h => absurd h hk, { b with bitmap := b.bitmap.setBit o }, ?_,
      h.withBitmap _, insert o t, hset, rfl⟩
    rw [Block.pushBlock, if_neg fun hn => hk (h.next_ne_zero.mp hn), hoff]

/-- `PopBlock` gives a block that is there and takes it out, if there is any. -/
theorem Block.Keeps.popBlock (h : b.Keeps lo hi k s) (random : Bool) :
    (s = ∅ ∧ (b.popBlock random).1 = 0 ∧ (b.popBlock random).2.Keeps lo hi k s) ∨
      ∃ q ∈ s, (b.popBlock random).1 = q * 2 ^ shiftAt k ∧
        (b.popBlock random).2.Keeps lo hi k (s.erase q) := by
  obtain ⟨t, hrep, rfl⟩ := h.offsets
  obtain ⟨hfind, hrep'⟩ := hrep.findFreeBlock random
  rw [Block.popBlock]
  generalize b.bitmap.findFreeBlock random = res at hfind hrep'
  obtain ⟨found, bitmap⟩ := res
  obtain ⟨hnone, rfl⟩ | ⟨o, ho, hsome⟩ := hfind
  · obtain rfl : found = none := hnone
    exact .inl ⟨rfl, rfl, h.withBitmap _, ∅, hrep', rfl⟩
  · obtain rfl : found = some o := hsome
    refine .inr ⟨b.base + o, add_mem_image_iff.mpr ho, h.address o, h.withBitmap _, t.erase o,
      hrep'.clearBit ho, ?_⟩
    exact (image_erase (add_right_injective b.base) t o).symm

/-! ## All levels -/

/-- The bitmaps from level `k` on keep the blocks of `B`. -/
def KeepsFrom (lo hi : ℕ) (B : ℕ → Finset ℕ) : ℕ → List Block → Prop
  | _, [] => True
  | k, b :: rest => b.Keeps lo hi k (B k) ∧ KeepsFrom lo hi B (k + 1) rest

variable {B B' : ℕ → Finset ℕ} {blocks : List Block}

theorem KeepsFrom.congr (h : KeepsFrom lo hi B k blocks)
    (heq : ∀ j, k ≤ j → j < k + blocks.length → B' j = B j) : KeepsFrom lo hi B' k blocks := by
  induction blocks generalizing k with
  | nil => trivial
  | cons b rest ih =>
    rw [List.length_cons] at heq
    refine ⟨(heq k le_rfl (by omega)).symm ▸ h.1, ih h.2 fun j hj hlt => ?_⟩
    exact heq j (by omega) (by omega)

theorem keepsFrom_append {front : List Block} : KeepsFrom lo hi B k (front ++ blocks) ↔
      KeepsFrom lo hi B k front ∧ KeepsFrom lo hi B (k + front.length) blocks := by
  induction front generalizing k with
  | nil => simp [KeepsFrom]
  | cons b front ih =>
    rw [List.cons_append, KeepsFrom, KeepsFrom, ih, List.length_cons, and_assoc,
      show k + 1 + front.length = k + (front.length + 1) by omega]

/-- The heap of the pages `[lo, hi)` keeps the blocks `B`. -/
structure KeepsBlocks (lo hi : ℕ) (blocks : List Block) (B : ℕ → Finset ℕ) : Prop where
  length : blocks.length = 7
  keeps : KeepsFrom lo hi B 0 blocks
  good : pageLadder.Good 7 B
  inside : ∀ x, pageLadder.Covers B 7 x → lo ≤ x ∧ x < hi

/-- `FreeBlock` from level `k` on. The block rises as long as it completes its group. -/
theorem freeBlockLoop_spec (hlo : 0 < lo) (h : KeepsFrom lo hi B k blocks)
    (hlen : k + blocks.length = 7) (hk : k < 7) (hgood : pageLadder.Good 7 B)
    (hfresh : pageLadder.Fresh B 7 k q) (hin : ∀ x, pageLadder.Covers B 7 x → lo ≤ x ∧ x < hi)
    (hq : ∀ x, x / pageLadder.size k = q → lo ≤ x ∧ x < hi) :
    ∃ B', KeepsFrom lo hi B' k (freeBlockLoop blocks (q * 2 ^ shiftAt k)) ∧
      (freeBlockLoop blocks (q * 2 ^ shiftAt k)).length = blocks.length ∧
      pageLadder.Good 7 B' ∧ (∀ j < k, B' j = B j) ∧
      ∀ x, pageLadder.Covers B' 7 x ↔ pageLadder.Covers B 7 x ∨ x / pageLadder.size k = q := by
  induction blocks generalizing k q B with
  | nil => simp at hlen; omega
  | cons b rest ih =>
    obtain ⟨hb, hrest⟩ := h
    rw [List.length_cons] at hlen
    have hpos := pageLadder.exists_position k q
    have hnot : q ∉ B k := fun hmem => hfresh _ hpos ⟨k, hk, by rwa [hpos]⟩
    obtain ⟨hk1, hfull, b', hpush, hb'⟩ | ⟨hgroup, b', hpush, hb'⟩ :=
      hb.pushBlock hnot (hq _ hpos).1 (hq _ hpos).2 hpos
    · obtain ⟨hgood', hfresh', hcov⟩ := hgood.rise hk1 hfresh hfull
        (s := (insert q (B k)).filter fun j => j / pageLadder.ratio k ≠ q / pageLadder.ratio k)
        (fun j => by rw [mem_filter])
      generalize hB : update B k ((insert q (B k)).filter fun j =>
        j / pageLadder.ratio k ≠ q / pageLadder.ratio k) = B₁ at hgood' hfresh' hcov
      have hbelow : ∀ j, j ≠ k → B₁ j = B j := fun j hj => hB ▸ update_of_ne hj _ _
      have hmem : ∀ x, pageLadder.Covers B 7 x ∨ x / pageLadder.size k = q → lo ≤ x ∧ x < hi :=
        fun x hx => hx.elim (hin x) (hq x)
      obtain ⟨B', hkeeps, hlen', hgood'', hsame, hcov'⟩ :=
        ih (hrest.congr fun j hj _ => hbelow j (by omega)) (by omega) hk1 hgood' hfresh'
          (fun x hx => hmem x ((hcov x).mp (.inl hx)))
          (fun x hx => hmem x ((hcov x).mp (.inr hx)))
      -- the block of the next level does not start at address zero
      have hne : q / pageLadder.ratio k * 2 ^ shiftAt (k + 1) ≠ 0 := by
        intro h0
        obtain h0 | h0 := Nat.mul_eq_zero.mp h0
        · have := (hmem 0 ((hcov 0).mp (.inr (by rw [Nat.zero_div, h0])))).1
          omega
        · exact absurd h0 (Nat.ne_of_gt (Nat.two_pow_pos _))
      refine ⟨B', ?_, ?_, hgood'', fun j hj => ?_, fun x => ?_⟩
      · simp only [freeBlockLoop, hpush, hne, ne_eq, not_false_iff]
        refine ⟨?_, hkeeps⟩
        rw [hsame k (by omega), ← hB, update_self]
        exact hb'
      · simp only [freeBlockLoop, hpush, hne, ne_eq, not_false_iff, if_true,
          List.length_cons, hlen']
      · rw [hsame j (by omega), hbelow j (by omega)]
      · rw [hcov', hcov]
    · obtain ⟨hgood', hcov⟩ := hgood.insert hk hfresh hgroup
      refine ⟨update B k (insert q (B k)), ?_, ?_, hgood', fun j hj => ?_, hcov⟩
      · simp only [freeBlockLoop, hpush, ne_eq, not_true]
        refine ⟨by rwa [update_self], hrest.congr fun j hj _ => ?_⟩
        exact update_of_ne (by omega) _ _
      · simp only [freeBlockLoop, hpush, ne_eq, not_true, if_false, List.length_cons]
      · exact update_of_ne (by omega) _ _

/-! ## Free pages -/

/-- The free pages of the heap of `[lo, hi)` are those of `F`. -/
def HoldsPages (lo hi : ℕ) (blocks : List Block) (F : Finset ℕ) : Prop :=
  ∃ B, KeepsBlocks lo hi blocks B ∧ ∀ x, x ∈ F ↔ pageLadder.Covers B 7 x

variable {F : Finset ℕ} {i p e m : ℕ}

theorem KeepsFrom.get (h : KeepsFrom lo hi B k blocks) (hi' : i < blocks.length) :
    ∃ b, blocks[i]? = some b ∧ b.Keeps lo hi (k + i) (B (k + i)) := by
  induction blocks generalizing k i with
  | nil => simp at hi'
  | cons b rest ih =>
    cases i with
    | zero => exact ⟨b, rfl, h.1⟩
    | succ i =>
      obtain ⟨c, hc, hkeeps⟩ := ih h.2 (Nat.lt_of_succ_lt_succ hi')
      refine ⟨c, by simpa using hc, ?_⟩
      rwa [show k + (i + 1) = k + 1 + i by omega]

theorem KeepsBlocks.sizeAt (h : KeepsBlocks lo hi blocks B) (hk : k < 7) :
    sizeAt blocks k = pageLadder.size k * pageSize := by
  obtain ⟨b, hb, hkeeps⟩ := h.keeps.get (by rw [h.length]; exact hk)
  rw [Nat.zero_add] at hkeeps
  rw [KPageHeap.sizeAt, hb, Option.map_some, Option.getD_some, hkeeps.getSize, two_pow_shiftAt]

theorem HoldsPages.sizeAt (h : HoldsPages lo hi blocks F) (hk : k < 7) :
    KPageHeap.sizeAt blocks k = pageLadder.size k * pageSize := by
  obtain ⟨B, hB, _⟩ := h
  exact hB.sizeAt hk

/-- Pages that can be freed: they lie in the region and are not free. -/
def Freeable (lo hi : ℕ) (F : Finset ℕ) (p e : ℕ) : Prop :=
  ∀ x, p ≤ x → x < e → lo ≤ x ∧ x < hi ∧ x ∉ F

theorem Freeable.mono {p' e' : ℕ} (h : Freeable lo hi F p e) (hp : p ≤ p') (he : e' ≤ e) :
    Freeable lo hi F p' e' :=
  fun x hx hx' => h x (hp.trans hx) (hx'.trans_le he)

theorem Freeable.union {p' e' : ℕ} (h : Freeable lo hi F p e) (hsep : e ≤ p' ∨ e' ≤ p) :
    Freeable lo hi (F ∪ Ico p' e') p e := by
  intro x hx hx'
  obtain ⟨h₁, h₂, h₃⟩ := h x hx hx'
  refine ⟨h₁, h₂, fun hmem => ?_⟩
  obtain hF | hI := mem_union.mp hmem
  · exact h₃ hF
  · rw [mem_Ico] at hI
    omega

/-- `FreeBlock` of the block at page `p`. -/
theorem HoldsPages.freeBlock (hlo : 0 < lo) (h : HoldsPages lo hi blocks F) (hk : k < 7)
    (hp : pageLadder.size k ∣ p) (hfree : Freeable lo hi F p (p + pageLadder.size k)) :
    HoldsPages lo hi (freeBlock blocks (p * pageSize) k) (F ∪ Ico p (p + pageLadder.size k)) := by
  obtain ⟨B, hB, hF⟩ := h
  obtain ⟨q, rfl⟩ := hp
  rw [Nat.mul_comm (pageLadder.size k) q] at hfree ⊢
  have hmem : ∀ x, x / pageLadder.size k = q ↔ q * pageLadder.size k ≤ x ∧
      x < q * pageLadder.size k + pageLadder.size k := fun x => by
    rw [pageLadder.div_eq_iff_mem, mem_Ico]
  have hq : ∀ x, x / pageLadder.size k = q → lo ≤ x ∧ x < hi ∧ x ∉ F :=
    fun x hx => hfree x ((hmem x).mp hx).1 ((hmem x).mp hx).2
  have hlen : (blocks.take k).length = k := by
    rw [List.length_take, hB.length]
    omega
  have hsplit := hB.keeps
  rw [← List.take_append_drop k blocks, keepsFrom_append, hlen, Nat.zero_add] at hsplit
  obtain ⟨B', hkeeps, hlen', hgood, hsame, hcov⟩ := freeBlockLoop_spec hlo hsplit.2
    (by rw [List.length_drop, hB.length]; omega) hk hB.good
    (fun x hx hc => (hq x hx).2.2 ((hF x).mpr hc)) hB.inside
    (fun x hx => ⟨(hq x hx).1, (hq x hx).2.1⟩)
  have haddr : q * pageLadder.size k * pageSize = q * 2 ^ shiftAt k := by
    rw [two_pow_shiftAt, Nat.mul_assoc]
  rw [KPageHeap.freeBlock, haddr]
  refine ⟨B', ⟨?_, ?_, hgood, fun x hx => ?_⟩, fun x => ?_⟩
  · rw [List.length_append, hlen', ← List.length_append, List.take_append_drop, hB.length]
  · rw [keepsFrom_append, hlen, Nat.zero_add]
    refine ⟨hsplit.1.congr fun j _ hj => hsame j ?_, hkeeps⟩
    omega
  · obtain hx | hx := (hcov x).mp hx
    · exact hB.inside x hx
    · exact ⟨(hq x hx).1, (hq x hx).2.1⟩
  · rw [mem_union, hF, hcov, hmem, mem_Ico]

theorem union_Ico (h₁ : p ≤ m) (h₂ : m ≤ e) : F ∪ Ico p m ∪ Ico m e = F ∪ Ico p e := by
  rw [union_assoc, Ico_union_Ico_eq_Ico h₁ h₂]

theorem union_Ico_rev (h₁ : p ≤ m) (h₂ : m ≤ e) : F ∪ Ico m e ∪ Ico p m = F ∪ Ico p e := by
  rw [union_right_comm, union_Ico h₁ h₂]

section

variable (h : HoldsPages lo hi blocks F) (hlo : 0 < lo) (hk : k < 7) (hpe : p ≤ e)
  (hfree : Freeable lo hi F p e) {n : ℕ} (hn : e ≤ p + n)
include h hlo hk hpe hfree hn

/-- The blocks of one level between two aligned pages are freed. -/
theorem HoldsPages.freeBig (hp : pageLadder.size k ∣ p) (he : pageLadder.size k ∣ e) :
    HoldsPages lo hi (freeBig k (pageLadder.size k * pageSize) (e * pageSize) n (p * pageSize)
      blocks) (F ∪ Ico p e) := by
  have hsize := pageLadder.size_pos k
  induction n generalizing p blocks F with
  | zero =>
    rw [Ico_eq_empty (by omega), union_empty]
    exact h
  | succ n ih =>
    rw [KPageHeap.freeBig]
    by_cases hlt : p < e
    · have hnext : pageLadder.size k ∣ p + pageLadder.size k := Nat.dvd_add_self_right.mpr hp
      have hstep := Nat.le_of_lt_add_of_dvd (Nat.add_lt_add_right hlt _) hnext he
      rw [if_pos (Nat.mul_lt_mul_of_pos_right hlt (by decide)), ← Nat.add_mul,
        ← union_Ico (Nat.le_add_right p (pageLadder.size k)) hstep]
      exact ih (h.freeBlock hlo hk hp (hfree.mono le_rfl hstep)) hstep
        ((hfree.mono (Nat.le_add_right _ _) le_rfl).union (.inr le_rfl))
        (by omega) hnext
    · rw [if_neg (fun hl => hlt (Nat.lt_of_mul_lt_mul_right hl)), Ico_eq_empty hlt, union_empty]
      exact h

/-- Blocks of one level are freed downwards from `e` until less than one block is left. -/
theorem HoldsPages.freeBeforeLoop (he : pageLadder.size k ∣ e) :
    ∃ m blocks', freeBeforeLoop k (pageLadder.size k * pageSize) (p * pageSize) n
        (e * pageSize) blocks = (m * pageSize, blocks') ∧
      pageLadder.size k ∣ m ∧ p ≤ m ∧ m ≤ e ∧ m < p + pageLadder.size k ∧
      HoldsPages lo hi blocks' (F ∪ Ico m e) := by
  have hsize := pageLadder.size_pos k
  induction n generalizing e blocks F with
  | zero =>
    refine ⟨e, blocks, rfl, he, hpe, le_rfl, by omega, ?_⟩
    rwa [Ico_self, union_empty]
  | succ n ih =>
    rw [KPageHeap.freeBeforeLoop, ← Nat.add_mul]
    by_cases hle : p + pageLadder.size k ≤ e
    · rw [if_pos (Nat.mul_le_mul_right _ hle), ← Nat.sub_mul]
      have hback : e - pageLadder.size k + pageLadder.size k = e := by omega
      have hdvd : pageLadder.size k ∣ e - pageLadder.size k := Nat.dvd_sub he dvd_rfl
      have hnext := h.freeBlock hlo hk hdvd (hfree.mono (by omega) hback.le)
      rw [hback] at hnext
      obtain ⟨m, blocks', hrun, hm, hpm, hme, hlt, hholds⟩ := ih hnext (by omega)
        ((hfree.mono le_rfl (Nat.sub_le e _)).union (.inl le_rfl)) (by omega) hdvd
      refine ⟨m, blocks', hrun, hm, hpm, by omega, hlt, ?_⟩
      rwa [union_Ico_rev hme (Nat.sub_le e _)] at hholds
    · rw [if_neg (fun hl => hle (Nat.le_of_mul_le_mul_right hl (by decide)))]
      refine ⟨e, blocks, rfl, he, hpe, le_rfl, by omega, ?_⟩
      rwa [Ico_self, union_empty]

/-- Blocks of one level are freed upwards from `p` until less than one block is left. -/
theorem HoldsPages.freeAfterLoop (hp : pageLadder.size k ∣ p) :
    ∃ m blocks', freeAfterLoop k (pageLadder.size k * pageSize) (e * pageSize) n
        (p * pageSize) blocks = (m * pageSize, blocks') ∧
      pageLadder.size k ∣ m ∧ p ≤ m ∧ m ≤ e ∧ e < m + pageLadder.size k ∧
      HoldsPages lo hi blocks' (F ∪ Ico p m) := by
  have hsize := pageLadder.size_pos k
  induction n generalizing p blocks F with
  | zero =>
    refine ⟨p, blocks, rfl, hp, le_rfl, hpe, by omega, ?_⟩
    rwa [Ico_self, union_empty]
  | succ n ih =>
    rw [KPageHeap.freeAfterLoop, ← Nat.add_mul]
    by_cases hle : p + pageLadder.size k ≤ e
    · rw [if_pos (Nat.mul_le_mul_right _ hle)]
      obtain ⟨m, blocks', hrun, hm, hpm, hme, hlt, hholds⟩ :=
        ih (h.freeBlock hlo hk hp (hfree.mono le_rfl hle)) hle
          ((hfree.mono (Nat.le_add_right _ _) le_rfl).union (.inr le_rfl))
          (by omega) (Nat.dvd_add_self_right.mpr hp)
      refine ⟨m, blocks', hrun, hm, by omega, hme, hlt, ?_⟩
      rwa [union_Ico (Nat.le_add_right _ _) hpm] at hholds
    · rw [if_neg (fun hl => hle (Nat.le_of_mul_le_mul_right hl (by decide)))]
      refine ⟨p, blocks, rfl, hp, le_rfl, hpe, by omega, ?_⟩
      rwa [Ico_self, union_empty]

variable (hlt : e < p + pageLadder.size k)
include hlt

/-- The space before the big blocks is freed down to its start: below a block of
level `k` less than one block of that level is left. -/
theorem HoldsPages.freeBefore (he : pageLadder.size k ∣ e) :
    HoldsPages lo hi (freeBefore n (p * pageSize) k (e * pageSize) blocks) (F ∪ Ico p e) := by
  induction k generalizing e blocks F with
  | zero =>
    rw [pageLadder.size_zero] at hlt
    rw [Ico_eq_empty (by omega), union_empty]
    exact h
  | succ k ih =>
    have hk' := Nat.lt_of_succ_lt hk
    obtain ⟨m, blocks', hrun, hm, hpm, hme, hlt, hholds⟩ :=
      h.freeBeforeLoop hlo hk' hpe hfree hn (Nat.dvd_trans (pageLadder.size_dvd k) he)
    rw [KPageHeap.freeBefore, h.sizeAt hk', hrun]
    have := ih hholds hk' hpm ((hfree.mono le_rfl hme).union (.inl le_rfl))
      (by omega) hlt hm
    rwa [union_Ico_rev hpm hme] at this

/-- The space after the big blocks is freed up to its end. -/
theorem HoldsPages.freeAfter (hp : pageLadder.size k ∣ p) :
    HoldsPages lo hi (freeAfter n (e * pageSize) k (p * pageSize) blocks) (F ∪ Ico p e) := by
  induction k generalizing p blocks F with
  | zero =>
    rw [pageLadder.size_zero] at hlt
    rw [Ico_eq_empty (by omega), union_empty]
    exact h
  | succ k ih =>
    have hk' := Nat.lt_of_succ_lt hk
    obtain ⟨m, blocks', hrun, hm, hpm, hme, hlt, hholds⟩ :=
      h.freeAfterLoop hlo hk' hpe hfree hn (Nat.dvd_trans (pageLadder.size_dvd k) hp)
    rw [KPageHeap.freeAfter, h.sizeAt hk', hrun]
    have := ih hholds hk' hme ((hfree.mono hpm le_rfl).union (.inr le_rfl))
      (by omega) hlt hm
    rwa [union_Ico hpm hme] at this

end

/-- A multiple of a block size is a number of pages. -/
theorem exists_page_of_dvd {v : ℕ} (h : pageLadder.size k * pageSize ∣ v) :
    ∃ m, v = m * pageSize ∧ pageLadder.size k ∣ m := by
  obtain ⟨c, rfl⟩ := h
  exact ⟨pageLadder.size k * c, by rw [Nat.mul_right_comm], Nat.dvd_mul_right _ _⟩

/-- Some level has a block between two pages `p < e`: single pages fit. -/
theorem HoldsPages.findBig (h : HoldsPages lo hi blocks F) (hpe : p < e) (hk : k < 7) :
    ∃ i m m', findBig blocks (p * pageSize) (e * pageSize) (k + 1) =
        some (i, m * pageSize, m' * pageSize) ∧ i < 7 ∧ pageLadder.size i ∣ m ∧
      pageLadder.size i ∣ m' ∧ p ≤ m ∧ m < p + pageLadder.size i ∧ m < m' ∧ m' ≤ e ∧
      e < m' + pageLadder.size i := by
  induction k with
  | zero =>
    have hsize : KPageHeap.sizeAt blocks 0 = pageSize := by
      rw [h.sizeAt hk, pageLadder.size_zero, Nat.one_mul]
    refine ⟨0, p, e, ?_, hk, ?_⟩
    · rw [KPageHeap.findBig, hsize, alignUp_of_dvd (by decide) (Nat.dvd_mul_left _ _),
        alignDown_of_dvd (Nat.dvd_mul_left _ _),
        if_pos (Nat.mul_lt_mul_of_pos_right hpe (by decide))]
    · rw [pageLadder.size_zero]
      exact ⟨Nat.one_dvd _, Nat.one_dvd _, le_rfl, by omega, hpe, le_rfl, by omega⟩
  | succ k ih =>
    rw [KPageHeap.findBig, h.sizeAt hk]
    have hpos : 0 < pageLadder.size (k + 1) * pageSize :=
      Nat.mul_pos (pageLadder.size_pos _) (by decide)
    obtain ⟨m, hm, hdvd⟩ := exists_page_of_dvd
      (dvd_alignUp (p * pageSize) (pageLadder.size (k + 1) * pageSize))
    obtain ⟨m', hm', hdvd'⟩ := exists_page_of_dvd
      (dvd_alignDown (e * pageSize) (pageLadder.size (k + 1) * pageSize))
    have h₁ := le_alignUp (p * pageSize) hpos
    have h₂ := alignUp_lt_add (p * pageSize) hpos
    have h₃ := alignDown_le (e * pageSize) (pageLadder.size (k + 1) * pageSize)
    have h₄ := lt_alignDown_add (e * pageSize) hpos
    rw [hm] at h₁ h₂ ⊢
    rw [hm'] at h₃ h₄ ⊢
    rw [← Nat.add_mul] at h₂ h₄
    by_cases hlt : m * pageSize < m' * pageSize
    · refine ⟨k + 1, m, m', if_pos hlt, hk, hdvd, hdvd', ?_⟩
      exact ⟨Nat.le_of_mul_le_mul_right h₁ (by decide), Nat.lt_of_mul_lt_mul_right h₂,
        Nat.lt_of_mul_lt_mul_right hlt, Nat.le_of_mul_le_mul_right h₃ (by decide),
        Nat.lt_of_mul_lt_mul_right h₄⟩
    · rw [if_neg hlt]
      exact ih (Nat.lt_of_succ_lt hk)

/-- `Free` adds exactly the pages of its range. -/
theorem HoldsPages.freePages (hlo : 0 < lo) (h : HoldsPages lo hi blocks F) {n : ℕ}
    (hfree : Freeable lo hi F p (p + n)) :
    HoldsPages lo hi (freePages blocks (p * pageSize) n) (F ∪ Ico p (p + n)) := by
  rw [KPageHeap.freePages]
  by_cases hn : n = 0
  · subst hn
    rwa [if_pos rfl, Nat.add_zero, Ico_self, union_empty]
  · have hlen : blocks.length = 6 + 1 := by
      obtain ⟨B, hB, _⟩ := h
      exact hB.length
    rw [if_neg hn, hlen, ← Nat.add_mul]
    obtain ⟨i, m, m', hfind, hi7, hm, hm', hpm, hmlt, hmm, hme, helt⟩ :=
      h.findBig (k := 6) (show p < p + n by omega) (by decide)
    simp only [hfind]
    rw [h.sizeAt hi7]
    have hbig := h.freeBig hlo hi7 hmm.le (hfree.mono hpm hme) (n := n) (by omega)
      hm hm'
    have hbefore := hbig.freeBefore hlo hi7 hpm
      ((hfree.mono le_rfl (by omega)).union (.inl le_rfl)) (n := n) (by omega)
      hmlt hm
    rw [union_Ico_rev hpm hmm.le] at hbefore
    have hafter := hbefore.freeAfter hlo hi7 hme
      ((hfree.mono (by omega) le_rfl).union (.inr le_rfl)) (n := n) (by omega)
      helt hm'
    rwa [union_Ico (by omega) hme] at hafter

/-! ## Allocation -/

theorem KeepsFrom.set (h : KeepsFrom lo hi B k blocks) (hi' : i < blocks.length)
    (hb : b.Keeps lo hi (k + i) s) :
    KeepsFrom lo hi (update B (k + i) s) k (blocks.set i b) := by
  induction blocks generalizing k i with
  | nil => simp at hi'
  | cons c rest ih =>
    cases i with
    | zero =>
      refine ⟨by simpa using hb, h.2.congr fun j hj _ => update_of_ne (by omega) _ _⟩
    | succ i =>
      rw [show k + (i + 1) = k + 1 + i by omega] at hb ⊢
      refine ⟨?_, ih h.2 (Nat.lt_of_succ_lt_succ hi') hb⟩
      rw [update_of_ne (by omega)]
      exact h.1

/-- `PopBlock` at level `i` of the heap: nothing changes where the level has no
blocks; otherwise the pages of one of its blocks are free no more. -/
theorem KeepsBlocks.popBlock (h : KeepsBlocks lo hi blocks B)
    (hF : ∀ x, x ∈ F ↔ pageLadder.Covers B 7 x) (random : Bool) (hi' : i < 7) :
    ∃ b, blocks[i]? = some b ∧ (b.popBlock random).2.getSize = pageLadder.size i * pageSize ∧
      ((B i = ∅ ∧ (b.popBlock random).1 = 0 ∧
          KeepsBlocks lo hi (blocks.set i (b.popBlock random).2) B) ∨
        ∃ q, (b.popBlock random).1 = q * pageLadder.size i * pageSize ∧
          Ico (q * pageLadder.size i) (q * pageLadder.size i + pageLadder.size i) ⊆ F ∧
          HoldsPages lo hi (blocks.set i (b.popBlock random).2) (F \ Ico (q * pageLadder.size i)
              (q * pageLadder.size i + pageLadder.size i))) := by
  have hlt : i < blocks.length := by rwa [h.length]
  obtain ⟨b, hb, hkeeps⟩ := h.keeps.get hlt
  rw [Nat.zero_add] at hkeeps
  refine ⟨b, hb, ?_⟩
  obtain ⟨hempty, hnull, hpop⟩ | ⟨q, hq, haddr, hpop⟩ := hkeeps.popBlock random
  · refine ⟨by rw [hpop.getSize, two_pow_shiftAt], .inl ⟨hempty, hnull, ?_, ?_, h.good, h.inside⟩⟩
    · rw [List.length_set, h.length]
    · have := h.keeps.set hlt (by rwa [Nat.zero_add])
      rwa [Nat.zero_add, Function.update_eq_self] at this
  · obtain ⟨hgood, hcov⟩ := h.good.erase hi' hq
    refine ⟨by rw [hpop.getSize, two_pow_shiftAt], .inr ⟨q, ?_, fun x hx => ?_, ?_⟩⟩
    · rw [haddr, two_pow_shiftAt, Nat.mul_assoc]
    · rw [← pageLadder.div_eq_iff_mem] at hx
      exact (hF x).mpr ⟨i, hi', hx ▸ hq⟩
    · refine ⟨_, ⟨by rw [List.length_set, h.length], ?_, hgood,
        fun x hx => h.inside x ((hcov x).mp hx).1⟩, fun x => ?_⟩
      · have := h.keeps.set hlt (by rwa [Nat.zero_add])
        rwa [Nat.zero_add] at this
      · rw [mem_sdiff, hF, hcov, ← pageLadder.div_eq_iff_mem]

/-- What `AllocateBlock` at level `k` may do: give out an aligned block of free pages,
or nothing where no such block exists. -/
inductive AllocateOutcome (lo hi k : ℕ) (F : Finset ℕ) : ℕ × List Block → Prop where
  | null {blocks : List Block}
      (hnone : ¬ ∃ p, pageLadder.size k ∣ p ∧ Ico p (p + pageLadder.size k) ⊆ F)
      (hholds : HoldsPages lo hi blocks F) : AllocateOutcome lo hi k F (0, blocks)
  | block {p : ℕ} {blocks : List Block} (hp : pageLadder.size k ∣ p)
      (hsub : Ico p (p + pageLadder.size k) ⊆ F)
      (hholds : HoldsPages lo hi blocks (F \ Ico p (p + pageLadder.size k))) :
      AllocateOutcome lo hi k F (p * pageSize, blocks)

/-- What is left of a block after its first `n` pages goes back. -/
theorem sdiff_union_rest {n : ℕ} (hsub : Ico p (p + m) ⊆ F) (hle : n ≤ m) :
    F \ Ico p (p + m) ∪ Ico (p + n) (p + n + (m - n)) = F \ Ico p (p + n) := by
  ext x
  have hx : p ≤ x ∧ x < p + m → x ∈ F := fun hx => hsub (mem_Ico.mpr hx)
  simp only [mem_sdiff, mem_union, mem_Ico]
  by_cases hF : x ∈ F
  · simp only [hF, true_and]
    omega
  · simp only [hF, false_and, false_or, imp_false, iff_false] at hx ⊢
    omega

theorem KeepsBlocks.allocateBlockLoop (h : KeepsBlocks lo hi blocks B) (hlo : 0 < lo)
    (random : Bool) (hk : k < 7) (hF : ∀ x, x ∈ F ↔ pageLadder.Covers B 7 x) {n : ℕ} (hki : k ≤ i)
    (hi7 : i + n = 7) (hempty : ∀ j, k ≤ j → j < i → B j = ∅) :
    AllocateOutcome lo hi k F
      (allocateBlockLoop random (pageLadder.size k * pageSize) n i blocks) := by
  induction n generalizing i blocks with
  | zero =>
    refine .null ?_ ⟨B, h, hF⟩
    rintro ⟨p, ⟨q, rfl⟩, hsub⟩
    -- the pages of such a block would be kept on level `k` or above
    obtain ⟨k', hkk', hk', x, _, hx⟩ := h.good.exists_level hk fun x hx => by
      rw [pageLadder.div_eq_iff_mem, Nat.mul_comm q] at hx
      exact (hF x).mp (hsub hx)
    rw [hempty k' hkk' (by omega)] at hx
    exact absurd hx (notMem_empty _)
  | succ n ih =>
    obtain ⟨b, hb, hsize, hpop⟩ := h.popBlock hF random (i := i) (by omega)
    rw [KPageHeap.allocateBlockLoop, hb]
    simp only [hsize]
    obtain ⟨hnone, hnull, hnext⟩ | ⟨q, haddr, hsub, hholds⟩ := hpop
    · rw [if_neg (not_not.mpr hnull)]
      refine ih hnext (by omega) (by omega) fun j hj hlt => ?_
      by_cases hji : j = i
      · rw [hji, hnone]
      · exact hempty j hj (by omega)
    · have hsize_pos := pageLadder.size_pos i
      have hle : pageLadder.size k ≤ pageLadder.size i :=
        Nat.le_of_dvd hsize_pos (pageLadder.size_dvd_of_le hki)
      have hdvd : pageLadder.size k ∣ q * pageLadder.size i :=
        Nat.dvd_mul_left_of_dvd (pageLadder.size_dvd_of_le hki) q
      generalize hp : q * pageLadder.size i = p at *
      have hinside : ∀ x ∈ F, lo ≤ x ∧ x < hi := fun x hx => h.inside x ((hF x).mp hx)
      have hpos : 0 < p :=
        hlo.trans_le (hinside p (hsub (mem_Ico.mpr ⟨le_rfl, by omega⟩))).1
      rw [haddr, if_pos (Nat.mul_ne_zero (by omega) (by decide))]
      by_cases hlt : pageLadder.size k < pageLadder.size i
      · -- the rest of a larger block is freed again
        rw [if_pos (Nat.mul_lt_mul_of_pos_right hlt (by decide)), ← Nat.add_mul, ← Nat.sub_mul,
          Nat.mul_div_cancel _ (by decide)]
        refine .block hdvd (fun x hx => hsub ?_) ?_
        · rw [mem_Ico] at hx ⊢
          omega
        · have hrest := hholds.freePages hlo (p := p + pageLadder.size k)
            (n := pageLadder.size i - pageLadder.size k) fun x hx hx' => by
              have hmem : x ∈ Ico p (p + pageLadder.size i) :=
                mem_Ico.mpr ⟨by omega, by omega⟩
              exact ⟨(hinside x (hsub hmem)).1, (hinside x (hsub hmem)).2, fun hx =>
                (mem_sdiff.mp hx).2 hmem⟩
          rwa [sdiff_union_rest hsub hle] at hrest
      · have heq : pageLadder.size i = pageLadder.size k := Nat.le_antisymm (by omega) hle
        rw [if_neg (fun hl => hlt (Nat.lt_of_mul_lt_mul_right hl))]
        rw [heq] at hsub hholds
        exact .block hdvd hsub hholds

/-! ## Initialization -/

/-- A new block has its first block where a group begins, and room for all pages. -/
theorem initializeBlock_keeps (rng : RandomBitGenerator) (hle : lo ≤ hi) (k : ℕ) :
    (Block.initializeBlock rng (lo * pageSize) ((hi - lo) * pageSize) (shiftAt k)
      (if k + 1 < 7 then shiftAt (k + 1) else 0)).Keeps lo hi k ∅ := by
  obtain ⟨align, hapos, halign, hgroup, hdef⟩ : ∃ align, 0 < align ∧ 2 ^ shiftAt k ∣ align ∧
      (k + 1 < 7 → pageLadder.ratio k * 2 ^ shiftAt k ∣ align) ∧
      (if (if k + 1 < 7 then shiftAt (k + 1) else 0) ≠ 0
        then 1 <<< (if k + 1 < 7 then shiftAt (k + 1) else 0) else 1 <<< shiftAt k) = align := by
    have := le_shiftAt (k + 1)
    by_cases hk : k + 1 < 7
    · refine ⟨2 ^ shiftAt (k + 1), Nat.two_pow_pos _, Nat.pow_dvd_pow 2 (shiftAt_le_succ k),
        fun _ => by rw [two_pow_shiftAt_succ], ?_⟩
      rw [if_pos hk, if_pos (by omega), Nat.one_shiftLeft]
    · refine ⟨2 ^ shiftAt k, Nat.two_pow_pos _, dvd_rfl, fun h => absurd h hk, ?_⟩
      rw [if_neg hk, if_neg (by simp), Nat.one_shiftLeft]
  have hpos : 0 < 2 ^ shiftAt k := Nat.two_pow_pos _
  have hsize : (1 <<< shiftAt k : ℕ) = 2 ^ shiftAt k := by rw [Nat.one_shiftLeft]
  have hend : lo * pageSize + (hi - lo) * pageSize = hi * pageSize := by
    rw [← Nat.add_mul, Nat.add_sub_cancel' hle]
  obtain ⟨base, hbase⟩ : 2 ^ shiftAt k ∣ alignDown (lo * pageSize) align :=
    halign.trans (dvd_alignDown _ _)
  obtain ⟨last, hlast⟩ : 2 ^ shiftAt k ∣ alignUp (hi * pageSize) align :=
    halign.trans (dvd_alignUp _ _)
  have hlow := alignDown_le (lo * pageSize) align
  have hhigh := le_alignUp (hi * pageSize) hapos
  rw [hbase, two_pow_shiftAt, Nat.mul_right_comm] at hlow
  rw [hlast, two_pow_shiftAt, Nat.mul_right_comm] at hhigh
  have hlow := Nat.le_of_mul_le_mul_right hlow (by decide)
  have hhigh := Nat.le_of_mul_le_mul_right hhigh (by decide)
  rw [Block.initializeBlock, hdef, hend, hsize, hbase, hlast, ← Nat.mul_sub,
    Nat.mul_div_cancel_left _ hpos]
  have hb : (2 ^ shiftAt k * base) / 2 ^ shiftAt k = base := Nat.mul_div_cancel_left _ hpos
  refine ⟨⟨rfl, rfl, ?_, fun hk => ?_, fun x hlo hhi => ?_⟩, ∅,
    KPageBitmap.initializeBitmap_represents rng _, rfl⟩
  · change 2 ^ shiftAt k * base = (2 ^ shiftAt k * base) / 2 ^ shiftAt k * 2 ^ shiftAt k
    rw [hb, Nat.mul_comm]
  · change pageLadder.ratio k ∣ (2 ^ shiftAt k * base) / 2 ^ shiftAt k
    rw [hb]
    refine Nat.dvd_of_mul_dvd_mul_right hpos ?_
    rw [Nat.mul_comm base, ← hbase]
    exact Nat.dvd_trans (hgroup hk) (dvd_alignDown _ _)
  · change (2 ^ shiftAt k * base) / 2 ^ shiftAt k ≤ _ ∧
      _ < (2 ^ shiftAt k * base) / 2 ^ shiftAt k + (last - base)
    have hx : base ≤ x / pageLadder.size k := by
      rw [Nat.le_div_iff_mul_le (pageLadder.size_pos k), Nat.mul_comm]
      exact hlow.trans hlo
    have hx' : x / pageLadder.size k < last := by
      rw [Nat.div_lt_iff_lt_mul (pageLadder.size_pos k), Nat.mul_comm]
      exact hhi.trans_le hhigh
    omega

/-- A new heap has no free pages. -/
theorem initializeHeap_holdsPages (rngs : ℕ → RandomBitGenerator) (hle : lo ≤ hi) : HoldsPages lo hi
      (initializeHeap rngs (lo * pageSize) ((hi - lo) * pageSize)).blocks ∅ := by
  have hkeeps := fun k => initializeBlock_keeps (rngs k) hle k
  refine ⟨fun _ => ∅, ⟨rfl, ⟨hkeeps 0, hkeeps 1, hkeeps 2, hkeeps 3, hkeeps 4, hkeeps 5, hkeeps 6,
    trivial⟩, Ladder.good_empty _ _, ?_⟩, ?_⟩
  all_goals simp [Ladder.Covers]

end Atmosphere.Kern.KPageHeap
