import Atmosphere.Fs.BuddyHeapLists
import Atmosphere.Lib.Buddy.Basic

/-!
# The buddy heap is a buddy system

The free lists hold the blocks of a buddy system over the numbers of the smallest blocks: block `q`
of an order is the one that starts at the block number `q` times its size. Each function of the heap
is a rule of the buddy system.
-/

namespace Atmosphere.Fs

open Buddy Buddy.Ladder
open Finset

/-! ### Addresses -/

namespace HeapShape

variable {s : HeapShape} {k q : ℕ}

/-- The number of the smallest blocks. -/
def blockCount (s : HeapShape) : ℕ := s.heapSize / s.blockSize

/-- The address of block `q` of an order. -/
def blockAddress (s : HeapShape) (k q : ℕ) : ℕ := s.heapStart + q * 2 ^ k * s.blockSize

/-- The heap consists of blocks. -/
structure Valid (s : HeapShape) : Prop where
  blockSize_pos : 0 < s.blockSize
  heapSize_eq : s.heapSize = s.blockCount * s.blockSize
  blockCount_pos : 0 < s.blockCount
  /-- No sum of an address and a size leaves 64 bits. -/
  fits : s.heapStart + s.heapSize + s.blockSize * 2 ^ s.orderMax ≤ 2 ^ 64

theorem blockAddress_inj (hs : s.Valid) {k' q' : ℕ}
    (h : s.blockAddress k q = s.blockAddress k' q') : q * 2 ^ k = q' * 2 ^ k' := by
  unfold blockAddress at h
  exact Nat.eq_of_mul_eq_mul_right hs.blockSize_pos (by omega)

theorem blockAddress_injective (hs : s.Valid) (k : ℕ) : Function.Injective (s.blockAddress k) :=
  fun _ _ h => Nat.eq_of_mul_eq_mul_right (Nat.two_pow_pos k) (blockAddress_inj hs h)

theorem getPageEntryFromAddress_mul (s : HeapShape) (x : ℕ) :
    s.getPageEntryFromAddress (s.heapStart + x * s.blockSize) = s.heapStart + x * s.blockSize := by
  rw [getPageEntryFromAddress, Nat.add_sub_cancel_left, alignSizeDown_mul]

theorem getPageEntryFromAddress_blockAddress (s : HeapShape) (k q : ℕ) :
    s.getPageEntryFromAddress (s.blockAddress k q) = s.blockAddress k q :=
  s.getPageEntryFromAddress_mul _

theorem isAlignedToOrder_blockAddress (hs : s.Valid) :
    s.isAlignedToOrder (s.blockAddress k q) (k + 1) = decide (q % 2 = 0) := by
  have hpos := Nat.two_pow_pos k
  have hindex : s.getIndexFromPageEntry (s.blockAddress k q) = q * 2 ^ k := by
    rw [getIndexFromPageEntry, blockAddress, Nat.add_sub_cancel_left,
      Nat.mul_div_cancel _ hs.blockSize_pos]
  rw [isAlignedToOrder, hindex, getBlockCountFromOrder, Nat.pow_succ, Nat.mul_comm (2 ^ k) 2,
    Nat.mul_mod_mul_right, Bool.beq_eq_decide_eq]
  congr 1
  rw [Nat.mul_eq_zero]
  exact propext ⟨fun h => h.resolve_right (by omega), .inl⟩

/-- The buddy of a block, if it lies in the heap. -/
theorem getBuddy_blockAddress (hs : s.Valid) : s.getBuddy (s.blockAddress k q) k = if q % 2 = 0 then
        if (q + 1) * 2 ^ k < s.blockCount then some (s.blockAddress k (q + 1)) else none
      else some (s.blockAddress k (q - 1)) := by
  have hadd : s.blockAddress k q + 2 ^ k * s.blockSize = s.blockAddress k (q + 1) := by
    rw [blockAddress, blockAddress, Nat.add_mul, Nat.add_mul, Nat.one_mul, Nat.add_assoc]
  have hlt : s.blockAddress k (q + 1) < s.heapStart + s.heapSize ↔
      (q + 1) * 2 ^ k < s.blockCount := by
    rw [blockAddress, hs.heapSize_eq, Nat.add_lt_add_iff_left]
    exact Nat.mul_lt_mul_right hs.blockSize_pos
  simp only [getBuddy, isAlignedToOrder_blockAddress hs, decide_eq_true_eq,
    getBlockCountFromOrder, hadd, hlt, getPageEntryFromAddress_blockAddress]
  refine if_ctx_congr Iff.rfl (fun _ => rfl) fun hq => ?_
  have hsub : s.blockAddress k q - 2 ^ k * s.blockSize = s.blockAddress k (q - 1) := by
    obtain ⟨p, rfl⟩ := Nat.exists_eq_succ_of_ne_zero (show q ≠ 0 by omega)
    rw [blockAddress, blockAddress, Nat.succ_mul, Nat.add_mul, Nat.succ_sub_one]
    omega
  refine (if_pos ?_).trans ?_
  · rw [hsub]
    exact Nat.le_add_right _ _
  · rw [hsub, getPageEntryFromAddress_blockAddress]

end HeapShape

/-! ### The lists and the blocks -/

namespace BuddyHeap

variable {s : HeapShape} {h : BuddyHeap} {B : ℕ → Finset ℕ} {k q : ℕ}

/-- The free lists hold the blocks. -/
def ListsHold (s : HeapShape) (h : BuddyHeap) (B : ℕ → Finset ℕ) : Prop :=
  ∀ k ≤ s.orderMax, ∃ qs : List ℕ,
    (h.freeLists k).Holds h.next (qs.map (s.blockAddress k)) ∧ ∀ q, q ∈ qs ↔ q ∈ B k

/-- The lists, the blocks and the free size. -/
structure Holds (s : HeapShape) (h : BuddyHeap) (B : ℕ → Finset ℕ) : Prop where
  lists : ListsHold s h B
  good : binary.Good (s.orderMax + 1) B
  total : h.totalFreeSize = s.blockSize * ∑ k ∈ range (s.orderMax + 1), (B k).card * binary.size k

section

variable (hs : s.Valid)
include hs

/-- Page entries of different orders are different. -/
theorem disjoint_entries (hgood : binary.Good (s.orderMax + 1) B) {k' q' : ℕ}
    (hk : k ≤ s.orderMax) (hk' : k' ≤ s.orderMax) (hq : q ∈ B k) (hq' : q' ∈ B k')
    (h : s.blockAddress k q = s.blockAddress k' q') : k = k' := by
  have hx := HeapShape.blockAddress_inj hs h
  refine hgood.level_unique (q * 2 ^ k) k k' (by omega) (by omega) ?_ ?_
  · exact (binary.exists_position k q).symm ▸ hq
  · rw [hx]
    exact (binary.exists_position k' q').symm ▸ hq'

variable (hlists : ListsHold s h B)
include hlists

section

variable (hgood : binary.Good (s.orderMax + 1) B)
include hgood

variable (hk : k ≤ s.orderMax) {next : PageLinks} {list : PageList}
include hk

/-- Another list of one order that has only entries of its own. -/
theorem ListsHold.update {t : Finset ℕ}
    (qs : List ℕ) (hlist : list.Holds next (qs.map (s.blockAddress k))) (hqs : ∀ q, q ∈ qs ↔ q ∈ t)
    (hframe : ∀ b, (∀ q ∈ B k, b ≠ s.blockAddress k q) → (∀ q ∈ t, b ≠ s.blockAddress k q) →
      next b = h.next b)
    (hnew : ∀ q ∈ t, q ∉ B k → binary.Fresh B (s.orderMax + 1) k q) (size : ℕ) :
    ListsHold s ⟨Function.update h.freeLists k list, next, size⟩ (Function.update B k t) := by
  intro k' hk'
  by_cases heq : k' = k
  · subst heq
    simp only [Function.update_self]
    exact ⟨qs, hlist, hqs⟩
  · simp only [Function.update_of_ne heq]
    obtain ⟨qs', hlist', hqs'⟩ := hlists k' hk'
    refine ⟨qs', hlist'.congr fun b hb => ?_, hqs'⟩
    obtain ⟨q', hq', rfl⟩ := List.mem_map.mp hb
    have hq' := (hqs' q').mp hq'
    refine hframe _ (fun q hq h => heq (disjoint_entries hs hgood hk' hk hq' hq h)) ?_
    intro q hq h
    by_cases hmem : q ∈ B k
    · exact heq (disjoint_entries hs hgood hk' hk hq' hmem h)
    · have hx := HeapShape.blockAddress_inj hs h
      refine hnew q hq hmem (q * 2 ^ k) (binary.exists_position k q) ⟨k', by omega, ?_⟩
      rw [← hx]
      exact (binary.exists_position k' q').symm ▸ hq'

/-- A new block goes to the list of its order. -/
theorem ListsHold.pushBack (hfresh : binary.Fresh B (s.orderMax + 1) k q) :
    ∃ h', h.pushBack k (s.blockAddress k q) = some h' ∧
      ListsHold s h' (Function.update B k (insert q (B k))) ∧
      h'.totalFreeSize = h.totalFreeSize := by
  obtain ⟨qs, hlist, hqs⟩ := hlists k hk
  have hq : q ∉ B k := hfresh.notMem (by omega)
  have hnotMem : s.blockAddress k q ∉ qs.map (s.blockAddress k) := by
    rwa [List.mem_map_of_injective (HeapShape.blockAddress_injective hs k), hqs]
  obtain ⟨list, next, hpush, hlist', hframe⟩ := hlist.pushBack hnotMem
  unfold BuddyHeap.pushBack
  rw [hpush]
  refine ⟨_, rfl, ?_, rfl⟩
  refine hlists.update hs hgood hk (qs ++ [q]) ?_ ?_ ?_ ?_ _
  · rwa [List.map_append]
  · intro p
    rw [List.mem_append, List.mem_singleton, mem_insert, hqs, or_comm]
  · intro b hb hb'
    refine hframe b ?_ (hb' q (mem_insert_self _ _))
    intro hmem
    obtain ⟨q', hq', rfl⟩ := List.mem_map.mp hmem
    exact hb q' ((hqs q').mp hq') rfl
  · intro p hp hnot
    obtain rfl := (mem_insert.mp hp).resolve_right hnot
    exact hfresh

/-- What is left of a list. -/
theorem ListsHold.erase {qs : List ℕ} (hqs : ∀ q, q ∈ qs ↔ q ∈ B k) (hnodup : qs.Nodup)
    (hlist : list.Holds next ((qs.map (s.blockAddress k)).erase (s.blockAddress k q)))
    (hframe : ∀ b, b ∉ qs.map (s.blockAddress k) → next b = h.next b) (size : ℕ) :
    ListsHold s ⟨Function.update h.freeLists k list, next, size⟩
      (Function.update B k ((B k).erase q)) := by
  refine hlists.update hs hgood hk (qs.erase q) ?_ ?_ ?_ ?_ _
  · rwa [List.map_erase (HeapShape.blockAddress_injective hs k)]
  · intro p
    rw [hnodup.mem_erase_iff, mem_erase, hqs]
  · intro b hb _
    refine hframe b fun hmem => ?_
    obtain ⟨q', hq', rfl⟩ := List.mem_map.mp hmem
    exact hb q' ((hqs q').mp hq') rfl
  · intro p hp hnot
    exact absurd (mem_of_mem_erase hp) hnot

theorem ListsHold.removeFree (hq : q ∈ B k) :
    ∃ h', h.removeFree k (s.blockAddress k q) = some (true, h') ∧
      (∀ size, ListsHold s { h' with totalFreeSize := size }
        (Function.update B k ((B k).erase q))) ∧
      h'.totalFreeSize = h.totalFreeSize := by
  obtain ⟨qs, hlist, hqs⟩ := hlists k hk
  have hmem := List.mem_map_of_mem (f := s.blockAddress k) ((hqs q).mpr hq)
  obtain ⟨list, next, hremove, hlist', hframe⟩ := hlist.remove.2 hmem
  unfold BuddyHeap.removeFree
  rw [hremove]
  exact ⟨_, rfl, hlists.erase hs hgood hk hqs hlist.nodup.of_map hlist' hframe, rfl⟩

end

theorem ListsHold.removeFree_of_notMem (hk : k ≤ s.orderMax) (hq : q ∉ B k) :
    h.removeFree k (s.blockAddress k q) = some (false, h) := by
  obtain ⟨qs, hlist, hqs⟩ := hlists k hk
  have hnotMem : s.blockAddress k q ∉ qs.map (s.blockAddress k) := by
    rwa [List.mem_map_of_injective (HeapShape.blockAddress_injective hs k), hqs]
  unfold BuddyHeap.removeFree
  rw [hlist.remove.1 hnotMem]
  change some (false, { h with freeLists := Function.update h.freeLists k (h.freeLists k) }) = _
  rw [Function.update_eq_self]

theorem ListsHold.popFront (hgood : binary.Good (s.orderMax + 1) B) (hk : k ≤ s.orderMax)
    (hempty : ¬ (h.freeLists k).isEmpty = true) :
    ∃ q ∈ B k, ∃ list next, (h.freeLists k).popFront h.next =
        some (s.blockAddress k q, list, next) ∧
      ∀ size, ListsHold s ⟨Function.update h.freeLists k list, next, size⟩
        (Function.update B k ((B k).erase q)) := by
  obtain ⟨qs, hlist, hqs⟩ := hlists k hk
  cases qs with
  | nil => exact absurd (hlist.isEmpty_iff.mpr rfl) hempty
  | cons q qs =>
    obtain ⟨list, next, hpop, hlist', hframe⟩ := hlist.popFront
    refine ⟨q, (hqs q).mp (.head _), list, next, hpop, ?_⟩
    refine hlists.erase hs hgood hk hqs hlist.nodup.of_map ?_ hframe
    rwa [List.map_cons, List.erase_cons_head]

end

theorem ListsHold.isEmpty_iff (hlists : ListsHold s h B) (hk : k ≤ s.orderMax) :
    (h.freeLists k).isEmpty = true ↔ B k = ∅ := by
  obtain ⟨qs, hlist, hqs⟩ := hlists k hk
  rw [hlist.isEmpty_iff, List.map_eq_nil_iff, List.eq_nil_iff_forall_not_mem,
    eq_empty_iff_forall_notMem]
  exact forall_congr' fun q => not_congr (hqs q)

/-! ### The operations -/

/-- A new block whose buddy is not there. -/
theorem Holds.addFree (hs : s.Valid) (hholds : Holds s h B) (hk : k ≤ s.orderMax)
    (hfresh : binary.Fresh B (s.orderMax + 1) k q)
    (hgroup : k < s.orderMax → ∃ j, j / 2 = q / 2 ∧ j ∉ insert q (B k)) :
    ∃ h', h.addFree s k (s.blockAddress k q) = some h' ∧
      Holds s h' (Function.update B k (insert q (B k))) ∧
      ∀ x, binary.Covers (Function.update B k (insert q (B k))) (s.orderMax + 1) x ↔
        binary.Covers B (s.orderMax + 1) x ∨ x / binary.size k = q := by
  obtain ⟨h', hpush, hlists, htotal⟩ := hholds.lists.pushBack hs hholds.good hk hfresh
  obtain ⟨hgood, hcovers⟩ := hholds.good.insert (by omega) hfresh fun hlt => by
    rw [binary_ratio]
    exact hgroup (by omega)
  unfold BuddyHeap.addFree
  rw [hpush]
  refine ⟨_, rfl, ⟨hlists, hgood, ?_⟩, hcovers⟩
  have hsum := binary.sum_update B (s := insert q (B k)) (show k < s.orderMax + 1 by omega)
  rw [card_insert_of_notMem (hfresh.notMem (by omega)), Nat.add_mul] at hsum
  change h'.totalFreeSize + s.blockSize * 2 ^ k = _
  rw [htotal, hholds.total, ← Nat.mul_add]
  congr 1
  rw [binary_size] at hsum
  omega

/-- The free size after a block was taken out. -/
theorem Holds.total_erase (hholds : Holds s h B) (hk : k ≤ s.orderMax) (hq : q ∈ B k) :
    h.totalFreeSize - s.getBytesFromOrder k = s.blockSize * ∑ j ∈ range (s.orderMax + 1),
        (Function.update B k ((B k).erase q) j).card * binary.size j := by
  have hsum := binary.sum_update B (s := (B k).erase q) (show k < s.orderMax + 1 by omega)
  have hcard := card_erase_add_one hq
  rw [← hcard, Nat.add_mul] at hsum
  rw [hholds.total, HeapShape.getBytesFromOrder, ← Nat.mul_sub]
  congr 1
  rw [binary_size] at hsum
  omega

variable {rounds : ℕ}

/-- `DivideBuddies` keeps the left part of a block and frees the rest. -/
theorem divideBuddies_spec (hs : s.Valid) (hholds : Holds s h B) (hk : k + rounds ≤ s.orderMax)
    (hfresh : binary.Fresh B (s.orderMax + 1) (k + rounds) q) :
    ∃ h' B', divideBuddies s rounds (k + rounds)
        (s.blockAddress (k + rounds) q + s.getBytesFromOrder (k + rounds)) h = some h' ∧
      Holds s h' B' ∧ binary.Fresh B' (s.orderMax + 1) k (q * 2 ^ rounds) ∧
      ∀ x, binary.Covers B' (s.orderMax + 1) x ∨ x / binary.size k = q * 2 ^ rounds ↔
        binary.Covers B (s.orderMax + 1) x ∨ x / binary.size (k + rounds) = q := by
  induction rounds generalizing h B q with
  | zero =>
    rw [Nat.pow_zero, Nat.mul_one]
    exact ⟨h, B, rfl, hholds, hfresh, fun x => Iff.rfl⟩
  | succ rounds ih =>
    have haddress : s.blockAddress (k + (rounds + 1)) q + s.getBytesFromOrder (k + (rounds + 1)) -
        s.getBytesFromOrder (k + rounds) = s.blockAddress (k + rounds) (2 * q + 1) := by
      simp only [HeapShape.blockAddress, HeapShape.getBytesFromOrder, ← Nat.add_assoc k rounds 1,
        Nat.pow_succ]
      ring_nf
      omega
    have hend : s.blockAddress (k + rounds) (2 * q + 1) =
        s.blockAddress (k + rounds) (2 * q) + s.getBytesFromOrder (k + rounds) := by
      simp only [HeapShape.blockAddress, HeapShape.getBytesFromOrder]
      ring
    have hright : binary.Fresh B (s.orderMax + 1) (k + rounds) (2 * q + 1) :=
      Fresh.half (by rwa [show (2 * q + 1) / 2 = q by omega])
    have hleft : 2 * q ∉ B (k + rounds) :=
      (Fresh.half (by rwa [show 2 * q / 2 = q by omega])).notMem (by omega)
    obtain ⟨hfresh', hcovers'⟩ := hholds.good.split (k := k + rounds) (by omega) hfresh
    obtain ⟨h', hadd, hholds', _⟩ := hholds.addFree hs (by omega) hright fun _ => by
      refine ⟨2 * q, by omega, fun hmem => ?_⟩
      rcases mem_insert.mp hmem with heq | hmem
      · omega
      · exact hleft hmem
    obtain ⟨h'', B'', hdivide, hholds'', hfresh'', hcovers''⟩ := ih hholds' (by omega) hfresh'
    refine ⟨h'', B'', ?_, hholds'', ?_, fun x => ?_⟩
    · dsimp only [divideBuddies]
      rw [show k + (rounds + 1) - 1 = k + rounds by omega, haddress,
        HeapShape.getPageEntryFromAddress_blockAddress, hadd, hend]
      exact hdivide
    · rw [Nat.pow_succ, ← Nat.mul_assoc, Nat.mul_comm, ← Nat.mul_assoc]
      exact hfresh''
    · rw [Nat.pow_succ, Nat.mul_comm (2 ^ rounds), ← Nat.mul_assoc, Nat.mul_comm q, hcovers'']
      exact hcovers' x

/-- The block that `GetFreePageEntry` takes, if there is one. -/
theorem getFreePageEntry_spec (hs : s.Valid) {order : ℕ} (hholds : Holds s h B) (horder : order ≤ k)
    (hrounds : k + rounds = s.orderMax + 1) : (∀ j, k ≤ j → j ≤ s.orderMax → B j = ∅) ∧
      getFreePageEntry s order rounds k h = some (none, h) ∨
    (∃ j, k ≤ j ∧ j ≤ s.orderMax ∧ B j ≠ ∅) ∧
      ∃ q h' B', getFreePageEntry s order rounds k h = some (some (s.blockAddress order q), h') ∧
        Holds s h' B' ∧ binary.Fresh B' (s.orderMax + 1) order q ∧
        ∀ x, binary.Covers B' (s.orderMax + 1) x ∨ x / binary.size order = q ↔
          binary.Covers B (s.orderMax + 1) x := by
  induction rounds generalizing k with
  | zero => exact .inl ⟨fun j hj hj' => by omega, rfl⟩
  | succ rounds ih =>
    have hk : k ≤ s.orderMax := by omega
    unfold getFreePageEntry
    split_ifs with hempty
    · have hB := (hholds.lists.isEmpty_iff hk).mp hempty
      rcases ih (Nat.le_succ_of_le horder) (by omega) with ⟨hnone, hget⟩ | ⟨⟨j, hj, hj', hne⟩, hget⟩
      · refine .inl ⟨fun j hj hj' => ?_, hget⟩
        rcases Nat.eq_or_lt_of_le hj with rfl | hlt
        · exact hB
        · exact hnone j hlt hj'
      · exact .inr ⟨⟨j, by omega, hj', hne⟩, hget⟩
    · obtain ⟨q, hq, list, next, hpop, hlists⟩ :=
        hholds.lists.popFront hs hholds.good hk hempty
      obtain ⟨hgood, hcovers⟩ := hholds.good.erase (by omega) hq
      refine .inr ⟨⟨k, le_rfl, hk, ne_empty_of_mem hq⟩, ?_⟩
      obtain ⟨rounds', rfl⟩ := Nat.exists_eq_add_of_le horder
      have hfresh : binary.Fresh (Function.update B (order + rounds')
          ((B (order + rounds')).erase q)) (s.orderMax + 1) (order + rounds') q :=
        fun x hx hcov => ((hcovers x).mp hcov).2 hx
      obtain ⟨h', B', hdivide, hholds', hfresh', hcovers'⟩ :=
        divideBuddies_spec hs ⟨hlists _, hgood, hholds.total_erase hk hq⟩ hk hfresh
      refine ⟨q * 2 ^ rounds', h', B', ?_, hholds', hfresh', fun x => ?_⟩
      · have haddress : s.blockAddress order (q * 2 ^ rounds') =
            s.blockAddress (order + rounds') q := by
          rw [HeapShape.blockAddress, HeapShape.blockAddress]
          ring
        rw [hpop, haddress]
        dsimp only [Option.bind_eq_bind, Option.bind_some]
        rw [Nat.add_sub_cancel_left, hdivide]
        rfl
      · rw [hcovers', hcovers]
        constructor
        · rintro (hcov | hx)
          · exact hcov.1
          · exact ⟨order + rounds', by omega, hx ▸ hq⟩
        · intro hcov
          by_cases hx : x / binary.size (order + rounds') = q
          · exact .inr hx
          · exact .inl ⟨hcov, hx⟩

/-- The buddy of a block has the same parent. -/
theorem getBuddy_cases (hs : s.Valid)
    (hinside : ∀ x, binary.Covers B (s.orderMax + 1) x → x < s.blockCount) (hk : k ≤ s.orderMax) :
    ∃ b, b / 2 = q / 2 ∧ b ≠ q ∧ (s.getBuddy (s.blockAddress k q) k = some (s.blockAddress k b) ∧
        (if s.isAlignedToOrder (s.blockAddress k q) (k + 1) then s.blockAddress k q
          else s.blockAddress k b) = s.blockAddress (k + 1) (q / 2) ∨
      s.getBuddy (s.blockAddress k q) k = none ∧ b ∉ B k) := by
  have hparent : ∀ p, p % 2 = 0 → s.blockAddress k p = s.blockAddress (k + 1) (p / 2) := by
    intro p hp
    rw [HeapShape.blockAddress, HeapShape.blockAddress, Nat.pow_succ, Nat.mul_comm (2 ^ k) 2,
      ← Nat.mul_assoc, show p / 2 * 2 = p by omega]
  rw [HeapShape.getBuddy_blockAddress hs, HeapShape.isAlignedToOrder_blockAddress hs]
  by_cases hq : q % 2 = 0
  · refine ⟨q + 1, by omega, by omega, ?_⟩
    rw [if_pos (decide_eq_true hq)]
    split_ifs with hlt
    · exact .inl ⟨rfl, hparent q hq⟩
    · refine .inr ⟨rfl, fun hmem => hlt (hinside _ ⟨k, by omega, ?_⟩)⟩
      exact (binary.exists_position k (q + 1)).symm ▸ hmem
  · refine ⟨q - 1, by omega, by omega, ?_⟩
    rw [if_neg hq, if_neg (by simpa using hq), hparent (q - 1) (by omega),
      show (q - 1) / 2 = q / 2 by omega]
    exact .inl ⟨rfl, rfl⟩

/-- `JoinBuddies` frees a block, joined with its buddies as far as they are free. -/
theorem joinBuddies_spec (hs : s.Valid) (hholds : Holds s h B) (hk : k + rounds = s.orderMax)
    (hfresh : binary.Fresh B (s.orderMax + 1) k q)
    (hinside : ∀ x, binary.Covers B (s.orderMax + 1) x → x < s.blockCount) :
    ∃ h' B', joinBuddies s rounds (s.blockAddress k q) k h = some h' ∧ Holds s h' B' ∧
      ∀ x, binary.Covers B' (s.orderMax + 1) x ↔
        binary.Covers B (s.orderMax + 1) x ∨ x / binary.size k = q := by
  induction rounds generalizing h B k q with
  | zero =>
    obtain ⟨h', hadd, hholds', hcovers⟩ := hholds.addFree hs (by omega) hfresh (by omega)
    exact ⟨h', _, hadd, hholds', hcovers⟩
  | succ rounds ih =>
    obtain ⟨b, hb, hne, hbuddy⟩ := getBuddy_cases (q := q) hs hinside (show k ≤ s.orderMax by omega)
    have hadd (hnot : b ∉ B k) := hholds.addFree hs (show k ≤ s.orderMax by omega) hfresh
      fun _ => ⟨b, hb, fun hmem => (mem_insert.mp hmem).elim hne hnot⟩
    unfold joinBuddies
    rcases hbuddy with ⟨hbuddy, hentry⟩ | ⟨hbuddy, hnot⟩
    · rw [hbuddy]
      dsimp only
      rw [hentry]
      by_cases hmem : b ∈ B k
      · obtain ⟨h', hremove, hlists, htotal⟩ :=
          hholds.lists.removeFree hs hholds.good (by omega) hmem
        obtain ⟨hgood, hfresh', hcovers⟩ := hholds.good.join (by omega) hfresh hmem hb
        have hholds' : Holds s { h' with
            totalFreeSize := h'.totalFreeSize - s.getBytesFromOrder k } _ :=
          ⟨hlists _, hgood, htotal ▸ hholds.total_erase (by omega) hmem⟩
        obtain ⟨h'', B'', hjoin, hholds'', hcovers''⟩ := ih hholds' (by omega) hfresh'
          fun x hx => hinside x (((hholds.good.erase (by omega) hmem).2 x).mp hx).1
        refine ⟨h'', B'', ?_, hholds'', fun x => (hcovers'' x).trans (hcovers x)⟩
        rw [← hjoin, hremove]
        rfl
      · obtain ⟨h', hadd, hholds', hcovers⟩ := hadd hmem
        refine ⟨h', _, ?_, hholds', hcovers⟩
        rw [← hadd, hholds.lists.removeFree_of_notMem hs (by omega) hmem]
        rfl
    · obtain ⟨h', hadd, hholds', hcovers⟩ := hadd hnot
      rw [hbuddy]
      exact ⟨h', _, hadd, hholds', hcovers⟩

end BuddyHeap

end Atmosphere.Fs
