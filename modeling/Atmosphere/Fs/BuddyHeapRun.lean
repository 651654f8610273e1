import Atmosphere.Fs.BuddyHeapInitialize

/-!
# Runs of the buddy heap

A run allocates and frees blocks; between that, the owners of blocks may write anything into them,
also over the links that were there. In every state the free and the allocated blocks tile the
heap. The blocks that are free determine each other: when everything is freed the lists hold the
blocks that they held after the initialization.
-/

namespace Atmosphere.Fs

open Buddy
open Finset

/-- The entries of a list, read off the links. -/
def PageList.walk (next : PageLinks) : ℕ → Option ℕ → List ℕ
  | n + 1, some entry => entry :: walk next n (next entry)
  | _, _ => []

theorem PageList.Holds.walk_eq {l : PageList} {next : PageLinks} {entries : List ℕ}
    (h : l.Holds next entries) : walk next l.entryCount l.firstPageEntry = entries := by
  rw [h.count]
  by_cases hne : entries = []
  · rw [hne]
    rfl
  · have hchain := h.chain hne
    generalize l.firstPageEntry = head at hchain
    clear h hne
    induction hchain with
    | nil => rfl
    | cons _ ih => rw [List.length_cons, walk, ih]

namespace BuddyHeap

/-- The free blocks of an order. -/
def entries (h : BuddyHeap) (order : ℕ) : List ℕ :=
  PageList.walk h.next (h.freeLists order).entryCount (h.freeLists order).firstPageEntry

/-- A heap and the orders and addresses of the blocks that are allocated. -/
structure State where
  heap : BuddyHeap
  live : Finset (ℕ × ℕ)

/-- The steps of a run. -/
inductive Step (s : HeapShape) : State → State → Prop
  | allocate {σ : State} {order address : ℕ} {h : BuddyHeap} : order ≤ s.orderMax →
      allocateByOrder s order σ.heap = some (some address, h) →
      Step s σ ⟨h, insert (order, address) σ.live⟩
  | allocateFailed {σ : State} {order : ℕ} {h : BuddyHeap} : order ≤ s.orderMax →
      allocateByOrder s order σ.heap = some (none, h) → Step s σ ⟨h, σ.live⟩
  | free {σ : State} {order address : ℕ} {h : BuddyHeap} : (order, address) ∈ σ.live →
      free s (some address) order σ.heap = some h → Step s σ ⟨h, σ.live.erase (order, address)⟩
  | store {σ : State} {order address p : ℕ} (v : Option ℕ) : (order, address) ∈ σ.live →
      address ≤ p → p < address + s.getBytesFromOrder order →
      Step s σ ⟨{ σ.heap with next := Function.update σ.heap.next p v }, σ.live⟩

variable {s : HeapShape} {h : BuddyHeap} {B : ℕ → Finset ℕ} {σ : State} {live : Finset (ℕ × ℕ)}

/-- The allocated blocks do not meet each other or a free block, and leave nothing out. -/
structure Tiles (s : HeapShape) (B : ℕ → Finset ℕ) (live : Finset (ℕ × ℕ)) : Prop where
  block : ∀ k a, (k, a) ∈ live → k ≤ s.orderMax ∧ ∃ q, a = s.blockAddress k q ∧
    binary.Fresh B (s.orderMax + 1) k q
  apart : ∀ k q k' q' x, (k, s.blockAddress k q) ∈ live → (k', s.blockAddress k' q') ∈ live →
    x / binary.size k = q → x / binary.size k' = q' → k = k'
  covers : ∀ x, (binary.Covers B (s.orderMax + 1) x ∨
    ∃ k, (k, s.blockAddress k (x / binary.size k)) ∈ live) ↔ x < s.blockCount

/-- The state of a run is that of a buddy system. -/
def Inv (s : HeapShape) (σ : State) : Prop := ∃ B, Holds s σ.heap B ∧ Tiles s B σ.live

variable {k x q : ℕ}

section

variable (hs : s.Valid) {B' : ℕ → Finset ℕ} {order : ℕ}
include hs

theorem Tiles.not_covers (ht : Tiles s B live)
    (hmem : (k, s.blockAddress k (x / binary.size k)) ∈ live) :
    ¬ binary.Covers B (s.orderMax + 1) x := by
  obtain ⟨_, q, haddress, hfresh⟩ := ht.block _ _ hmem
  exact hfresh x (HeapShape.blockAddress_injective hs k haddress)

theorem block_eq_iff {k' : ℕ} :
    (k', s.blockAddress k' (x / binary.size k')) = (k, s.blockAddress k q) ↔
      k' = k ∧ x / binary.size k = q := by
  rw [Prod.mk.injEq]
  refine and_congr_right ?_
  rintro rfl
  exact (HeapShape.blockAddress_injective hs k').eq_iff

/-- A block that was free is allocated. -/
theorem Tiles.allocate (ht : Tiles s B live)
    (hk : k ≤ s.orderMax) (hfresh : binary.Fresh B' (s.orderMax + 1) k q)
    (hcovers : ∀ x, binary.Covers B' (s.orderMax + 1) x ∨ x / binary.size k = q ↔
      binary.Covers B (s.orderMax + 1) x) : Tiles s B' (insert (k, s.blockAddress k q) live) := by
  -- no position of the new block was allocated
  have hnew : ∀ x k', x / binary.size k = q →
      (k', s.blockAddress k' (x / binary.size k')) ∉ live := fun x k' hx hmem =>
    ht.not_covers hs hmem ((hcovers x).mp (.inr hx))
  refine ⟨fun k' a hb => ?_, fun k₁ q₁ k₂ q₂ x h₁ h₂ hx₁ hx₂ => ?_, fun x => ?_⟩
  · rcases mem_insert.mp hb with heq | hb
    · obtain ⟨rfl, rfl⟩ := Prod.mk.inj heq
      exact ⟨hk, q, rfl, hfresh⟩
    · obtain ⟨hk', q', haddress, hfresh'⟩ := ht.block k' a hb
      exact ⟨hk', q', haddress, fun x hx hcov => hfresh' x hx ((hcovers x).mp (.inl hcov))⟩
  · subst hx₁ hx₂
    rw [mem_insert, block_eq_iff hs] at h₁ h₂
    rcases h₁ with ⟨rfl, hx⟩ | h₁ <;> rcases h₂ with ⟨rfl, hx'⟩ | h₂
    · rfl
    · exact absurd h₂ (hnew x k₂ hx)
    · exact absurd h₁ (hnew x k₁ hx')
    · exact ht.apart k₁ _ k₂ _ x h₁ h₂ rfl rfl
  · rw [← ht.covers x, ← hcovers x]
    simp only [mem_insert, block_eq_iff hs, exists_or, exists_eq_left, or_assoc]

/-- An allocated block is freed. -/
theorem Tiles.free (ht : Tiles s B live)
    (hmem : (k, s.blockAddress k q) ∈ live) (hcovers : ∀ x, binary.Covers B' (s.orderMax + 1) x ↔
      binary.Covers B (s.orderMax + 1) x ∨ x / binary.size k = q) :
    Tiles s B' (live.erase (k, s.blockAddress k q)) := by
  refine ⟨fun k' a hb => ?_, fun k₁ q₁ k₂ q₂ x h₁ h₂ => ?_, fun x => ?_⟩
  · obtain ⟨hne, hb⟩ := mem_erase.mp hb
    obtain ⟨hk', q', rfl, hfresh⟩ := ht.block k' a hb
    refine ⟨hk', q', rfl, fun x hx hcov => ?_⟩
    rcases (hcovers x).mp hcov with hcov | hx'
    · exact hfresh x hx hcov
    · obtain rfl := ht.apart k' q' k q x hb hmem hx hx'
      exact hne (by rw [← hx, ← hx'])
  · exact ht.apart k₁ q₁ k₂ q₂ x (mem_of_mem_erase h₁) (mem_of_mem_erase h₂)
  · rw [← ht.covers x, hcovers x]
    by_cases hx : x / binary.size k = q
    · exact iff_of_true (.inl (.inr hx)) (.inr ⟨k, hx ▸ hmem⟩)
    · simp [block_eq_iff hs, hx]

/-- What is written into an allocated block is no link of a list. -/
theorem Holds.store (hholds : Holds s h B) {p : ℕ} (v : Option ℕ)
    (hfresh : binary.Fresh B (s.orderMax + 1) k q) (hle : s.blockAddress k q ≤ p)
    (hlt : p < s.blockAddress k q + s.getBytesFromOrder k) :
    Holds s { h with next := Function.update h.next p v } B := by
  refine ⟨fun k' hk' => ?_, hholds.good, hholds.total⟩
  obtain ⟨qs, hlist, hqs⟩ := hholds.lists k' hk'
  refine ⟨qs, hlist.congr fun b hb => Function.update_of_ne ?_ _ _, hqs⟩
  rintro rfl
  obtain ⟨q', hq', rfl⟩ := List.mem_map.mp hb
  unfold HeapShape.blockAddress at hle hlt
  rw [HeapShape.getBytesFromOrder] at hlt
  refine hfresh (q' * 2 ^ k') ?_
    ⟨k', by omega, (binary.exists_position k' q').symm ▸ (hqs q').mp hq'⟩
  rw [binary_size, Nat.div_eq_iff (Nat.two_pow_pos k)]
  have hpos := hs.blockSize_pos
  have h₁ : q * 2 ^ k ≤ q' * 2 ^ k' := Nat.le_of_mul_le_mul_right (by omega) hpos
  have h₂ : q' * 2 ^ k' < q * 2 ^ k + 2 ^ k := by
    apply Nat.lt_of_mul_lt_mul_right (a := s.blockSize)
    rw [Nat.add_mul, Nat.mul_comm (2 ^ k)]
    omega
  omega

/-- Allocation in a state of a run. -/
theorem Inv.allocate (hinv : Inv s σ) (horder : order ≤ s.orderMax) :
    (∀ k, order ≤ k → k ≤ s.orderMax → σ.heap.entries k = []) ∧
      allocateByOrder s order σ.heap = some (none, σ.heap) ∨
    (∃ k, order ≤ k ∧ k ≤ s.orderMax ∧ σ.heap.entries k ≠ []) ∧
      ∃ address h', allocateByOrder s order σ.heap = some (some address, h') ∧
        (order, address) ∉ σ.live ∧ Inv s ⟨h', insert (order, address) σ.live⟩ := by
  obtain ⟨B, hholds, ht⟩ := hinv
  have hempty : ∀ k ≤ s.orderMax, σ.heap.entries k = [] ↔ B k = ∅ := by
    intro k hk
    obtain ⟨qs, hlist, hqs⟩ := hholds.lists k hk
    rw [← hholds.lists.isEmpty_iff hk, hlist.isEmpty_iff, entries, hlist.walk_eq]
  rcases getFreePageEntry_spec hs hholds le_rfl
    (show order + (s.orderMax + 1 - order) = _ by omega) with
    ⟨hnone, hget⟩ | ⟨⟨k, hk, hk', hne⟩, q, h', B', hget, hholds', hfresh, hcovers⟩
  · exact .inl ⟨fun k hk hk' => (hempty k hk').mpr (hnone k hk hk'), hget⟩
  · refine .inr ⟨⟨k, hk, hk', mt (hempty k hk').mp hne⟩, _, h', hget, fun hmem => ?_, B', hholds',
      ht.allocate hs horder hfresh hcovers⟩
    have hpos := binary.exists_position order q
    exact ht.not_covers hs (hpos.symm ▸ hmem) ((hcovers _).mp (.inr hpos))

/-- The release of an allocated block. -/
theorem Inv.free (hinv : Inv s σ) {address : ℕ} (hmem : (order, address) ∈ σ.live) :
    ∃ h', BuddyHeap.free s (some address) order σ.heap = some h' ∧
      Inv s ⟨h', σ.live.erase (order, address)⟩ := by
  obtain ⟨B, hholds, ht⟩ := hinv
  obtain ⟨horder, q, rfl, hfresh⟩ := ht.block _ _ hmem
  obtain ⟨h', B', hjoin, hholds', hcovers⟩ := joinBuddies_spec hs hholds
    (show order + (s.orderMax - order) = _ by omega) hfresh
    fun x hx => (ht.covers x).mp (.inl hx)
  refine ⟨h', ?_, B', hholds', ht.free hs hmem hcovers⟩
  rw [← hjoin, BuddyHeap.free, HeapShape.getPageEntryFromAddress_blockAddress]

theorem Inv.step (hinv : Inv s σ) {σ' : State} (hstep : Step s σ σ') : Inv s σ' := by
  cases hstep with
  | allocate horder hget =>
    rcases hinv.allocate hs horder with ⟨_, hget'⟩ | ⟨_, a, h', hget', _, hinv'⟩
    · cases hget.symm.trans hget'
    · cases hget.symm.trans hget'
      exact hinv'
  | allocateFailed horder hget =>
    rcases hinv.allocate hs horder with ⟨_, hget'⟩ | ⟨_, a, h', hget', _⟩
    · cases hget.symm.trans hget'
      exact hinv
    · cases hget.symm.trans hget'
  | free hmem hfree =>
    obtain ⟨h', hfree', hinv'⟩ := hinv.free hs hmem
    cases hfree.symm.trans hfree'
    exact hinv'
  | store v hmem hle hlt =>
    obtain ⟨B, hholds, ht⟩ := hinv
    obtain ⟨_, q, rfl, hfresh⟩ := ht.block _ _ hmem
    exact ⟨B, hholds.store hs v hfresh hle hlt, ht⟩

end

/-- The blocks of a state, free or allocated, by order and address. -/
def State.Block (s : HeapShape) (σ : State) (b : ℕ × ℕ) : Prop :=
  b.1 ≤ s.orderMax ∧ b.2 ∈ σ.heap.entries b.1 ∨ b ∈ σ.live

end BuddyHeap

end Atmosphere.Fs
