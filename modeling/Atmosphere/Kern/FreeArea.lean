import Atmosphere.Kern.MemoryBlockSpec

/-!
# Searching the tree for a free area

`KMemoryBlockManager::FindFreeArea` tests one candidate for each free block. Its sums are sums
of 64-bit words, so a request that is too large may seem to fit.
-/

namespace Atmosphere.Kern

/-- The arguments of `FindFreeArea`. -/
structure AreaRequest where
  regionStart : ℕ
  regionNumPages : ℕ
  numPages : ℕ
  /-- A power of two, so that `alignDown` is the mask of the code. -/
  alignment : ℕ
  offset : ℕ
  guardPages : ℕ

namespace AreaRequest

open KMemoryBlockManager

variable (s : AreaRequest)

def regionEnd : ℕ := s.regionStart + s.regionNumPages * pageSize

/-- `region_last`. -/
def regionLast : ℕ := (s.regionEnd + 2 ^ 64 - 1) % 2 ^ 64

/-- The `area` that the loop tests for a free block at `address`. -/
def area (address : ℕ) : ℕ :=
  let area := if address ≤ s.regionStart then s.regionStart else address
  let area := (area + s.guardPages * pageSize) % 2 ^ 64
  let offsetArea := (alignDown area s.alignment + s.offset) % 2 ^ 64
  if area ≤ offsetArea then offsetArea else (offsetArea + s.alignment) % 2 ^ 64

/-- `area_last`. -/
def areaLast (area : ℕ) : ℕ :=
  (area + s.numPages * pageSize + s.guardPages * pageSize + 2 ^ 64 - 1) % 2 ^ 64

/-- The loop of `FindFreeArea`. -/
def findLoop : List KMemoryBlockNode → ℕ
  | [] => 0
  | node :: rest =>
    if s.regionLast < node.block.address then 0
    else if node.block.memoryState ≠ KMemoryState.free then findLoop rest
    else
      let area := s.area node.block.address
      if node.block.address ≤ area ∧ area < s.areaLast area ∧ s.areaLast area ≤ s.regionLast ∧
          s.areaLast area ≤ node.block.getLastAddress then area
      else findLoop rest

/-- `KMemoryBlockManager::FindFreeArea`. -/
def findFreeArea (m : KMemoryBlockManager) : ℕ :=
  if s.numPages > 0 then s.findLoop (findIterator m.memoryBlockTree s.regionStart).2 else 0

/-- The pages at `a` and the guard pages around them are in the region and in the free block. -/
structure FitsIn (block : KMemoryBlock) (a : ℕ) : Prop where
  mod_eq : a % s.alignment = s.offset
  start_le : s.regionStart + s.guardPages * pageSize ≤ a
  le_end : a + s.numPages * pageSize + s.guardPages * pageSize ≤ s.regionEnd
  free : block.memoryState = KMemoryState.free
  address_le : block.address + s.guardPages * pageSize ≤ a
  le_endAddress : a + s.numPages * pageSize + s.guardPages * pageSize ≤ block.getEndAddress

def Fits (nodes : List KMemoryBlockNode) (a : ℕ) : Prop := ∃ node ∈ nodes, s.FitsIn node.block a

/-- The `area` of a free block without the wrap of its sums: the least address in the class of the
offset behind the guard pages. -/
def candidate (address : ℕ) : ℕ :=
  let area := max address s.regionStart + s.guardPages * pageSize
  let offsetArea := alignDown area s.alignment + s.offset
  if area ≤ offsetArea then offsetArea else offsetArea + s.alignment

/-- A request for at least one page in a region of addresses, for which `Null` does not fit, the
pages have a size and the candidates are addresses. -/
structure Valid (nodes : List KMemoryBlockNode) : Prop where
  numPages_pos : 0 < s.numPages
  offset_lt : s.offset < s.alignment
  regionEnd_pos : 0 < s.regionEnd
  regionEnd_le : s.regionEnd ≤ 2 ^ 64
  size_lt : s.numPages * pageSize + s.guardPages * pageSize < 2 ^ 64
  candidate_lt : ∀ node ∈ nodes, node.block.memoryState = KMemoryState.free →
    s.regionStart < node.block.getEndAddress → node.block.address < s.regionEnd →
    s.candidate node.block.address < 2 ^ 64
  null : ¬ s.Fits nodes 0

variable {s} {node : KMemoryBlockNode} {nodes tree : List KMemoryBlockNode} {lo nd a : ℕ}

/-- The result of a search. -/
def Finds (s : AreaRequest) (nodes : List KMemoryBlockNode) (r : ℕ) : Prop :=
  (r = 0 ∧ ∀ a, ¬ s.Fits nodes a) ∨ IsLeast {a | s.Fits nodes a} r

theorem Finds.cons {r : ℕ} (h : s.Finds nodes r) (hnot : ∀ a, ¬ s.FitsIn node.block a) :
    s.Finds (node :: nodes) r := by
  unfold Finds Fits at *
  simpa only [List.exists_mem_cons_iff, hnot, false_or] using h

theorem isLeast_candidate (hoffset : s.offset < s.alignment) (x : ℕ) :
    IsLeast {a | max x s.regionStart + s.guardPages * pageSize ≤ a ∧ a % s.alignment = s.offset}
      (s.candidate x) := by
  unfold candidate
  dsimp only
  generalize max x s.regionStart + s.guardPages * pageSize = b
  have hup := lt_alignDown_add b (Nat.zero_lt_of_lt hoffset)
  unfold alignDown at *
  split_ifs with hle
  · refine ⟨⟨hle, ?_⟩, ?_⟩
    · rw [Nat.mul_add_mod', Nat.mod_eq_of_lt hoffset]
    · rintro a ⟨hba, hmod⟩
      have hdiv := Nat.mul_le_mul_right s.alignment (Nat.div_le_div_right (c := s.alignment) hba)
      have := Nat.div_add_mod' a s.alignment
      omega
  · refine ⟨⟨by omega, ?_⟩, ?_⟩
    · rw [Nat.add_mod_right, Nat.mul_add_mod', Nat.mod_eq_of_lt hoffset]
    · rintro a ⟨hba, hmod⟩
      have := Nat.div_add_mod' a s.alignment
      have hne : b / s.alignment ≠ a / s.alignment := by
        intro heq
        rw [heq] at hle
        omega
      have hdiv := Nat.div_le_div_right (c := s.alignment) hba
      have := Nat.mul_le_mul_right s.alignment (Nat.succ_le_of_lt (Nat.lt_of_le_of_ne hdiv hne))
      rw [Nat.succ_mul] at this
      omega

/-- If the candidate is an address, it is what the loop tests. -/
theorem area_eq_candidate {x : ℕ} (hoffset : s.offset < s.alignment)
    (hlt : s.candidate x < 2 ^ 64) : s.area x = s.candidate x := by
  have hge := (isLeast_candidate hoffset x).1.1
  have hmax : (if x ≤ s.regionStart then s.regionStart else x) = max x s.regionStart := by
    split_ifs <;> omega
  unfold candidate area at *
  dsimp only at *
  rw [hmax]
  generalize max x s.regionStart + s.guardPages * pageSize = b at *
  rw [Nat.mod_eq_of_lt (hge.trans_lt hlt)]
  split_ifs at hlt with hle
  · rw [Nat.mod_eq_of_lt hlt, if_pos hle, if_pos hle]
  · rw [Nat.mod_eq_of_lt (by omega : alignDown b s.alignment + s.offset < 2 ^ 64), if_neg hle,
      if_neg hle, Nat.mod_eq_of_lt hlt]

namespace Valid

variable (h : s.Valid tree)
include h

theorem regionLast_eq : s.regionLast + 1 = s.regionEnd := by
  have := h.regionEnd_pos
  have := h.regionEnd_le
  unfold regionLast
  omega

/-- The last address of an area, if the area does not wrap around; if it does, it is too low. -/
theorem areaLast_eq {a : ℕ} (ha : a < 2 ^ 64) :
    s.areaLast a + 1 = a + s.numPages * pageSize + s.guardPages * pageSize ∨
      s.areaLast a < a ∧ 2 ^ 64 < a + s.numPages * pageSize + s.guardPages * pageSize := by
  have hsize := h.size_lt
  have hpages := Nat.mul_pos h.numPages_pos pageSize_pos
  unfold areaLast
  omega

theorem findLoop_spec (hsub : nodes ⊆ tree)
    (hends : ∀ node ∈ nodes, s.regionStart < node.block.getEndAddress)
    (ht : blockShape.Tiles lo nodes nd) : s.Finds nodes (s.findLoop nodes) := by
  have hpages : 1 < s.numPages * pageSize :=
    Nat.lt_of_lt_of_le (by decide) (Nat.le_mul_of_pos_left pageSize h.numPages_pos)
  have hlast := h.regionLast_eq
  have hregion := h.regionEnd_le
  induction nodes generalizing lo with
  | nil => exact .inl ⟨rfl, fun a hfits => by obtain ⟨_, hnode, _⟩ := hfits; cases hnode⟩
  | cons node rest ih =>
    have hbounds : ∀ node' ∈ node :: rest, lo ≤ node'.block.address := fun node' hnode' =>
      (ht.bounds hnode').1
    obtain ⟨hlo, hpos, hrest⟩ := ht
    obtain ⟨hmem, hsub⟩ := List.cons_subset.mp hsub
    obtain ⟨hnodeEnd, hends⟩ := List.forall_mem_cons.mp hends
    have ih := ih hsub hends hrest
    simp only [blockShape_lo, blockShape_hi] at hlo hpos hrest
    rw [findLoop]
    split_ifs with hbeyond hfree
    · -- this block and those behind it start after the region
      refine .inl ⟨rfl, ?_⟩
      rintro a ⟨node', hnode', hfits⟩
      have := hbounds node' hnode'
      have := hfits.le_end
      have := hfits.address_le
      omega
    · exact ih.cons fun a hfits => hfree hfits.free
    · have hcandidate := h.candidate_lt node hmem (not_not.mp hfree) hnodeEnd (by omega)
      rw [area_eq_candidate h.offset_lt hcandidate]
      obtain ⟨⟨hge, hmod⟩, hleast⟩ := isLeast_candidate h.offset_lt node.block.address
      have hareaLast := h.areaLast_eq hcandidate
      have hgetLast : node.block.getLastAddress + 1 = node.block.getEndAddress := by
        unfold KMemoryBlock.getLastAddress
        omega
      have hfirst : ∀ a, s.FitsIn node.block a → s.candidate node.block.address ≤ a :=
        fun a hfits =>
          hleast ⟨by have := hfits.start_le; have := hfits.address_le; omega, hfits.mod_eq⟩
      dsimp only
      split_ifs with hfits
      · refine .inr ⟨⟨node, .head _, hmod, by omega, by omega, not_not.mp hfree, by omega,
          by omega⟩, ?_⟩
        rintro a ⟨node', hnode', hfits'⟩
        obtain rfl | hnode' := List.mem_cons.mp hnode'
        · exact hfirst a hfits'
        · have : node.block.getEndAddress ≤ node'.block.address := (hrest.bounds hnode').1
          have := hfits'.address_le
          omega
      · refine ih.cons fun a hfits' => hfits ?_
        have := hfirst a hfits'
        have := hfits'.le_end
        have := hfits'.le_endAddress
        omega

end Valid

/-- `FindFreeArea` gives the least address that fits, and `Null` only if none does. -/
theorem findFreeArea_isLeast {m : KMemoryBlockManager} (hm : m.WellFormed)
    (hs : s.Valid m.memoryBlockTree) (hstart : m.startAddress ≤ s.regionStart)
    (hend : s.regionEnd ≤ m.endAddress) :
    (s.findFreeArea m ≠ 0 → IsLeast {a | s.Fits m.memoryBlockTree a} (s.findFreeArea m)) ∧
      (s.findFreeArea m = 0 ↔ ∀ a, ¬ s.Fits m.memoryBlockTree a) := by
  have hpages := Nat.mul_pos hs.numPages_pos pageSize_pos
  suffices hfinds : s.Finds m.memoryBlockTree (s.findFreeArea m) by
    obtain ⟨hzero, hnone⟩ | hleast := hfinds
    · exact ⟨fun hne => absurd hzero hne, iff_of_true hzero hnone⟩
    · have hne : s.findFreeArea m ≠ 0 := fun hzero => hs.null (hzero ▸ hleast.1)
      exact ⟨fun _ => hleast, iff_of_false hne fun hnone => hnone _ hleast.1⟩
  rw [findFreeArea, if_pos hs.numPages_pos]
  by_cases hin : s.regionStart < m.endAddress
  · obtain ⟨before, node, after, hfind, htree, hbefore, htiles, _, hnodeEnd⟩ :=
      findIterator_spec hm.tiles hstart hin
    have hfinds : s.Finds (node :: after) _ := hs.findLoop_spec
      (htree ▸ List.subset_append_right _ _)
      (List.forall_mem_cons.mpr ⟨hnodeEnd, fun x hx => ?_⟩) htiles
    · -- a block in front of the iterator ends before the region starts
      have hfits : ∀ a, s.Fits m.memoryBlockTree a ↔ s.Fits (node :: after) a := by
        intro a
        rw [htree]
        constructor <;> rintro ⟨x, hx, hfits⟩
        · obtain hx | hx := List.mem_append.mp hx
          · have hxEnd : x.block.getEndAddress ≤ node.block.address := (hbefore.bounds hx).2.2
            have := hfits.start_le
            have := hfits.le_endAddress
            omega
          · exact ⟨x, hx, hfits⟩
        · exact ⟨x, List.mem_append_right _ hx, hfits⟩
      rw [hfind]
      unfold Finds at *
      simpa only [hfits] using hfinds
    · obtain ⟨_, _, hafter⟩ := htiles
      have hxBounds := hafter.bounds hx
      simp only [blockShape_lo, blockShape_hi] at hxBounds
      omega
  · -- the region is empty, at the end of the tree
    have hnil : (findIterator m.memoryBlockTree s.regionStart).2 = [] := by
      refine List.dropWhile_eq_nil_iff.mpr fun x hx => ?_
      have hxBounds := hm.tiles.bounds hx
      simp only [blockShape_lo, blockShape_hi] at hxBounds
      have hxLast : x.block.getLastAddress < s.regionStart := by
        unfold KMemoryBlock.getLastAddress
        omega
      rw [KMemoryBlock.compare, if_neg (by omega), if_neg (by omega)]
      rfl
    rw [hnil]
    refine .inl ⟨rfl, ?_⟩
    rintro a ⟨x, -, hfits⟩
    have := hfits.start_le
    have := hfits.le_end
    omega

/-- Two aligned pages with a guard page on each side. -/
def twoPages : AreaRequest where
  regionStart := 0x1000
  regionNumPages := 4
  numPages := 2
  alignment := 0x2000
  offset := 0
  guardPages := 1

theorem findFreeArea_twoPages :
    fourFreePages.WellFormed ∧ twoPages.Valid fourFreePages.memoryBlockTree ∧
      twoPages.findFreeArea fourFreePages = 0x2000 ∧
        IsLeast {a | twoPages.Fits fourFreePages.memoryBlockTree a} 0x2000 := by
  have hvalid : twoPages.Valid fourFreePages.memoryBlockTree := by
    refine ⟨by decide, by decide, by decide, by decide, by decide, by decide, ?_⟩
    rintro ⟨_, _, hfits⟩
    exact absurd hfits.start_le (by decide)
  have hfound : twoPages.findFreeArea fourFreePages = 0x2000 := by decide +kernel
  have hleast := (findFreeArea_isLeast fourFreePages_wellFormed hvalid (by decide) (by decide)).1
  rw [hfound] at hleast
  exact ⟨fourFreePages_wellFormed, hvalid, hfound, hleast (by decide)⟩

/-- One free block from an address on. -/
def oneFreeBlock (address numPages : ℕ) : KMemoryBlockManager where
  memoryBlockTree := [⟨1, .constantInitialize address numPages KMemoryState.free
    KMemoryPermission.none KMemoryAttribute.none⟩]
  startAddress := address
  endAddress := address + numPages * pageSize

theorem oneFreeBlock_wellFormed {address numPages : ℕ} (haddress : pageSize ∣ address)
    (hpages : 0 < numPages) : (oneFreeBlock address numPages).WellFormed where
  tiles := ⟨rfl, Nat.lt_add_of_pos_right (Nat.mul_pos hpages pageSize_pos), rfl⟩
  aligned := List.forall_mem_singleton.mpr haddress
  coalesced := List.isChain_singleton _

/-- A page in the upper half of the addresses, in a class modulo `2 ^ 63`. -/
def highPage : AreaRequest where
  regionStart := 2 ^ 63 + 0x2000
  regionNumPages := 4
  numPages := 1
  alignment := 2 ^ 63
  offset := 0x1000
  guardPages := 0

/-- What the restrictions exclude. The size of `2 ^ 52` pages is zero in 64 bits, and they seem to
fit into four. The next address of a class modulo `2 ^ 63` wraps around and is found before the
region. The end of an empty region at zero has no last address, and an area behind it is found.
No pages, and pages at zero, fit but are not told from a failure. -/
theorem findFreeArea_wraps :
    (let s := { twoPages with numPages := 2 ^ 52 };
      s.findFreeArea fourFreePages = 0x2000 ∧ ¬ s.Fits fourFreePages.memoryBlockTree 0x2000) ∧
    ((oneFreeBlock 0x1000 (2 ^ 51 + 5)).WellFormed ∧
      highPage.findFreeArea (oneFreeBlock 0x1000 (2 ^ 51 + 5)) = 0x1000 ∧
      ¬ highPage.Fits (oneFreeBlock 0x1000 (2 ^ 51 + 5)).memoryBlockTree 0x1000) ∧
    (let s := { twoPages with regionStart := 0, regionNumPages := 0, numPages := 1 };
      (oneFreeBlock 0 4).WellFormed ∧ s.findFreeArea (oneFreeBlock 0 4) = 0x2000 ∧
      ¬ s.Fits (oneFreeBlock 0 4).memoryBlockTree 0x2000) ∧
    (let s := { twoPages with numPages := 0 };
      s.findFreeArea fourFreePages = 0 ∧ s.Fits fourFreePages.memoryBlockTree 0x2000) ∧
    let s := { twoPages with regionStart := 0, guardPages := 0 };
    s.findFreeArea (oneFreeBlock 0 4) = 0 ∧ s.Fits (oneFreeBlock 0 4).memoryBlockTree 0 := by
  refine ⟨⟨by decide +kernel, ?_⟩, ⟨oneFreeBlock_wellFormed (by decide) (by decide),
    by decide +kernel, ?_⟩,
    ⟨oneFreeBlock_wellFormed (by decide) (by decide), by decide +kernel, ?_⟩,
    ⟨by decide +kernel, _, .head _, ?_⟩, by decide +kernel, _, .head _, ?_⟩
  · rintro ⟨_, _, hfits⟩
    exact absurd hfits.le_end (by decide +kernel)
  · rintro ⟨_, _, hfits⟩
    exact absurd hfits.start_le (by decide +kernel)
  · rintro ⟨_, _, hfits⟩
    exact absurd hfits.le_end (by decide +kernel)
  · constructor <;> decide +kernel
  · constructor <;> decide +kernel

end AreaRequest

end Atmosphere.Kern
