import Atmosphere.Kern.MemoryBlockSpec

/-!
# Checking a range and sizing its update allocator

`CheckMemoryState` and `CheckMemoryStateContiguous` walk the blocks of a range
and report how many blocks an update of the range can need: one when the first
page of the range does not start a block, one when the last does not end one.
The callers create an update allocator with that count, update the pages of the
range and destroy the allocator.

The walk and the update use different loops. What connects them is that both
counts are about boundaries of the tree.
-/

namespace Atmosphere.Kern

/-! ## The life of an update allocator -/

namespace KMemoryBlockSlabManager

variable {sm sm' : KMemoryBlockSlabManager}

theorem count_of_allocate_some {p : ℕ} (h : sm.allocate = (some p, sm')) (x : ℕ) :
    sm.pointers.count x = [p].count x + sm'.pointers.count x := by
  obtain ⟨freeList, pages⟩ := sm
  cases freeList with
  | cons q rest =>
    cases h
    simp only [pointers, List.cons_append, List.count_cons, List.count_nil]
    omega
  | nil =>
    cases pages with
    | nil => cases h
    | cons page pages =>
      cases h
      simp only [pointers, List.nil_append, List.flatMap_cons, List.cons_append,
        List.count_cons, List.count_append, List.count_reverse, List.count_nil]
      omega

theorem eq_of_allocate_none (h : sm.allocate = (none, sm')) : sm' = sm := by
  obtain ⟨freeList, pages⟩ := sm
  cases freeList with
  | cons q rest => cases h
  | nil =>
    cases pages with
    | nil => cases h; rfl
    | cons page pages => cases h

end KMemoryBlockSlabManager

namespace KMemoryBlockManagerUpdateAllocator

open KMemoryBlockSlabManager (count_of_allocate_some eq_of_allocate_none)

/-- The destructor gives every block that is still held back to the slab. -/
theorem count_destroy (a : KMemoryBlockManagerUpdateAllocator) (x : ℕ) :
    a.destroy.pointers.count x =
      (a.blocks.filterMap id).count x + a.slabManager.pointers.count x := by
  obtain ⟨blocks, index, sm⟩ := a
  simp only [destroy]
  induction blocks generalizing sm with
  | nil => simp
  | cons block blocks ih =>
    cases block with
    | none => simpa using ih sm
    | some p =>
      have := ih (sm.free p)
      simp only [List.foldl_cons, Option.elim_some, List.filterMap_cons, id_eq,
        KMemoryBlockSlabManager.free, KMemoryBlockSlabManager.pointers, List.cons_append,
        List.count_cons] at this ⊢
      omega

/-- Creation with at most two blocks takes them all from the slab, or fails and
leaves the destructor to give back what it took. -/
theorem create_spec (sm : KMemoryBlockSlabManager) {n : ℕ} (hn : n ≤ maxBlocks) :
    (∃ a ps, create sm n = (.ok (), a) ∧ ps.length = n ∧ a.Holds ps ∧
        ∀ x, (ps ++ a.slabManager.pointers).count x = sm.pointers.count x) ∨
      ∃ r a, create sm n = (.error r, a) ∧
        ∀ x, a.destroy.pointers.count x = sm.pointers.count x := by
  match n, hn with
  | 0, _ => exact .inl ⟨_, [], rfl, rfl, ⟨rfl, rfl⟩, fun x => rfl⟩
  | 1, _ =>
    rcases h : sm.allocate with ⟨_ | p, sm'⟩
    · refine .inr ⟨.outOfResource, ⟨[none, none], 1, sm'⟩, ?_, fun x => ?_⟩
      · simp [create, initializeLoop, maxBlocks, h]
      · rw [count_destroy, eq_of_allocate_none h]
        simp
    · refine .inl ⟨⟨[none, some p], 1, sm'⟩, [p], ?_, rfl, ⟨rfl, rfl⟩, fun x => ?_⟩
      · simp [create, initializeLoop, maxBlocks, h]
      · rw [count_of_allocate_some h, List.count_append]
  | 2, _ =>
    rcases h : sm.allocate with ⟨_ | p, sm'⟩
    · refine .inr ⟨.outOfResource, ⟨[none, none], 0, sm'⟩, ?_, fun x => ?_⟩
      · simp [create, initializeLoop, maxBlocks, h, List.range_succ]
      · rw [count_destroy, eq_of_allocate_none h]
        simp
    · rcases h' : sm'.allocate with ⟨_ | q, sm''⟩
      · refine .inr ⟨.outOfResource, ⟨[some p, none], 0, sm''⟩, ?_, fun x => ?_⟩
        · simp [create, initializeLoop, maxBlocks, h, h', List.range_succ]
        · rw [count_destroy, eq_of_allocate_none h',
            count_of_allocate_some h]
          rfl
      · refine .inl ⟨⟨[some p, some q], 0, sm''⟩, [p, q], ?_, rfl, ⟨rfl, rfl⟩, fun x => ?_⟩
        · simp [create, initializeLoop, maxBlocks, h, h', List.range_succ]
        · rw [count_of_allocate_some h,
            count_of_allocate_some h',
            ← List.count_append, ← List.count_append]
          rfl

end KMemoryBlockManagerUpdateAllocator

namespace KMemoryBlockManager

open KMemoryBlockManagerUpdateAllocator

/-- The masks that a caller passes; each value is compared under its mask. -/
structure MemoryStateTest where
  stateMask : BitVec 32
  state : BitVec 32
  permMask : BitVec 32
  perm : BitVec 32
  attrMask : BitVec 32
  attr : BitVec 32
  deriving DecidableEq, Repr

/-- `CheckMemoryState` of one block. -/
def checkMemoryInfo (test : MemoryStateTest) (info : KMemoryBlock) : Except SvcResult Unit :=
  if info.memoryState &&& test.stateMask ≠ test.state then .error .invalidCurrentMemory
  else if info.permission.setWidth 32 &&& test.permMask ≠ test.perm then
    .error .invalidCurrentMemory
  else if info.attr.setWidth 32 &&& test.attrMask ≠ test.attr then .error .invalidCurrentMemory
  else .ok ()

/-- The loop over the blocks of the range; it gives the last one. -/
def checkLoop (check : KMemoryBlock → Except SvcResult Unit) (lastAddr : ℕ) :
    List KMemoryBlockNode → Run (Except SvcResult KMemoryBlock)
  | [] => .error .nullDereference
  | node :: rest =>
    match check node.block with
    | .error r => .ok (.error r)
    | .ok () =>
      if lastAddr ≤ node.block.getLastAddress then .ok (.ok node.block)
      else checkLoop check lastAddr rest

/-- What both functions do; `check` is told the first block. It gives the first
block and the blocks that an update needs. -/
def checkRange (m : KMemoryBlockManager) (addr size : ℕ)
    (check : KMemoryBlock → KMemoryBlock → Except SvcResult Unit) :
    Run (Except SvcResult (KMemoryBlock × ℕ)) :=
  let lastAddr := addr + size - 1
  match (findIterator m.memoryBlockTree addr).2 with
  | [] => .error .nullDereference
  | node :: rest => do
    let blocksForStartAlign := if alignDown addr pageSize ≠ node.block.address then 1 else 0
    match ← checkLoop (check node.block) lastAddr (node :: rest) with
    | .error r => .ok (.error r)
    | .ok info =>
      let blocksForEndAlign := if alignUp (addr + size) pageSize ≠ info.getEndAddress then 1 else 0
      .ok (.ok (node.block, blocksForStartAlign + blocksForEndAlign))

/-- `CheckMemoryStateContiguous`, with the blocks it says are needed. -/
def checkMemoryStateContiguous (m : KMemoryBlockManager) (addr size : ℕ)
    (test : MemoryStateTest) : Run (Except SvcResult ℕ) := do
  match ← m.checkRange addr size fun _ info => checkMemoryInfo test info with
  | .error r => .ok (.error r)
  | .ok (_, numBlocks) => .ok (.ok numBlocks)

/-- What `CheckMemoryState` writes: the state, permission and attribute of the
range and the blocks needed. -/
structure MemoryStateOut where
  state : KMemoryState
  perm : KMemoryPermission
  attr : KMemoryAttribute
  numBlocks : ℕ
  deriving DecidableEq, Repr

/-- `CheckMemoryState`: the blocks of the range must also agree with the first
one, up to the attributes in `ignoreAttr`. -/
def checkMemoryState (m : KMemoryBlockManager) (addr size : ℕ) (test : MemoryStateTest)
    (ignoreAttr : BitVec 32) : Run (Except SvcResult MemoryStateOut) := do
  let check (first info : KMemoryBlock) : Except SvcResult Unit :=
    if info.memoryState ≠ first.memoryState then .error .invalidCurrentMemory
    else if info.permission ≠ first.permission then .error .invalidCurrentMemory
    else if info.attr.setWidth 32 ||| ignoreAttr ≠ first.attr.setWidth 32 ||| ignoreAttr then
      .error .invalidCurrentMemory
    else checkMemoryInfo test info
  match ← m.checkRange addr size check with
  | .error r => .ok (.error r)
  | .ok (first, numBlocks) =>
    .ok (.ok ⟨first.memoryState, first.permission,
      (first.attr.setWidth 32 &&& ~~~ignoreAttr).setWidth 8, numBlocks⟩)

variable {m : KMemoryBlockManager} {addr size n : ℕ} {node : KMemoryBlockNode}

/-- The walk ends on the block that holds the last address. -/
theorem checkLoop_ok {check : KMemoryBlock → Except SvcResult Unit} {st nd last : ℕ}
    {it : List KMemoryBlockNode} {info : KMemoryBlock} (ht : blockShape.Tiles st it nd)
    (hst : st ≤ last) (h : checkLoop check last it = .ok (.ok info)) :
    ∃ node ∈ it, node.block = info ∧ info.address ≤ last ∧ last < info.getEndAddress := by
  induction it generalizing st with
  | nil => cases h
  | cons node rest ih =>
    obtain ⟨hlo, hpos, hrest⟩ := ht
    simp only [blockShape_lo, blockShape_hi] at hlo hpos hrest
    rw [checkLoop] at h
    split at h
    · cases h
    · split at h
      · rename_i hle
        cases h
        rw [KMemoryBlock.getLastAddress] at hle
        exact ⟨node, List.mem_cons_self, rfl, by omega, by omega⟩
      · rename_i hgt
        rw [KMemoryBlock.getLastAddress] at hgt
        obtain ⟨c, hc, hrest'⟩ := ih hrest (by omega) h
        exact ⟨c, .tail _ hc, hrest'⟩

/-- Around a position that a block covers, the boundaries are those of the block. -/
theorem WellFormed.isBoundary_iff (hwf : m.WellFormed) {x : ℕ}
    (hnode : node ∈ m.memoryBlockTree) (hlo : node.block.address ≤ x)
    (hhi : x ≤ node.block.getEndAddress) :
    m.IsBoundary x ↔ x = node.block.address ∨ x = node.block.getEndAddress := by
  constructor
  · intro h
    by_contra hno
    rcases h with h | h
    · exact hwf.tiles.not_isStart_inside hnode (by simp only [blockShape_lo]; omega)
        (by simp only [blockShape_hi]; omega) h
    · have := (hwf.tiles.bounds hnode).2.2
      simp only [blockShape_hi] at this
      omega
  · rintro (rfl | rfl)
    · exact .inl ⟨node, hnode, rfl⟩
    · exact hwf.tiles.isStart_hi hnode

theorem WellFormed.dvd_end (hwf : m.WellFormed)
    (hnode : node ∈ m.memoryBlockTree) : pageSize ∣ node.block.getEndAddress :=
  (Nat.dvd_add_right (hwf.aligned node hnode)).mpr (Nat.dvd_mul_left _ _)

/-- Only an address of the tree is found in it. -/
theorem WellFormed.inside_of_findIterator (hwf : m.WellFormed) {rest : List KMemoryBlockNode}
    (h : (findIterator m.memoryBlockTree addr).2 = node :: rest) :
    m.startAddress ≤ addr ∧ addr < m.endAddress := by
  simp only [findIterator] at h
  have hmem : node ∈ m.memoryBlockTree :=
    (List.dropWhile_sublist _).subset (h ▸ List.mem_cons_self)
  have hfound := List.head?_dropWhile_not
    (fun node => KMemoryBlock.compare addr node.block != .eq) m.memoryBlockTree
  rw [h] at hfound
  have hcompare : KMemoryBlock.compare addr node.block = .eq := by simpa using hfound
  obtain ⟨hlo, hpos, hhi⟩ := hwf.tiles.bounds hmem
  simp only [blockShape_lo, blockShape_hi] at hlo hpos hhi
  rw [KMemoryBlock.compare, KMemoryBlock.getLastAddress] at hcompare
  split_ifs at hcompare
  omega

/-- A range inside the tree, with the number of the ends of its pages at which no block ends. -/
structure Counted (m : KMemoryBlockManager) (addr size n : ℕ) : Prop where
  start : m.startAddress ≤ addr
  last : addr + size ≤ m.endAddress
  count : n = m.blocksNeeded (alignDown addr pageSize) (alignUp (addr + size) pageSize)

theorem checkRange_ok {check : KMemoryBlock → KMemoryBlock → Except SvcResult Unit}
    {first : KMemoryBlock} (hwf : m.WellFormed) (hsize : 0 < size)
    (h : m.checkRange addr size check = .ok (.ok (first, n))) : m.Counted addr size n := by
  obtain ⟨hst, haddr⟩ : m.startAddress ≤ addr ∧ addr < m.endAddress := by
    cases hfind : (findIterator m.memoryBlockTree addr).2 with
    | nil =>
      simp only [checkRange, hfind] at h
      cases h
    | cons node rest => exact hwf.inside_of_findIterator hfind
  obtain ⟨before, node, after, hfind, happ, _, hnode, hlo, hhi⟩ :=
    findIterator_spec hwf.tiles hst haddr
  simp only [checkRange, hfind] at h
  obtain ⟨res, hloop, h⟩ := bind_eq_ok.mp h
  cases res with
  | error r => cases h
  | ok info =>
    simp only [Except.ok.injEq, Prod.mk.injEq] at h
    obtain ⟨c, hc, rfl, hclo, hchi⟩ := checkLoop_ok hnode (by omega) hloop
    have hmem : node ∈ m.memoryBlockTree := by simp [happ]
    have hcmem : c ∈ m.memoryBlockTree := happ ▸ List.mem_append_right _ hc
    -- the pages of the range end inside the two blocks
    have hd : node.block.address ≤ alignDown addr pageSize :=
      (le_alignDown_iff pageSize_pos (hwf.aligned node hmem)).mpr hlo
    have hu : alignUp (addr + size) pageSize ≤ c.block.getEndAddress :=
      (alignUp_le_iff pageSize_pos (hwf.dvd_end hcmem)).mpr (by omega)
    have hd' := alignDown_le addr pageSize
    have hu' := le_alignUp (addr + size) pageSize_pos
    have hlast := (hwf.tiles.bounds hcmem).2.2
    simp only [blockShape_hi] at hlast
    refine ⟨hst, by omega, ?_⟩
    rw [← h.2]
    congr 1
    · have := hwf.isBoundary_iff hmem hd (by omega)
      by_cases heq : alignDown addr pageSize = node.block.address
      · rw [if_neg (not_not.mpr heq), if_pos (this.mpr (.inl heq))]
      · rw [if_pos heq, if_neg fun hb => (this.mp hb).elim heq (by omega)]
    · have := hwf.isBoundary_iff hcmem (by omega) hu
      by_cases heq : alignUp (addr + size) pageSize = c.block.getEndAddress
      · rw [if_neg (not_not.mpr heq), if_pos (this.mpr (.inr heq))]
      · rw [if_pos heq, if_neg fun hb => (this.mp hb).elim (by omega) heq]

/-- The number of pages that a range touches. -/
def hullPages (addr size : ℕ) : ℕ :=
  (alignUp (addr + size) pageSize - alignDown addr pageSize) / pageSize

theorem alignDown_add_hullPages (addr size : ℕ) :
    alignDown addr pageSize + hullPages addr size * pageSize = alignUp (addr + size) pageSize := by
  have hd := alignDown_le addr pageSize
  have hu := le_alignUp (addr + size) pageSize_pos
  have hmul : hullPages addr size * pageSize =
      alignUp (addr + size) pageSize - alignDown addr pageSize :=
    Nat.div_mul_cancel (Nat.dvd_sub (dvd_alignUp _ _) (dvd_alignDown _ _))
  omega

/-- The pages that a range inside the tree touches are a range of the tree. -/
theorem WellFormed.isRange_hull (hwf : m.WellFormed) (hst : m.startAddress ≤ addr)
    (hsize : 0 < size) (hnd : addr + size ≤ m.endAddress) :
    m.IsRange (alignDown addr pageSize) (hullPages addr size) := by
  have hd := alignDown_le addr pageSize
  have hu := le_alignUp (addr + size) pageSize_pos
  have hsum := alignDown_add_hullPages addr size
  refine ⟨dvd_alignDown _ _, Nat.pos_of_ne_zero fun h0 => ?_, ?_, ?_⟩
  · rw [h0] at hsum
    omega
  · refine (le_alignDown_iff pageSize_pos ?_).mpr hst
    obtain ⟨node, hnode, heq⟩ := hwf.tiles.isStart_first (by omega)
    exact heq ▸ hwf.aligned node hnode
  · rw [hsum]
    obtain ⟨node, hnode, hlo, hhi⟩ := hwf.tiles.exists_block (x := addr + size - 1)
      (by omega) (by omega)
    have hle := (hwf.tiles.bounds hnode).2.2
    simp only [blockShape_hi] at hhi hle
    exact Nat.le_trans ((alignUp_le_iff pageSize_pos (hwf.dvd_end hnode)).mpr (by omega)) hle

/-- An update that returns moves blocks between the tree, the allocator and the
slab; destroying the allocator leaves them in the tree and the slab. -/
theorem RangeOutcome.perm {a e : ℕ} {alloc alloc' : KMemoryBlockManagerUpdateAllocator}
    {ps : List ℕ} {skip : KMemoryBlock → Bool}
    {apply : KMemoryBlock → Bool → Bool → Run KMemoryBlock} {m' : KMemoryBlockManager}
    (h : RangeOutcome m a e alloc ps skip apply (.ok (m', alloc'))) :
    (pointers m'.memoryBlockTree ++ alloc'.destroy.pointers).Perm
      (pointers m.memoryBlockTree ++ (ps ++ alloc.slabManager.pointers)) := by
  cases h with
  | done _ _ _ _ _ _ hps' hcount =>
    rw [List.perm_iff_count]
    intro x
    have hx := hcount x
    rw [List.count_append, List.count_append, ← hx,
      count_destroy, hps'.2]
    simp

section

variable (hwf : m.WellFormed) (hsize : 0 < size) {test : MemoryStateTest}
include hwf hsize

theorem checkMemoryStateContiguous_ok
    (h : m.checkMemoryStateContiguous addr size test = .ok (.ok n)) : m.Counted addr size n := by
  obtain ⟨res, hrange, h⟩ := bind_eq_ok.mp h
  cases res with
  | error r => cases h
  | ok out =>
    cases h
    exact checkRange_ok hwf hsize hrange

theorem checkMemoryState_ok {ignoreAttr : BitVec 32}
    {out : MemoryStateOut} (h : m.checkMemoryState addr size test ignoreAttr = .ok (.ok out)) :
    m.Counted addr size out.numBlocks := by
  obtain ⟨res, hrange, h⟩ := bind_eq_ok.mp h
  cases res with
  | error r => cases h
  | ok out' =>
    cases h
    exact checkRange_ok hwf hsize hrange

end

/-- An update allocator created with the count of a successful check is enough
for an update of the checked pages, and no block is lost. -/
theorem checked_allocator_suffices (hwf : m.WellFormed) (hsize : 0 < size) (test : MemoryStateTest)
    (ignoreAttr : BitVec 32) (hcheck : m.checkMemoryStateContiguous addr size test = .ok (.ok n) ∨
      ∃ out, m.checkMemoryState addr size test ignoreAttr = .ok (.ok out) ∧ out.numBlocks = n)
    (sm : KMemoryBlockSlabManager) :
    n ≤ maxBlocks ∧
      (∀ r alloc, create sm n = (.error r, alloc) →
        alloc.destroy.pointers.Perm sm.pointers) ∧
      ∀ alloc, create sm n = (.ok (), alloc) →
        ∀ result, ((∃ state perm attr setAttr clearAttr,
            result = m.update alloc (alignDown addr pageSize) (hullPages addr size) state perm attr
              setAttr clearAttr) ∨
          ∃ lockFunc perm, result = m.updateLock alloc (alignDown addr pageSize)
            (hullPages addr size) lockFunc perm) →
        result ≠ .error .updateAllocatorExhausted ∧ ∀ m' alloc', result = .ok (m', alloc') →
            (pointers m'.memoryBlockTree ++ alloc'.destroy.pointers).Perm
                (pointers m.memoryBlockTree ++ sm.pointers) ∧
              ((pointers m.memoryBlockTree ++ sm.pointers).Nodup →
                (pointers m'.memoryBlockTree ++ alloc'.destroy.pointers).Nodup) := by
  obtain ⟨hst, hnd, hn⟩ : m.Counted addr size n := by
    rcases hcheck with h | ⟨out, h, rfl⟩
    · exact checkMemoryStateContiguous_ok hwf hsize h
    · exact checkMemoryState_ok hwf hsize h
  have hle : n ≤ maxBlocks := by
    rw [hn, blocksNeeded, maxBlocks]
    split <;> split <;> omega
  have hrange := hwf.isRange_hull hst hsize hnd
  rcases create_spec sm hle with
    ⟨a, ps, hcreate, hlen, hps, hcount⟩ | ⟨r, a, hcreate, hcount⟩
  · refine ⟨hle, fun r alloc h => ?_, fun alloc h result hresult => ?_⟩
    · rw [hcreate] at h
      cases h
    · rw [hcreate] at h
      cases h
      have hneed : m.blocksNeeded (alignDown addr pageSize)
          (alignDown addr pageSize + hullPages addr size * pageSize) ≤ ps.length := by
        rw [alignDown_add_hullPages, hlen, hn]
      have hslab : (ps ++ a.slabManager.pointers).Perm sm.pointers := List.perm_iff_count.mpr hcount
      obtain ⟨skip, apply, houtcome, happly⟩ : ∃ skip apply, RangeOutcome m
          (alignDown addr pageSize) (alignDown addr pageSize + hullPages addr size * pageSize) a ps
          skip apply result ∧ ∀ b l r, apply b l r ≠ .error .updateAllocatorExhausted := by
        rcases hresult with ⟨state, perm, attr, setAttr, clearAttr, rfl⟩ | ⟨lockFunc, perm, rfl⟩
        · exact ⟨_, _, updateRange_outcome hwf hrange hps hneed (respects_update _ _ _ _ _),
            fun _ _ _ h => by cases h⟩
        · refine ⟨_, _, updateRange_outcome hwf hrange hps hneed (respects_lock lockFunc perm),
            fun b l r h => ?_⟩
          have hchecked := @MemoryBlockLockFunction.call_checked lockFunc b perm l r
          rw [h] at hchecked
          cases hchecked
      constructor
      · intro hexhausted
        cases houtcome with
        | failed _ _ _ _ hfail =>
          cases hexhausted
          exact happly _ _ _ hfail
        | nullIterator _ => cases hexhausted
        | done _ _ _ _ _ _ _ _ => cases hexhausted
      · rintro m' alloc' rfl
        have hperm := houtcome.perm.trans (hslab.append_left _)
        exact ⟨hperm, hperm.nodup_iff.mpr⟩
  · refine ⟨hle, fun r' alloc h => ?_, fun alloc h => ?_⟩
    · rw [hcreate] at h
      cases h
      exact List.perm_iff_count.mpr hcount
    · rw [hcreate] at h
      cases h

/-- A check of part of a page counts both ends of the page. -/
theorem update_of_checked_page :
    fourFreePages.checkMemoryStateContiguous 0x2800 0x100 ⟨0, 0, 0, 0, 0, 0⟩ = .ok (.ok 2) ∧
      fourFreePages.update twoBlockAllocator (alignDown 0x2800 pageSize) (hullPages 0x2800 0x100)
        0x37ebd05 KMemoryPermission.userReadWrite KMemoryAttribute.none .none .none ≠
        .error .updateAllocatorExhausted := by
  have hcheck : fourFreePages.checkMemoryStateContiguous 0x2800 0x100 ⟨0, 0, 0, 0, 0, 0⟩ =
      .ok (.ok 2) := by rfl
  exact ⟨hcheck, ((checked_allocator_suffices fourFreePages_wellFormed (by decide)
    ⟨0, 0, 0, 0, 0, 0⟩ 0 (.inl hcheck) ⟨[2, 3], []⟩).2.2 twoBlockAllocator rfl _
    (.inl ⟨_, _, _, _, _, rfl⟩)).1⟩

end KMemoryBlockManager

end Atmosphere.Kern
