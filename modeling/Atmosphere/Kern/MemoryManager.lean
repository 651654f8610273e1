import Atmosphere.Kern.PageGroup
import Atmosphere.Kern.PageHeap

/-!
# The physical memory manager

`KMemoryManager` has one `Impl` for every region of user memory: a page heap, a
reference count for every page and the bitmap of pages that were given to the
optimized process of the pool. An allocation takes blocks from the heaps of a pool
and opens the first reference to their pages; the last `Close` gives a page back.

A physical page is reached through the linear mapping. The model records the
pages that are set to the fill pattern, and not what the pages hold.
-/

namespace Atmosphere.Kern

open Function (update)

namespace KPageHeap

/-- The first index from `i` on whose blocks have at least `targetPages` pages. -/
def alignedBlockIndexFrom (targetPages : ℕ) : ℕ → List ℕ → Option ℕ
  | _, [] => none
  | i, shift :: rest =>
    if targetPages ≤ 1 <<< shift / pageSize then some i
    else alignedBlockIndexFrom targetPages (i + 1) rest

def getAlignedBlockIndex (numPages alignPages : ℕ) : Option ℕ :=
  alignedBlockIndexFrom (max numPages alignPages) 0 memoryBlockPageShifts

def getBlockNumPages (index : ℕ) : ℕ := getBlockSize index / pageSize

/-- The last index below `n` whose blocks have at most `numPages` pages. -/
def blockIndexBelow (numPages : ℕ) : ℕ → Option ℕ
  | 0 => none
  | i + 1 => if getBlockNumPages i ≤ numPages then some i else blockIndexBelow numPages i

def getBlockIndex (numPages : ℕ) : Option ℕ := blockIndexBelow numPages numMemoryBlockPageShifts

def getEndAddress (h : KPageHeap) : ℕ := h.heapAddress + h.heapSize
def getPageOffset (h : KPageHeap) (block : ℕ) : ℕ := (block - h.heapAddress) / pageSize
def getPageOffsetToEnd (h : KPageHeap) (block : ℕ) : ℕ := (h.getEndAddress - block) / pageSize

end KPageHeap

inductive Pool
  | application
  | applet
  | system
  | systemNonSecure
  deriving DecidableEq, Repr

inductive Direction
  | fromFront
  | fromBack
  deriving DecidableEq, Repr

/-- `KMemoryManager::Impl`. The two arrays of the management region are functions of
the index. -/
structure Impl where
  heap : KPageHeap
  pageReferenceCounts : ℕ → BitVec 16
  optimizeMap : ℕ → BitVec 64
  pool : Pool

namespace Impl

/-- `Initialize`; the management region was cleared. -/
def initializeImpl (rngs : ℕ → RandomBitGenerator) (address size : ℕ) (pool : Pool) : Impl where
  heap := KPageHeap.initializeHeap rngs address size
  pageReferenceCounts _ := 0
  optimizeMap _ := 0
  pool := pool

def free (m : Impl) (addr numPages : ℕ) : Impl := { m with heap := m.heap.free addr numPages }

/-- The loop of `OpenFirst` and `Open`, with what the new count must be. -/
def openLoop (valid : BitVec 16 → Bool) : ℕ → ℕ → (ℕ → BitVec 16) → Run (ℕ → BitVec 16)
  | 0, _, counts => .ok counts
  | n + 1, index, counts =>
    let refCount := counts index + 1
    if valid refCount then openLoop valid n (index + 1) (update counts index refCount)
    else .error .badReferenceCount

def openWith (valid : BitVec 16 → Bool) (m : Impl) (address numPages : ℕ) : Run Impl := do
  let counts ← openLoop valid numPages (m.heap.getPageOffset address) m.pageReferenceCounts
  return { m with pageReferenceCounts := counts }

def openFirst (m : Impl) (address numPages : ℕ) : Run Impl :=
  openWith (fun refCount => refCount == 1) m address numPages

def openPages (m : Impl) (address numPages : ℕ) : Run Impl :=
  openWith (fun refCount => decide (refCount.toNat > 1)) m address numPages

/-- Writes one reference count. -/
def setReferenceCount (m : Impl) (index : ℕ) (refCount : BitVec 16) : Impl :=
  { m with pageReferenceCounts := update m.pageReferenceCounts index refCount }

/-- The loop of `Close`: the pages of the current row of zero counts are freed when the
row ends. -/
def closeLoop : ℕ → ℕ → ℕ → ℕ → Impl → Run Impl
  | 0, _, freeStart, freeCount, m =>
    .ok (if freeCount > 0 then m.free (m.heap.heapAddress + freeStart * pageSize) freeCount else m)
  | n + 1, index, freeStart, freeCount, m =>
    if m.pageReferenceCounts index = 0 then .error .badReferenceCount
    else
      let refCount := m.pageReferenceCounts index - 1
      let m := m.setReferenceCount index refCount
      if refCount = 0 then
        if freeCount > 0 then closeLoop n (index + 1) freeStart (freeCount + 1) m
        else closeLoop n (index + 1) index 1 m
      else if freeCount > 0 then
        closeLoop n (index + 1) freeStart 0
          (m.free (m.heap.heapAddress + freeStart * pageSize) freeCount)
      else closeLoop n (index + 1) freeStart freeCount m

def closePages (m : Impl) (address numPages : ℕ) : Run Impl :=
  closeLoop numPages (m.heap.getPageOffset address) 0 0 m

/-- The loop of the two `Track` functions over the words of the bitmap. -/
def trackLoop (mark : BitVec 64 → BitVec 64 → BitVec 64) : ℕ → ℕ → (ℕ → BitVec 64) → ℕ → BitVec 64
  | 0, _, optimizeMap => optimizeMap
  | n + 1, offset, optimizeMap =>
    trackLoop mark n (offset + 1) (update optimizeMap (offset / 64)
      (mark (optimizeMap (offset / 64)) (1#64 <<< (offset % 64))))

def track (mark : BitVec 64 → BitVec 64 → BitVec 64) (m : Impl) (block numPages : ℕ) : Impl :=
  { m with optimizeMap := trackLoop mark numPages (m.heap.getPageOffset block) m.optimizeMap }

variable (m : Impl)

def trackUnoptimizedAllocation (block numPages : ℕ) : Impl :=
  track (fun word bit => word &&& ~~~bit) m block numPages

def trackOptimizedAllocation (block numPages : ℕ) : Impl :=
  track (fun word bit => word ||| bit) m block numPages

/-- The loop of `ProcessOptimizedAllocation`: whether any page was new, and the
addresses of the pages that were filled. -/
def processLoop (m : Impl) : ℕ → ℕ → Bool × List ℕ
  | 0, _ => (false, [])
  | n + 1, offset =>
    let (anyNew, filled) := processLoop m n (offset + 1)
    if m.optimizeMap (offset / 64) &&& (1#64 <<< (offset % 64)) = 0 then
      (true, (m.heap.heapAddress + offset * pageSize) :: filled)
    else (anyNew, filled)

def processOptimizedAllocation (block numPages : ℕ) : Bool × List ℕ :=
  processLoop m numPages (m.heap.getPageOffset block)

/-- `InitializeOptimizedMemory`; the bitmap has one bit for every page. -/
def initializeOptimizedMemory : Impl := { m with optimizeMap := fun _ => 0 }

end Impl

/-- `KMemoryManager`. `Initialize` links the managers of a pool in the order of the
array, so that the lists of a pool are the indices of its managers. -/
structure KMemoryManager where
  managers : List Impl
  optimizedProcessIds : Pool → ℕ
  hasOptimizedProcess : Pool → Bool

namespace KMemoryManager

variable (managers : List Impl)

/-- `GetManager`: the memory layout has the index of the manager as the attribute of
the region that has the address. -/
def getManager (address : ℕ) : Option ℕ :=
  managers.findIdx? fun m =>
    decide (m.heap.heapAddress ≤ address ∧ address < m.heap.getEndAddress)

/-- The managers that `GetFirstManager` and `GetNextManager` visit. -/
def poolManagers (pool : Pool) (dir : Direction) : List ℕ :=
  let indices := (List.range managers.length).filter fun i =>
    (managers[i]?.map Impl.pool) = some pool
  match dir with
  | .fromFront => indices
  | .fromBack => indices.reverse

/-- `GetFreeSize` of a pool. -/
def getFreeSize (pool : Pool) : ℕ :=
  ((managers.filter fun m => m.pool = pool).map fun m => m.heap.getNumFreePages * pageSize).sum

/-- The loop over a range of pages that takes the part in each manager in turn. -/
def forParts {σ : Type} (body : σ → Impl → ℕ → ℕ → Run (σ × Impl)) :
    ℕ → ℕ → ℕ → σ → List Impl → Run (σ × List Impl)
  | _, _, 0, s, managers => .ok (s, managers)
  | 0, _, _ + 1, _, _ => .error .stuck
  | fuel + 1, address, numPages@(_ + 1), s, managers =>
    match getManager managers address with
    | none => .error .nullDereference
    | some i =>
      match managers[i]? with
      | none => .error .outOfBounds
      | some m => do
        let curPages := min numPages (m.heap.getPageOffsetToEnd address)
        let (s, m) ← body s m address curPages
        forParts body fuel (address + curPages * pageSize) (numPages - curPages) s
          (managers.set i m)

/-- The loop for a body without a result of its own. -/
def mapParts (body : Impl → ℕ → ℕ → Run Impl) (managers : List Impl) (address numPages : ℕ) :
    Run (List Impl) := do
  let (_, managers) ← forParts (fun _ m address numPages => do
    let m ← body m address numPages
    return ((), m)) numPages address numPages () managers
  return managers

def openPages (managers : List Impl) (address numPages : ℕ) : Run (List Impl) :=
  mapParts Impl.openPages managers address numPages

def closePages (managers : List Impl) (address numPages : ℕ) : Run (List Impl) :=
  mapParts Impl.closePages managers address numPages

/-- Opens the first reference to all pages of a group. -/
def openFirstGroup : KPageGroup → List Impl → Run (List Impl)
  | [], managers => .ok managers
  | block :: rest, managers => do
    let managers ← mapParts Impl.openFirst managers block.getAddress block.getNumPages
    openFirstGroup rest managers

/-! ## Allocation -/

/-- The search of `AllocateAndOpenContinuous` through the managers of the pool: the
manager, the block, and the managers after the calls. -/
def allocateFirst (index : ℕ) : List ℕ → List Impl → Option (ℕ × ℕ) × List Impl
  | [], managers => (none, managers)
  | i :: rest, managers =>
    match managers[i]? with
    | none => (none, managers)
    | some m =>
      let (block, heap) := m.heap.allocateBlock index true
      let managers := managers.set i { m with heap := heap }
      if block ≠ 0 then (some (i, block), managers) else allocateFirst index rest managers

/-- `AllocateAndOpenContinuous`; null where no block could be allocated. For a size that no
block has, the heap of the first manager is indexed with `-1`. -/
def allocateAndOpenContinuous (m : KMemoryManager) (numPages alignPages : ℕ) (pool : Pool)
    (dir : Direction) : Run (ℕ × KMemoryManager) :=
  if numPages = 0 then .ok (0, m)
  else
    match KPageHeap.getAlignedBlockIndex numPages alignPages with
    | none => if poolManagers m.managers pool dir = [] then .ok (0, m) else .error .outOfBounds
    | some heapIndex =>
      match allocateFirst heapIndex (poolManagers m.managers pool dir) m.managers with
      | (none, managers) => .ok (0, { m with managers := managers })
      | (some (i, block), managers) =>
        match managers[i]? with
        | none => .error .outOfBounds
        | some chosen => do
          let allocatedPages := KPageHeap.getBlockNumPages heapIndex
          let chosen := if allocatedPages > numPages then
            chosen.free (block + numPages * pageSize) (allocatedPages - numPages) else chosen
          let chosen := if m.hasOptimizedProcess pool then
            chosen.trackUnoptimizedAllocation block numPages else chosen
          let chosen ← chosen.openFirst block numPages
          return (block, { m with managers := managers.set i chosen })

/-- The variables of `AllocatePageGroupImpl`. -/
structure GroupState where
  managers : List Impl
  group : KPageGroup
  numPages : ℕ

/-- What one call of `AllocatePageGroupImpl` is made with. -/
structure GroupOptions where
  infos : KBlockInfoManager
  unoptimized : Bool
  random : Bool

/-- The innermost loop: blocks of one index from one manager. -/
def allocateBlocks (o : GroupOptions) (index i : ℕ) :
    ℕ → GroupState → Except SvcResult Unit × GroupState
  | 0, s => (.ok (), s)
  | fuel + 1, s =>
    let pagesPerAlloc := KPageHeap.getBlockNumPages index
    if pagesPerAlloc ≤ s.numPages then
      match s.managers[i]? with
      | none => (.ok (), s)
      | some m =>
        let (block, heap) := m.heap.allocateBlock index o.random
        let m := { m with heap := heap }
        if block = 0 then (.ok (), { s with managers := s.managers.set i m })
        else
          match s.group.addBlock o.infos block pagesPerAlloc with
          | .error e =>
            (.error e, { s with managers := s.managers.set i (m.free block pagesPerAlloc) })
          | .ok group =>
            let m := if o.unoptimized then m.trackUnoptimizedAllocation block pagesPerAlloc else m
            allocateBlocks o index i fuel
              { managers := s.managers.set i m
                group := group
                numPages := s.numPages - pagesPerAlloc }
    else (.ok (), s)

/-- The loop over the managers of the pool. -/
def allocateLevel (o : GroupOptions) (index : ℕ) :
    List ℕ → GroupState → Except SvcResult Unit × GroupState
  | [], s => (.ok (), s)
  | i :: rest, s =>
    match allocateBlocks o index i s.numPages s with
    | (.error e, s) => (.error e, s)
    | (.ok (), s) => allocateLevel o index rest s

/-- The loop over the indices below `n`, from the largest down. -/
def allocateLevels (o : GroupOptions) (indices : List ℕ) :
    ℕ → GroupState → Except SvcResult Unit × GroupState
  | 0, s => (.ok (), s)
  | index + 1, s =>
    if s.numPages > 0 then
      match allocateLevel o index indices s with
      | (.error e, s) => (.error e, s)
      | (.ok (), s) => allocateLevels o indices index s
    else (.ok (), s)

/-- The pages of a failed allocation go back to their heaps. -/
def freeGroup : KPageGroup → List Impl → Run (List Impl)
  | [], managers => .ok managers
  | it :: rest, managers =>
    match getManager managers it.getAddress with
    | none => .error .nullDereference
    | some i =>
      match managers[i]? with
      | none => .error .outOfBounds
      | some m =>
        let numPages := min it.getNumPages ((m.heap.getEndAddress - it.getAddress) / pageSize)
        freeGroup rest (managers.set i (m.free it.getAddress numPages))

/-- The result of the loops: an allocation succeeds only with all its pages. -/
def groupResult (result : Except SvcResult Unit) (s : GroupState) : Except SvcResult KPageGroup :=
  match result with
  | .error e => .error e
  | .ok () => if s.numPages = 0 then .ok s.group else .error .outOfMemory

/-- The end of `AllocatePageGroupImpl`, with what is done on failure. -/
def finishGroup (result : Except SvcResult Unit) (s : GroupState) :
    Run (Except SvcResult KPageGroup × List Impl) :=
  match groupResult result s with
  | .ok group => .ok (.ok group, s.managers)
  | .error e => do
    let managers ← freeGroup s.group s.managers
    return (.error e, managers)

/-- `AllocatePageGroupImpl` for an empty group. -/
def allocatePageGroupImpl (managers : List Impl) (o : GroupOptions) (numPages : ℕ) (pool : Pool)
    (dir : Direction) : Run (Except SvcResult KPageGroup × List Impl) :=
  match KPageHeap.getBlockIndex numPages with
  | none => .ok (.error .outOfMemory, managers)
  | some heapIndex =>
    let (result, s) := allocateLevels o (poolManagers managers pool dir) (heapIndex + 1)
      { managers := managers, group := [], numPages := numPages }
    finishGroup result s

/-- `AllocateAndOpen`. -/
def allocateAndOpen (m : KMemoryManager) (infos : KBlockInfoManager) (numPages : ℕ) (pool : Pool)
    (dir : Direction) : Run (Except SvcResult KPageGroup × KMemoryManager) :=
  if numPages = 0 then .ok (.ok [], m)
  else do
    let (result, managers) ← allocatePageGroupImpl m.managers
      { infos := infos, unoptimized := m.hasOptimizedProcess pool, random := true } numPages pool
      dir
    match result with
    | .error e => return (.error e, { m with managers := managers })
    | .ok group =>
      let managers ← openFirstGroup group managers
      return (.ok group, { m with managers := managers })

/-! ## Allocation for a process -/

/-- The part of `AllocateAndOpenForProcess` under the lock of the pool: the group and
whether it is for the optimized process. -/
def allocateForProcess (m : KMemoryManager) (infos : KBlockInfoManager) (numPages : ℕ)
    (pool : Pool) (dir : Direction) (processId : ℕ) :
    Run (Except SvcResult (KPageGroup × Bool) × KMemoryManager) := do
  let hasOptimized := m.hasOptimizedProcess pool
  let isOptimized := m.optimizedProcessIds pool == processId
  let (result, managers) ← allocatePageGroupImpl m.managers
    { infos := infos, unoptimized := hasOptimized && !isOptimized, random := false } numPages pool
    dir
  match result with
  | .error e => return (.error e, { m with managers := managers })
  | .ok group =>
    let managers ← openFirstGroup group managers
    return (.ok (group, hasOptimized && isOptimized), { m with managers := managers })

/-- The loop over the parts of a block that fills the new pages. As in the source,
`any_new` is that of the last part. -/
def processBlock (block : KBlockInfo) (managers : List Impl) : Run ((Bool × List ℕ) × List Impl) :=
  forParts (fun (_, filled) m address numPages =>
      let (anyNew, newlyFilled) := m.processOptimizedAllocation address numPages
      .ok ((anyNew, filled ++ newlyFilled), m))
    block.getNumPages block.getAddress block.getNumPages (false, []) managers

/-- The tracking of a block that had new pages. -/
def trackBlock (anyNew : Bool) (block : KBlockInfo) (managers : List Impl) : Run (List Impl) :=
  if anyNew then
    mapParts (fun m address numPages => .ok (m.trackOptimizedAllocation address numPages)) managers
      block.getAddress block.getNumPages
  else .ok managers

/-- The optimized tracking of the blocks of a group, with the pages that are filled. -/
def processGroup : KPageGroup → List Impl → Run (List ℕ × List Impl)
  | [], managers => .ok ([], managers)
  | block :: rest, managers =>
    if block.getNumPages = 0 then processGroup rest managers
    else do
      let ((anyNew, filled), managers) ← processBlock block managers
      let managers ← trackBlock anyNew block managers
      let (filledRest, managers) ← processGroup rest managers
      return (filled ++ filledRest, managers)

/-- The addresses of the pages of a block. -/
def blockAddresses (block : KBlockInfo) : List ℕ :=
  (List.range block.getNumPages).map fun i => block.getAddress + i * pageSize

variable (m : KMemoryManager)

/-- The part of `AllocateAndOpenForProcess` after the lock is released: the pages that are
set to the fill pattern. -/
def fillGroup (group : KPageGroup) (optimized : Bool) : Run (List ℕ × KMemoryManager) :=
  if optimized then do
    let (filled, managers) ← processGroup group m.managers
    return (filled, { m with managers := managers })
  else .ok (group.flatMap blockAddresses, m)

/-- `AllocateAndOpenForProcess`: the group and the pages that were filled. -/
def allocateAndOpenForProcess (infos : KBlockInfoManager) (numPages : ℕ) (pool : Pool)
    (dir : Direction) (processId : ℕ) :
    Run (Except SvcResult (KPageGroup × List ℕ) × KMemoryManager) := do
  let (result, m) ← m.allocateForProcess infos numPages pool dir processId
  match result with
  | .error e => return (.error e, m)
  | .ok (group, optimized) =>
    let (filled, m) ← m.fillGroup group optimized
    return (.ok (group, filled), m)

/-! ## The optimized process of a pool -/

def initializeOptimizedMemory (processId : ℕ) (pool : Pool) :
    Except SvcResult Unit × KMemoryManager :=
  if m.hasOptimizedProcess pool then (.error .busy, m)
  else
    (.ok (), { managers := m.managers.map fun impl =>
                 if impl.pool = pool then impl.initializeOptimizedMemory else impl
               optimizedProcessIds := update m.optimizedProcessIds pool processId
               hasOptimizedProcess := update m.hasOptimizedProcess pool true })

def finalizeOptimizedMemory (processId : ℕ) (pool : Pool) : KMemoryManager :=
  if m.hasOptimizedProcess pool && m.optimizedProcessIds pool == processId then
    { m with hasOptimizedProcess := update m.hasOptimizedProcess pool false }
  else m

end KMemoryManager

end Atmosphere.Kern
