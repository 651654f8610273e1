import Atmosphere.Kern.MemoryBlockLock

/-!
# The memory block manager

The manager keeps the blocks of an address space in an ordered tree; the model
keeps them in a list in tree order, and an iterator is a split of that list.
Every node has a pointer, so that the slab, the update allocator and the tree
can be seen to share out one set of blocks.

`Update`, `UpdateIfMatch` and `UpdateLock` run the same loop. They differ in
which blocks they leave alone and in what they do to the others, and these are
the parameters of `updateLoop`. A block that crosses an end of the range is
split there with a block from the allocator. Afterwards `CoalesceForUpdate`
joins what can be joined, from the block before the range to the one behind it.
-/

namespace Atmosphere.Kern

/-! ## The slab and the update allocator -/

/-- `KMemoryBlockSlabManager`: the free list of the slab heap and the pages its
page allocator can still give, each as its first object and the others. -/
structure KMemoryBlockSlabManager where
  freeList : List ℕ
  pages : List (ℕ × List ℕ)
  deriving DecidableEq, Repr

namespace KMemoryBlockSlabManager

variable (sm : KMemoryBlockSlabManager)

def allocate : Option ℕ × KMemoryBlockSlabManager :=
  match sm.freeList, sm.pages with
  | p :: rest, _ => (some p, { sm with freeList := rest })
  -- the other objects of a new page are pushed onto the free list one by one
  | [], (p, others) :: pages => (some p, { freeList := others.reverse, pages := pages })
  | [], [] => (none, sm)

def free (p : ℕ) : KMemoryBlockSlabManager :=
  { sm with freeList := p :: sm.freeList }

/-- The blocks that the slab still has. -/
def pointers : List ℕ :=
  sm.freeList ++ sm.pages.flatMap fun page => page.1 :: page.2

end KMemoryBlockSlabManager

/-- `KMemoryBlockManagerUpdateAllocator`: a two-entry stash of blocks. -/
structure KMemoryBlockManagerUpdateAllocator where
  blocks : List (Option ℕ)
  index : ℕ
  slabManager : KMemoryBlockSlabManager
  deriving DecidableEq, Repr

namespace KMemoryBlockManagerUpdateAllocator

def maxBlocks : ℕ := 2

/-- The loop of the allocator's `Initialize`, over the values of `i` still to come. -/
def initializeLoop (a : KMemoryBlockManagerUpdateAllocator) :
    List ℕ → Except SvcResult Unit × KMemoryBlockManagerUpdateAllocator
  | [] => (.ok (), a)
  | i :: rest =>
    let (block, sm) := a.slabManager.allocate
    let a := { a with blocks := a.blocks.set (a.index + i) block, slabManager := sm }
    if block = none then (.error .outOfResource, a) else a.initializeLoop rest

/-- The constructor, with the result it writes. -/
def create (sm : KMemoryBlockSlabManager) (numBlocks : ℕ) :
    Except SvcResult Unit × KMemoryBlockManagerUpdateAllocator :=
  initializeLoop
    { blocks := List.replicate maxBlocks none, index := maxBlocks - numBlocks, slabManager := sm }
    (List.range (min numBlocks maxBlocks))

variable (a : KMemoryBlockManagerUpdateAllocator)

/-- The destructor: the slab it leaves. -/
def destroy : KMemoryBlockSlabManager :=
  a.blocks.foldl (fun sm block => block.elim sm sm.free) a.slabManager

def allocate : Run (ℕ × KMemoryBlockManagerUpdateAllocator) :=
  if a.index < maxBlocks then
    match a.blocks[a.index]? with
    | some (some block) =>
      .ok (block, { a with blocks := a.blocks.set a.index none, index := a.index + 1 })
    | _ => .error .updateAllocatorExhausted
  else .error .updateAllocatorExhausted

def free (block : ℕ) :
    KMemoryBlockManagerUpdateAllocator :=
  if a.index = 0 then { a with slabManager := a.slabManager.free block }
  else { a with blocks := a.blocks.set (a.index - 1) (some block), index := a.index - 1 }

end KMemoryBlockManagerUpdateAllocator

/-! ## The manager -/

/-- A block in the tree, with the pointer by which the slab knows it. -/
structure KMemoryBlockNode where
  pointer : ℕ
  block : KMemoryBlock
  deriving DecidableEq, Repr

/-- `KMemoryBlockManager`. -/
structure KMemoryBlockManager where
  memoryBlockTree : List KMemoryBlockNode
  startAddress : ℕ
  endAddress : ℕ
  deriving DecidableEq, Repr

namespace KMemoryBlockManager

/-- `Initialize` of a manager; `stale` is what the slab's storage holds. -/
def initializeManager (st nd : ℕ) (slab : KMemoryBlockSlabManager) (stale : ℕ → KMemoryBlock) :
    Except SvcResult (KMemoryBlockManager × KMemoryBlockSlabManager) :=
  match slab.allocate with
  | (none, _) => .error .outOfResource
  | (some p, slab) =>
    .ok ({ memoryBlockTree :=
            [⟨p, (stale p).initializeBlock st ((nd - st) / pageSize) KMemoryState.free
              KMemoryPermission.none KMemoryAttribute.none⟩]
           startAddress := st
           endAddress := nd }, slab)

/-- `FindIterator`: the nodes in front of the iterator, and those from it on. -/
def findIterator (tree : List KMemoryBlockNode) (address : ℕ) :
    List KMemoryBlockNode × List KMemoryBlockNode :=
  (tree.takeWhile fun node => KMemoryBlock.compare address node.block != .eq,
    tree.dropWhile fun node => KMemoryBlock.compare address node.block != .eq)

/-- Create a new block before the range and insert it, if the block at the
iterator does not start at `curAddress`. -/
def splitBefore (node : KMemoryBlockNode) (curAddress : ℕ)
    (allocator : KMemoryBlockManagerUpdateAllocator) :
    Run (List KMemoryBlockNode × KMemoryBlockNode × KMemoryBlockManagerUpdateAllocator) :=
  if node.block.address ≠ curAddress then do
    let (p, allocator) ← allocator.allocate
    let (newBlock, block) := node.block.split curAddress
    .ok ([⟨p, newBlock⟩], ⟨node.pointer, block⟩, allocator)
  else .ok ([], node, allocator)

/-- Split off what lies behind the range, if the block at the iterator is larger
than what remains. The new block is the one that is updated. -/
def splitAfter (node : KMemoryBlockNode) (curAddress remainingSize : ℕ)
    (allocator : KMemoryBlockManagerUpdateAllocator) :
    Run (KMemoryBlockNode × List KMemoryBlockNode × KMemoryBlockManagerUpdateAllocator) :=
  if remainingSize < node.block.getSize then do
    let (p, allocator) ← allocator.allocate
    let (newBlock, block) := node.block.split (curAddress + remainingSize)
    .ok (⟨p, newBlock⟩, [⟨node.pointer, block⟩], allocator)
  else .ok (node, [], allocator)

/-- The loop over the range. The list holds the nodes from the iterator on. Once
a block has been split behind the range nothing remains, so that the loop ends
before it would look at the part split off. -/
def updateLoop (skip : KMemoryBlock → Bool)
    (apply : KMemoryBlock → Bool → Bool → Run KMemoryBlock) (address endAddress : ℕ) :
    List KMemoryBlockNode → ℕ → ℕ → KMemoryBlockManagerUpdateAllocator →
      Run (List KMemoryBlockNode × KMemoryBlockManagerUpdateAllocator)
  | [], _, remainingPages, allocator =>
    if remainingPages = 0 then .ok ([], allocator) else .error .nullDereference
  | node :: rest, curAddress, remainingPages, allocator =>
    if remainingPages = 0 then .ok (node :: rest, allocator)
    else
      let remainingSize := remainingPages * pageSize
      let blockEnd := node.block.getEndAddress
      if skip node.block then do
        let (rest, allocator) ←
          if curAddress + remainingSize < blockEnd then
            updateLoop skip apply address endAddress rest (curAddress + remainingSize) 0 allocator
          else
            updateLoop skip apply address endAddress rest blockEnd
              ((curAddress + remainingSize - blockEnd) / pageSize) allocator
        .ok (node :: rest, allocator)
      else do
        let (before, node, allocator) ← splitBefore node curAddress allocator
        let curAddress := node.block.address
        let (node, after, allocator) ← splitAfter node curAddress remainingSize allocator
        let block ← apply node.block (node.block.address == address)
          (node.block.getEndAddress == endAddress)
        let (rest, allocator) ← updateLoop skip apply address endAddress rest
          (curAddress + node.block.getSize) (remainingPages - node.block.numPages) allocator
        .ok (before ++ ⟨node.pointer, block⟩ :: (after ++ rest), allocator)

/-- The loop of `CoalesceForUpdate`, with `prev` and the nodes behind it. -/
def coalesceLoop (endAddress : ℕ) :
    KMemoryBlockNode → List KMemoryBlockNode → KMemoryBlockManagerUpdateAllocator →
      List KMemoryBlockNode × KMemoryBlockManagerUpdateAllocator
  | prev, [], allocator => ([prev], allocator)
  | prev, it :: rest, allocator =>
    if prev.block.canMergeWith it.block then
      let prev : KMemoryBlockNode := ⟨prev.pointer, prev.block.add it.block⟩
      let allocator := allocator.free it.pointer
      if endAddress < prev.block.getEndAddress then (prev :: rest, allocator)
      else coalesceLoop endAddress prev rest allocator
    else if endAddress < it.block.getEndAddress then (prev :: it :: rest, allocator)
    else
      let (nodes, allocator) := coalesceLoop endAddress it rest allocator
      (prev :: nodes, allocator)

variable (m : KMemoryBlockManager) (allocator : KMemoryBlockManagerUpdateAllocator)
  (address numPages : ℕ)

/-- `CoalesceForUpdate`. Decrementing the iterator of the first node gives the
null iterator, which the loop then increments. -/
def coalesceForUpdate : Run (KMemoryBlockManager × KMemoryBlockManagerUpdateAllocator) :=
  let endAddress := address + numPages * pageSize
  let (before, it) := findIterator m.memoryBlockTree address
  match it with
  | [] => .error .nullDereference
  | node :: rest =>
    if address ≠ m.startAddress then
      match before.getLast? with
      | none => .error .nullDereference
      | some prev =>
        let (nodes, allocator) := coalesceLoop endAddress prev (node :: rest) allocator
        .ok ({ m with memoryBlockTree := before.dropLast ++ nodes }, allocator)
    else
      let (nodes, allocator) := coalesceLoop endAddress node rest allocator
      .ok ({ m with memoryBlockTree := before ++ nodes }, allocator)

/-- The loop from the block at `address` on, and then the coalescing. -/
def updateRange (skip : KMemoryBlock → Bool)
    (apply : KMemoryBlock → Bool → Bool → Run KMemoryBlock) :
    Run (KMemoryBlockManager × KMemoryBlockManagerUpdateAllocator) := do
  let (before, it) := findIterator m.memoryBlockTree address
  let (it, allocator) ← updateLoop skip apply address (address + numPages * pageSize) it address
    numPages allocator
  coalesceForUpdate { m with memoryBlockTree := before ++ it } allocator address numPages

def update (state : KMemoryState) (perm : KMemoryPermission) (attr : KMemoryAttribute)
    (setDisableAttr clearDisableAttr : KMemoryBlockDisableMergeAttribute) :
    Run (KMemoryBlockManager × KMemoryBlockManagerUpdateAllocator) :=
  m.updateRange allocator address numPages (fun b => b.hasProperties state perm attr)
    fun b left _ => .ok (b.update state perm attr left setDisableAttr clearDisableAttr)

def updateIfMatch (testState : KMemoryState) (testPerm : KMemoryPermission)
    (testAttr : KMemoryAttribute) (state : KMemoryState) (perm : KMemoryPermission)
    (attr : KMemoryAttribute) :
    Run (KMemoryBlockManager × KMemoryBlockManagerUpdateAllocator) :=
  m.updateRange allocator address numPages
    (fun b => !(b.hasProperties testState testPerm testAttr && !b.hasProperties state perm attr))
    fun b _ _ => .ok (b.update state perm attr false .none .none)

def updateLock (lockFunc : MemoryBlockLockFunction) (perm : KMemoryPermission) :
    Run (KMemoryBlockManager × KMemoryBlockManagerUpdateAllocator) :=
  m.updateRange allocator address numPages (fun _ => false)
    fun b left right => lockFunc.call b perm left right

end KMemoryBlockManager

end Atmosphere.Kern
