import Atmosphere.Kern.Basic
import Atmosphere.Kern.PageBitmap

/-!
# The page heap

`KPageHeap` keeps the free pages of a region as aligned blocks of seven sizes,
with one bitmap for each size. A freed range is cut into blocks, the largest
ones in the middle; a block that completes a block of the next size is moved up.
Addresses are natural numbers: the end of a region of memory does not wrap.
-/

namespace Atmosphere.Kern

namespace KPageHeap

def memoryBlockPageShifts : List ℕ := [0xC, 0x10, 0x15, 0x16, 0x19, 0x1D, 0x1E]

def numMemoryBlockPageShifts : ℕ := memoryBlockPageShifts.length

/-- `GetBlockSize` of an index of the table. -/
def getBlockSize (index : ℕ) : ℕ := 1 <<< memoryBlockPageShifts.getD index 0x1E

/-- `KPageHeap::Block`. -/
structure Block where
  bitmap : KPageBitmap
  heapAddress : ℕ
  endOffset : ℕ
  blockShift : ℕ
  nextBlockShift : ℕ

namespace Block

def getSize (b : Block) : ℕ := 1 <<< b.blockShift
def getNumPages (b : Block) : ℕ := b.getSize / pageSize
def getNumFreeBlocks (b : Block) : ℕ := b.bitmap.numBits
def getNumFreePages (b : Block) : ℕ := b.getNumFreeBlocks * b.getNumPages

/-- `Initialize` of a block. -/
def initializeBlock (rng : RandomBitGenerator) (addr size bs nbs : ℕ) : Block :=
  let align := if nbs ≠ 0 then 1 <<< nbs else 1 <<< bs
  let endAddr := alignUp (addr + size) align
  let addr := alignDown addr align
  let endOffset := (endAddr - addr) / (1 <<< bs)
  { bitmap := KPageBitmap.initializeBitmap rng endOffset
    heapAddress := addr
    endOffset := endOffset
    blockShift := bs
    nextBlockShift := nbs }

/-- `PushBlock`: the block of the next size that was completed, or null. -/
def pushBlock (b : Block) (address : ℕ) : ℕ × Block :=
  let offset := (address - b.heapAddress) >>> b.blockShift
  let bitmap := b.bitmap.setBit offset
  if b.nextBlockShift ≠ 0 then
    let diff := 1 <<< (b.nextBlockShift - b.blockShift)
    let offset := alignDown offset diff
    match bitmap.clearRange offset diff with
    | (true, bitmap) => (b.heapAddress + (offset <<< b.blockShift), { b with bitmap := bitmap })
    | (false, bitmap) => (0, { b with bitmap := bitmap })
  else (0, { b with bitmap := bitmap })

/-- `PopBlock`: a free block that is free no more, or null. -/
def popBlock (b : Block) (random : Bool) : ℕ × Block :=
  match b.bitmap.findFreeBlock random with
  | (none, bitmap) => (0, { b with bitmap := bitmap })
  | (some offset, bitmap) =>
    (b.heapAddress + (offset <<< b.blockShift), { b with bitmap := bitmap.clearBit offset })

end Block

end KPageHeap

/-- `KPageHeap`; the number of blocks is the length of the list. -/
structure KPageHeap where
  heapAddress : ℕ
  heapSize : ℕ
  blocks : List KPageHeap.Block

namespace KPageHeap

/-- The loop of `Initialize` over the block shifts. -/
def initializeBlocks (rngs : ℕ → RandomBitGenerator) (address size : ℕ) : ℕ → List ℕ → List Block
  | _, [] => []
  | i, [shift] => [.initializeBlock (rngs i) address size shift 0]
  | i, shift :: next :: rest =>
    .initializeBlock (rngs i) address size shift next ::
      initializeBlocks rngs address size (i + 1) (next :: rest)

/-- `Initialize`; `rngs` gives the random bits of each bitmap. -/
def initializeHeap (rngs : ℕ → RandomBitGenerator) (address size : ℕ) : KPageHeap where
  heapAddress := address
  heapSize := size
  blocks := initializeBlocks rngs address size 0 memoryBlockPageShifts

def getNumFreePages (h : KPageHeap) : ℕ := (h.blocks.map Block.getNumFreePages).sum

/-- The loop of `FreeBlock`, over the blocks from the index on. -/
def freeBlockLoop : List Block → ℕ → List Block
  | [], _ => []
  | b :: rest, block =>
    let (block, b) := b.pushBlock block
    if block ≠ 0 then b :: freeBlockLoop rest block else b :: rest

def freeBlock (blocks : List Block) (block index : ℕ) : List Block :=
  blocks.take index ++ freeBlockLoop (blocks.drop index) block

/-- The size of the blocks at an index. -/
def sizeAt (blocks : List Block) (index : ℕ) : ℕ := (blocks[index]?.map Block.getSize).getD 0

/-- The search for the largest block that fits between `start` and `end`, from
index `n - 1` down: its index and the range of such blocks. -/
def findBig (blocks : List Block) (startAddr endAddr : ℕ) : ℕ → Option (ℕ × ℕ × ℕ)
  | 0 => none
  | i + 1 =>
    let blockSize := sizeAt blocks i
    let bigStart := alignUp startAddr blockSize
    let bigEnd := alignDown endAddr blockSize
    if bigStart < bigEnd then some (i, bigStart, bigEnd) else findBig blocks startAddr endAddr i

/-- Frees the blocks from `block` up to `bigEnd`. -/
def freeBig (index blockSize bigEnd : ℕ) : ℕ → ℕ → List Block → List Block
  | 0, _, blocks => blocks
  | fuel + 1, block, blocks =>
    if block < bigEnd then
      freeBig index blockSize bigEnd fuel (block + blockSize) (freeBlock blocks block index)
    else blocks

/-- Frees blocks of one size downwards while they fit; gives the new `before_end`. -/
def freeBeforeLoop (index blockSize beforeStart : ℕ) : ℕ → ℕ → List Block → ℕ × List Block
  | 0, beforeEnd, blocks => (beforeEnd, blocks)
  | fuel + 1, beforeEnd, blocks =>
    if beforeStart + blockSize ≤ beforeEnd then
      let beforeEnd := beforeEnd - blockSize
      freeBeforeLoop index blockSize beforeStart fuel beforeEnd (freeBlock blocks beforeEnd index)
    else (beforeEnd, blocks)

/-- Frees the space before the big blocks, from index `n - 1` down. -/
def freeBefore (fuel beforeStart : ℕ) : ℕ → ℕ → List Block → List Block
  | 0, _, blocks => blocks
  | i + 1, beforeEnd, blocks =>
    let (beforeEnd, blocks) :=
      freeBeforeLoop i (sizeAt blocks i) beforeStart fuel beforeEnd blocks
    freeBefore fuel beforeStart i beforeEnd blocks

/-- Frees blocks of one size upwards while they fit; gives the new `after_start`. -/
def freeAfterLoop (index blockSize afterEnd : ℕ) : ℕ → ℕ → List Block → ℕ × List Block
  | 0, afterStart, blocks => (afterStart, blocks)
  | fuel + 1, afterStart, blocks =>
    if afterStart + blockSize ≤ afterEnd then
      freeAfterLoop index blockSize afterEnd fuel (afterStart + blockSize)
        (freeBlock blocks afterStart index)
    else (afterStart, blocks)

/-- Frees the space after the big blocks, from index `n - 1` down. -/
def freeAfter (fuel afterEnd : ℕ) : ℕ → ℕ → List Block → List Block
  | 0, _, blocks => blocks
  | i + 1, afterStart, blocks =>
    let (afterStart, blocks) := freeAfterLoop i (sizeAt blocks i) afterEnd fuel afterStart blocks
    freeAfter fuel afterEnd i afterStart blocks

/-- `Free` on the blocks. Every loop frees at least one page per iteration, so that
the number of pages bounds them. -/
def freePages (blocks : List Block) (addr numPages : ℕ) : List Block :=
  if numPages = 0 then blocks
  else
    let endAddr := addr + numPages * pageSize
    match findBig blocks addr endAddr blocks.length with
    | none => blocks
    | some (bigIndex, bigStart, bigEnd) =>
      let blocks := freeBig bigIndex (sizeAt blocks bigIndex) bigEnd numPages bigStart blocks
      let blocks := freeBefore numPages addr bigIndex bigStart blocks
      freeAfter numPages endAddr bigIndex bigEnd blocks

def free (h : KPageHeap) (addr numPages : ℕ) : KPageHeap :=
  { h with blocks := freePages h.blocks addr numPages }

/-- The loop of `AllocateBlock`, with the indices still to go. -/
def allocateBlockLoop (random : Bool) (neededSize : ℕ) : ℕ → ℕ → List Block → ℕ × List Block
  | 0, _, blocks => (0, blocks)
  | n + 1, i, blocks =>
    match blocks[i]? with
    | none => (0, blocks)
    | some b =>
      let (addr, b) := b.popBlock random
      let blocks := blocks.set i b
      if addr ≠ 0 then
        let allocatedSize := b.getSize
        if neededSize < allocatedSize then
          (addr, freePages blocks (addr + neededSize) ((allocatedSize - neededSize) / pageSize))
        else (addr, blocks)
      else allocateBlockLoop random neededSize n (i + 1) blocks

/-- `AllocateBlock`; null when no block is large enough. -/
def allocateBlock (h : KPageHeap) (index : ℕ) (random : Bool) : ℕ × KPageHeap :=
  let (addr, blocks) := allocateBlockLoop random (sizeAt h.blocks index)
    (h.blocks.length - index) index h.blocks
  (addr, { h with blocks := blocks })

end KPageHeap

/-! ## The storage of the bitmaps -/

namespace KPageBitmap

/-- The words that the loops of `Initialize` and `CalculateManagementOverheadSize` over the depths
count. -/
def storageWords : ℕ → ℕ → ℕ
  | 0, _ => 0
  | depth + 1, size =>
    let size := alignUp size 64 / 64
    size + storageWords depth size

def calculateManagementOverheadSize (regionSize : ℕ) : ℕ :=
  storageWords (getRequiredDepth regionSize) regionSize * 8

/-- A bitmap needs no more words than a larger one. -/
theorem storageWords_le {depth depth' size size' : ℕ} (hdepth : depth ≤ depth')
    (hsize : size ≤ size') : storageWords depth size ≤ storageWords depth' size' := by
  induction depth' generalizing depth size size' with
  | zero => rw [Nat.le_zero.mp hdepth, storageWords, storageWords]
  | succ depth' ih =>
    cases depth with
    | zero => exact Nat.zero_le _
    | succ depth =>
      have hnext : alignUp size 64 / 64 ≤ alignUp size' 64 / 64 := by
        unfold alignUp alignDown
        omega
      exact Nat.add_le_add hnext (ih (Nat.le_of_succ_le_succ hdepth) hnext)

end KPageBitmap

namespace KPageHeap

/-- `Block::CalculateManagementOverheadSize`; the size with two more blocks is a `size_t`. -/
def Block.calculateManagementOverheadSize (regionSize curBlockShift nextBlockShift : ℕ) : ℕ :=
  let align := if nextBlockShift ≠ 0 then 1 <<< nextBlockShift else 1 <<< curBlockShift
  KPageBitmap.calculateManagementOverheadSize
    ((align * 2 + alignUp regionSize align) % 2 ^ 64 / (1 <<< curBlockShift))

/-- `CalculateManagementOverheadSize`; behind the last block shift comes 0. -/
def calculateManagementOverheadSize (regionSize : ℕ) (blockShifts : List ℕ) : ℕ :=
  alignUp (List.zipWith (Block.calculateManagementOverheadSize regionSize) blockShifts
    (blockShifts.tail ++ [0])).sum pageSize

/-- The words of the storage that a block's bitmap takes. -/
def Block.storageWords (b : Block) : ℕ := KPageBitmap.storageWords b.bitmap.usedDepths b.endOffset

/-- `Initialize` with its management region and any block shifts. -/
def initializeManaged (rngs : ℕ → RandomBitGenerator)
    (address size managementAddress managementSize : ℕ) (blockShifts : List ℕ) : Run KPageHeap :=
  let blocks := initializeBlocks rngs address size 0 blockShifts
  let curBitmapStorage := managementAddress + (blocks.map Block.storageWords).sum * 8
  if curBitmapStorage ≤ managementAddress + managementSize then .ok ⟨address, size, blocks⟩
  else .error .abortUnless

variable {rngs : ℕ → RandomBitGenerator} {address size : ℕ}

/-- Both ends of the region are rounded, for which the overhead has two blocks of the next size. -/
theorem Block.storageWords_le {rng : RandomBitGenerator} {shift next : ℕ}
    (hfits : (if next ≠ 0 then 1 <<< next else 1 <<< shift) * 2 +
      alignUp size (if next ≠ 0 then 1 <<< next else 1 <<< shift) < 2 ^ 64) :
    (initializeBlock rng address size shift next).storageWords * 8 ≤
      calculateManagementOverheadSize size shift next := by
  refine Nat.mul_le_mul_right 8 ?_
  rw [Nat.mod_eq_of_lt hfits]
  simp only [initializeBlock, KPageBitmap.initializeBitmap, KPageBitmap.getRequiredDepth_eq]
  have ha : 0 < if next ≠ 0 then 1 <<< next else 1 <<< shift := by
    split_ifs <;> simp [Nat.one_shiftLeft]
  generalize (if next ≠ 0 then 1 <<< next else 1 <<< shift) = align at ha ⊢
  have hsize : alignUp (address + size) align - alignDown address align ≤
      align * 2 + alignUp size align := by
    have hend := alignUp_lt_add (address + size) ha
    have hstart := lt_alignDown_add address ha
    have hle := le_alignUp size ha
    omega
  have hdiv := Nat.div_le_div_right (c := 1 <<< shift) hsize
  exact KPageBitmap.storageWords_le (Nat.add_le_add_right (Nat.log_mono_right hdiv) 1) hdiv

theorem sum_storageWords_le (shifts : List ℕ) {i : ℕ}
    (hfits : ∀ shift ∈ shifts, (1 <<< shift) * 2 + alignUp size (1 <<< shift) < 2 ^ 64) :
    ((initializeBlocks rngs address size i shifts).map Block.storageWords).sum * 8 ≤
      (List.zipWith (Block.calculateManagementOverheadSize size) shifts
        (shifts.tail ++ [0])).sum := by
  fun_induction initializeBlocks rngs address size i shifts with
  | case1 => exact le_rfl
  | case2 i shift => exact Block.storageWords_le (hfits shift (by simp))
  | case3 i shift next rest ih =>
    rw [List.map_cons, List.sum_cons, Nat.add_mul]
    refine Nat.add_le_add (Block.storageWords_le ?_) (ih fun s hs => hfits s (.tail _ hs))
    split_ifs <;> exact hfits _ (by simp)

/-- The overhead that is computed from the size is enough at every address, if the size with two
more blocks does not overflow. -/
theorem initializeManaged_ok (rngs : ℕ → RandomBitGenerator)
    (address size managementAddress : ℕ) (blockShifts : List ℕ)
    (hfits : ∀ shift ∈ blockShifts, (1 <<< shift) * 2 + alignUp size (1 <<< shift) < 2 ^ 64) :
    initializeManaged rngs address size managementAddress
        (calculateManagementOverheadSize size blockShifts) blockShifts =
      .ok ⟨address, size, initializeBlocks rngs address size 0 blockShifts⟩ := by
  refine if_pos (Nat.add_le_add_left ?_ _)
  exact (sum_storageWords_le blockShifts hfits).trans (le_alignUp _ pageSize_pos)

/-- A gigabyte that is aligned to pages only. -/
theorem initializeManaged_gigabyte :
    ∃ h, initializeManaged (fun _ _ => false) 0x80001000 0x40000000 0
      (calculateManagementOverheadSize 0x40000000 memoryBlockPageShifts) memoryBlockPageShifts =
        .ok h :=
  ⟨_, initializeManaged_ok _ _ _ _ _ (by decide)⟩

/-- The sum overflows, and 65535 blocks get the storage of one. -/
theorem initializeManaged_overflow :
    initializeManaged (fun _ _ => false) 0 (2 ^ 64 - 2 ^ 48) 0
      (calculateManagementOverheadSize (2 ^ 64 - 2 ^ 48) [48]) [48] = .error .abortUnless :=
  rfl

end KPageHeap

end Atmosphere.Kern
