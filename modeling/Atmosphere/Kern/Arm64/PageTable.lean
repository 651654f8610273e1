import Atmosphere.Kern.Arm64.PageTableEntry

/-!
# Page tables and the operations that merge and separate blocks

`KPageTableImpl` has a root table of L1 entries, and below it L2 and L3 tables that
each fill one page. A table page is known by its physical address, which is what
the entry above it holds. The state also has the books of `KPageTableManager`: the
reference count of each page, and what its next allocations will return. An
allocation may fail at any time, so that is a list of optional pages and nothing is
assumed about where it has none.

`KPageTable::MergePages` and `SeparatePages` return the new state and whether they
succeeded; the only failure is `svc::ResultOutOfResource`, when a table page cannot
be allocated. TLB maintenance and memory barriers have no counterpart. The L2 and
L3 halves of merging and separating are the same code for two sizes and are written
once for a level.
-/

namespace Atmosphere.Kern.Arm64

open PageTableEntry

/-- What is fixed about a page table. -/
structure Config where
  isKernel : Bool
  /-- The root table has `2 ^ bits` entries, at most a page of them. -/
  bits : ℕ
  bits_le : bits ≤ 9
  /-- `IsInPageTableHeap`: tables made while booting are not in the heap. -/
  isInPageTableHeap : ℕ → Bool

/-- `m_num_entries`. -/
def Config.numEntries (c : Config) : ℕ := 2 ^ c.bits

/-- A page table, its list of pages to free, and the books of its manager. -/
structure PageTable where
  /-- `m_table`. -/
  root : ℕ → PageTableEntry
  /-- The entries of each table page. -/
  table : ℕ → ℕ → PageTableEntry
  /-- `m_ref_counts`. -/
  refCount : ℕ → ℕ
  /-- What the manager's next allocations return. -/
  supply : List (Option ℕ)
  /-- The `PageLinkedList` of the running update. -/
  pageList : List ℕ

/-- `GetL1Index`, `GetL2Index`, `GetL3Index`. -/
def index (lvl : Level) (address : ℕ) : ℕ := address / lvl.blockSize % maxPageTableEntries

/-- The index that `GetL1Entry` uses in the root table. -/
def l1Slot (c : Config) (address : ℕ) : ℕ := index .l1 address &&& (c.numEntries - 1)

namespace PageTable

variable (c : Config) (t : PageTable)

/-- `GetL1Entry`. -/
def getL1Entry (address : ℕ) : PageTableEntry := t.root (l1Slot c address)

/-- `GetL2EntryFromTable`, `GetL3EntryFromTable`. -/
def getEntryFromTable (lvl : Level) (page address : ℕ) : PageTableEntry :=
  t.table page (index lvl address)

/-- A write through `GetL1Entry`. -/
def setL1Entry (address : ℕ) (e : PageTableEntry) : PageTable :=
  { t with root := Function.update t.root (l1Slot c address) e }

/-- New contents for a table page. -/
def setTable (page : ℕ) (contents : ℕ → PageTableEntry) : PageTable :=
  { t with table := Function.update t.table page contents }

/-- A write through `GetL2EntryFromTable` or `GetL3EntryFromTable`. -/
def setEntryInTable (lvl : Level) (page address : ℕ) (e : PageTableEntry) : PageTable :=
  t.setTable page (Function.update (t.table page) (index lvl address) e)

end PageTable

/-- `MESOSPHERE_ABORT_UNLESS`. -/
def abortUnless (condition : Bool) : Run Unit :=
  if condition then .ok () else .error .abortUnless

/-- The result of an operation on a page table. -/
inductive OperationResult
  | success
  | outOfResource
  deriving DecidableEq, Repr

namespace PageTable

variable (c : Config) (t : PageTable)

/-! ## Table pages -/

/-- `KPageTableManager::Open`. Counts have sixteen bits. -/
def openTable (page count : ℕ) : Run PageTable := do
  let refs := (t.refCount page + count) % 2 ^ 16
  abortUnless (decide (0 < refs))
  pure { t with refCount := Function.update t.refCount page refs }

/-- `KPageTableManager::Close`; the flag says that no reference is left. -/
def closeTable (page count : ℕ) : Run (PageTable × Bool) := do
  abortUnless (decide (count ≤ t.refCount page))
  let refs := t.refCount page - count
  pure ({ t with refCount := Function.update t.refCount page refs }, refs == 0)

/-- `AllocatePageTable`. -/
def allocatePageTable (reuseLl : Bool) : PageTable × Option ℕ :=
  match t.supply with
  | some page :: rest => ({ t with supply := rest }, some page)
  | _ =>
    let t := { t with supply := t.supply.tail }
    match reuseLl, t.pageList with
    | true, page :: rest => ({ t with pageList := rest }, some page)
    | _, _ => (t, none)

/-- `FreePageTable`. -/
def freePageTable (page : ℕ) : PageTable := { t with pageList := page :: t.pageList }

/-- `ClearPageTable`. -/
def clearPageTable (page : ℕ) : PageTable := t.setTable page fun _ => 0#64

/-! ## Merging -/

/-- The contents of a table after the loop that writes the entries of `count` consecutive
addresses. -/
def writeEntries (lvl : Level) (virtAddr : ℕ) (value : ℕ → PageTableEntry)
    (contents : ℕ → PageTableEntry) : ℕ → ℕ → PageTableEntry
  | 0 => contents
  | n + 1 => Function.update (writeEntries lvl virtAddr value contents n)
      (index lvl (virtAddr + lvl.blockSize * n)) (value n)

/-- The merge flags of entry `i` of a run: only the first entry keeps the head flag. -/
def swOfIndex (sw : BitVec 64) (i : ℕ) : BitVec 64 :=
  if i = 0 then sw else sw &&& ~~~disableMergeHead

variable (lvl : Level)

/-- The loop that looks whether `count` entries, `step` bytes apart, can become one. -/
def canMerge (page virtAddr physAddr : ℕ) (template : BitVec 64) (step count lastTail : ℕ)
    (contig : Bool) : Bool :=
  (List.range count).all fun i =>
    let e := t.getEntryFromTable lvl page (virtAddr + step * i)
    isForMerge e (mergePattern lvl template (physAddr + step * i) contig) &&
      !(decide (0 < i) && isHeadOrHeadAndBodyMergeDisabled e) &&
        !(decide (i < lastTail) && isTailMergeDisabled e)

/-- The merge flags of what becomes of the entries: those of its head and of its tail. -/
def mergedSw (page virtAddr step count : ℕ) : BitVec 64 :=
  let head := t.getEntryFromTable lvl page virtAddr
  let tail := t.getEntryFromTable lvl page (virtAddr + step * (count - 1))
  encodeSoftwareReservedBits (isHeadMergeDisabled head) (isHeadAndBodyMergeDisabled head)
    (isTailMergeDisabled tail)

/-- Make the group of entries around the address contiguous, if it can be. -/
def mergeGroup (page virtAddr : ℕ) : PageTable × Bool :=
  let e := t.getEntryFromTable lvl page virtAddr
  let virtAddr := alignDown virtAddr lvl.contiguousBlockSize
  let physAddr := alignDown (getBlock lvl e) lvl.contiguousBlockSize
  let template := getEntryTemplateForMerge e
  let count := lvl.contiguousBlockSize / lvl.blockSize
  if t.canMerge lvl page virtAddr physAddr template lvl.blockSize count (count - 1) false then
    let sw := t.mergedSw lvl page virtAddr lvl.blockSize count
    let value := fun i =>
      blockEntry lvl (physAddr + lvl.blockSize * i) template (swOfIndex sw i) true
    (t.setTable page (writeEntries lvl virtAddr value (t.table page) count), true)
  else (t, false)

/-- The block that replaces the whole table around the address, if its groups allow one. -/
def mergedBlock (page virtAddr lastTail : ℕ) : Option PageTableEntry :=
  let e := t.getEntryFromTable lvl page virtAddr
  let virtAddr := alignDown virtAddr lvl.parent.blockSize
  let physAddr := alignDown (getBlock lvl e) lvl.parent.blockSize
  let template := getEntryTemplateForMerge e
  let step := lvl.contiguousBlockSize
  let count := lvl.parent.blockSize / lvl.contiguousBlockSize
  if t.canMerge lvl page virtAddr physAddr template step count lastTail true then
    some (blockEntry lvl.parent physAddr template (t.mergedSw lvl page virtAddr step count) false)
  else none

/-- The part of `MergePages` that deals with one table: make the group contiguous, then look
whether the table can become a block. The flag says whether anything changed. -/
def mergeInTable (page virtAddr lastTail : ℕ) :
    PageTable × Bool × Option PageTableEntry :=
  let e := t.getEntryFromTable lvl page virtAddr
  if !isBlock lvl e then (t, false, none)
  else if isContiguous e then (t, false, t.mergedBlock lvl page virtAddr lastTail)
  else
    match t.mergeGroup lvl page virtAddr with
    | (t, false) => (t, false, none)
    | (t, true) => (t, true, t.mergedBlock lvl page virtAddr lastTail)

/-- Give back a table that a block has replaced. -/
def discardTable (page : ℕ) : Run PageTable :=
  if c.isInPageTableHeap page then do
    let (t, _) ← t.closeTable page maxPageTableEntries
    pure ((t.clearPageTable page).freePageTable page)
  else pure t

/-- The end of `MergePages`, for the L2 table. The bound for the tail check divides the size of
sixteen L1 blocks, as the source has it, so it holds for every entry. -/
def mergeL2Table (l2Table virtAddr : ℕ) (merged : Bool) : Run (PageTable × Bool) := do
  let lastTail := Level.l1.contiguousBlockSize / Level.l2.contiguousBlockSize - 1
  match t.mergeInTable .l2 l2Table virtAddr lastTail with
  | (t, changed, none) => pure (t, merged || changed)
  | (t, _, some block) =>
    let t ← (t.setL1Entry c virtAddr block).discardTable c l2Table
    pure (t, true)

/-- `MergePages`. -/
def mergePages (virtAddr : ℕ) : Run (PageTable × Bool) := do
  let l1Entry := t.getL1Entry c virtAddr
  if !isTable l1Entry then
    abortUnless (isBlock .l1 l1Entry || isEmpty l1Entry)
    pure (t, false)
  else
    let l2Table := getTable l1Entry
    let l2Entry := t.getEntryFromTable .l2 l2Table virtAddr
    if isTable l2Entry then
      let l3Table := getTable l2Entry
      let lastTail := Level.l2.blockSize / Level.l3.contiguousBlockSize - 1
      match t.mergeInTable .l3 l3Table virtAddr lastTail with
      | (t, changed, none) => pure (t, changed)
      | (t, _, some block) =>
        let t ← (t.setEntryInTable .l2 l2Table virtAddr block).discardTable c l3Table
        t.mergeL2Table c l2Table virtAddr true
    else t.mergeL2Table c l2Table virtAddr false

/-! ## Separating -/

/-- Mark the entries of the contiguous group around the address as single blocks. -/
def splitGroup (lvl : Level) (page virtAddr : ℕ) : PageTable :=
  let e := t.getEntryFromTable lvl page virtAddr
  let blockVirtAddr := alignDown virtAddr lvl.contiguousBlockSize
  let blockPhysAddr := alignDown (getBlock lvl e) lvl.contiguousBlockSize
  let value := fun i =>
    let target := t.getEntryFromTable lvl page (blockVirtAddr + lvl.blockSize * i)
    blockEntry lvl (blockPhysAddr + lvl.blockSize * i) (target &&& groupTemplateMask lvl i) 0#64
      false
  t.setTable page (writeEntries lvl blockVirtAddr value (t.table page)
    (lvl.contiguousBlockSize / lvl.blockSize))

/-- A new table of level `lvl` whose contiguous blocks together map what the block `e` of the
level above maps; the entry for it, if a page could be allocated. -/
def splitBlock (lvl : Level) (e : PageTableEntry) (virtAddr : ℕ) (reuseLl : Bool) :
    Run (PageTable × Option PageTableEntry) :=
  let blockVirtAddr := alignDown virtAddr lvl.parent.blockSize
  let blockPhysAddr := getBlock lvl.parent e
  match t.allocatePageTable reuseLl with
  | (t, none) => pure (t, none)
  | (t, some page) => do
      let value := fun i =>
        blockEntry lvl (blockPhysAddr + lvl.blockSize * i) (e &&& tableTemplateMask lvl i) 0#64 true
      let count := lvl.parent.blockSize / lvl.blockSize
      let entries := writeEntries lvl blockVirtAddr value (t.table page) count
      let t ← (t.setTable page entries).openTable page count
      pure (t, some (tableEntry page c.isKernel true))

/-- The part of `SeparatePagesImpl` that deals with an L3 table. -/
def separateL3 (l2Entry : PageTableEntry) (virtAddr blockSize : ℕ) : PageTable :=
  if Level.l3.contiguousBlockSize ≤ blockSize then t
  else
    let page := getTable l2Entry
    let l3Entry := t.getEntryFromTable .l3 page virtAddr
    if isBlock .l3 l3Entry && isContiguous l3Entry then t.splitGroup .l3 page virtAddr else t

/-- The part of `SeparatePagesImpl` that deals with an L2 table. -/
def separateL2 (l1Entry : PageTableEntry) (virtAddr blockSize : ℕ) (reuseLl : Bool) :
    Run (PageTable × OperationResult) :=
  if Level.l2.contiguousBlockSize ≤ blockSize then pure (t, .success)
  else
    let page := getTable l1Entry
    let l2Entry := t.getEntryFromTable .l2 page virtAddr
    if isBlock .l2 l2Entry then
      let t := if isContiguous l2Entry then t.splitGroup .l2 page virtAddr else t
      if Level.l2.blockSize ≤ blockSize then pure (t, .success)
      else do
        let l2Entry := t.getEntryFromTable .l2 page virtAddr
        match ← t.splitBlock c .l3 l2Entry virtAddr reuseLl with
        | (t, none) => pure (t, .outOfResource)
        | (t, some l2Entry) =>
          let t := t.setEntryInTable .l2 page virtAddr l2Entry
          abortUnless (isTable l2Entry || isEmpty l2Entry)
          pure (t.separateL3 l2Entry virtAddr blockSize, .success)
    else do
      abortUnless (isTable l2Entry || isEmpty l2Entry)
      if isTable l2Entry then pure (t.separateL3 l2Entry virtAddr blockSize, .success)
      else pure (t, .success)

/-- `SeparatePagesImpl`. -/
def separatePagesImpl (virtAddr blockSize : ℕ) (reuseLl : Bool) :
    Run (PageTable × OperationResult) :=
  let l1Entry := t.getL1Entry c virtAddr
  if isBlock .l1 l1Entry then
    if Level.l1.blockSize ≤ blockSize then pure (t, .success)
    else do
      match ← t.splitBlock c .l2 l1Entry virtAddr reuseLl with
      | (t, none) => pure (t, .outOfResource)
      | (t, some l1Entry) =>
        let t := t.setL1Entry c virtAddr l1Entry
        abortUnless (isTable l1Entry || isEmpty l1Entry)
        t.separateL2 c l1Entry virtAddr blockSize reuseLl
  else do
    abortUnless (isTable l1Entry || isEmpty l1Entry)
    if isTable l1Entry then t.separateL2 c l1Entry virtAddr blockSize reuseLl
    else pure (t, .success)

/-- `SeparatePages`. -/
def separatePages (virtAddr blockSize : ℕ) (reuseLl : Bool) :
    Run (PageTable × OperationResult) := do
  match ← t.separatePagesImpl c virtAddr blockSize reuseLl with
  | (t, .success) => pure (t, .success)
  | (t, .outOfResource) =>
    let (t, _) ← t.mergePages c virtAddr
    pure (t, .outOfResource)

end PageTable

end Atmosphere.Kern.Arm64
