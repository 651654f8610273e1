import Atmosphere.Fs.Storage

/-!
# The buddy heap

`FileSystemBuddyHeap` keeps the free blocks of a range of memory in one list for each order. The
first word of a free block is the link to the next one, so that the lists live in the memory that
they manage. A block of some order is a power of two of the smallest blocks.

Sizes and addresses are natural numbers, but for the size of the largest page, which `Initialize`
computes first and in 64 bits. A function returns `none` where the code would follow a null pointer,
divide by zero, or loop for ever.
-/

namespace Atmosphere.Fs

open Function (update)

/-- The `next` of the page entry at every address. -/
abbrev PageLinks := ℕ → Option ℕ

/-- `FileSystemBuddyHeap::PageList`; pointers to page entries are their addresses. -/
structure PageList where
  firstPageEntry : Option ℕ
  lastPageEntry : Option ℕ
  entryCount : ℕ
  deriving DecidableEq

namespace PageList

def empty : PageList := ⟨none, none, 0⟩

variable (l : PageList)

def isEmpty : Bool := l.entryCount == 0

/-- Clears the last entry if this was the last page. -/
def clearLast : PageList :=
  if l.entryCount = 0 then { l with lastPageEntry := none } else l

variable (next : PageLinks)

def popFront : Option (ℕ × PageList × PageLinks) := do
  let pageEntry ← l.firstPageEntry
  let l := { l with firstPageEntry := next pageEntry, entryCount := l.entryCount - 1 }
  return (pageEntry, l.clearLast, update next pageEntry none)

/-- Links a page entry behind the last one. -/
def linkBack (pageEntry : ℕ) : Option (PageList × PageLinks) :=
  if l.isEmpty then some ({ l with firstPageEntry := some pageEntry }, next)
  else do
    let last ← l.lastPageEntry
    return (l, update next last (some pageEntry))

def pushBack (pageEntry : ℕ) : Option (PageList × PageLinks) := do
  let (l, next) ← l.linkBack next pageEntry
  return ({ l with lastPageEntry := some pageEntry, entryCount := l.entryCount + 1 },
    update next pageEntry none)

/-- Unlinks an entry that was found, behind the previous one. -/
def unlink (prevEntry : Option ℕ) (curEntry : ℕ) : Option (PageList × PageLinks) :=
  if l.firstPageEntry = some curEntry then some ({ l with firstPageEntry := next curEntry }, next)
  else if l.lastPageEntry = some curEntry then do
    let prev ← prevEntry
    return ({ l with lastPageEntry := some prev }, update next prev none)
  else do
    let prev ← prevEntry
    return (l, update next prev (next curEntry))

/-- The loop over the pages. A list has as many entries as it counts. -/
def removeLoop (l : PageList) (next : PageLinks) (pageEntry : ℕ) :
    ℕ → Option ℕ → ℕ → Option (Bool × PageList × PageLinks)
  | 0, _, _ => none
  | rounds + 1, prevEntry, curEntry =>
    if curEntry = pageEntry then do
      let (l, next) ← l.unlink next prevEntry curEntry
      return (true, { l with entryCount := l.entryCount - 1 }, update next curEntry none)
    else
      match next curEntry with
      | none => some (false, l, next)
      | some nextEntry => removeLoop l next pageEntry rounds (some curEntry) nextEntry

def remove (next : PageLinks) (pageEntry : ℕ) : Option (Bool × PageList × PageLinks) :=
  if l.isEmpty then some (false, l, next)
  else do
    let first ← l.firstPageEntry
    l.removeLoop next pageEntry l.entryCount none first

end PageList

/-! ### Sizes and addresses -/

/-- What `Initialize` fixes. -/
structure HeapShape where
  blockSize : ℕ
  orderMax : ℕ
  heapStart : ℕ
  heapSize : ℕ

namespace HeapShape

variable (s : HeapShape)

def getBlockCountFromOrder (order : ℕ) : ℕ := 2 ^ order

def getBytesFromOrder (order : ℕ) : ℕ := s.blockSize * 2 ^ order

def getBlockCountFromSize (size : ℕ) : ℕ := alignSizeUp size s.blockSize / s.blockSize

/-- The first order with a big enough block count; `none` is the result `-1`. -/
def getOrderFromBlockCount (blockCount : ℕ) : Option ℕ :=
  (List.range (s.orderMax + 1)).find? fun order => blockCount ≤ getBlockCountFromOrder order

def getOrderFromBytes (size : ℕ) : Option ℕ :=
  s.getOrderFromBlockCount (s.getBlockCountFromSize size)

def getPageEntryFromAddress (address : ℕ) : ℕ :=
  s.heapStart + alignSizeDown (address - s.heapStart) s.blockSize

def getIndexFromPageEntry (pageEntry : ℕ) : ℕ := (pageEntry - s.heapStart) / s.blockSize

def isAlignedToOrder (pageEntry order : ℕ) : Bool :=
  s.getIndexFromPageEntry pageEntry % getBlockCountFromOrder order == 0

def getBuddy (pageEntry order : ℕ) : Option ℕ :=
  let address := pageEntry
  let offset := getBlockCountFromOrder order * s.blockSize
  if s.isAlignedToOrder pageEntry (order + 1) then
    if address + offset < s.heapStart + s.heapSize then
      some (s.getPageEntryFromAddress (address + offset))
    else none
  else
    if s.heapStart ≤ address - offset then some (s.getPageEntryFromAddress (address - offset))
    else none

end HeapShape

/-! ### The heap -/

/-- What changes: the free lists, the links in the memory and the free size. -/
structure BuddyHeap where
  freeLists : ℕ → PageList
  next : PageLinks
  totalFreeSize : ℕ

namespace BuddyHeap

variable (s : HeapShape)

/-- `PushBack` to the list of an order. -/
def pushBack (h : BuddyHeap) (order pageEntry : ℕ) : Option BuddyHeap := do
  let (list, next) ← (h.freeLists order).pushBack h.next pageEntry
  return { h with freeLists := update h.freeLists order list, next }

/-- A new block of an order: `PushBack` and its bytes. -/
def addFree (h : BuddyHeap) (order pageEntry : ℕ) : Option BuddyHeap := do
  let h ← h.pushBack order pageEntry
  return { h with totalFreeSize := h.totalFreeSize + s.getBytesFromOrder order }

/-- `DivideBuddies`, with the number of the rounds that are left. -/
def divideBuddies : ℕ → ℕ → ℕ → BuddyHeap → Option BuddyHeap
  | 0, _, _, h => some h
  | rounds + 1, order, address, h => do
    let address := address - s.getBytesFromOrder (order - 1)
    let h ← h.addFree s (order - 1) (s.getPageEntryFromAddress address)
    divideBuddies rounds (order - 1) address h

/-- `GetFreePageEntry`, with the number of the orders that are left. -/
def getFreePageEntry (order : ℕ) : ℕ → ℕ → BuddyHeap → Option (Option ℕ × BuddyHeap)
  | 0, _, h => some (none, h)
  | rounds + 1, curOrder, h =>
    if (h.freeLists curOrder).isEmpty then getFreePageEntry order rounds (curOrder + 1) h
    else do
      let (pageEntry, list, next) ← (h.freeLists curOrder).popFront h.next
      let h := { h with
        freeLists := update h.freeLists curOrder list
        next
        totalFreeSize := h.totalFreeSize - s.getBytesFromOrder curOrder }
      let h ← divideBuddies s (curOrder - order) curOrder
        (pageEntry + s.getBytesFromOrder curOrder) h
      return (some pageEntry, h)

def allocateByOrder (order : ℕ) (h : BuddyHeap) : Option (Option ℕ × BuddyHeap) :=
  getFreePageEntry s order (s.orderMax + 1 - order) order h

/-- `Remove` from the list of an order. -/
def removeFree (h : BuddyHeap) (order pageEntry : ℕ) : Option (Bool × BuddyHeap) := do
  let (removed, list, next) ← (h.freeLists order).remove h.next pageEntry
  return (removed, { h with freeLists := update h.freeLists order list, next })

/-- `JoinBuddies`, with the number of the orders that are left. -/
def joinBuddies : ℕ → ℕ → ℕ → BuddyHeap → Option BuddyHeap
  | 0, curEntry, curOrder, h => h.addFree s curOrder curEntry
  | rounds + 1, curEntry, curOrder, h =>
    match s.getBuddy curEntry curOrder with
    | none => h.addFree s curOrder curEntry
    | some buddyEntry => do
      let (removed, h) ← h.removeFree curOrder buddyEntry
      if removed then
        joinBuddies rounds
          (if s.isAlignedToOrder curEntry (curOrder + 1) then curEntry else buddyEntry)
          (curOrder + 1) { h with totalFreeSize := h.totalFreeSize - s.getBytesFromOrder curOrder }
      else h.addFree s curOrder curEntry

/-- `Free` of a block or of a null pointer. -/
def free (ptr : Option ℕ) (order : ℕ) (h : BuddyHeap) : Option BuddyHeap :=
  match ptr with
  | none => some h
  | some address =>
    joinBuddies s (s.orderMax - order) (s.getPageEntryFromAddress address) order h

/-! ### Initialize -/

def maxPageSize : ℕ := s.blockSize * 2 ^ s.orderMax % 2 ^ 64

def maxPageCount : ℕ := alignSizeUp s.heapSize (maxPageSize s) / maxPageSize s

/-- The loop over all but the last page region. -/
def pushPages : ℕ → BuddyHeap → Option BuddyHeap
  | 0, h => some h
  | i + 1, h => do
    let h ← pushPages i h
    h.pushBack s.orderMax (s.getPageEntryFromAddress (s.heapStart + i * maxPageSize s))

/-- The loop over the remaining space. A round takes at least one block. -/
def pushRemaining : ℕ → ℕ → ℕ → BuddyHeap → Option BuddyHeap
  | 0, _, _, _ => none
  | rounds + 1, remaining, curAddress, h => do
    let order := (s.getOrderFromBytes (remaining + 1)).getD (s.orderMax + 1)
    let h ← h.addFree s (order - 1) (s.getPageEntryFromAddress curAddress)
    let pageSize := s.getBytesFromOrder (order - 1)
    if s.blockSize ≤ remaining - pageSize then
      pushRemaining rounds (remaining - pageSize) (curAddress + pageSize) h
    else return h

/-- The whole pages, and their size. -/
def initializePages (h : BuddyHeap) : Option BuddyHeap := do
  let h ← pushPages s (maxPageCount s - 1) h
  return { h with totalFreeSize :=
    h.totalFreeSize + (h.freeLists s.orderMax).entryCount * s.getBytesFromOrder s.orderMax }

end BuddyHeap

/-- `Initialize` over memory with any content. The free lists are new ones, or those that lie in the
work buffer of the caller, which are taken as they are. -/
def BuddyHeap.initializeHeap (s : HeapShape) (externalFreeLists : Option (ℕ → PageList))
    (memory : PageLinks) : Option BuddyHeap :=
  if maxPageSize s = 0 then none
  else do
    let freeLists := externalFreeLists.getD fun _ => .empty
    let h ← initializePages s ⟨freeLists, memory, 0⟩
    let remaining := s.heapSize - (maxPageCount s - 1) * maxPageSize s
    pushRemaining s (remaining / s.blockSize) remaining
      (s.heapStart + (maxPageCount s - 1) * maxPageSize s) h

end Atmosphere.Fs
