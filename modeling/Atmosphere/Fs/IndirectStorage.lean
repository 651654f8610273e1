import Atmosphere.Fs.BucketTree

/-!
# Indirect storages

An indirect storage maps ranges of virtual offsets to ranges of two data storages: the base
storage, and a storage of fragments that replace parts of it. Its table is a bucket tree. A read
goes over the entries of the table one by one. The continuous check looks ahead for entries of
the base storage that follow each other but for small fragments, and reads them at once; the
fragments are then read over it.

`MoveNext` of the visitor is a parameter of the model.
-/

namespace Atmosphere.Fs

/-- `IndirectStorage::Entry`. -/
structure IndirectEntry where
  virtualOffset : ℤ
  physicalOffset : ℤ
  storageIndex : ℤ
  deriving DecidableEq

namespace IndirectEntry

/-- `sizeof(Entry)`. -/
def byteSize : ℕ := 0x14

def ofBytes (b : Bytes) : IndirectEntry := ⟨b.getInt64 0, b.getInt64 8, b.getInt32 16⟩

/-- `ContinuousReadingEntry::IsFragment`. -/
def isFragment (entry : IndirectEntry) : Bool := entry.storageIndex ≠ 0

/-- `ContinuousReadingEntry::FragmentSizeMax`. -/
def fragmentSizeMax : ℤ := 0x1000

end IndirectEntry

/-- `BucketTree::ContinuousReadingInfo`. -/
structure ContinuousReadingInfo where
  readSize : ℤ
  skipCount : ℤ
  done : Bool

/-- `BucketTree::ContinuousReadingParam`. -/
structure ContinuousReadingParam where
  offset : ℤ
  size : ℤ
  entrySet : NodeHeader
  entryIndex : ℕ
  entry : IndirectEntry

/-- The variables of the loop of `ScanContinuousReading`. -/
structure ScanState where
  entryIndex : ℕ
  curOffset : ℤ
  entry : IndirectEntry
  physOffset : ℤ
  mergeSize : ℤ
  readableSize : ℤ
  merged : Bool

namespace BucketTree

variable (tree : BucketTree) (buffer : Option Bytes) (param : ContinuousReadingParam)

/-- An entry of the entry set, from the buffer if there is one. -/
def readEntry (index : ℕ) : FsOp IndirectEntry :=
  match buffer with
  | some buffer =>
    return .ofBytes (buffer.drop (getBucketTreeEntryOffset 0 tree.entrySize index))
  | none => do
    let position :=
      getBucketTreeEntryOffset (param.entrySet.index.toNat * tree.nodeSize) tree.entrySize index
    let bytes ← tree.entryStorage.read position (fun _ => 0) 0 tree.entrySize
    return .ofBytes bytes

/-- The next entry of the entry set and its offset, or the end of the entry set. -/
def scanNextEntry (entryIndex : ℕ) : FsOp (IndirectEntry × ℤ) :=
  if entryIndex + 1 < param.entrySet.count then do
    let nextEntry ← tree.readEntry buffer param (entryIndex + 1)
    require (tree.includes nextEntry.virtualOffset) .invalidIndirectEntryOffset
    return (nextEntry, nextEntry.virtualOffset)
  else
    return (⟨0, 0, 0⟩, param.entrySet.offset)

/-- One round of the loop of `ScanContinuousReading`, where `none` leaves the loop. -/
def scanStep (s : ScanState) : FsOp (Option ScanState) :=
  let endOffset := param.offset + param.size
  if endOffset ≤ s.curOffset then return none
  else do
    let entryOffset := s.entry.virtualOffset
    require (entryOffset ≤ s.curOffset) .invalidIndirectEntryOffset
    let (nextEntry, nextEntryOffset) ← tree.scanNextEntry buffer param s.entryIndex
    require (s.curOffset < nextEntryOffset) .invalidIndirectEntryOffset
    let dataSize := nextEntryOffset - s.curOffset
    let remainingSize := endOffset - s.curOffset
    let readSize := min dataSize remainingSize
    let next : ScanState := {
      entryIndex := s.entryIndex + 1
      curOffset := s.curOffset + readSize
      entry := nextEntry
      physOffset := s.physOffset + (nextEntryOffset - entryOffset)
      mergeSize := s.mergeSize
      readableSize := s.readableSize
      merged := s.merged }
    if s.entry.isFragment then
      if IndirectEntry.fragmentSizeMax ≤ readSize ∨ remainingSize ≤ dataSize then return none
      else return some { next with mergeSize := s.mergeSize + readSize }
    else if s.physOffset ≠ s.entry.physicalOffset then return none
    else return some { next with
      readableSize := s.readableSize + (s.mergeSize + readSize)
      merged := s.merged || 0 < s.mergeSize
      mergeSize := 0 }

/-- The loop of `ScanContinuousReading` over the rest of the entry set. -/
def scanLoop : ℕ → ScanState → FsOp ScanState
  | 0, s => return s
  | rounds + 1, s => do
    match ← tree.scanStep buffer param s with
    | none => return s
    | some s' => scanLoop rounds s'

/-- The entry set in the buffer of the pool, if that is large enough. -/
def scanBuffer (pool : PooledBuffer) : FsOp (Option Bytes) :=
  if tree.nodeSize ≤ pool.size then do
    let position := param.entrySet.index.toNat * tree.nodeSize
    let buffer ← tree.entryStorage.read position pool.buffer 0 tree.nodeSize
    return some buffer
  else
    return none

/-- `ScanContinuousReading`. -/
def scanContinuousReading (pool : PooledBuffer) : FsOp ContinuousReadingInfo :=
  if param.size = 0 then return ⟨0, 0, false⟩
  else if param.entry.isFragment then return ⟨0, 0, false⟩
  else do
    require (param.entry.virtualOffset ≤ param.offset) .outOfRange
    let buffer ← tree.scanBuffer param pool
    let s ← tree.scanLoop buffer param (param.entrySet.count.toNat - param.entryIndex) {
      entryIndex := param.entryIndex
      curOffset := param.offset
      entry := param.entry
      physOffset := param.entry.physicalOffset
      mergeSize := 0
      readableSize := 0
      merged := false }
    return ⟨if s.merged then s.readableSize else 0, s.entryIndex - param.entryIndex, false⟩

end BucketTree

namespace Visitor

variable (v : Visitor)

def isValid : Bool := 0 ≤ v.entryIndex

def canMoveNext : Bool :=
  v.isValid && (v.entryIndex + 1 < v.entrySet.count || v.entrySet.index + 1 < v.entrySetCount)

/-- `Visitor::ScanContinuousReading`. -/
def scanContinuousReading (tree : BucketTree) (pool : PooledBuffer) (offset size : ℤ) :
    FsOp ContinuousReadingInfo :=
  tree.scanContinuousReading
    ⟨offset, size, v.entrySet.header, v.entryIndex.toNat, .ofBytes v.entry⟩ pool

end Visitor

/-- The function that `OperatePerEntry` calls with the index of a data storage, an offset in it,
the virtual offset and the size. -/
abbrev OperateFunc (σ : Type) := ℕ → ℤ → ℤ → ℤ → σ → FsOp σ

/-- What `OperatePerEntry` uses from outside: the memory of the search, the pooled buffer of the
scan at a virtual offset, and `MoveNext`. -/
structure OperateContext where
  memory : FindMemory
  scanPool : ℤ → PooledBuffer
  moveNext : Visitor → FsOp Visitor

/-- The variables of the loop of `OperatePerEntry`. -/
structure OperateState (σ : Type) where
  visitor : Visitor
  curOffset : ℤ
  info : ContinuousReadingInfo
  data : σ

structure IndirectStorage where
  table : BucketTree
  dataStorage : ℕ → SubStorage

namespace IndirectStorage

variable {σ : Type} (storage : IndirectStorage) (c : OperateContext) (func : OperateFunc σ)
variable (endOffset : ℤ)

/-- `StorageCount`. -/
def storageCount : ℤ := 2

/-- `NodeSize`. -/
def nodeSize : ℕ := 0x4000

/-- The scan of a round, if the entries of the last one are used up. -/
def scanIfNeeded (s : OperateState σ) : FsOp ContinuousReadingInfo :=
  let info := { s.info with skipCount := s.info.skipCount - 1 }
  if info.skipCount ≤ 0 then
    s.visitor.scanContinuousReading storage.table (c.scanPool s.curOffset) s.curOffset
      (endOffset - s.curOffset)
  else return info

/-- The read of several entries at once. -/
def operateContinuously (s : OperateState σ) (info : ContinuousReadingInfo) :
    FsOp (ContinuousReadingInfo × σ) :=
  let curEntry := IndirectEntry.ofBytes s.visitor.entry
  if 0 < info.readSize then do
    require (curEntry.storageIndex = 0) .invalidIndirectEntryStorageIndex
    let curDataStorageSize := (storage.dataStorage 0).size
    let dataOffset := s.curOffset - curEntry.virtualOffset
    let curEntryPhysOffset := curEntry.physicalOffset
    let curSize := info.readSize
    require (0 ≤ curEntryPhysOffset ∧ curEntryPhysOffset ≤ curDataStorageSize)
      .invalidIndirectEntryOffset
    require (curEntryPhysOffset + dataOffset + curSize ≤ curDataStorageSize)
      .invalidIndirectStorageSize
    let data ← func 0 (curEntryPhysOffset + dataOffset) s.curOffset curSize s.data
    return ({ info with readSize := 0, done := true }, data)
  else
    return (info, s.data)

/-- What the continuous check does in a round. -/
def checkContinuous (continuousCheck : Bool) (s : OperateState σ) :
    FsOp (ContinuousReadingInfo × σ) :=
  if continuousCheck then do
    let info ← storage.scanIfNeeded c endOffset s
    storage.operateContinuously func s info
  else return (s.info, s.data)

/-- The next entry and its offset, or the end of the table. -/
def moveToNextEntry (v : Visitor) : FsOp (Visitor × ℤ) :=
  if v.canMoveNext then do
    let v ← c.moveNext v
    let nextEntryOffset := (IndirectEntry.ofBytes v.entry).virtualOffset
    require (storage.table.includes nextEntryOffset) .invalidIndirectEntryOffset
    return (v, nextEntryOffset)
  else return (v, storage.table.endOffset)

/-- The operation on the part of one entry. -/
def operateEntry (curEntry : IndirectEntry) (curOffset curSize : ℤ) (data : σ) : FsOp σ := do
  let curDataStorageSize := (storage.dataStorage curEntry.storageIndex.toNat).size
  let dataOffset := curOffset - curEntry.virtualOffset
  let curEntryPhysOffset := curEntry.physicalOffset
  require (0 ≤ curEntryPhysOffset ∧ curEntryPhysOffset ≤ curDataStorageSize)
    .indirectStorageCorrupted
  require (curEntryPhysOffset + dataOffset + curSize ≤ curDataStorageSize)
    .indirectStorageCorrupted
  func curEntry.storageIndex.toNat (curEntryPhysOffset + dataOffset) curOffset curSize data

/-- The operation on the part of one entry, if it has not been done already. -/
def operateIfNeeded (needsOperate : Bool) (curEntry : IndirectEntry) (curOffset curSize : ℤ)
    (data : σ) : FsOp σ :=
  if needsOperate then storage.operateEntry func curEntry curOffset curSize data
  else return data

/-- One round of the loop of `OperatePerEntry`. -/
def operateRound (continuousCheck : Bool) (s : OperateState σ) : FsOp (OperateState σ) := do
  let curEntry := IndirectEntry.ofBytes s.visitor.entry
  let curEntryOffset := curEntry.virtualOffset
  require (curEntryOffset ≤ s.curOffset) .invalidIndirectEntryOffset
  require (0 ≤ curEntry.storageIndex ∧ curEntry.storageIndex < storageCount)
    .invalidIndirectEntryStorageIndex
  let (info, data) ← storage.checkContinuous c func endOffset continuousCheck s
  let (visitor, nextEntryOffset) ← storage.moveToNextEntry c s.visitor
  require (s.curOffset < nextEntryOffset) .invalidIndirectEntryOffset
  let dataOffset := s.curOffset - curEntryOffset
  let dataSize := (nextEntryOffset - curEntryOffset) - dataOffset
  let remainingSize := endOffset - s.curOffset
  let curSize := min remainingSize dataSize
  let needsOperate := !continuousCheck || (!info.done || curEntry.storageIndex ≠ 0)
  let data ← storage.operateIfNeeded func needsOperate curEntry s.curOffset curSize data
  return ⟨visitor, s.curOffset + curSize, info, data⟩

/-- The loop of `OperatePerEntry`. A round advances at least one byte, so that the number of
rounds is at most the number of bytes. -/
def operateLoop (continuousCheck : Bool) : ℕ → OperateState σ → FsOp (OperateState σ)
  | 0, s => return s
  | rounds + 1, s =>
    if s.curOffset < endOffset then do
      let s ← storage.operateRound c func endOffset continuousCheck s
      operateLoop continuousCheck rounds s
    else return s

/-- `OperatePerEntry`. -/
def operatePerEntry (continuousCheck : Bool) (offset size : ℤ) (data : σ) : FsOp σ :=
  if size = 0 then return data
  else do
    require (storage.table.includesRange offset size) .outOfRange
    let visitor ← storage.table.find c.memory offset
    let entryOffset := (IndirectEntry.ofBytes visitor.entry).virtualOffset
    require (0 ≤ entryOffset ∧ storage.table.includes entryOffset) .invalidIndirectEntryOffset
    let s ← storage.operateLoop c func (offset + size) continuousCheck size.toNat
      ⟨visitor, offset, ⟨0, 0, false⟩, data⟩
    return s.data

/-- The function that `Read` passes: it reads into the buffer. -/
def readFunc (offset : ℤ) : OperateFunc Bytes := fun index dataOffset curOffset curSize buffer =>
  (storage.dataStorage index).read dataOffset buffer (curOffset - offset).toNat curSize.toNat

/-- `Read` into a buffer, with or without the continuous check. -/
def readWith (continuousCheck : Bool) (offset : ℤ) (buffer : Bytes) (size : ℕ) : FsOp Bytes :=
  if size = 0 then return buffer
  else storage.operatePerEntry c (storage.readFunc offset) continuousCheck offset size buffer

/-- `IndirectStorage::Read`. -/
def read (offset : ℤ) (buffer : Bytes) (size : ℕ) : FsOp Bytes :=
  storage.readWith c true offset buffer size

end IndirectStorage

end Atmosphere.Fs
