import Atmosphere.Fs.Storage
import Atmosphere.Lib.Search.Basic

/-!
# Bucket trees

A bucket tree is a table of entries that are sorted by their virtual offsets. The entries are
cut into entry sets of the size of a node. The node L1 has the first offsets of all entry sets
if there is room for them. Otherwise it has the first offsets of the nodes L2, and in the room
behind them the first offsets of the first entry sets; the nodes L2 have those of the others.

Counts and sizes are natural numbers where the code has checked that they are positive.
-/

namespace Atmosphere.Fs

/-- `BucketTree::NodeHeader`. -/
structure NodeHeader where
  index : ℤ
  count : ℤ
  offset : ℤ
  deriving DecidableEq

namespace NodeHeader

/-- `sizeof(NodeHeader)`. -/
def byteSize : ℕ := 16

/-- The header that a node begins with. -/
def ofBytes (b : Bytes) : NodeHeader := ⟨b.getInt32 0, b.getInt32 4, b.getInt64 8⟩

/-- `NodeHeader::Verify`. -/
def verify (header : NodeHeader) (nodeIndex : ℤ) (nodeSize entrySize : ℕ) : FsOp Unit := do
  require (header.index = nodeIndex) .invalidBucketTreeNodeIndex
  require (entrySize ≠ 0 ∧ entrySize + byteSize ≤ nodeSize) .invalidSize
  let maxEntryCount := (nodeSize - byteSize) / entrySize
  require (0 < header.count ∧ header.count ≤ maxEntryCount) .invalidBucketTreeNodeEntryCount
  require (0 ≤ header.offset) .invalidBucketTreeNodeOffset

end NodeHeader

/-- `Visitor::EntrySetHeader`, whose end is the offset of the node header. -/
structure EntrySetHeader where
  index : ℤ
  count : ℤ
  endOffset : ℤ
  startOffset : ℤ
  deriving DecidableEq

namespace EntrySetHeader

/-- `sizeof(EntrySetHeader)`. -/
def byteSize : ℕ := 24

def ofBytes (b : Bytes) : EntrySetHeader :=
  ⟨b.getInt32 0, b.getInt32 4, b.getInt64 8, b.getInt64 16⟩

/-- The other member of the union. -/
def header (entrySet : EntrySetHeader) : NodeHeader :=
  ⟨entrySet.index, entrySet.count, entrySet.endOffset⟩

end EntrySetHeader

/-- `impl::BucketTreeNode` over the bytes of a node. -/
structure BucketTreeNode where
  bytes : Bytes

namespace BucketTreeNode

variable (node : BucketTreeNode)

def getCount : ℤ := (NodeHeader.ofBytes node.bytes).count

/-- `GetArray`. -/
def getArray (i : ℕ) : ℤ := node.bytes.getInt64 (NodeHeader.byteSize + 8 * i)

def getBeginOffset : ℤ := node.getArray 0

def getEndOffset : ℤ := (NodeHeader.ofBytes node.bytes).offset

/-- The offset of the first entry: it is behind the offsets of the nodes L2 if there is room. -/
def getStartOffset (offsetCount entrySetCount : ℕ) : ℤ :=
  if offsetCount < entrySetCount ∧ node.getCount < offsetCount then
    node.getArray node.getCount.toNat
  else node.getArray 0

/-- `std::upper_bound` over a part of the array. -/
def upperBound (start count : ℕ) (virtualAddress : ℤ) : ℕ :=
  Search.upperBound (m := Id) node.getArray virtualAddress start count

end BucketTreeNode

/-- `StorageNode`: offsets that stand at a fixed distance from each other. -/
structure StorageNode where
  start : ℕ
  stride : ℕ
  count : ℕ

namespace StorageNode

variable (node : StorageNode)

/-- The position of an offset. A position of the search is kept as its number of strides. -/
def position (i : ℕ) : ℕ := node.start + i * node.stride

/-- `Find` in a buffer. -/
def find (buffer : Bytes) (virtualAddress : ℤ) : ℤ :=
  let pos : ℕ := Search.upperBound (m := Id) (fun i => buffer.getInt64 (node.position i))
    virtualAddress 0 node.count
  pos - 1

/-- `Find` in a storage. -/
def findInStorage (storage : SubStorage) (virtualAddress : ℤ) : FsOp ℤ := do
  let readOffset (i : ℕ) : FsOp ℤ := do
    let offset ← storage.read (node.position i) (fun _ => 0) 0 8
    return offset.getInt64 0
  let pos ← Search.upperBound readOffset virtualAddress 0 node.count
  return (pos : ℤ) - 1

end StorageNode

/-- `util::DivideUp`. -/
def divideUp (v d : ℕ) : ℕ := (v + (d - 1)) / d

structure BucketTree where
  nodeStorage : SubStorage
  entryStorage : SubStorage
  nodeL1 : BucketTreeNode
  nodeSize : ℕ
  entrySize : ℕ
  entryCount : ℕ
  offsetCount : ℕ
  entrySetCount : ℕ
  startOffset : ℤ
  endOffset : ℤ

namespace BucketTree

/-- `GetEntryCount` of a node. -/
def getEntryCount (nodeSize entrySize : ℕ) : ℕ := (nodeSize - NodeHeader.byteSize) / entrySize

def getOffsetCount (nodeSize : ℕ) : ℕ := (nodeSize - NodeHeader.byteSize) / 8

def getEntrySetCount (nodeSize entrySize entryCount : ℕ) : ℕ :=
  divideUp entryCount (getEntryCount nodeSize entrySize)

/-- `GetNodeL2Count`, which aborts if two levels are not enough. -/
def getNodeL2Count (nodeSize entrySize entryCount : ℕ) : Option ℕ :=
  let offsetCountPerNode := getOffsetCount nodeSize
  let entrySetCount := getEntrySetCount nodeSize entrySize entryCount
  if entrySetCount ≤ offsetCountPerNode then some 0
  else
    let nodeL2Count := divideUp entrySetCount offsetCountPerNode
    if nodeL2Count ≤ offsetCountPerNode then
      some (divideUp (entrySetCount - (offsetCountPerNode - (nodeL2Count - 1))) offsetCountPerNode)
    else none

/-- `Initialize`. -/
def initializeTree (allocated : Bool) (nodeStorage entryStorage : SubStorage)
    (nodeSize entrySize : ℕ) (entryCount : ℤ) : FsOp BucketTree := do
  require (0 < entryCount) .invalidArgument
  require allocated .bufferAllocationFailed
  let bytes ← nodeStorage.read 0 (fun _ => 0) 0 nodeSize
  (NodeHeader.ofBytes bytes).verify 0 nodeSize 8
  let offsetCount := getOffsetCount nodeSize
  let entrySetCount := getEntrySetCount nodeSize entrySize entryCount.toNat
  let node : BucketTreeNode := ⟨bytes⟩
  let startOffset := node.getStartOffset offsetCount entrySetCount
  let endOffset := node.getEndOffset
  require (0 ≤ startOffset ∧ startOffset ≤ node.getBeginOffset) .invalidBucketTreeEntryOffset
  require (startOffset < endOffset) .invalidBucketTreeEntryOffset
  return {
    nodeStorage := nodeStorage
    entryStorage := entryStorage
    nodeL1 := node
    nodeSize := nodeSize
    entrySize := entrySize
    entryCount := entryCount.toNat
    offsetCount := offsetCount
    entrySetCount := entrySetCount
    startOffset := startOffset
    endOffset := endOffset }

variable (tree : BucketTree)

def isEmpty : Bool := tree.entrySize = 0

def isExistL2 : Bool := tree.offsetCount < tree.entrySetCount

def isExistOffsetL2OnL1 : Bool := tree.isExistL2 && tree.nodeL1.getCount < tree.offsetCount

def getEntrySetIndex (nodeIndex offsetIndex : ℤ) : ℤ :=
  (tree.offsetCount - tree.nodeL1.getCount) + tree.offsetCount * nodeIndex + offsetIndex

/-- `Includes` of an offset. -/
def includes (offset : ℤ) : Bool := tree.startOffset ≤ offset && offset < tree.endOffset

/-- `Includes` of a range. -/
def includesRange (offset size : ℤ) : Bool :=
  0 < size && tree.startOffset ≤ offset && size ≤ tree.endOffset - offset

end BucketTree

/-- `impl::GetBucketTreeEntryOffset`. -/
def getBucketTreeEntryOffset (entrySetOffset entrySize entryIndex : ℕ) : ℕ :=
  entrySetOffset + NodeHeader.byteSize + entryIndex * entrySize

/-- What `BucketTree::Visitor` points at. -/
structure Visitor where
  entry : Bytes
  entryIndex : ℤ
  entrySetCount : ℕ
  entrySet : EntrySetHeader

/-- The memory that a search gets: whether the entry of the visitor can be allocated, and the
pooled buffers for a node and for an entry set. -/
structure FindMemory where
  entryAllocated : Bool
  nodePool : PooledBuffer
  entryPool : PooledBuffer

namespace Visitor

variable (tree : BucketTree)

def findEntrySetWithBuffer (virtualAddress : ℤ) (nodeIndex : ℕ) (buffer : Bytes) : FsOp ℤ := do
  let nodeOffset := (nodeIndex + 1) * tree.nodeSize
  let buffer ← tree.nodeStorage.read nodeOffset buffer 0 tree.nodeSize
  let header := NodeHeader.ofBytes buffer
  header.verify nodeIndex tree.nodeSize 8
  let node : StorageNode := ⟨NodeHeader.byteSize, 8, header.count.toNat⟩
  let index := node.find buffer virtualAddress
  require (0 ≤ index) .invalidBucketTreeVirtualOffset
  return tree.getEntrySetIndex header.index index

def findEntrySetWithoutBuffer (virtualAddress : ℤ) (nodeIndex : ℕ) : FsOp ℤ := do
  let nodeOffset := (nodeIndex + 1) * tree.nodeSize
  let bytes ← tree.nodeStorage.read nodeOffset (fun _ => 0) 0 NodeHeader.byteSize
  let header := NodeHeader.ofBytes bytes
  header.verify nodeIndex tree.nodeSize 8
  let node : StorageNode := ⟨NodeHeader.byteSize + nodeOffset, 8, header.count.toNat⟩
  let index ← node.findInStorage tree.nodeStorage virtualAddress
  require (0 ≤ index) .outOfRange
  return tree.getEntrySetIndex header.index index

def findEntrySet (pool : PooledBuffer) (virtualAddress : ℤ) (nodeIndex : ℕ) : FsOp ℤ :=
  if tree.nodeSize ≤ pool.size then
    findEntrySetWithBuffer tree virtualAddress nodeIndex pool.buffer
  else findEntrySetWithoutBuffer tree virtualAddress nodeIndex

def findEntryWithBuffer (virtualAddress : ℤ) (entrySetIndex : ℕ) (buffer : Bytes) :
    FsOp Visitor := do
  let entrySetOffset := entrySetIndex * tree.nodeSize
  let buffer ← tree.entryStorage.read entrySetOffset buffer 0 tree.nodeSize
  let entrySet := EntrySetHeader.ofBytes buffer
  entrySet.header.verify entrySetIndex tree.nodeSize tree.entrySize
  let node : StorageNode := ⟨NodeHeader.byteSize, tree.entrySize, entrySet.count.toNat⟩
  let index := node.find buffer virtualAddress
  require (0 ≤ index) .outOfRange
  let entryOffset := getBucketTreeEntryOffset 0 tree.entrySize index.toNat
  return ⟨Bytes.write (fun _ => 0) 0 tree.entrySize (buffer.drop entryOffset), index,
    tree.entrySetCount, entrySet⟩

def findEntryWithoutBuffer (virtualAddress : ℤ) (entrySetIndex : ℕ) : FsOp Visitor := do
  let entrySetOffset := entrySetIndex * tree.nodeSize
  let bytes ← tree.entryStorage.read entrySetOffset (fun _ => 0) 0 EntrySetHeader.byteSize
  let entrySet := EntrySetHeader.ofBytes bytes
  entrySet.header.verify entrySetIndex tree.nodeSize tree.entrySize
  let node : StorageNode :=
    ⟨NodeHeader.byteSize + entrySetOffset, tree.entrySize, entrySet.count.toNat⟩
  let index ← node.findInStorage tree.entryStorage virtualAddress
  require (0 ≤ index) .outOfRange
  let entryOffset := getBucketTreeEntryOffset entrySetOffset tree.entrySize index.toNat
  let entry ← tree.entryStorage.read entryOffset (fun _ => 0) 0 tree.entrySize
  return ⟨entry, index, tree.entrySetCount, entrySet⟩

/-- `FindEntry`, with the count of entry sets that `Find` sets after it. -/
def findEntry (pool : PooledBuffer) (virtualAddress : ℤ) (entrySetIndex : ℕ) : FsOp Visitor :=
  if tree.nodeSize ≤ pool.size then
    findEntryWithBuffer tree virtualAddress entrySetIndex pool.buffer
  else findEntryWithoutBuffer tree virtualAddress entrySetIndex

/-- The entry set index of `Find`. -/
def findEntrySetIndex (pool : PooledBuffer) (virtualAddress : ℤ) : FsOp ℤ :=
  let node := tree.nodeL1
  let count := node.getCount.toNat
  if tree.isExistOffsetL2OnL1 ∧ virtualAddress < node.getBeginOffset then do
    let pos := node.upperBound count (tree.offsetCount - count) virtualAddress
    require (count < pos) .outOfRange
    return ((pos - 1 - count : ℕ) : ℤ)
  else do
    let pos := node.upperBound 0 count virtualAddress
    require (0 < pos) .outOfRange
    if tree.isExistL2 then
      require (pos - 1 < tree.offsetCount) .invalidBucketTreeNodeOffset
      findEntrySet tree pool virtualAddress (pos - 1)
    else
      return ((pos - 1 : ℕ) : ℤ)

/-- `Visitor::Find`. -/
def find (memory : FindMemory) (virtualAddress : ℤ) : FsOp Visitor := do
  require (virtualAddress < tree.nodeL1.getEndOffset) .outOfRange
  let entrySetIndex ← findEntrySetIndex tree memory.nodePool virtualAddress
  require (0 ≤ entrySetIndex ∧ entrySetIndex < tree.entrySetCount) .invalidBucketTreeNodeOffset
  findEntry tree memory.entryPool virtualAddress entrySetIndex.toNat

end Visitor

/-- `BucketTree::Find` with a new visitor. -/
def BucketTree.find (tree : BucketTree) (memory : FindMemory) (virtualAddress : ℤ) :
    FsOp Visitor := do
  require (0 ≤ virtualAddress) .invalidOffset
  require (tree.isEmpty = false) .outOfRange
  require memory.entryAllocated .bufferAllocationFailed
  Visitor.find tree memory virtualAddress

end Atmosphere.Fs
