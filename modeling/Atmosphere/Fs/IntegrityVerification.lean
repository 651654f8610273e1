import Atmosphere.Fs.Storage

/-!
# Integrity verification storages

`IntegrityVerificationStorage` keeps a hash of every block of a data storage in a hash storage.
`Read` checks the blocks it has read against their hashes and clears those that do not match.
`Write` updates the hashes with the data. `FillZero` changes the hashes only: in save data an all
zero hash says that the block is cleared.

The hash generator is a parameter, as are the answers of the storages below, which may fail any
access.
-/

namespace Atmosphere.Fs

/-- `fs::StorageType`. -/
inductive StorageType
  | saveData
  | romFs
  | authoring
  deriving DecidableEq, Repr

/-- `ResultIntegrityVerificationStorageCorrupted::Includes`. -/
def FsResult.isIntegrityVerificationStorageCorrupted : FsResult → Bool
  | .invalidZeroHash
  | .nonRealDataVerificationFailed
  | .clearedRealDataVerificationFailed
  | .unclearedRealDataVerificationFailed => true
  | _ => false

/-! ### Block hashes -/

def hashSize : ℕ := 32

abbrev BlockHash := Vector (BitVec 8) hashSize

namespace BlockHash

def setValidationBit (hash : BlockHash) : BlockHash :=
  hash.set (hashSize - 1) (hash.get ⟨hashSize - 1, by decide⟩ ||| 0x80)

def isValidationBit (hash : BlockHash) : Bool :=
  hash.get ⟨hashSize - 1, by decide⟩ &&& 0x80 != 0

/-- The hash of a block that was cleared. -/
def zero : BlockHash := Vector.replicate hashSize 0

/-- `IntegrityVerificationStorage::IsCleared`. -/
def isCleared (hash : BlockHash) : FsOp Bool :=
  if hash.isValidationBit then .ok false
  else if hash = zero then .ok true
  else .error .invalidZeroHash

/-- The hash with an index of an array of hashes. -/
def ofBytes (b : Bytes) (index : ℕ) : BlockHash := Vector.ofFn fun i => b (index * hashSize + i)

end BlockHash

/-- What a base storage answers to an access to some bytes from an offset on. -/
abbrev Answer := ℤ → ℕ → FsOp Unit

/-! ### The storage -/

structure IntegrityStorage where
  hashStorage : SubStorage
  dataStorage : SubStorage
  verificationBlockOrder : ℕ
  upperLayerVerificationBlockOrder : ℕ
  generator : List (BitVec 8) → BlockHash
  salt : List (BitVec 8)
  isRealData : Bool
  storageType : StorageType

namespace IntegrityStorage

variable (s : IntegrityStorage) (hashAnswer dataAnswer : Answer)

def verificationBlockSize : ℕ := 2 ^ s.verificationBlockOrder

/-- The bytes of the block with an index. -/
def block (b : Bytes) (index : ℕ) : List (BitVec 8) :=
  (List.range s.verificationBlockSize).map fun i => b (index * s.verificationBlockSize + i)

def calcBlockHash (block : List (BitVec 8)) : BlockHash :=
  if s.storageType = .saveData then (s.generator (s.salt ++ block)).setValidationBit
  else s.generator block

/-- The first check of `VerifyHash`: in save data the block may be uninitialized. -/
def checkCleared (hash : BlockHash) : FsOp Unit :=
  if s.storageType = .saveData then do
    let isCleared ← hash.isCleared
    require (!isCleared) .clearedRealDataVerificationFailed
  else .ok ()

def verifyHash (block : List (BitVec 8)) (hash : BlockHash) : FsOp Unit := do
  s.checkCleared hash
  require (hash = s.calcBlockHash block)
    (if s.isRealData then .unclearedRealDataVerificationFailed else .nonRealDataVerificationFailed)

/-- Where the signature of a block is. -/
def signOffset (offset : ℤ) : ℤ := offset / s.verificationBlockSize * hashSize

/-- The size of the signatures of some blocks. -/
def signSize (size : ℕ) : ℕ := size / s.verificationBlockSize * hashSize

def readBlockSignature (signatureBuffer : Bytes) (offset : ℤ) (size : ℕ) : FsOp Bytes := do
  require (s.signOffset offset + s.signSize size ≤ s.hashStorage.size) .outOfRange
  hashAnswer (s.signOffset offset) (s.signSize size)
  s.hashStorage.read (s.signOffset offset) signatureBuffer 0 (s.signSize size)

def writeBlockSignature (signatures : Bytes) (offset : ℤ) (size : ℕ) : FsOp IntegrityStorage := do
  hashAnswer (s.signOffset offset) (s.signSize size)
  let hashStorage ← s.hashStorage.write (s.signOffset offset) signatures (s.signSize size)
  return { s with hashStorage }

/-! ### Read -/

/-- A round of the loop over the signatures: the result of the verification so far and the
buffer, or the result that ends the loop. -/
def verifyBlock (signature : BlockHash) (index : ℕ) :
    FsOp Unit × Bytes → FsOp (FsOp Unit × Bytes)
  | (verifyHashResult, buffer) =>
    match s.verifyHash (s.block buffer index) signature with
    | .ok () => .ok (verifyHashResult, buffer)
    | .error result =>
      if result.isIntegrityVerificationStorageCorrupted then
        .ok (if result ≠ .clearedRealDataVerificationFailed ∧ s.storageType ≠ .authoring then
            .error result else verifyHashResult,
          buffer.clear (index * s.verificationBlockSize) s.verificationBlockSize)
      else .error result

/-- The loop over the signatures that were read. -/
def verifyBlocks (signatures : Bytes) (verifiedCount : ℕ) :
    ℕ → FsOp Unit × Bytes → FsOp (FsOp Unit × Bytes)
  | 0, verified => .ok verified
  | i + 1, verified => do
    let verified ← verifyBlocks signatures verifiedCount i verified
    s.verifyBlock (.ofBytes signatures i) (verifiedCount + i) verified

/-- The loop over the parts of the signatures. A round advances at least one block. -/
def verifySignatures (signatureBuffer : Bytes) (offset : ℤ) (signatureCount bufferCount : ℕ) :
    ℕ → ℕ → FsOp Unit × Bytes → FsOp (FsOp Unit × Bytes)
  | 0, _, verified => .ok verified
  | rounds + 1, verifiedCount, verified =>
    if verifiedCount < signatureCount then do
      let curCount := min bufferCount (signatureCount - verifiedCount)
      let signatures ← s.readBlockSignature hashAnswer signatureBuffer
        (offset + verifiedCount * s.verificationBlockSize) (curCount * s.verificationBlockSize)
      let verified ← s.verifyBlocks signatures verifiedCount curCount verified
      verifySignatures signatureBuffer offset signatureCount bufferCount rounds
        (verifiedCount + curCount) verified
    else .ok verified

/-- The size that is read, and the buffer with its padding cleared. -/
def readExtents (offset : ℤ) (buffer : Bytes) (size : ℕ) : ℕ × Bytes :=
  if offset + size > s.dataStorage.size then
    let paddingOffset := s.dataStorage.size - offset
    let paddingSize := s.verificationBlockSize - paddingOffset % s.verificationBlockSize
    (paddingOffset.toNat, buffer.clear paddingOffset.toNat paddingSize.toNat)
  else (size, buffer)

/-- The read of the data. -/
def readData (offset : ℤ) (buffer : Bytes) (size : ℕ) : FsOp Bytes := do
  dataAnswer offset size
  s.dataStorage.read offset buffer 0 size

/-- What follows the read of the data. If a signature cannot be read the whole buffer is
cleared. -/
def verify (pool : PooledBuffer) (offset : ℤ) (buffer : Bytes) (size : ℕ) : FsOp Unit × Bytes :=
  let signatureCount := size / s.verificationBlockSize
  let bufferCount := min signatureCount (pool.size / hashSize)
  match s.verifySignatures hashAnswer pool.buffer offset signatureCount bufferCount signatureCount
      0 (.ok (), buffer) with
  | .ok verified => verified
  | .error result => (.error result, buffer.clear 0 size)

/-- The checks that `Read` makes of its arguments. -/
def checkRead (address : ℕ) (offset : ℤ) (size : ℕ) : FsOp Unit := do
  require (address ≠ 0) .nullptrArgument
  require (offset ≤ s.dataStorage.size) .invalidOffset
  require (checkAccessRange offset size (alignUp s.dataStorage.size s.verificationBlockSize))
    .outOfRange

/-- `Read` into the buffer at an address, with a buffer of the pool for the signatures. -/
def read (pool : PooledBuffer) (address : ℕ) (offset : ℤ) (buffer : Bytes) (size : ℕ) :
    FsOp Unit × Bytes :=
  if size = 0 then (.ok (), buffer)
  else
    match s.checkRead address offset size with
    | .error result => (.error result, buffer)
    | .ok () =>
      let (readSize, buffer) := s.readExtents offset buffer size
      match s.readData dataAnswer offset buffer readSize with
      | .error result => (.error result, buffer.clear 0 size)
      | .ok buffer => s.verify hashAnswer pool offset buffer size

/-! ### Write -/

/-- The signature buffer after the hashes of some blocks of a buffer were calculated. -/
def calcSignatures (buffer : Bytes) (updatedCount : ℕ) : Bytes := fun i =>
  (s.calcBlockHash (s.block buffer (updatedCount + i / hashSize))).get
    ⟨i % hashSize, Nat.mod_lt _ (by decide)⟩

/-- The loop over the parts of the signatures: its result, the number of the blocks whose
signatures were written and the storage. -/
def updateSignatures (buffer : Bytes) (offset : ℤ) (signatureCount bufferCount : ℕ) :
    ℕ → ℕ → IntegrityStorage → FsOp Unit × ℕ × IntegrityStorage
  | 0, updatedCount, s => (.ok (), updatedCount, s)
  | rounds + 1, updatedCount, s =>
    if updatedCount < signatureCount then
      let curCount := min bufferCount (signatureCount - updatedCount)
      match s.writeBlockSignature hashAnswer (s.calcSignatures buffer updatedCount)
          (offset + updatedCount * s.verificationBlockSize)
          (curCount * s.verificationBlockSize) with
      | .error result => (.error result, updatedCount, s)
      | .ok s =>
        updateSignatures buffer offset signatureCount bufferCount rounds (updatedCount + curCount) s
    else (.ok (), updatedCount, s)

/-- The write of the data. -/
def writeData (offset : ℤ) (buffer : Bytes) (size : ℕ) : FsOp IntegrityStorage := do
  dataAnswer offset size
  let dataStorage ← s.dataStorage.write offset buffer size
  return { s with dataStorage }

/-- The checks that `Write` makes of its arguments. -/
def checkWrite (address : ℕ) (offset : ℤ) (size : ℕ) : FsOp Unit := do
  require (address ≠ 0) .nullptrArgument
  require (checkOffsetAndSize offset size) .invalidOffset
  require (offset < s.dataStorage.size) .invalidOffset
  require (checkAccessRange offset size (alignUp s.dataStorage.size s.verificationBlockSize))
    .outOfRange

/-- The size without the padding. -/
def writeSize (offset : ℤ) (size : ℕ) : ℕ :=
  if offset + size > s.dataStorage.size then (s.dataStorage.size - offset).toNat else size

/-- What `Write` does with arguments that passed the checks. -/
def writeBlocks (poolSize : ℕ) (offset : ℤ) (buffer : Bytes) (writeSize : ℕ) :
    FsOp Unit × IntegrityStorage :=
  let alignedWriteSize := (alignUp writeSize s.verificationBlockSize).toNat
  let signatureCount := alignedWriteSize / s.verificationBlockSize
  let bufferCount := min signatureCount (poolSize / hashSize)
  let (updateResult, updatedCount, s) :=
    updateSignatures hashAnswer buffer offset signatureCount bufferCount signatureCount 0 s
  match s.writeData dataAnswer offset buffer
      (min writeSize (updatedCount * s.verificationBlockSize)) with
  | .error result => (.error result, s)
  | .ok s => (updateResult, s)

/-- `Write` from the buffer at an address. -/
def write (poolSize address : ℕ) (offset : ℤ) (buffer : Bytes) (size : ℕ) :
    FsOp Unit × IntegrityStorage :=
  if size = 0 then (.ok (), s)
  else
    match s.checkWrite address offset size with
    | .error result => (.error result, s)
    | .ok () =>
      if s.writeSize offset size = 0 then (.ok (), s)
      else s.writeBlocks hashAnswer dataAnswer poolSize offset buffer (s.writeSize offset size)

/-! ### FillZero -/

/-- The loop that clears signatures in parts of the size of the work buffer. -/
def clearSignatures (signOffset : ℤ) (signSize bufSize : ℕ) :
    ℕ → ℕ → IntegrityStorage → FsOp Unit × IntegrityStorage
  | 0, _, s => (.ok (), s)
  | rounds + 1, remainingSize, s =>
    if 0 < remainingSize then
      let curSize := min remainingSize bufSize
      let offset := signOffset + signSize - remainingSize
      match (do hashAnswer offset curSize; s.hashStorage.write offset (fun _ => 0) curSize) with
      | .error result => (.error result, s)
      | .ok hashStorage =>
        clearSignatures signOffset signSize bufSize rounds (remainingSize - curSize)
          { s with hashStorage }
    else (.ok (), s)

/-- `OperateRange` with `OperationId::FillZero`; `allocated` says whether there was memory for
the work buffer. -/
def fillZero (allocated : Bool) (offset : ℤ) (size : ℕ) : FsOp Unit × IntegrityStorage :=
  if 0 ≤ offset ∧ offset ≤ s.dataStorage.size then
    let signOffset := s.signOffset offset
    let signSize := s.signSize (min ↑size (s.dataStorage.size - offset)).toNat
    let bufSize := min signSize (2 ^ (s.upperLayerVerificationBlockOrder + 2))
    if allocated then clearSignatures hashAnswer signOffset signSize bufSize signSize signSize s
    else (.error .allocationFailureInIntegrityVerificationStorageA, s)
  else (.error .invalidOffset, s)

end IntegrityStorage

end Atmosphere.Fs
