import Atmosphere.Kern.Basic

/-!
# The layout of messages

A message is an array of words. It begins with the two words of its header and, if the
header says so, the word of a special header. The process id and the handles that the
special header announces follow, then the descriptors of buffers, the raw data and the
receive list.
-/

namespace Atmosphere.Kern

open Function (update update_of_ne)

/-- The words of a message buffer. -/
abbrev Words := ℕ → BitVec 32

/-- A field of a `util::BitPack32`. -/
def bitPackField (word : BitVec 32) (index count : ℕ) : ℕ := (word.extractLsb' index count).toNat

/-- `MessageBuffer::MessageHeader`. -/
structure MessageHeader where
  first : BitVec 32
  second : BitVec 32
  deriving DecidableEq

namespace MessageHeader

variable (header : MessageHeader)

def getPointerCount : ℕ := bitPackField header.first 16 4

def getSendCount : ℕ := bitPackField header.first 20 4

def getReceiveCount : ℕ := bitPackField header.first 24 4

def getExchangeCount : ℕ := bitPackField header.first 28 4

def getMapAliasCount : ℕ := header.getSendCount + header.getReceiveCount + header.getExchangeCount

def getRawCount : ℕ := bitPackField header.second 0 10

def getReceiveListCount : ℕ := bitPackField header.second 10 4

def getReceiveListOffset : ℕ := bitPackField header.second 20 11

def getHasSpecialHeader : Bool := bitPackField header.second 31 1 = 1

end MessageHeader

/-- `MessageBuffer::SpecialHeader`. -/
structure SpecialHeader where
  word : BitVec 32
  hasHeader : Bool
  deriving DecidableEq

namespace SpecialHeader

variable (special : SpecialHeader)

def getHasProcessId : Bool := bitPackField special.word 0 1 = 1

def getCopyHandleCount : ℕ := bitPackField special.word 1 4

def getMoveHandleCount : ℕ := bitPackField special.word 5 4

/-- `GetHeaderSize` in bytes. -/
def getHeaderSize : ℕ := if special.hasHeader then 4 else 0

/-- The bytes of the process id. -/
def processIdSize : ℕ := if special.getHasProcessId then 8 else 0

/-- `GetDataSize` in bytes. -/
def getDataSize : ℕ :=
  if special.hasHeader then
    special.processIdSize + special.getCopyHandleCount * 4 + special.getMoveHandleCount * 4
  else 0

end SpecialHeader

namespace MessageBuffer

variable (header : MessageHeader) (special : SpecialHeader)

def getSpecialDataIndex : ℕ := 8 / 4 + special.getHeaderSize / 4

def getPointerDescriptorIndex : ℕ := getSpecialDataIndex special + special.getDataSize / 4

def getMapAliasDescriptorIndex : ℕ :=
  getPointerDescriptorIndex special + header.getPointerCount * 8 / 4

def getRawDataIndex : ℕ :=
  getMapAliasDescriptorIndex header special + header.getMapAliasCount * 12 / 4

def getReceiveListIndex : ℕ :=
  if header.getReceiveListOffset ≠ 0 then header.getReceiveListOffset
  else getRawDataIndex header special + header.getRawCount

/-- `GetMessageBufferSize` in bytes. -/
def getMessageBufferSize : ℕ :=
  getReceiveListIndex header special * 4 + match header.getReceiveListCount with
    | 0 => 0
    | 1 => 0
    | 2 => 8
    | count => (count - 2) * 8

end MessageBuffer

namespace Words

variable (msg : Words)

/-- The header that a message begins with. -/
def header : MessageHeader := ⟨msg 0, msg 1⟩

/-- The special header of a message, zero where the header announces none. -/
def specialHeader (header : MessageHeader) : SpecialHeader :=
  ⟨if header.getHasSpecialHeader then msg 2 else 0, header.getHasSpecialHeader⟩

end Words

end Atmosphere.Kern
