import Atmosphere.Kern.HandleTable
import Atmosphere.Kern.MessageBuffer

/-!
# The handles of a message

`ProcessMessageSpecialData` copies and moves the handles of a message from the table of
the source process to the table of the destination process and writes the new handles
into the destination message. `CleanupSpecialData` reads them back from there and closes
them. The tables belong to two different processes, and nobody else changes them, the
reference counts or the destination message in between.
-/

namespace Atmosphere.Kern

/-- A `Result`. -/
abbrev IpcResult := Except SvcResult Unit

/-- What IPC reads of the source and does not change. -/
structure IpcSource (α : Type) where
  /-- The process that sends the message. -/
  process : α
  /-- The thread that sends the message. -/
  thread : α
  processId : BitVec 64
  /-- `DynamicCast<KInterruptEvent *>() != nullptr`. -/
  isInterruptEvent : α → Bool
  msg : Words

/-- What the transfer of handles changes. -/
structure IpcState (α : Type) where
  src : KHandleTable α
  dst : KHandleTable α
  /-- The reference count of every object. -/
  refCount : α → ℤ
  /-- The destination message. -/
  msg : Words

namespace IpcState

variable {α : Type} [DecidableEq α] (s : IpcState α)

/-- `KAutoObject::Close`. -/
def closeObject (obj : α) : IpcState α :=
  { s with refCount := Function.update s.refCount obj (s.refCount obj - 1) }

/-- `Remove` from the source table, which closes the object. -/
def removeFromSource (handle : Handle) : IpcState α :=
  match s.src.remove handle with
  | some (obj, src) => { s with src := src }.closeObject obj
  | none => s

end IpcState

namespace IpcSource

variable {α : Type} [DecidableEq α] (c : IpcSource α)

/-- The header of the source message. -/
def header : MessageHeader := c.msg.header

/-- The special header of the source message. -/
def specialHeader : SpecialHeader := c.msg.specialHeader c.header

/-- `GetObjectForIpcWithoutPseudoHandle`. -/
def getObjectForIpcWithoutPseudoHandle (t : KHandleTable α) (handle : Handle) : Option α :=
  match t.getObjectImpl handle with
  | some obj => if c.isInterruptEvent obj then none else some obj
  | none => none

/-- `GetObjectForIpc`. -/
def getObjectForIpc (t : KHandleTable α) (handle : Handle) : Option α :=
  if handle = .currentProcess then some c.process
  else if handle = .currentThread then some c.thread
  else c.getObjectForIpcWithoutPseudoHandle t handle

/-- The parts of the message after the special data: whether they can be processed, and what
they write into the destination message. Descriptors and raw data go behind the handles, but a
pointer buffer goes where the receive list says, which may be anywhere. -/
structure LaterParts where
  result : IpcResult
  write : Words → Words

/-- `R_UNLESS`. -/
def require (condition : Bool) (error : SvcResult) : IpcResult :=
  if condition then .ok () else .error error

/-- The checks of the sizes that `ReceiveMessage` and `SendMessage` make. -/
def fits (header : MessageHeader) (special : SpecialHeader) (bufferSize : ℕ) : Bool :=
  MessageBuffer.getMessageBufferSize header special ≤ bufferSize

variable (srcBufferSize dstBufferSize : ℕ)

end IpcSource

end Atmosphere.Kern
