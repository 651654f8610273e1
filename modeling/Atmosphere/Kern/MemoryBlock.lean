import Atmosphere.Kern.Basic
import Atmosphere.Lib.Tiling.Pass

/-!
# Memory blocks

`KMemoryBlock` describes a run of pages with one state, permission and
attribute, the two use counts of its pages, and the merge-disable state of its
two ends. The member functions are translated one by one.

What a block says falls into three parts: the properties of its pages, a mark
at its left end and a mark at its right end. Every member function acts on the
three parts separately, which is what makes a tree of blocks a tiling in the
sense of `Tiling.Shape`.
-/

namespace Atmosphere.Kern

/-- `KMemoryState`, a 32-bit set of flags over a state number. -/
abbrev KMemoryState := BitVec 32

/-- `KMemoryPermission`. -/
abbrev KMemoryPermission := BitVec 8

/-- `KMemoryAttribute`. -/
abbrev KMemoryAttribute := BitVec 8

namespace KMemoryState

def free : KMemoryState := 0x00000000#32
def flagCanDeviceMap : KMemoryState := 0x00080000#32
def flagCanAlignedDeviceMap : KMemoryState := 0x00100000#32
def flagReferenceCounted : KMemoryState := 0x00400000#32
def normal : KMemoryState := 0x037ebd05#32

end KMemoryState

namespace KMemoryPermission

def none : KMemoryPermission := 0x00#8
def kernelRead : KMemoryPermission := 0x08#8
def kernelWrite : KMemoryPermission := 0x10#8
def notMapped : KMemoryPermission := 0x40#8
def userRead : KMemoryPermission := 0x01#8 ||| kernelRead
def userWrite : KMemoryPermission := 0x02#8 ||| kernelWrite
def userReadWrite : KMemoryPermission := userRead ||| userWrite
def ipcLockChangeMask : KMemoryPermission := notMapped ||| userReadWrite

end KMemoryPermission

namespace KMemoryAttribute

def none : KMemoryAttribute := 0x00#8
def locked : KMemoryAttribute := 0x01#8
def ipcLocked : KMemoryAttribute := 0x02#8
def deviceShared : KMemoryAttribute := 0x04#8

end KMemoryAttribute

/-- A flag that was clear is clear again after it was set and cleared. -/
theorem or_and_compl {n : ℕ} {a l : BitVec n} (h : a &&& l = 0) : (a ||| l) &&& ~~~l = a := by
  apply BitVec.eq_of_getLsbD_eq
  intro i hi
  have hbit := congrArg (fun w => w.getLsbD i) h
  simp only [BitVec.getLsbD_and, BitVec.ofNat_eq_ofNat, BitVec.getLsbD_zero] at hbit
  simp only [BitVec.getLsbD_and, BitVec.getLsbD_or, BitVec.getLsbD_not, hi, decide_true,
    Bool.true_and]
  revert hbit
  cases a.getLsbD i <;> cases l.getLsbD i <;> simp

/-- `KMemoryBlockDisableMergeAttribute`: the five flags of the enumeration. -/
structure KMemoryBlockDisableMergeAttribute where
  normal : Bool
  deviceLeft : Bool
  ipcLeft : Bool
  locked : Bool
  deviceRight : Bool
  deriving DecidableEq, Repr

namespace KMemoryBlockDisableMergeAttribute

def none : KMemoryBlockDisableMergeAttribute := ⟨false, false, false, false, false⟩
def allLeft : KMemoryBlockDisableMergeAttribute := ⟨true, true, true, true, false⟩
def allRight : KMemoryBlockDisableMergeAttribute := ⟨false, false, false, false, true⟩

instance : OrOp KMemoryBlockDisableMergeAttribute where
  or m n := ⟨m.normal || n.normal, m.deviceLeft || n.deviceLeft, m.ipcLeft || n.ipcLeft,
    m.locked || n.locked, m.deviceRight || n.deviceRight⟩

instance : AndOp KMemoryBlockDisableMergeAttribute where
  and m n := ⟨m.normal && n.normal, m.deviceLeft && n.deviceLeft, m.ipcLeft && n.ipcLeft,
    m.locked && n.locked, m.deviceRight && n.deviceRight⟩

instance : Complement KMemoryBlockDisableMergeAttribute where
  complement m := ⟨!m.normal, !m.deviceLeft, !m.ipcLeft, !m.locked, !m.deviceRight⟩

theorem and_allLeft (m : KMemoryBlockDisableMergeAttribute) :
    m &&& allLeft = ⟨m.normal, m.deviceLeft, m.ipcLeft, m.locked, false⟩ := by
  simp [HAnd.hAnd, AndOp.and, allLeft]

theorem and_allRight (m : KMemoryBlockDisableMergeAttribute) :
    m &&& allRight = ⟨false, false, false, false, m.deviceRight⟩ := by
  simp [HAnd.hAnd, AndOp.and, allRight]

end KMemoryBlockDisableMergeAttribute

/-- `KMemoryBlock`. The links of the intrusive tree are not part of it: a tree is
the list of its blocks in order. -/
structure KMemoryBlock where
  deviceDisableMergeLeftCount : BitVec 16
  deviceDisableMergeRightCount : BitVec 16
  address : ℕ
  numPages : ℕ
  memoryState : KMemoryState
  ipcLockCount : BitVec 16
  deviceUseCount : BitVec 16
  ipcDisableMergeCount : BitVec 16
  permission : KMemoryPermission
  originalPermission : KMemoryPermission
  attr : KMemoryAttribute
  disableMergeAttribute : KMemoryBlockDisableMergeAttribute
  deriving DecidableEq, Repr

/-- The properties every page of a block has: what `HasSameProperties` compares. -/
structure PageProperties where
  memoryState : KMemoryState
  permission : KMemoryPermission
  originalPermission : KMemoryPermission
  attr : KMemoryAttribute
  ipcLockCount : BitVec 16
  deviceUseCount : BitVec 16
  deriving DecidableEq, Repr

/-- The merge-disable state of a block's left end. -/
structure LeftMark where
  normal : Bool
  deviceLeft : Bool
  ipcLeft : Bool
  locked : Bool
  ipcDisableMergeCount : BitVec 16
  deviceDisableMergeLeftCount : BitVec 16
  deriving DecidableEq, Repr

/-- The merge-disable state of a block's right end. -/
structure RightMark where
  deviceRight : Bool
  deviceDisableMergeRightCount : BitVec 16
  deriving DecidableEq, Repr

namespace LeftMark

/-- The mark of the right part of a split block. -/
def clear : LeftMark := ⟨false, false, false, false, 0#16, 0#16⟩

/-- `(attr & AllLeft) == 0`. -/
def Open (l : LeftMark) : Prop :=
  l.normal = false ∧ l.deviceLeft = false ∧ l.ipcLeft = false ∧ l.locked = false

instance (l : LeftMark) : Decidable l.Open := inferInstanceAs (Decidable (_ ∧ _))

end LeftMark

namespace RightMark

/-- The mark of the left part of a split block. -/
def clear : RightMark := ⟨false, 0#16⟩

/-- `(attr & AllRight) == 0`. -/
def Open (r : RightMark) : Prop := r.deviceRight = false

instance (r : RightMark) : Decidable r.Open := inferInstanceAs (Decidable (_ = _))

end RightMark

namespace PageProperties

/-- The bits that `HasProperties` ignores and `Update` carries over. -/
def attributeIgnoreMask : KMemoryAttribute :=
  KMemoryAttribute.ipcLocked ||| KMemoryAttribute.deviceShared

def hasProperties (v : PageProperties) (s : KMemoryState) (p : KMemoryPermission)
    (a : KMemoryAttribute) : Bool :=
  v.memoryState == s && v.permission == p &&
    (v.attr ||| attributeIgnoreMask) == (a ||| attributeIgnoreMask)

/-- What `Update` makes of a page. -/
def update (s : KMemoryState) (p : KMemoryPermission) (a : KMemoryAttribute)
    (v : PageProperties) : PageProperties :=
  { v with
    memoryState := s
    permission := p
    attr := a ||| (v.attr &&& attributeIgnoreMask) }

/-- What `UpdateIfMatch` makes of a page. -/
def updateIfMatch (ts : KMemoryState) (tp : KMemoryPermission) (ta : KMemoryAttribute)
    (s : KMemoryState) (p : KMemoryPermission) (a : KMemoryAttribute)
    (v : PageProperties) : PageProperties :=
  if v.hasProperties ts tp ta then v.update s p a else v

/-- A page that already has the new properties is left as it is. The new
attribute carries neither of the ignored bits, as the source asserts. -/
theorem update_of_hasProperties {s : KMemoryState} {p : KMemoryPermission}
    {a : KMemoryAttribute} {v : PageProperties} (ha : a &&& attributeIgnoreMask = 0)
    (h : v.hasProperties s p a = true) : v.update s p a = v := by
  obtain ⟨state, perm, orig, attr, ipc, dev⟩ := v
  simp only [hasProperties, Bool.and_eq_true, beq_iff_eq] at h
  obtain ⟨⟨rfl, rfl⟩, h⟩ := h
  have hbit : ∀ i : ℕ, (attr.getLsbD i || attributeIgnoreMask.getLsbD i) =
      (a.getLsbD i || attributeIgnoreMask.getLsbD i) := fun i => by
    have := congrArg (fun w => w.getLsbD i) h
    simpa only [BitVec.getLsbD_or] using this
  have hclear : ∀ i : ℕ, (a.getLsbD i && attributeIgnoreMask.getLsbD i) = false := fun i => by
    have := congrArg (fun w => w.getLsbD i) ha
    simpa only [BitVec.getLsbD_and, BitVec.getLsbD_zero, BitVec.ofNat_eq_ofNat] using this
  have hattr : a ||| (attr &&& attributeIgnoreMask) = attr := by
    apply BitVec.eq_of_getLsbD_eq
    intro i _
    rw [BitVec.getLsbD_or, BitVec.getLsbD_and]
    have h₁ := hbit i
    have h₂ := hclear i
    revert h₁ h₂
    cases attr.getLsbD i <;> cases a.getLsbD i <;> cases attributeIgnoreMask.getLsbD i <;> simp
  simp [update, hattr]

end PageProperties

namespace KMemoryBlock

def getSize (b : KMemoryBlock) : ℕ := b.numPages * pageSize
def getEndAddress (b : KMemoryBlock) : ℕ := b.address + b.getSize
def getLastAddress (b : KMemoryBlock) : ℕ := b.getEndAddress - 1

/-- `Compare`, on the address of the left argument. -/
def compare (lhs : ℕ) (rhs : KMemoryBlock) : Ordering :=
  if lhs < rhs.address then .lt else if lhs ≤ rhs.getLastAddress then .eq else .gt

variable (b : KMemoryBlock)

def properties : PageProperties :=
  ⟨b.memoryState, b.permission, b.originalPermission, b.attr, b.ipcLockCount, b.deviceUseCount⟩

def leftMark : LeftMark :=
  ⟨b.disableMergeAttribute.normal, b.disableMergeAttribute.deviceLeft,
    b.disableMergeAttribute.ipcLeft, b.disableMergeAttribute.locked, b.ipcDisableMergeCount,
    b.deviceDisableMergeLeftCount⟩

def rightMark : RightMark :=
  ⟨b.disableMergeAttribute.deviceRight, b.deviceDisableMergeRightCount⟩

/-- The block with its three parts replaced. -/
def withParts (v : PageProperties) (l : LeftMark) (r : RightMark) : KMemoryBlock where
  deviceDisableMergeLeftCount := l.deviceDisableMergeLeftCount
  deviceDisableMergeRightCount := r.deviceDisableMergeRightCount
  address := b.address
  numPages := b.numPages
  memoryState := v.memoryState
  ipcLockCount := v.ipcLockCount
  deviceUseCount := v.deviceUseCount
  ipcDisableMergeCount := l.ipcDisableMergeCount
  permission := v.permission
  originalPermission := v.originalPermission
  attr := v.attr
  disableMergeAttribute := ⟨l.normal, l.deviceLeft, l.ipcLeft, l.locked, r.deviceRight⟩

/-- The constructor taking `ConstantInitializeTag`: every field is set. -/
def constantInitialize (addr np : ℕ) (ms : KMemoryState) (p : KMemoryPermission)
    (a : KMemoryAttribute) : KMemoryBlock where
  deviceDisableMergeLeftCount := 0#16
  deviceDisableMergeRightCount := 0#16
  address := addr
  numPages := np
  memoryState := ms
  ipcLockCount := 0#16
  deviceUseCount := 0#16
  ipcDisableMergeCount := 0#16
  permission := p
  originalPermission := KMemoryPermission.none
  attr := a
  disableMergeAttribute := .none

/-- `Initialize` on a block whose storage holds the stale value `b`. -/
def initializeBlock (b : KMemoryBlock) (addr np : ℕ) (ms : KMemoryState)
    (p : KMemoryPermission) (a : KMemoryAttribute) : KMemoryBlock :=
  -- the source does not assign `m_ipc_disable_merge_count`
  { b with
    deviceDisableMergeLeftCount := 0#16
    deviceDisableMergeRightCount := 0#16
    address := addr
    numPages := np
    memoryState := ms
    ipcLockCount := 0#16
    deviceUseCount := 0#16
    permission := p
    originalPermission := KMemoryPermission.none
    attr := a
    disableMergeAttribute := .none }

def hasProperties (b : KMemoryBlock) (s : KMemoryState) (p : KMemoryPermission)
    (a : KMemoryAttribute) : Bool := b.properties.hasProperties s p a

def hasSameProperties (b rhs : KMemoryBlock) : Bool :=
  b.memoryState == rhs.memoryState && b.permission == rhs.permission &&
    b.originalPermission == rhs.originalPermission && b.attr == rhs.attr &&
    b.ipcLockCount == rhs.ipcLockCount && b.deviceUseCount == rhs.deviceUseCount

def canMergeWith (b rhs : KMemoryBlock) : Bool :=
  b.hasSameProperties rhs && (b.disableMergeAttribute &&& .allRight) == .none &&
    (rhs.disableMergeAttribute &&& .allLeft) == .none

/-- `Add`: the block takes over the pages and the right end of its successor. -/
def add (b added : KMemoryBlock) : KMemoryBlock :=
  { b with
    numPages := b.numPages + added.numPages
    disableMergeAttribute := b.disableMergeAttribute ||| added.disableMergeAttribute
    deviceDisableMergeRightCount := added.deviceDisableMergeRightCount }

variable (b : KMemoryBlock)

def update (s : KMemoryState) (p : KMemoryPermission) (a : KMemoryAttribute)
    (setDisableMergeAttr : Bool) (setMask clearMask : KMemoryBlockDisableMergeAttribute) :
    KMemoryBlock :=
  let b := { b with
    memoryState := s
    permission := p
    attr := a ||| (b.attr &&& PageProperties.attributeIgnoreMask) }
  let b := if setDisableMergeAttr ∧ setMask ≠ .none then
      { b with disableMergeAttribute := b.disableMergeAttribute ||| setMask } else b
  if clearMask ≠ .none then
    { b with disableMergeAttribute := b.disableMergeAttribute &&& ~~~clearMask } else b

/-- `Split` at `addr`: the new block in front, and the block itself afterwards. -/
def split (addr : ℕ) : KMemoryBlock × KMemoryBlock :=
  let block : KMemoryBlock :=
    { address := b.address
      numPages := (addr - b.address) / pageSize
      memoryState := b.memoryState
      ipcLockCount := b.ipcLockCount
      deviceUseCount := b.deviceUseCount
      permission := b.permission
      originalPermission := b.originalPermission
      attr := b.attr
      disableMergeAttribute := b.disableMergeAttribute &&& .allLeft
      ipcDisableMergeCount := b.ipcDisableMergeCount
      deviceDisableMergeLeftCount := b.deviceDisableMergeLeftCount
      deviceDisableMergeRightCount := 0#16 }
  (block, { b with
      address := addr
      numPages := b.numPages - block.numPages
      ipcDisableMergeCount := 0#16
      deviceDisableMergeLeftCount := 0#16
      disableMergeAttribute := b.disableMergeAttribute &&& .allRight })

section

variable (s : KMemoryState) (p : KMemoryPermission) (a : KMemoryAttribute) (left : Bool)
  (set clear : KMemoryBlockDisableMergeAttribute)
include s p a left set clear

@[simp] theorem properties_update :
    (b.update s p a left set clear).properties = b.properties.update s p a := by
  simp only [update]
  split <;> split <;> rfl

@[simp] theorem address_update : (b.update s p a left set clear).address = b.address := by
  simp only [update]
  split <;> split <;> rfl

@[simp] theorem numPages_update : (b.update s p a left set clear).numPages = b.numPages := by
  simp only [update]
  split <;> split <;> rfl

end

/-- Two blocks with one extent and the same three parts are the same block. -/
theorem eq_of_parts {b c : KMemoryBlock} (ha : b.address = c.address)
    (hn : b.numPages = c.numPages) (hv : b.properties = c.properties)
    (hl : b.leftMark = c.leftMark) (hr : b.rightMark = c.rightMark) : b = c := by
  obtain ⟨_, _, _, _, _, _, _, _, _, _, _, ⟨_, _, _, _, _⟩⟩ := b
  simp_all [properties, leftMark, rightMark]

theorem hasSameProperties_iff (b c : KMemoryBlock) :
    b.hasSameProperties c = true ↔ b.properties = c.properties := by
  simp [hasSameProperties, properties, and_assoc]

theorem canMergeWith_iff (b c : KMemoryBlock) :
    b.canMergeWith c = true ↔ b.properties = c.properties ∧ b.rightMark.Open ∧ c.leftMark.Open := by
  have hright : (b.disableMergeAttribute &&& .allRight) = .none ↔ b.rightMark.Open := by
    simp [KMemoryBlockDisableMergeAttribute.and_allRight, KMemoryBlockDisableMergeAttribute.none,
      RightMark.Open, rightMark]
  have hleft : (c.disableMergeAttribute &&& .allLeft) = .none ↔ c.leftMark.Open := by
    simp [KMemoryBlockDisableMergeAttribute.and_allLeft, KMemoryBlockDisableMergeAttribute.none,
      LeftMark.Open, leftMark]
  simp only [canMergeWith, Bool.and_eq_true, beq_iff_eq, hasSameProperties_iff, hright, hleft,
    and_assoc]

end KMemoryBlock

end Atmosphere.Kern
