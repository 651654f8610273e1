import Atmosphere.Kern.CheckMemoryState
import Atmosphere.Kern.SpaceView

/-!
# Locks of an address space

The functions of `KPageTableBase` that lock pages for a device all go the same
way: the range must lie in the address space, its blocks must pass a check,
an update allocator is created with the number of blocks the check found, and
`UpdateLock` runs with a function of `KMemoryBlock`.
-/

namespace Atmosphere.Kern

/-- The part of `KPageTableBase` that the locks use. -/
structure KPageTableBase where
  addressSpaceStart : ℕ
  addressSpaceEnd : ℕ
  memoryBlockManager : KMemoryBlockManager
  memoryBlockSlabManager : KMemoryBlockSlabManager
  enableDeviceAddressSpaceMerge : Bool
  deriving DecidableEq, Repr

namespace KPageTableBase

open KMemoryBlockManager KMemoryBlockManagerUpdateAllocator

variable (pt : KPageTableBase)

/-- `Contains` of a range. -/
def contains (addr size : ℕ) : Bool :=
  pt.addressSpaceStart ≤ addr && addr < addr + size && addr + size - 1 ≤ pt.addressSpaceEnd - 1

variable (address size : ℕ)

/-- Checks a range, creates an update allocator and locks the blocks of the range.
The result comes with the table as the call leaves it. -/
def lockMemoryBlocks (check : Run (Except SvcResult ℕ)) (lockFunc : MemoryBlockLockFunction) :
    Run (Except SvcResult Unit × KPageTableBase) :=
  if pt.contains address size then do
    match ← check with
    | .error r => .ok (.error r, pt)
    | .ok numAllocatorBlocks =>
      match create pt.memoryBlockSlabManager numAllocatorBlocks with
      | (.error r, allocator) =>
        .ok (.error r, { pt with memoryBlockSlabManager := allocator.destroy })
      | (.ok (), allocator) => do
        let (m, allocator) ← pt.memoryBlockManager.updateLock allocator address (size / pageSize)
          lockFunc KMemoryPermission.none
        .ok (.ok (), { pt with
          memoryBlockManager := m
          memoryBlockSlabManager := allocator.destroy })
  else .ok (.error .invalidCurrentMemory, pt)

/-- `CheckMemoryState`, for the blocks that an update needs. -/
def checkMemoryStateBlocks (test : MemoryStateTest) (ignoreAttr : BitVec 32) :
    Run (Except SvcResult ℕ) := do
  match ← pt.memoryBlockManager.checkMemoryState address size test ignoreAttr with
  | .error r => .ok (.error r)
  | .ok out => .ok (.ok out.numBlocks)

def lockForMapDeviceAddressSpace (perm : KMemoryPermission) (isAligned : Bool) :
    Run (Except SvcResult Unit × KPageTableBase) :=
  let testState :=
    if isAligned then KMemoryState.flagCanAlignedDeviceMap else KMemoryState.flagCanDeviceMap
  pt.lockMemoryBlocks address size (pt.checkMemoryStateBlocks address size
      { stateMask := testState
        state := testState
        permMask := perm.setWidth 32
        perm := perm.setWidth 32
        attrMask := (KMemoryAttribute.ipcLocked ||| KMemoryAttribute.locked).setWidth 32
        attr := KMemoryAttribute.none.setWidth 32 }
      (KMemoryAttribute.deviceShared.setWidth 32))
    .shareToDevice

/-- The test that the other three functions make, of states with the flag `state`. -/
def deviceSharedTest (state : KMemoryState) : MemoryStateTest where
  stateMask := state
  state := state
  permMask := KMemoryPermission.none.setWidth 32
  perm := KMemoryPermission.none.setWidth 32
  attrMask := (KMemoryAttribute.deviceShared ||| KMemoryAttribute.locked).setWidth 32
  attr := KMemoryAttribute.deviceShared.setWidth 32

variable (pt : KPageTableBase) (address size : ℕ)

def lockForUnmapDeviceAddressSpace : Run (Except SvcResult Unit × KPageTableBase) :=
  pt.lockMemoryBlocks address size (pt.memoryBlockManager.checkMemoryStateContiguous address size
      (deviceSharedTest (KMemoryState.flagReferenceCounted ||| KMemoryState.flagCanDeviceMap)))
    (if pt.enableDeviceAddressSpaceMerge then .updateDeviceDisableMergeStateForShare
      else .updateDeviceDisableMergeStateForShareRight)

def unlockForDeviceAddressSpace : Run (Except SvcResult Unit × KPageTableBase) :=
  pt.lockMemoryBlocks address size (pt.memoryBlockManager.checkMemoryStateContiguous address size
      (deviceSharedTest KMemoryState.flagCanDeviceMap))
    .unshareToDevice

def unlockForDeviceAddressSpacePartialMap : Run (Except SvcResult Unit × KPageTableBase) :=
  pt.lockMemoryBlocks address size (pt.memoryBlockManager.checkMemoryStateContiguous address size
      (deviceSharedTest KMemoryState.flagCanDeviceMap))
    (if pt.enableDeviceAddressSpaceMerge then .updateDeviceDisableMergeStateForUnshare
      else .updateDeviceDisableMergeStateForUnshareRight)

/-- A page table whose tree is well formed and spans the address space. -/
structure WellFormed (pt : KPageTableBase) : Prop where
  manager : pt.memoryBlockManager.WellFormed
  startAddress : pt.memoryBlockManager.startAddress = pt.addressSpaceStart
  endAddress : pt.memoryBlockManager.endAddress = pt.addressSpaceEnd

variable {pt : KPageTableBase} {r : PageRange} {n : ℕ} {check : Run (Except SvcResult ℕ)}
variable {f : MemoryBlockLockFunction}

theorem WellFormed.isRange (h : pt.WellFormed) (hdvd : pageSize ∣ r.address)
    (hin : pt.contains r.address r.size = true) :
    pt.memoryBlockManager.IsRange r.address r.numPages := by
  simp only [contains, Bool.and_eq_true, decide_eq_true_eq] at hin
  obtain ⟨⟨hst, hlt⟩, hnd⟩ := hin
  have hsize : r.size = r.numPages * pageSize := rfl
  have hpos : 0 < r.numPages := Nat.pos_of_ne_zero fun h0 => by simp [hsize, h0] at hlt
  have hpage : 1 < r.numPages * pageSize :=
    Nat.lt_of_lt_of_le (by decide : 1 < pageSize) (Nat.le_mul_of_pos_left _ hpos)
  have hspace := h.endAddress
  exact ⟨hdvd, hpos, h.startAddress ▸ hst, by omega⟩

/-- On whole pages, either check counts the ends of the range at which no block ends. -/
def CountsBlocks (pt : KPageTableBase) (r : PageRange) (check : Run (Except SvcResult ℕ)) : Prop :=
  pt.memoryBlockManager.IsRange r.address r.numPages →
    ∀ n, check = .ok (.ok n) → n = pt.memoryBlockManager.blocksNeeded r.address r.endAddress

theorem align_range (hdvd : pageSize ∣ r.address) : alignDown r.address pageSize = r.address ∧
      alignUp (r.address + r.size) pageSize = r.endAddress :=
  ⟨alignDown_of_dvd hdvd,
    alignUp_of_dvd pageSize_pos ((Nat.dvd_add_right hdvd).mpr (Nat.dvd_mul_left _ _))⟩

theorem countsBlocks_contiguous (h : pt.WellFormed) (test : MemoryStateTest) : pt.CountsBlocks r
      (pt.memoryBlockManager.checkMemoryStateContiguous r.address r.size test) := by
  intro hrange n hcheck
  have hsize : 0 < r.size := Nat.mul_pos hrange.pos pageSize_pos
  have hn := (checkMemoryStateContiguous_ok h.manager hsize hcheck).count
  rwa [(align_range hrange.aligned).1, (align_range hrange.aligned).2] at hn

theorem countsBlocks_memoryState (h : pt.WellFormed) (test : MemoryStateTest)
    (ignoreAttr : BitVec 32) :
    pt.CountsBlocks r (pt.checkMemoryStateBlocks r.address r.size test ignoreAttr) := by
  intro hrange n hcheck
  obtain ⟨res, hres, hcheck⟩ := bind_eq_ok.mp hcheck
  cases res with
  | error e => cases hcheck
  | ok out =>
    cases hcheck
    have hsize : 0 < r.size := Nat.mul_pos hrange.pos pageSize_pos
    have hn := (checkMemoryState_ok h.manager hsize hres).count
    rwa [(align_range hrange.aligned).1, (align_range hrange.aligned).2] at hn

/-- How a lock of pages returns: with an error and the tree as it was, or with the
blocks of the range locked. -/
inductive LockOutcome (pt : KPageTableBase) (r : PageRange) (f : MemoryBlockLockFunction) :
    Except SvcResult Unit × KPageTableBase → Prop
  | refused (e : SvcResult) (sm : KMemoryBlockSlabManager) :
      LockOutcome pt r f (.error e, { pt with memoryBlockSlabManager := sm })
  | locked {m' : KMemoryBlockManager} {mid : List KMemoryBlockNode} (sm : KMemoryBlockSlabManager)
      (hrange : pt.memoryBlockManager.IsRange r.address r.numPages)
      (hadm : pt.memoryBlockManager.AdmitsLock r.address r.endAddress f)
      (hlocks : pt.memoryBlockManager.Locks r.address r.endAddress f KMemoryPermission.none mid
        m') :
      LockOutcome pt r f
        (.ok (), { pt with memoryBlockManager := m', memoryBlockSlabManager := sm })

theorem lockMemoryBlocks_outcome {res : Except SvcResult Unit × KPageTableBase}
    (h : pt.WellFormed) (hdvd : pageSize ∣ r.address) (hcount : pt.CountsBlocks r check)
    (hok : pt.lockMemoryBlocks r.address r.size check f = .ok res) : LockOutcome pt r f res := by
  rw [lockMemoryBlocks] at hok
  split at hok
  case isFalse => cases hok; exact .refused _ _
  case isTrue hin =>
    have hrange := h.isRange hdvd hin
    obtain ⟨cres, hcheck, hok⟩ := bind_eq_ok.mp hok
    cases cres with
    | error e => cases hok; exact .refused _ _
    | ok n =>
      have hn := hcount hrange n hcheck
      have hle : n ≤ maxBlocks := by
        rw [hn, blocksNeeded, maxBlocks]
        split <;> split <;> omega
      obtain ⟨a, ps, hcreate, hlen, hps, _⟩ | ⟨e, a, hcreate, _⟩ :=
        create_spec pt.memoryBlockSlabManager hle
      · simp only [hcreate] at hok
        obtain ⟨⟨m', alloc'⟩, hupdate, hok⟩ := bind_eq_ok.mp hok
        cases hok
        rw [PageRange.size, Nat.mul_div_cancel _ pageSize_pos] at hupdate
        obtain ⟨hadm, mid, hlocks⟩ := locks_of_updateLock h.manager hrange hps
          (hlen ▸ hn ▸ le_rfl) hupdate
        exact .locked _ hrange hadm hlocks
      · simp only [hcreate] at hok
        cases hok
        exact .refused _ _

section calls

variable {res : Except SvcResult Unit × KPageTableBase} (h : pt.WellFormed)
  (hdvd : pageSize ∣ r.address)
include h hdvd

theorem lockForMap_outcome {perm : KMemoryPermission} {isAligned : Bool}
    (hok : pt.lockForMapDeviceAddressSpace r.address r.size perm isAligned = .ok res) :
    LockOutcome pt r .shareToDevice res :=
  lockMemoryBlocks_outcome h hdvd (countsBlocks_memoryState h _ _) hok

theorem lockForUnmap_outcome (hok : pt.lockForUnmapDeviceAddressSpace r.address r.size = .ok res) :
    LockOutcome pt r
      (if pt.enableDeviceAddressSpaceMerge then .updateDeviceDisableMergeStateForShare
      else .updateDeviceDisableMergeStateForShareRight) res :=
  lockMemoryBlocks_outcome h hdvd (countsBlocks_contiguous h _) hok

theorem unlockPartialMap_outcome
    (hok : pt.unlockForDeviceAddressSpacePartialMap r.address r.size = .ok res) :
    LockOutcome pt r
      (if pt.enableDeviceAddressSpaceMerge then .updateDeviceDisableMergeStateForUnshare
        else .updateDeviceDisableMergeStateForUnshareRight) res :=
  lockMemoryBlocks_outcome h hdvd (countsBlocks_contiguous h _) hok

end calls

end KPageTableBase

end Atmosphere.Kern
