import Atmosphere.Kern.DeviceLock
import Atmosphere.Kern.PageTableBase

/-!
# Runs of device mappings

`KDeviceAddressSpace::Map` locks the pages of a range for a device, writes the
device's page table and then gives up the merge-disable state of the lock, or
undoes the lock when the device table could not be written. `Unmap` goes the
other way. Ranges may overlap, and what one call has mapped may be unmapped in
other pieces.

Between two operations the left count of a position is at most the use count of
its page, and the right counts are zero. When no page is in use, no count is
left, and the tree is the one before the first map.
-/

namespace Atmosphere.Kern

/-- `KDeviceAddressSpace`, without the page table of the device. -/
structure KDeviceAddressSpace where
  spaceAddress : ℕ
  spaceSize : ℕ
  deriving DecidableEq, Repr

/-- `MESOSPHERE_R_ABORT_UNLESS` of a call on an address space. -/
def abortUnless (call : Run (Except SvcResult Unit × KPageTableBase)) : Run KPageTableBase := do
  match ← call with
  | (.ok (), pt) => .ok pt
  | (.error _, _) => .error .resultNotSuccess

namespace KDeviceAddressSpace

variable (das : KDeviceAddressSpace)

/-- `Contains`. No sum wraps: the system calls check it of the space and of the range. -/
def contains (deviceAddress size : ℕ) : Bool :=
  das.spaceAddress ≤ deviceAddress &&
    deviceAddress + size - 1 ≤ das.spaceAddress + das.spaceSize - 1

/-- `Map`; `tableMap` is what the map of the device's page table returns. -/
def map (pt : KPageTableBase) (processAddress size deviceAddress : ℕ) (perm : KMemoryPermission)
    (isAligned : Bool) (tableMap : Except SvcResult Unit) :
    Run (Except SvcResult Unit × KPageTableBase) := do
  if das.contains deviceAddress size then
    let (res, pt) ← pt.lockForMapDeviceAddressSpace processAddress size perm isAligned
    match res, tableMap with
    | .error e, _ => .ok (.error e, pt)
    | .ok (), .error e =>
      let pt ← abortUnless (pt.unlockForDeviceAddressSpace processAddress size)
      .ok (.error e, pt)
    | .ok (), .ok () =>
      let (res, pt) ← pt.unlockForDeviceAddressSpacePartialMap processAddress size
      match res with
      | .ok () => .ok (.ok (), pt)
      -- the pages are unmapped again from the device
      | .error e =>
        let pt ← abortUnless (pt.unlockForDeviceAddressSpace processAddress size)
        .ok (.error e, pt)
  else .ok (.error .invalidCurrentMemory, pt)

/-- `Unmap`; `tableUnmap` is what the unmap of the device's page table returns. -/
def unmap (pt : KPageTableBase) (processAddress size deviceAddress : ℕ)
    (tableUnmap : Except SvcResult Unit) :
    Run (Except SvcResult Unit × KPageTableBase) := do
  if das.contains deviceAddress size then
    let (res, pt) ← pt.lockForUnmapDeviceAddressSpace processAddress size
    match res, tableUnmap with
    | .error e, _ => .ok (.error e, pt)
    | .ok (), .error e =>
      let pt ← abortUnless (pt.unlockForDeviceAddressSpacePartialMap processAddress size)
      .ok (.error e, pt)
    | .ok (), .ok () =>
      let pt ← abortUnless (pt.unlockForDeviceAddressSpace processAddress size)
      .ok (.ok (), pt)
  else .ok (.error .invalidCurrentMemory, pt)

end KDeviceAddressSpace

/-- Where a device operation on an address space stands. -/
inductive DevicePhase
  | idle
  /-- The range is locked for a map. -/
  | mapping (r : PageRange)
  /-- The range is locked for an unmap. -/
  | unmapping (r : PageRange)
  deriving DecidableEq, Repr

/-- An address space, the operation on it and, for every address, the number of
device mappings that cover it. -/
structure DeviceState where
  table : KPageTableBase
  phase : DevicePhase
  mapped : ℕ → ℕ

open KPageTableBase

/-- The calls that `KDeviceAddressSpace::Map` and `Unmap` make. A lock that is
refused ends the operation; a refused partial-map unlock of a map is followed by
the unlock. Both functions abort when another unlock is refused. -/
inductive DeviceStep : DeviceState → DeviceState → Prop
  | lockForMap {pt pt' : KPageTableBase} {mapped : ℕ → ℕ} (r : PageRange)
      (perm : KMemoryPermission) (isAligned : Bool) (hdvd : pageSize ∣ r.address)
      (hok : pt.lockForMapDeviceAddressSpace r.address r.size perm isAligned = .ok (.ok (), pt')) :
      DeviceStep ⟨pt, .idle, mapped⟩ ⟨pt', .mapping r, mapped⟩
  | mapRefused {pt pt' : KPageTableBase} {mapped : ℕ → ℕ} {r : PageRange}
      {perm : KMemoryPermission} {isAligned : Bool} {e : SvcResult} (hdvd : pageSize ∣ r.address)
      (hok : pt.lockForMapDeviceAddressSpace r.address r.size perm isAligned =
        .ok (.error e, pt')) :
      DeviceStep ⟨pt, .idle, mapped⟩ ⟨pt', .idle, mapped⟩
  | mapSucceeded {pt pt' : KPageTableBase} {mapped : ℕ → ℕ} {r : PageRange}
      (hok : pt.unlockForDeviceAddressSpacePartialMap r.address r.size = .ok (.ok (), pt')) :
      DeviceStep ⟨pt, .mapping r, mapped⟩ ⟨pt', .idle, r.addPages mapped⟩
  | partialRefused {pt pt' : KPageTableBase} {mapped : ℕ → ℕ} {r : PageRange} {e : SvcResult}
      (hok : pt.unlockForDeviceAddressSpacePartialMap r.address r.size = .ok (.error e, pt')) :
      DeviceStep ⟨pt, .mapping r, mapped⟩ ⟨pt', .mapping r, mapped⟩
  | mapFailed {pt pt' : KPageTableBase} {mapped : ℕ → ℕ} {r : PageRange}
      (hok : pt.unlockForDeviceAddressSpace r.address r.size = .ok (.ok (), pt')) :
      DeviceStep ⟨pt, .mapping r, mapped⟩ ⟨pt', .idle, mapped⟩
  | lockForUnmap {pt pt' : KPageTableBase} {mapped : ℕ → ℕ} (r : PageRange)
      (hdvd : pageSize ∣ r.address)
      (hmapped : ∀ x, r.address ≤ x → x < r.endAddress → 0 < mapped x)
      (hok : pt.lockForUnmapDeviceAddressSpace r.address r.size = .ok (.ok (), pt')) :
      DeviceStep ⟨pt, .idle, mapped⟩ ⟨pt', .unmapping r, mapped⟩
  | unmapRefused {pt pt' : KPageTableBase} {mapped : ℕ → ℕ} {r : PageRange} {e : SvcResult}
      (hdvd : pageSize ∣ r.address)
      (hok : pt.lockForUnmapDeviceAddressSpace r.address r.size = .ok (.error e, pt')) :
      DeviceStep ⟨pt, .idle, mapped⟩ ⟨pt', .idle, mapped⟩
  | unmapSucceeded {pt pt' : KPageTableBase} {mapped : ℕ → ℕ} {r : PageRange}
      (hok : pt.unlockForDeviceAddressSpace r.address r.size = .ok (.ok (), pt')) :
      DeviceStep ⟨pt, .unmapping r, mapped⟩ ⟨pt', .idle, r.subPages mapped⟩
  | unmapFailed {pt pt' : KPageTableBase} {mapped : ℕ → ℕ} {r : PageRange}
      (hok : pt.unlockForDeviceAddressSpacePartialMap r.address r.size = .ok (.ok (), pt')) :
      DeviceStep ⟨pt, .unmapping r, mapped⟩ ⟨pt', .idle, mapped⟩

/-- The states that device operations reach from the address space `pt₀`. -/
def DeviceRun (pt₀ : KPageTableBase) : DeviceState → Prop :=
  Relation.ReflTransGen DeviceStep ⟨pt₀, .idle, fun _ => 0⟩

/-- Nothing in the tree is in use by a device. -/
def KMemoryBlockManager.NoDevices (m : KMemoryBlockManager) : Prop :=
  ∀ node ∈ m.memoryBlockTree, node.block.properties.NoDevice ∧ node.block.leftMark.NoDevice ∧
    node.block.rightMark = .clear

variable {m : KMemoryBlockManager} {use bound : ℕ → ℕ} {f : MemoryBlockLockFunction}

theorem KMemoryBlockManager.NoDevices.view (h : m.NoDevices) : m.view.NoDevices where
  page _ _ := blockShape.forall_valAt fun node hnode => (h node hnode).1
  left := blockShape.forall_leftAt ⟨rfl, rfl⟩ fun node hnode => (h node hnode).2.1
  right := blockShape.forall_rightAt (P := (· = .clear)) rfl fun node hnode => (h node hnode).2.2

/-- What the operations do not change. -/
structure KPageTableBase.SameSpace (pt₀ pt : KPageTableBase) : Prop where
  wellFormed : pt.WellFormed
  addressSpaceStart : pt.addressSpaceStart = pt₀.addressSpaceStart
  addressSpaceEnd : pt.addressSpaceEnd = pt₀.addressSpaceEnd
  merge : pt.enableDeviceAddressSpaceMerge = pt₀.enableDeviceAddressSpaceMerge

/-- What the view of the tree shows in each phase. -/
def DevicePhase.Shows (s₀ : SpaceView) (merge : Bool) (mapped : ℕ → ℕ) (s : SpaceView) :
    DevicePhase → Prop
  | .idle => DeviceView s₀ mapped mapped (fun _ => 0) s
  | .mapping r => pageSize ∣ r.address ∧
      DeviceView s₀ (r.addPages mapped) (r.lockedBound merge (r.addPages mapped)) r.endsAt s
  | .unmapping r => pageSize ∣ r.address ∧ (∀ x, r.address ≤ x → x < r.endAddress → 0 < mapped x) ∧
      DeviceView s₀ mapped (r.lockedBound merge mapped) r.endsAt s

/-- What holds after every call. -/
structure DeviceInv (pt₀ : KPageTableBase) (st : DeviceState) : Prop where
  space : pt₀.SameSpace st.table
  shown : st.phase.Shows pt₀.memoryBlockManager.view pt₀.enableDeviceAddressSpaceMerge st.mapped
    st.table.memoryBlockManager.view

variable {pt₀ pt pt' : KPageTableBase} {st st' : DeviceState} {perm : KMemoryPermission}
variable {m' : KMemoryBlockManager} {s₀ : SpaceView}

/-- A call that locked its range, when the lock of the view keeps the invariant. -/
theorem KPageTableBase.SameSpace.of_locks {r : PageRange}
    {mid : List KMemoryBlockNode} {ends : ℕ → ℕ} (h : pt₀.SameSpace pt) (hwf₀ : pt₀.WellFormed)
    (h₀ : pt₀.memoryBlockManager.NoDevices)
    (hrange : pt.memoryBlockManager.IsRange r.address r.numPages)
    (hlocks : pt.memoryBlockManager.Locks r.address r.endAddress f KMemoryPermission.none mid m')
    (hview : DeviceView pt₀.memoryBlockManager.view use bound ends
      (pt.memoryBlockManager.view.lock f KMemoryPermission.none r.address r.endAddress))
    (sm : KMemoryBlockSlabManager) :
    pt₀.SameSpace { pt with memoryBlockManager := m', memoryBlockSlabManager := sm } ∧
      DeviceView pt₀.memoryBlockManager.view use bound ends m'.view ∧
      m'.view =
        pt.memoryBlockManager.view.lock f KMemoryPermission.none r.address r.endAddress := by
  have hjoins := hwf₀.manager.joinsHideNothing hview.page_some
    (fun hv hw hn hn' => hn.unique hn' (h₀.view.page _ _ hv) (h₀.view.page _ _ hw))
    (fun x hopen => (hview.left x).eq_of_open hopen)
    (fun x hopen => ((hview.right x).eq_of_open hopen).trans (h₀.view.right x).symm)
  rw [hwf₀.startAddress, ← h.addressSpaceStart, ← h.wellFormed.startAddress, hwf₀.endAddress,
    ← h.addressSpaceEnd, ← h.wellFormed.endAddress] at hjoins
  refine ⟨⟨⟨hlocks.wellFormed, hlocks.startAddress.trans h.wellFormed.startAddress,
    hlocks.endAddress.trans h.wellFormed.endAddress⟩, h.addressSpaceStart, h.addressSpaceEnd,
    h.merge⟩, ?_⟩
  have heq := hlocks.view_eq h.wellFormed.manager hrange.start_le hrange.le_end hjoins
  exact ⟨heq ▸ hview, heq⟩

/-- A refused call changes only the slab. -/
theorem KPageTableBase.SameSpace.of_refused (h : pt₀.SameSpace pt) (sm : KMemoryBlockSlabManager) :
    pt₀.SameSpace { pt with memoryBlockSlabManager := sm } :=
  ⟨⟨h.wellFormed.manager, h.wellFormed.startAddress, h.wellFormed.endAddress⟩, h.addressSpaceStart,
    h.addressSpaceEnd, h.merge⟩

/-- The merge counts of a tree are nowhere larger than those of another one. A
count that went below zero would be. -/
def CountsLE (m' m : KMemoryBlockManager) : Prop :=
  ∀ x, (m'.leftMarkAt x).deviceDisableMergeLeftCount ≤
      (m.leftMarkAt x).deviceDisableMergeLeftCount ∧
    (m'.rightMarkAt x).deviceDisableMergeRightCount ≤ (m.rightMarkAt x).deviceDisableMergeRightCount

theorem countsLE_of_lock {a e : ℕ} (hview : DeviceView s₀ use bound (fun _ => 0) m'.view)
    (heq : m'.view = m.view.lock f perm a e)
    (hf : ∀ v left l, (f.onLeft v left l).deviceDisableMergeLeftCount ≤
      l.deviceDisableMergeLeftCount) : CountsLE m' m := by
  intro x
  constructor
  · change (m'.view.left x).deviceDisableMergeLeftCount ≤ _
    rw [heq]
    by_cases hx : a ≤ x ∧ x < e
    · cases hv : m.view.page x with
      | none => simp [SpaceView.lock, hx, hv]
      | some v =>
        rw [SpaceView.lock_left_inside hx hv]
        exact hf v _ _
    · rw [SpaceView.lock_left_outside (by omega)]
      exact BitVec.le_refl _
  · have hzero := (hview.right x).count
    exact BitVec.le_def.mpr (hzero ▸ Nat.zero_le _)

/-! One lemma for each call that unlocks. -/

section calls

variable {r : PageRange} {use : ℕ → ℕ} (hwf₀ : pt₀.WellFormed)
  (h₀ : pt₀.memoryBlockManager.NoDevices) (hspace : pt₀.SameSpace pt)
  (hdvd : pageSize ∣ r.address)
include hwf₀ h₀ hspace hdvd

variable (hview : DeviceView pt₀.memoryBlockManager.view use
  (r.lockedBound pt₀.enableDeviceAddressSpaceMerge use) r.endsAt pt.memoryBlockManager.view)
include hview

theorem unlock_view (huse : ∀ x, r.address ≤ x → x < r.endAddress → 0 < use x)
    (hok : pt.unlockForDeviceAddressSpace r.address r.size = .ok (.ok (), pt')) :
    pt₀.SameSpace pt' ∧ DeviceView pt₀.memoryBlockManager.view (r.subPages use) (r.subPages use)
      (fun _ => 0) pt'.memoryBlockManager.view ∧
      CountsLE pt'.memoryBlockManager pt.memoryBlockManager := by
  cases lockMemoryBlocks_outcome hspace.wellFormed hdvd
    (countsBlocks_contiguous hspace.wellFormed _) hok with
  | locked sm hrange hadm hlocks =>
    obtain ⟨hspace', hview', heq⟩ := hspace.of_locks hwf₀ h₀ hrange hlocks
      (hview.unshareToDevice hrange.lt_end
        (fun x => hrange.exists_page hspace.wellFormed.manager) h₀.view huse) sm
    exact ⟨hspace', hview', countsLE_of_lock hview' heq fun v left l =>
      (l.unshare_spec (v.deviceUseCount - 1#16) left).2.1⟩

theorem unlockPartialMap_view
    (hok : pt.unlockForDeviceAddressSpacePartialMap r.address r.size = .ok (.ok (), pt')) :
    pt₀.SameSpace pt' ∧ DeviceView pt₀.memoryBlockManager.view use use (fun _ => 0)
      pt'.memoryBlockManager.view ∧
      CountsLE pt'.memoryBlockManager pt.memoryBlockManager := by
  cases unlockPartialMap_outcome hspace.wellFormed hdvd hok with
  | locked sm hrange hadm hlocks =>
    rw [hspace.merge] at hlocks
    obtain ⟨hspace', hview', heq⟩ := hspace.of_locks hwf₀ h₀ hrange hlocks
      (hview.forUnshare hrange.lt_end (fun x => hrange.exists_page hspace.wellFormed.manager)) sm
    refine ⟨hspace', hview', countsLE_of_lock hview' heq fun v left l => ?_⟩
    cases pt₀.enableDeviceAddressSpaceMerge with
    | false => exact BitVec.le_refl _
    | true => exact (l.unshare_spec v.deviceUseCount left).2.1

end calls

theorem PageRange.addPages_pos (r : PageRange) {n : ℕ → ℕ} {x : ℕ} (hlo : r.address ≤ x)
    (hhi : x < r.endAddress) : 0 < r.addPages n x := by
  simp [addPages, hlo, hhi]

theorem PageRange.subPages_addPages (r : PageRange) (n : ℕ → ℕ) :
    r.subPages (r.addPages n) = n := by
  funext x
  simp [subPages, addPages]

/-- A call keeps the invariant, and no merge count goes below zero in an unlock. -/
theorem DeviceInv.step (hwf₀ : pt₀.WellFormed) (h₀ : pt₀.memoryBlockManager.NoDevices)
    (h : DeviceInv pt₀ st) (hstep : DeviceStep st st') :
    DeviceInv pt₀ st' ∧ (st.phase ≠ .idle →
      CountsLE st'.table.memoryBlockManager st.table.memoryBlockManager) := by
  obtain ⟨hspace, hshows⟩ := h
  cases hstep with
  | lockForMap r perm isAligned hdvd hok =>
    cases lockForMap_outcome hspace.wellFormed hdvd hok with
    | locked sm hrange hadm hlocks =>
      obtain ⟨hspace', hview, -⟩ := hspace.of_locks hwf₀ h₀ hrange hlocks
        (hshows.shareToDevice hrange.lt_end
          (fun x => hrange.exists_page hspace.wellFormed.manager) hadm.page hadm.left) sm
      refine ⟨⟨hspace', hdvd, ?_⟩, fun hidle => absurd rfl hidle⟩
      exact hview.mono (fun _ => rfl) (fun _ => Nat.le_add_right _ _) fun _ => rfl
  | mapRefused hdvd hok =>
    cases lockForMap_outcome hspace.wellFormed hdvd hok with
    | refused e sm => exact ⟨⟨hspace.of_refused sm, hshows⟩, fun hidle => absurd rfl hidle⟩
  | mapSucceeded hok =>
    obtain ⟨hspace', hview, hle⟩ := unlockPartialMap_view hwf₀ h₀ hspace hshows.1 hshows.2 hok
    exact ⟨⟨hspace', hview⟩, fun _ => hle⟩
  | partialRefused hok =>
    cases unlockPartialMap_outcome hspace.wellFormed hshows.1 hok with
    | refused e sm =>
      exact ⟨⟨hspace.of_refused sm, hshows⟩, fun _ _ => ⟨BitVec.le_refl _, BitVec.le_refl _⟩⟩
  | @mapFailed pt pt' mapped r hok =>
    obtain ⟨hspace', hview, hle⟩ := unlock_view hwf₀ h₀ hspace hshows.1 hshows.2
      (fun x hlo hhi => r.addPages_pos hlo hhi) hok
    rw [r.subPages_addPages] at hview
    exact ⟨⟨hspace', hview⟩, fun _ => hle⟩
  | lockForUnmap r hdvd hmapped hok =>
    cases lockForUnmap_outcome hspace.wellFormed hdvd hok with
    | locked sm hrange hadm hlocks =>
      rw [hspace.merge] at hlocks hadm
      obtain ⟨hspace', hview, -⟩ := hspace.of_locks hwf₀ h₀ hrange hlocks
        (hshows.forShare hrange.lt_end (fun x => hrange.exists_page hspace.wellFormed.manager) _
          fun hmerge => by
            rw [if_pos hmerge] at hadm
            exact hadm.left) sm
      exact ⟨⟨hspace', hdvd, hmapped, hview⟩, fun hidle => absurd rfl hidle⟩
  | unmapRefused hdvd hok =>
    cases lockForUnmap_outcome hspace.wellFormed hdvd hok with
    | refused e sm => exact ⟨⟨hspace.of_refused sm, hshows⟩, fun hidle => absurd rfl hidle⟩
  | unmapSucceeded hok =>
    obtain ⟨hdvd, hmapped, hshows⟩ := hshows
    obtain ⟨hspace', hview, hle⟩ := unlock_view hwf₀ h₀ hspace hdvd hshows hmapped hok
    exact ⟨⟨hspace', hview⟩, fun _ => hle⟩
  | unmapFailed hok =>
    obtain ⟨hdvd, _, hshows⟩ := hshows
    obtain ⟨hspace', hview, hle⟩ := unlockPartialMap_view hwf₀ h₀ hspace hdvd hshows hok
    exact ⟨⟨hspace', hview⟩, fun _ => hle⟩

theorem DeviceRun.inv (hwf₀ : pt₀.WellFormed) (h₀ : pt₀.memoryBlockManager.NoDevices)
    (hrun : DeviceRun pt₀ st) : DeviceInv pt₀ st := by
  induction hrun with
  | refl => exact ⟨⟨hwf₀, rfl, rfl, rfl⟩, .start h₀.view⟩
  | tail _ hstep ih => exact (ih.step hwf₀ h₀ hstep).1

/-- The pages in use, with those that are locked for a map. -/
def DevicePhase.inUse (mapped : ℕ → ℕ) : DevicePhase → ℕ → ℕ
  | .idle => mapped
  | .mapping r => r.addPages mapped
  | .unmapping _ => mapped

variable {mapped : ℕ → ℕ} {deviceAddress : ℕ}

theorem DevicePhase.Shows.useCount {phase : DevicePhase} {s : SpaceView} {merge : Bool}
    (h : phase.Shows s₀ merge mapped s) {x : ℕ} {v : PageProperties} (hv : s.page x = some v) :
    v.deviceUseCount.toNat = phase.inUse mapped x := by
  cases phase with
  | idle =>
    obtain ⟨_, _, hn⟩ := DeviceView.page_iff h hv
    exact hn.count
  | mapping r =>
    obtain ⟨_, _, hn⟩ := h.2.page_iff hv
    exact hn.count
  | unmapping r =>
    obtain ⟨_, _, hn⟩ := h.2.2.page_iff hv
    exact hn.count

/-! `Map` and `Unmap` are runs of these calls. -/

theorem abortUnless_ok {call : Run (Except SvcResult Unit × KPageTableBase)}
    (h : abortUnless call = .ok pt') : call = .ok (.ok (), pt') := by
  obtain ⟨⟨res, pt⟩, hcall, h⟩ := bind_eq_ok.mp h
  cases res with
  | error e => cases h
  | ok u =>
      cases h
      exact hcall

/-- The mappings after an operation that changes them to `after` on success. -/
def mappedAfter (res : Except SvcResult Unit) (before after : ℕ → ℕ) : ℕ → ℕ :=
  match res with
  | .ok () => after
  | .error _ => before

/-- Whatever fails inside `Map` or `Unmap`, the call is a run that ends idle, and only a call that
succeeds changes the mappings. -/
theorem deviceCalls_run (das : KDeviceAddressSpace) {r : PageRange} (isAligned : Bool)
    (table : Except SvcResult Unit) {res : Except SvcResult Unit}
    (hrun : DeviceRun pt₀ ⟨pt, .idle, mapped⟩) (hdvd : pageSize ∣ r.address) :
    (das.map pt r.address r.size deviceAddress perm isAligned table = .ok (res, pt') →
      DeviceRun pt₀ ⟨pt', .idle, mappedAfter res mapped (r.addPages mapped)⟩) ∧
    ((∀ x, r.address ≤ x → x < r.endAddress → 0 < mapped x) →
      das.unmap pt r.address r.size deviceAddress table = .ok (res, pt') →
        DeviceRun pt₀ ⟨pt', .idle, mappedAfter res mapped (r.subPages mapped)⟩) := by
  constructor
  · intro hok
    rw [KDeviceAddressSpace.map] at hok
    split at hok
    · obtain ⟨⟨lockRes, pt₁⟩, hlock, hok⟩ := bind_eq_ok.mp hok
      rcases lockRes with e | ⟨⟩
      · cases hok
        exact hrun.tail (.mapRefused hdvd hlock)
      have hlocked := hrun.tail (.lockForMap r perm isAligned hdvd hlock)
      rcases table with e | ⟨⟩
      · obtain ⟨pt₂, hunlock, hok⟩ := bind_eq_ok.mp hok
        cases hok
        exact hlocked.tail (.mapFailed (abortUnless_ok hunlock))
      obtain ⟨⟨partialRes, pt₂⟩, hpartial, hok⟩ := bind_eq_ok.mp hok
      rcases partialRes with e | ⟨⟩
      · obtain ⟨pt₃, hunlock, hok⟩ := bind_eq_ok.mp hok
        cases hok
        exact (hlocked.tail (.partialRefused hpartial)).tail (.mapFailed (abortUnless_ok hunlock))
      · cases hok
        exact hlocked.tail (.mapSucceeded hpartial)
    · cases hok
      exact hrun
  · intro hmapped hok
    rw [KDeviceAddressSpace.unmap] at hok
    split at hok
    · obtain ⟨⟨lockRes, pt₁⟩, hlock, hok⟩ := bind_eq_ok.mp hok
      rcases lockRes with e | ⟨⟩
      · cases hok
        exact hrun.tail (.unmapRefused hdvd hlock)
      have hlocked := hrun.tail (.lockForUnmap r hdvd hmapped hlock)
      rcases table with e | ⟨⟩
      all_goals
        obtain ⟨pt₂, hunlock, hok⟩ := bind_eq_ok.mp hok
        cases hok
      · exact hlocked.tail (.unmapFailed (abortUnless_ok hunlock))
      · exact hlocked.tail (.unmapSucceeded (abortUnless_ok hunlock))
    · cases hok
      exact hrun

/-- In every run of device operations the use counts of the pages count the
mappings that cover them, no merge count goes below zero, and whenever no page
is mapped the tree is the first one, block for block. -/
theorem deviceRun_counts_and_restores (hwf₀ : pt₀.WellFormed)
    (h₀ : pt₀.memoryBlockManager.NoDevices) (hrun : DeviceRun pt₀ st) :
    pt₀.SameSpace st.table ∧
    (∀ x v, st.table.memoryBlockManager.propertiesAt x = some v →
      v.deviceUseCount.toNat = st.phase.inUse st.mapped x) ∧
    (∀ st', DeviceStep st st' → st.phase ≠ .idle →
      CountsLE st'.table.memoryBlockManager st.table.memoryBlockManager) ∧
    (st.phase = .idle → (∀ x, st.mapped x = 0) →
      st.table.memoryBlockManager.memoryBlockTree.map KMemoryBlockNode.block =
        pt₀.memoryBlockManager.memoryBlockTree.map KMemoryBlockNode.block) := by
  have hinv := hrun.inv hwf₀ h₀
  refine ⟨hinv.space, fun x v hv => hinv.shown.useCount hv,
    fun st' hstep => (hinv.step hwf₀ h₀ hstep).2, ?_⟩
  intro hidle hzero
  have hview := hinv.shown
  rw [hidle] at hview
  have hspace := hinv.space
  refine hwf₀.manager.blocks_eq_of_view hspace.wellFormed.manager ?_ ?_
    (DeviceView.eq_of_zero hview h₀.view hzero hzero fun _ => rfl)
  · rw [hspace.wellFormed.startAddress, hspace.addressSpaceStart, hwf₀.startAddress]
  · rw [hspace.wellFormed.endAddress, hspace.addressSpaceEnd, hwf₀.endAddress]

/-- An address space of four pages of normal memory. -/
def fourNormalPages : KPageTableBase where
  addressSpaceStart := 0x1000
  addressSpaceEnd := 0x5000
  memoryBlockManager :=
    { memoryBlockTree := [⟨1, .constantInitialize 0x1000 4 KMemoryState.normal
        KMemoryPermission.userReadWrite KMemoryAttribute.none⟩]
      startAddress := 0x1000
      endAddress := 0x5000 }
  memoryBlockSlabManager := ⟨[2, 3, 4, 5], []⟩
  enableDeviceAddressSpaceMerge := true

theorem fourNormalPages_wellFormed : fourNormalPages.WellFormed where
  manager := ⟨by decide, by decide, List.isChain_singleton _⟩
  startAddress := rfl
  endAddress := rfl

theorem fourNormalPages_noDevices : fourNormalPages.memoryBlockManager.NoDevices := by
  intro node hnode
  obtain rfl := List.mem_singleton.mp hnode
  exact ⟨⟨rfl, rfl⟩, ⟨rfl, rfl⟩, rfl⟩

theorem deviceCalls_run_map : ∃ st, DeviceRun fourNormalPages st ∧ 0 < st.mapped 0x2000 :=
  ⟨_, (@deviceCalls_run _ _ _ KMemoryPermission.userReadWrite _ 0 ⟨0, 0x4000⟩ ⟨0x2000, 2⟩ true
    (.ok ()) _ .refl (by decide)).1 rfl, by decide⟩

/-- Two pages are mapped by one call and unmapped by two. -/
theorem deviceRun_of_two_pages : ∃ st, DeviceRun fourNormalPages st ∧ st.phase = .idle ∧
      st.table.memoryBlockManager.memoryBlockTree.map KMemoryBlockNode.block =
        fourNormalPages.memoryBlockManager.memoryBlockTree.map KMemoryBlockNode.block := by
  have hmap : DeviceRun fourNormalPages _ := Relation.ReflTransGen.refl.tail
    (.lockForMap ⟨0x2000, 2⟩ KMemoryPermission.userReadWrite true (by decide) rfl)
  have hmapped : DeviceRun fourNormalPages _ := hmap.tail (.mapSucceeded rfl)
  have hunmap : DeviceRun fourNormalPages _ := hmapped.tail
    (.lockForUnmap ⟨0x2000, 1⟩ (by decide) (fun x hlo hhi => PageRange.addPages_pos _ hlo
      (hhi.trans (by decide))) rfl)
  have hhalf : DeviceRun fourNormalPages _ := hunmap.tail (.unmapSucceeded rfl)
  have hunmap' : DeviceRun fourNormalPages _ := hhalf.tail
    (.lockForUnmap ⟨0x3000, 1⟩ (by decide) (fun x hlo hhi => by
      have hold : 0 < (⟨0x2000, 2⟩ : PageRange).addPages (fun _ => 0) x :=
        PageRange.addPages_pos _ (Nat.le_trans (by decide) hlo) hhi
      have hno : (⟨0x2000, 1⟩ : PageRange).covers x = false := by
        simpa [PageRange.covers, PageRange.endAddress, PageRange.size, pageSize] using fun _ => hlo
      simpa [PageRange.subPages, hno] using hold) rfl)
  have hdone : DeviceRun fourNormalPages _ := hunmap'.tail (.unmapSucceeded rfl)
  obtain ⟨_, _, _, hrestored⟩ := deviceRun_counts_and_restores fourNormalPages_wellFormed
    fourNormalPages_noDevices hdone
  refine ⟨_, hdone, rfl, hrestored rfl fun x => ?_⟩
  simp only [PageRange.subPages, PageRange.addPages, PageRange.covers, PageRange.endAddress,
    PageRange.size, pageSize]
  grind

end Atmosphere.Kern
