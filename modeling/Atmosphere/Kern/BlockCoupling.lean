import Atmosphere.Kern.SpaceView

/-!
# The flags and the counts of a block

Five flags of a block say whether a count is zero: `IpcLocked` and
`DeviceShared` for the two lock counts, and three merge-disable flags for the
merge counts. Every function of the tree writes flags and counts on paths of its
own. They stay coupled as long as the first block of the tree does not start
with a stale count, the masks of `Update` leave the coupled flags alone, and the
functions that decrement a merge count without a check find one that is not
zero.
-/

namespace Atmosphere.Kern

/-! ## Coupled parts of a block -/

/-- Each flag of the block is set exactly when its count is not zero. -/
structure KMemoryBlock.Coupled (b : KMemoryBlock) : Prop where
  ipcLocked : b.attr &&& KMemoryAttribute.ipcLocked ≠ 0 ↔ b.ipcLockCount ≠ 0#16
  deviceShared : b.attr &&& KMemoryAttribute.deviceShared ≠ 0 ↔ b.deviceUseCount ≠ 0#16
  ipcLeft : b.disableMergeAttribute.ipcLeft = true ↔ b.ipcDisableMergeCount ≠ 0#16
  deviceLeft : b.disableMergeAttribute.deviceLeft = true ↔ b.deviceDisableMergeLeftCount ≠ 0#16
  deviceRight : b.disableMergeAttribute.deviceRight = true ↔ b.deviceDisableMergeRightCount ≠ 0#16

structure PageProperties.Coupled (v : PageProperties) : Prop where
  ipcLocked : v.attr &&& KMemoryAttribute.ipcLocked ≠ 0 ↔ v.ipcLockCount ≠ 0#16
  deviceShared : v.attr &&& KMemoryAttribute.deviceShared ≠ 0 ↔ v.deviceUseCount ≠ 0#16

structure LeftMark.Coupled (l : LeftMark) : Prop where
  ipcLeft : l.ipcLeft = true ↔ l.ipcDisableMergeCount ≠ 0#16
  deviceLeft : l.deviceLeft = true ↔ l.deviceDisableMergeLeftCount ≠ 0#16

def RightMark.Coupled (r : RightMark) : Prop :=
  r.deviceRight = true ↔ r.deviceDisableMergeRightCount ≠ 0#16

variable {b : KMemoryBlock}

theorem KMemoryBlock.coupled_iff :
    b.Coupled ↔ b.properties.Coupled ∧ b.leftMark.Coupled ∧ b.rightMark.Coupled :=
  ⟨fun h => ⟨⟨h.ipcLocked, h.deviceShared⟩, ⟨h.ipcLeft, h.deviceLeft⟩, h.deviceRight⟩,
    fun h => ⟨h.1.ipcLocked, h.1.deviceShared, h.2.1.ipcLeft, h.2.1.deviceLeft, h.2.2⟩⟩

/-- A flag that is cleared with the last count. -/
theorem coupled_decrement {flag : Bool} {count : BitVec 16} (h : flag = true ↔ count ≠ 0#16)
    (hne : count ≠ 0#16) :
    (if count = 1#16 then false else flag) = true ↔ count - 1#16 ≠ 0#16 := by
  split_ifs with hone
  · simp [hone]
  · exact iff_of_true (h.mpr hne) (by bv_omega)

theorem LeftMark.coupled_clear : LeftMark.clear.Coupled := ⟨by decide, by decide⟩

theorem RightMark.coupled_clear : RightMark.clear.Coupled := by
  rw [Coupled]
  decide

namespace PageProperties

variable {v : PageProperties}

theorem coupled_iff : v.Coupled ↔ (v.attr.getLsbD 1 = true ↔ v.ipcLockCount ≠ 0#16) ∧
    (v.attr.getLsbD 2 = true ↔ v.deviceUseCount ≠ 0#16) := by
  have hbits : ∀ a : KMemoryAttribute, (a &&& .ipcLocked ≠ 0 ↔ a.getLsbD 1 = true) ∧
      (a &&& .deviceShared ≠ 0 ↔ a.getLsbD 2 = true) := by decide
  rw [← (hbits v.attr).1, ← (hbits v.attr).2]
  exact ⟨fun h => ⟨h.1, h.2⟩, fun h => ⟨h.1, h.2⟩⟩

variable (h : v.Coupled)
include h

/-- `Update` keeps the two flags. -/
theorem Coupled.update (s : KMemoryState) (p : KMemoryPermission) {a : KMemoryAttribute}
    (ha : a &&& attributeIgnoreMask = 0) : (v.update s p a).Coupled := by
  have hbit : ∀ i : ℕ, (a.getLsbD i && attributeIgnoreMask.getLsbD i) = false := fun i => by
    rw [← BitVec.getLsbD_and, ha]
    simp
  have h₁ := hbit 1
  have h₂ := hbit 2
  rw [coupled_iff] at h ⊢
  simp [attributeIgnoreMask, KMemoryAttribute.ipcLocked, KMemoryAttribute.deviceShared] at h₁ h₂
  simpa [PageProperties.update, attributeIgnoreMask, KMemoryAttribute.ipcLocked,
    KMemoryAttribute.deviceShared, h₁, h₂] using h

theorem Coupled.share (hadm : v.deviceUseCount + 1#16 ≠ 0#16) : v.share.Coupled := by
  rw [coupled_iff] at h ⊢
  simpa [PageProperties.share, KMemoryAttribute.deviceShared, hadm] using h.1

theorem Coupled.unshare (hadm : v.deviceUseCount ≠ 0#16) : v.unshare.Coupled := by
  rw [coupled_iff] at h ⊢
  have hzero : v.deviceUseCount - 1#16 = 0#16 ↔ v.deviceUseCount = 1#16 := by bv_omega
  simp only [PageProperties.unshare, ne_eq, hzero]
  by_cases h1 : v.deviceUseCount = 1#16
  · simpa [h1, KMemoryAttribute.deviceShared] using h.1
  · simpa [h1, hadm] using h

theorem Coupled.lockForIpc (hadm : v.ipcLockCount + 1#16 ≠ 0#16) (perm : KMemoryPermission) :
    (v.lockForIpc perm).Coupled := by
  rw [coupled_iff] at h ⊢
  simpa [PageProperties.lockForIpc, KMemoryAttribute.ipcLocked, hadm] using h.2

theorem Coupled.unlockForIpc (hadm : v.ipcLockCount ≠ 0#16) : v.unlockForIpc.Coupled := by
  rw [coupled_iff] at h ⊢
  have hzero : v.ipcLockCount - 1#16 = 0#16 ↔ v.ipcLockCount = 1#16 := by bv_omega
  simp only [PageProperties.unlockForIpc, ne_eq, hzero]
  by_cases h1 : v.ipcLockCount = 1#16
  · simpa [h1, KMemoryAttribute.ipcLocked] using h.2
  · simpa [h1, hadm] using h

end PageProperties

namespace LeftMark

variable {l : LeftMark}

variable (h : l.Coupled)
include h

theorem Coupled.share (hadm : l.deviceDisableMergeLeftCount + 1#16 ≠ 0#16) :
    l.share.Coupled :=
  ⟨h.ipcLeft, by simp [LeftMark.share, hadm]⟩

/-- A count that is still there after an unshare was there before. -/
theorem Coupled.unshare (useCount : BitVec 16) (left : Bool) :
    (l.unshare useCount left).Coupled := by
  refine ⟨?_, (l.unshare_spec useCount left).2.2 h.deviceLeft⟩
  rw [LeftMark.unshare]
  split <;> exact h.ipcLeft

theorem Coupled.lockForIpc (hadm : l.ipcDisableMergeCount + 1#16 ≠ 0#16) :
    l.lockForIpc.Coupled :=
  ⟨by simp [LeftMark.lockForIpc, hadm], h.deviceLeft⟩

theorem Coupled.unlockForIpc (hne : l.ipcDisableMergeCount ≠ 0#16) : l.unlockForIpc.Coupled :=
  ⟨coupled_decrement h.ipcLeft hne, h.deviceLeft⟩

end LeftMark

namespace RightMark

variable {r : RightMark}

theorem Coupled.share (hadm : r.deviceDisableMergeRightCount + 1#16 ≠ 0#16) : r.share.Coupled := by
  simp [Coupled, RightMark.share, hadm]

theorem Coupled.unshare (h : r.Coupled) (hne : r.deviceDisableMergeRightCount ≠ 0#16) :
    r.unshare.Coupled :=
  coupled_decrement h hne

end RightMark

/-- The mask has only flags that stand for no count. -/
structure KMemoryBlockDisableMergeAttribute.Uncounted (mask : KMemoryBlockDisableMergeAttribute) :
    Prop where
  deviceLeft : mask.deviceLeft = false
  ipcLeft : mask.ipcLeft = false
  deviceRight : mask.deviceRight = false

/-- `Update` with such masks keeps the coupling. -/
theorem KMemoryBlock.Coupled.update (h : b.Coupled) (s : KMemoryState)
    (p : KMemoryPermission) {a : KMemoryAttribute}
    (ha : a &&& PageProperties.attributeIgnoreMask = 0) (left : Bool)
    {set clear : KMemoryBlockDisableMergeAttribute} (hset : set.Uncounted)
    (hclear : clear.Uncounted) : (b.update s p a left set clear).Coupled := by
  have hor : ∀ flags : KMemoryBlockDisableMergeAttribute,
      (flags ||| set).ipcLeft = flags.ipcLeft ∧ (flags ||| set).deviceLeft = flags.deviceLeft ∧
        (flags ||| set).deviceRight = flags.deviceRight := by
    intro flags
    refine ⟨?_, ?_, ?_⟩ <;> simp [HOr.hOr, OrOp.or, hset.ipcLeft, hset.deviceLeft, hset.deviceRight]
  have hand : ∀ flags : KMemoryBlockDisableMergeAttribute,
      (flags &&& ~~~clear).ipcLeft = flags.ipcLeft ∧
        (flags &&& ~~~clear).deviceLeft = flags.deviceLeft ∧
        (flags &&& ~~~clear).deviceRight = flags.deviceRight := by
    intro flags
    refine ⟨?_, ?_, ?_⟩ <;>
      simp [HAnd.hAnd, AndOp.and, Complement.complement, hclear.ipcLeft, hclear.deviceLeft,
        hclear.deviceRight]
  have hpage : (b.update s p a left set clear).properties.Coupled := by
    rw [properties_update]
    exact (KMemoryBlock.coupled_iff.mp h).1.update s p ha
  refine ⟨hpage.ipcLocked, hpage.deviceShared, ?_, ?_, ?_⟩ <;> simp only [KMemoryBlock.update] <;>
    split <;> split <;>
    simp only [(hor _).1, (hor _).2.1, (hor _).2.2, (hand _).1, (hand _).2.1, (hand _).2.2]
  all_goals first | exact h.ipcLeft | exact h.deviceLeft | exact h.deviceRight

/-! ## Lock functions -/

namespace MemoryBlockLockFunction

/-- The count that the function decrements at the left end is not zero. -/
def SafeLeft : MemoryBlockLockFunction → LeftMark → Prop
  | unlockForIpc, l => l.ipcDisableMergeCount ≠ 0#16
  | _, _ => True

/-- The count that the function decrements at the right end is not zero. -/
def SafeRight : MemoryBlockLockFunction → RightMark → Prop
  | updateDeviceDisableMergeStateForUnshareRight, r | updateDeviceDisableMergeStateForUnshare, r
  | unshareToDevice, r | unshareToDeviceRight, r => r.deviceDisableMergeRightCount ≠ 0#16
  | _, _ => True

variable {f : MemoryBlockLockFunction}

theorem coupled_onPage {v : PageProperties} (h : v.Coupled) (hadm : f.AdmitsPage v)
    (perm : KMemoryPermission) : (f.onPage perm v).Coupled := by
  cases f with
  | shareToDevice => exact h.share hadm
  | unshareToDevice | unshareToDeviceRight => exact h.unshare hadm
  | lockForIpc => exact h.lockForIpc hadm perm
  | unlockForIpc => exact h.unlockForIpc hadm
  | _ => exact h

theorem coupled_onLeft {l : LeftMark} (h : l.Coupled) (v : PageProperties) {left : Bool}
    (hleft : left = true → f.AdmitsLeft l ∧ f.SafeLeft l) : (f.onLeft v left l).Coupled := by
  have hif : ∀ {l'}, (left = true → l'.Coupled) → (if left then l' else l).Coupled := fun hl =>
    iteInduction hl fun _ => h
  cases f with
  | shareToDevice | updateDeviceDisableMergeStateForShare
  | updateDeviceDisableMergeStateForShareLeft => exact hif fun hl => h.share (hleft hl).1
  | updateDeviceDisableMergeStateForUnshareLeft | updateDeviceDisableMergeStateForUnshare
  | unshareToDevice => exact h.unshare _ _
  | lockForIpc => exact hif fun hl => h.lockForIpc (hleft hl).1
  | unlockForIpc => exact hif fun hl => h.unlockForIpc (hleft hl).2
  | _ => exact h

theorem coupled_onRight {r : RightMark} (h : r.Coupled) {right : Bool}
    (hright : right = true → f.AdmitsRight r ∧ f.SafeRight r) : (f.onRight right r).Coupled := by
  have hif : ∀ {r'}, (right = true → r'.Coupled) → (if right then r' else r).Coupled := fun hr =>
    iteInduction hr fun _ => h
  cases f with
  | shareToDevice | updateDeviceDisableMergeStateForShare
  | updateDeviceDisableMergeStateForShareRight => exact hif fun hr => .share (hright hr).1
  | unshareToDevice | unshareToDeviceRight | updateDeviceDisableMergeStateForUnshare
  | updateDeviceDisableMergeStateForUnshareRight => exact hif fun hr => h.unshare (hright hr).2
  | _ => exact h

end MemoryBlockLockFunction

/-- Every page and every mark of an address space is coupled. -/
structure SpaceView.Coupled (s : SpaceView) : Prop where
  page : ∀ x v, s.page x = some v → v.Coupled
  left : ∀ x, (s.left x).Coupled
  right : ∀ x, (s.right x).Coupled

theorem SpaceView.Coupled.lock {s : SpaceView} {f : MemoryBlockLockFunction} {a e : ℕ}
    (h : s.Coupled) (perm : KMemoryPermission)
    (hpage : ∀ x v, a ≤ x → x < e → s.page x = some v → f.AdmitsPage v)
    (hleft : f.AdmitsLeft (s.left a) ∧ f.SafeLeft (s.left a))
    (hright : f.AdmitsRight (s.right e) ∧ f.SafeRight (s.right e)) :
    (s.lock f perm a e).Coupled where
  page x w hw := by
    by_cases hx : a ≤ x ∧ x < e
    · rw [lock_page_inside hx] at hw
      obtain ⟨v, hv, rfl⟩ := Option.map_eq_some_iff.mp hw
      exact MemoryBlockLockFunction.coupled_onPage (h.page x v hv) (hpage x v hx.1 hx.2 hv) perm
    · rw [lock_page_outside (by omega)] at hw
      exact h.page x w hw
  left x := by
    by_cases hx : a ≤ x ∧ x < e
    · cases hv : s.page x with
      | none => simpa [SpaceView.lock, hx, hv] using h.left x
      | some v =>
        rw [lock_left_inside hx hv]
        refine MemoryBlockLockFunction.coupled_onLeft (h.left x) v fun heq => ?_
        rw [beq_iff_eq.mp heq]
        exact hleft
    · rw [lock_left_outside (by omega)]
      exact h.left x
  right x := by
    by_cases hx : a < x ∧ x ≤ e
    · rw [lock_right_inside hx]
      refine MemoryBlockLockFunction.coupled_onRight (h.right x) fun heq => ?_
      rw [beq_iff_eq.mp heq]
      exact hright
    · rw [lock_right_outside (by omega)]
      exact h.right x

/-! ## Trees -/

namespace KMemoryBlockManager

open KMemoryBlockManagerUpdateAllocator

variable {m m' : KMemoryBlockManager} {t t' : List KMemoryBlockNode} {ps : List ℕ}

/-- Every block of a tree is coupled. -/
def BlocksCoupled (t : List KMemoryBlockNode) : Prop := ∀ node ∈ t, node.block.Coupled

theorem BlocksCoupled.view (h : BlocksCoupled m.memoryBlockTree) : m.view.Coupled where
  page _ _ := blockShape.forall_valAt fun node hnode =>
    (KMemoryBlock.coupled_iff.mp (h node hnode)).1
  left := blockShape.forall_leftAt LeftMark.coupled_clear fun node hnode =>
    (KMemoryBlock.coupled_iff.mp (h node hnode)).2.1
  right := blockShape.forall_rightAt RightMark.coupled_clear fun node hnode =>
    (KMemoryBlock.coupled_iff.mp (h node hnode)).2.2

theorem blocksCoupled_of_view {st nd : ℕ} (ht : blockShape.Tiles st t nd)
    (h : (⟨blockShape.valAt t, blockShape.leftAt t, blockShape.rightAt t⟩ : SpaceView).Coupled) :
    BlocksCoupled t := by
  intro node hnode
  obtain ⟨hleft, hright, hval⟩ := ht.shown hnode
  have hlt := (ht.bounds hnode).2.1
  refine KMemoryBlock.coupled_iff.mpr
    ⟨h.page _ _ (hval (blockShape.lo node) le_rfl hlt), ?_, ?_⟩
  · have hl : (blockShape.leftAt t (blockShape.lo node)).Coupled := h.left _
    rwa [hleft] at hl
  · have hr : (blockShape.rightAt t (blockShape.hi node)).Coupled := h.right _
    rwa [hright] at hr

theorem BlocksCoupled.merges (h : BlocksCoupled t) (hm : blockShape.Merges t t') :
    BlocksCoupled t' := by
  have hparts := hm.forall_blocks (I := fun v l r => v.Coupled ∧ l.Coupled ∧ r.Coupled)
    (fun v l r l' r' _ _ h₁ h₂ => ⟨h₁.1, h₁.2.1, h₂.2.2⟩)
    (fun b hb => KMemoryBlock.coupled_iff.mp (h b hb))
  exact fun b hb => KMemoryBlock.coupled_iff.mpr (hparts b hb)

/-- A pass whose block function keeps the coupling. -/
theorem BlocksCoupled.paints {a e : ℕ} {K : KMemoryBlockNode → Prop}
    {P : KMemoryBlockNode → KMemoryBlockNode → Prop} (h : BlocksCoupled t)
    (hp : blockShape.Paints a e K P t t')
    (hP : ∀ b b', P b b' → b.block.Coupled → b'.block.Coupled) : BlocksCoupled t' := by
  have hparts := hp.forall_blocks (I := fun v l r => v.Coupled ∧ l.Coupled ∧ r.Coupled)
    (fun v l r h => ⟨h.1, h.2.1, RightMark.coupled_clear⟩)
    (fun v l r h => ⟨h.1, LeftMark.coupled_clear, h.2.2⟩)
    (fun b b' hb hc => KMemoryBlock.coupled_iff.mp (hP b b' hb (KMemoryBlock.coupled_iff.mpr hc)))
    (fun b hb => KMemoryBlock.coupled_iff.mp (h b hb))
  exact fun b hb => KMemoryBlock.coupled_iff.mpr (hparts b hb)

/-! ## Runs -/

/-- The functions that change a tree, with their arguments. -/
inductive Op
  | update (state : KMemoryState) (perm : KMemoryPermission) (attr : KMemoryAttribute)
      (setDisableAttr clearDisableAttr : KMemoryBlockDisableMergeAttribute)
  | updateIfMatch (testState : KMemoryState) (testPerm : KMemoryPermission)
      (testAttr : KMemoryAttribute) (state : KMemoryState) (perm : KMemoryPermission)
      (attr : KMemoryAttribute)
  | updateLock (lockFunc : MemoryBlockLockFunction) (perm : KMemoryPermission)
  deriving DecidableEq, Repr

def Op.call (m : KMemoryBlockManager) (alloc : KMemoryBlockManagerUpdateAllocator) (r : PageRange) :
    Op → Run (KMemoryBlockManager × KMemoryBlockManagerUpdateAllocator)
  | .update state perm attr setAttr clearAttr =>
    m.update alloc r.address r.numPages state perm attr setAttr clearAttr
  | .updateIfMatch testState testPerm testAttr state perm attr =>
    m.updateIfMatch alloc r.address r.numPages testState testPerm testAttr state perm attr
  | .updateLock lockFunc perm => m.updateLock alloc r.address r.numPages lockFunc perm

/-- The arguments fit the tree: the new attributes and the masks leave the flags
with a count alone, and no merge count is decremented at zero. -/
def Op.KeepsCoupling (m : KMemoryBlockManager) (r : PageRange) : Op → Prop
  | .update _ _ attr setAttr clearAttr => attr &&& PageProperties.attributeIgnoreMask = 0 ∧
      setAttr.Uncounted ∧ clearAttr.Uncounted
  | .updateIfMatch _ _ _ _ _ attr => attr &&& PageProperties.attributeIgnoreMask = 0
  | .updateLock f _ => f.SafeLeft (m.leftMarkAt r.address) ∧
      f.SafeRight (m.rightMarkAt r.endAddress)

/-- The trees that calls which satisfy `Allowed` reach from `m₀`. Every call is for
pages of the tree, with the blocks it may have to split off. -/
inductive OpRun (Allowed : KMemoryBlockManager → PageRange → Op → Prop)
    (m₀ : KMemoryBlockManager) : KMemoryBlockManager → Prop
  | start : OpRun Allowed m₀ m₀
  | call {m m' : KMemoryBlockManager} {alloc alloc' : KMemoryBlockManagerUpdateAllocator}
      {ps : List ℕ} (r : PageRange) (op : Op) (hrun : OpRun Allowed m₀ m)
      (hrange : m.IsRange r.address r.numPages) (hps : alloc.Holds ps)
      (hneed : m.blocksNeeded r.address r.endAddress ≤ ps.length) (hallowed : Allowed m r op)
      (hok : op.call m alloc r = .ok (m', alloc')) : OpRun Allowed m₀ m'

/-- An update whose block function keeps the coupling. -/
theorem RangeOutcome.coupled {a e : ℕ} {alloc alloc' : KMemoryBlockManagerUpdateAllocator}
    {skip : KMemoryBlock → Bool} {apply : KMemoryBlock → Bool → Bool → Run KMemoryBlock}
    (h : RangeOutcome m a e alloc ps skip apply (.ok (m', alloc')))
    (happly : ∀ b l r c, apply b l r = .ok c → b.Coupled → c.Coupled)
    (hm : BlocksCoupled m.memoryBlockTree) : m'.WellFormed ∧ BlocksCoupled m'.memoryBlockTree := by
  cases h with
  | done _ hwf _ _ hpaints hmerges _ _ =>
    exact ⟨hwf, (hm.paints hpaints fun b b' hP => happly _ _ _ _ hP.2).merges hmerges⟩

theorem Op.coupled {alloc alloc' : KMemoryBlockManagerUpdateAllocator}
    {r : PageRange} {op : Op} (hwf : m.WellFormed) (hm : BlocksCoupled m.memoryBlockTree)
    (hrange : m.IsRange r.address r.numPages) (hps : alloc.Holds ps)
    (hneed : m.blocksNeeded r.address r.endAddress ≤ ps.length) (hkeeps : op.KeepsCoupling m r)
    (hok : op.call m alloc r = .ok (m', alloc')) :
    m'.WellFormed ∧ BlocksCoupled m'.memoryBlockTree := by
  cases op with
  | update state perm attr setAttr clearAttr =>
    obtain ⟨hattr, hset, hclear⟩ := hkeeps
    have houtcome := updateRange_outcome hwf hrange hps hneed
      (respects_update state perm attr setAttr clearAttr)
    rw [show m.updateRange _ _ _ _ _ = _ from hok] at houtcome
    refine houtcome.coupled ?_ hm
    rintro b l r c ⟨⟩ hb
    exact hb.update state perm hattr l hset hclear
  | updateIfMatch testState testPerm testAttr state perm attr =>
    have houtcome := updateRange_outcome hwf hrange hps hneed
      (respects_updateIfMatch testState state testPerm perm testAttr attr)
    rw [show m.updateRange _ _ _ _ _ = _ from hok] at houtcome
    refine houtcome.coupled ?_ hm
    rintro b l r c ⟨⟩ hb
    exact hb.update state perm hkeeps false ⟨rfl, rfl, rfl⟩ ⟨rfl, rfl, rfl⟩
  | updateLock f perm =>
    obtain ⟨hadm, mid, hlocks⟩ := locks_of_updateLock hwf hrange hps hneed hok
    refine ⟨hlocks.wellFormed, BlocksCoupled.merges ?_ hlocks.merges⟩
    refine blocksCoupled_of_view (hlocks.paints.tiles hwf.tiles) ?_
    rw [hlocks.view_mid hwf hrange.start_le hrange.le_end]
    exact hm.view.lock perm hadm.page ⟨hadm.left, hkeeps.1⟩ ⟨hadm.right, hkeeps.2⟩

/-- The tree that `Initialize` makes is coupled when the storage of its block had
no merge count for IPC. -/
theorem initializeManager_coupled {st nd : ℕ} {slab slab' : KMemoryBlockSlabManager}
    {stale : ℕ → KMemoryBlock} (hst : pageSize ∣ st) (hnd : pageSize ∣ nd) (hlt : st < nd)
    (hinit : initializeManager st nd slab stale = .ok (m, slab'))
    (hstale : ∀ p ∈ slab.allocate.1, (stale p).ipcDisableMergeCount = 0#16) :
    m.WellFormed ∧ BlocksCoupled m.memoryBlockTree := by
  rw [initializeManager] at hinit
  split at hinit
  · cases hinit
  · rename_i p slab'' halloc
    cases hinit
    have hcount : (stale p).ipcDisableMergeCount = 0#16 := hstale p (by rw [halloc]; rfl)
    have hsize : (nd - st) / pageSize * pageSize = nd - st :=
      Nat.div_mul_cancel (Nat.dvd_sub hnd hst)
    have hend : st + (nd - st) / pageSize * pageSize = nd := by omega
    constructor
    · refine ⟨⟨rfl, ?_, hend⟩, ?_, List.isChain_singleton _⟩
      · change st < st + (nd - st) / pageSize * pageSize
        omega
      · intro node hnode
        obtain rfl := List.mem_singleton.mp hnode
        exact hst
    · intro node hnode
      obtain rfl := List.mem_singleton.mp hnode
      constructor <;> simp [KMemoryBlock.initializeBlock, hcount, KMemoryAttribute.none,
        KMemoryBlockDisableMergeAttribute.none]

/-- In every run from `Initialize` whose calls fit the tree, each flag of each block
is set exactly when its count is not zero. -/
theorem run_keeps_flags_coupled {st nd : ℕ} {slab slab' : KMemoryBlockSlabManager}
    {stale : ℕ → KMemoryBlock} {m₀ : KMemoryBlockManager} (hst : pageSize ∣ st)
    (hnd : pageSize ∣ nd) (hlt : st < nd)
    (hinit : initializeManager st nd slab stale = .ok (m₀, slab'))
    (hstale : ∀ p ∈ slab.allocate.1, (stale p).ipcDisableMergeCount = 0#16)
    (hrun : OpRun (fun m r op => op.KeepsCoupling m r) m₀ m) :
    ∀ node ∈ m.memoryBlockTree, node.block.Coupled := by
  have hinv : m.WellFormed ∧ BlocksCoupled m.memoryBlockTree := by
    induction hrun with
    | start => exact initializeManager_coupled hst hnd hlt hinit hstale
    | call r op _ hrange hps hneed hkeeps hok ih =>
      exact Op.coupled ih.1 ih.2 hrange hps hneed hkeeps hok
  exact hinv.2

/-- A new tree over four pages, of which two are locked for IPC. -/
theorem flags_coupled_of_locked_pages :
    ∃ m, OpRun (fun m r op => op.KeepsCoupling m r) fourFreePages m ∧
      ∀ node ∈ m.memoryBlockTree, node.block.Coupled := by
  have hrun : OpRun (fun m r op => op.KeepsCoupling m r) fourFreePages _ :=
    .call ⟨0x2000, 2⟩ (.updateLock .lockForIpc KMemoryPermission.userRead) .start
      ⟨by decide, by decide, by decide, by decide⟩ twoBlockAllocator_holds (by decide)
      ⟨trivial, trivial⟩ rfl
  have hinit : initializeManager 0x1000 0x5000 ⟨[1], []⟩
      (fun _ => .constantInitialize 0 0 0 0 0) = .ok (fourFreePages, ⟨[], []⟩) := rfl
  exact ⟨_, hrun, run_keeps_flags_coupled (by decide) (by decide) (by decide) hinit
    (fun _ _ => rfl) hrun⟩

/-- `Initialize` leaves the stale count in the first block of the tree. -/
theorem initialize_keeps_stale_count :
    ∃ m slab, initializeManager 0x1000 0x5000 ⟨[1], []⟩ (fun _ => staleBlock) = .ok (m, slab) ∧
      ∃ node ∈ m.memoryBlockTree, ¬ node.block.Coupled := by
  refine ⟨_, _, rfl, _, List.mem_singleton_self _, fun h => ?_⟩
  exact absurd (h.ipcLeft.mpr (by decide)) (by decide)

end KMemoryBlockManager

end Atmosphere.Kern
