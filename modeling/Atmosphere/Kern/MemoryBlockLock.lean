import Atmosphere.Kern.MemoryBlock

/-!
# The lock functions of a memory block

`UpdateLock` takes a pointer to a member function of `KMemoryBlock`. The member
functions of that type are translated here and collected in one enumeration.
A lock function sees whether the block starts at the start of the locked range
(`left`) and whether it ends at its end (`right`).

The counts are sixteen-bit and wrap. An increment that reaches zero aborts, and
so does the decrement of a use count at zero; the merge counts are decremented
without a check.
-/

namespace Atmosphere.Kern

namespace KMemoryBlock

variable (b : KMemoryBlock)

def updateDeviceDisableMergeStateForShareLeft (_newPerm : KMemoryPermission) (left _right : Bool) :
    Run KMemoryBlock :=
  if left then
    let b := { b with
      disableMergeAttribute := { b.disableMergeAttribute with deviceLeft := true }
      deviceDisableMergeLeftCount := b.deviceDisableMergeLeftCount + 1#16 }
    if b.deviceDisableMergeLeftCount = 0#16 then .error .countOverflow else .ok b
  else .ok b

def updateDeviceDisableMergeStateForShareRight (_newPerm : KMemoryPermission) (_left right : Bool) :
    Run KMemoryBlock :=
  if right then
    let b := { b with
      disableMergeAttribute := { b.disableMergeAttribute with deviceRight := true }
      deviceDisableMergeRightCount := b.deviceDisableMergeRightCount + 1#16 }
    if b.deviceDisableMergeRightCount = 0#16 then .error .countOverflow else .ok b
  else .ok b

def updateDeviceDisableMergeStateForShare (newPerm : KMemoryPermission) (left right : Bool) :
    Run KMemoryBlock := do
  let b ← b.updateDeviceDisableMergeStateForShareLeft newPerm left right
  b.updateDeviceDisableMergeStateForShareRight newPerm left right

def shareToDevice (newPerm : KMemoryPermission) (left right : Bool) : Run KMemoryBlock :=
  let b := { b with deviceUseCount := b.deviceUseCount + 1#16 }
  if b.deviceUseCount = 0#16 then .error .countOverflow
  else
    let b := { b with attr := b.attr ||| KMemoryAttribute.deviceShared }
    b.updateDeviceDisableMergeStateForShare newPerm left right

def updateDeviceDisableMergeStateForUnshareLeft (_newPerm : KMemoryPermission)
    (left _right : Bool) : Run KMemoryBlock :=
  -- nothing more happens on an early return
  if left ∧ b.deviceDisableMergeLeftCount = 0#16 then .ok b
  else
    let b := if left then
        { b with deviceDisableMergeLeftCount := b.deviceDisableMergeLeftCount - 1#16 } else b
    let b := { b with
      deviceDisableMergeLeftCount :=
        if b.deviceUseCount < b.deviceDisableMergeLeftCount then b.deviceUseCount
        else b.deviceDisableMergeLeftCount }
    if b.deviceDisableMergeLeftCount = 0#16 then
      .ok { b with disableMergeAttribute := { b.disableMergeAttribute with deviceLeft := false } }
    else .ok b

def updateDeviceDisableMergeStateForUnshareRight (_newPerm : KMemoryPermission)
    (_left right : Bool) : Run KMemoryBlock :=
  if right then
    let oldCount := b.deviceDisableMergeRightCount
    let b := { b with deviceDisableMergeRightCount := b.deviceDisableMergeRightCount - 1#16 }
    if oldCount = 1#16 then
      .ok { b with disableMergeAttribute := { b.disableMergeAttribute with deviceRight := false } }
    else .ok b
  else .ok b

def updateDeviceDisableMergeStateForUnshare (newPerm : KMemoryPermission) (left right : Bool) :
    Run KMemoryBlock := do
  let b ← b.updateDeviceDisableMergeStateForUnshareLeft newPerm left right
  b.updateDeviceDisableMergeStateForUnshareRight newPerm left right

/-- The part that `UnshareToDevice` and `UnshareToDeviceRight` share. -/
def unshare : Run KMemoryBlock :=
  let oldCount := b.deviceUseCount
  let b := { b with deviceUseCount := b.deviceUseCount - 1#16 }
  if oldCount = 0#16 then .error .countUnderflow
  else if oldCount = 1#16 then .ok { b with attr := b.attr &&& ~~~KMemoryAttribute.deviceShared }
  else .ok b

variable (newPerm : KMemoryPermission)

def unshareToDevice (left right : Bool) : Run KMemoryBlock := do
  let b ← b.unshare
  b.updateDeviceDisableMergeStateForUnshare newPerm left right

def unshareToDeviceRight (left right : Bool) : Run KMemoryBlock := do
  let b ← b.unshare
  b.updateDeviceDisableMergeStateForUnshareRight newPerm left right

def lockForIpc (left _right : Bool) : Run KMemoryBlock :=
  let b := { b with ipcLockCount := b.ipcLockCount + 1#16 }
  if b.ipcLockCount = 0#16 then .error .countOverflow
  else
    -- the first lock replaces the permission and keeps the old one
    let b := if b.ipcLockCount = 1#16 then
        { b with
          originalPermission := b.permission
          permission := (newPerm &&& KMemoryPermission.ipcLockChangeMask) |||
            (b.permission &&& ~~~KMemoryPermission.ipcLockChangeMask) } else b
    let b := { b with attr := b.attr ||| KMemoryAttribute.ipcLocked }
    if left then
      let b := { b with
        disableMergeAttribute := { b.disableMergeAttribute with ipcLeft := true }
        ipcDisableMergeCount := b.ipcDisableMergeCount + 1#16 }
      if b.ipcDisableMergeCount = 0#16 then .error .countOverflow else .ok b
    else .ok b

def unlockForIpc (_newPerm : KMemoryPermission) (left _right : Bool) : Run KMemoryBlock :=
  let oldLockCount := b.ipcLockCount
  let b := { b with ipcLockCount := b.ipcLockCount - 1#16 }
  if oldLockCount = 0#16 then .error .countUnderflow
  else
    let b := if oldLockCount = 1#16 then
        { b with
          permission := b.originalPermission
          originalPermission := KMemoryPermission.none
          attr := b.attr &&& ~~~KMemoryAttribute.ipcLocked } else b
    if left then
      let oldCount := b.ipcDisableMergeCount
      let b := { b with ipcDisableMergeCount := b.ipcDisableMergeCount - 1#16 }
      if oldCount = 1#16 then
        .ok { b with disableMergeAttribute := { b.disableMergeAttribute with ipcLeft := false } }
      else .ok b
    else .ok b

end KMemoryBlock

/-- `MemoryBlockLockFunction`: the members of `KMemoryBlock` of that type. -/
inductive MemoryBlockLockFunction
  | updateDeviceDisableMergeStateForShareLeft
  | updateDeviceDisableMergeStateForShareRight
  | updateDeviceDisableMergeStateForShare
  | shareToDevice
  | updateDeviceDisableMergeStateForUnshareLeft
  | updateDeviceDisableMergeStateForUnshareRight
  | updateDeviceDisableMergeStateForUnshare
  | unshareToDevice
  | unshareToDeviceRight
  | lockForIpc
  | unlockForIpc
  deriving DecidableEq, Repr

namespace MemoryBlockLockFunction

/-- The call through the member pointer. -/
def call : MemoryBlockLockFunction →
    KMemoryBlock → KMemoryPermission → Bool → Bool → Run KMemoryBlock
  | updateDeviceDisableMergeStateForShareLeft =>
    KMemoryBlock.updateDeviceDisableMergeStateForShareLeft
  | updateDeviceDisableMergeStateForShareRight =>
    KMemoryBlock.updateDeviceDisableMergeStateForShareRight
  | updateDeviceDisableMergeStateForShare => KMemoryBlock.updateDeviceDisableMergeStateForShare
  | shareToDevice => KMemoryBlock.shareToDevice
  | updateDeviceDisableMergeStateForUnshareLeft =>
    KMemoryBlock.updateDeviceDisableMergeStateForUnshareLeft
  | updateDeviceDisableMergeStateForUnshareRight =>
    KMemoryBlock.updateDeviceDisableMergeStateForUnshareRight
  | updateDeviceDisableMergeStateForUnshare => KMemoryBlock.updateDeviceDisableMergeStateForUnshare
  | unshareToDevice => KMemoryBlock.unshareToDevice
  | unshareToDeviceRight => KMemoryBlock.unshareToDeviceRight
  | lockForIpc => KMemoryBlock.lockForIpc
  | unlockForIpc => KMemoryBlock.unlockForIpc

end MemoryBlockLockFunction

/-! ## What a lock function does to the three parts of a block -/

namespace PageProperties

def share (v : PageProperties) : PageProperties :=
  { v with
    deviceUseCount := v.deviceUseCount + 1#16
    attr := v.attr ||| KMemoryAttribute.deviceShared }

def unshare (v : PageProperties) : PageProperties :=
  { v with
    deviceUseCount := v.deviceUseCount - 1#16
    attr :=
      if v.deviceUseCount = 1#16 then v.attr &&& ~~~KMemoryAttribute.deviceShared else v.attr }

def lockForIpc (perm : KMemoryPermission) (v : PageProperties) : PageProperties :=
  { v with
    ipcLockCount := v.ipcLockCount + 1#16
    originalPermission := if v.ipcLockCount = 0#16 then v.permission else v.originalPermission
    permission := if v.ipcLockCount = 0#16 then (perm &&& KMemoryPermission.ipcLockChangeMask) |||
      (v.permission &&& ~~~KMemoryPermission.ipcLockChangeMask) else v.permission
    attr := v.attr ||| KMemoryAttribute.ipcLocked }

def unlockForIpc (v : PageProperties) : PageProperties :=
  { v with
    ipcLockCount := v.ipcLockCount - 1#16
    permission := if v.ipcLockCount = 1#16 then v.originalPermission else v.permission
    originalPermission :=
      if v.ipcLockCount = 1#16 then KMemoryPermission.none else v.originalPermission
    attr := if v.ipcLockCount = 1#16 then v.attr &&& ~~~KMemoryAttribute.ipcLocked else v.attr }

end PageProperties

namespace LeftMark

def share (l : LeftMark) : LeftMark :=
  { l with deviceLeft := true, deviceDisableMergeLeftCount := l.deviceDisableMergeLeftCount + 1#16 }

/-- `useCount` is the use count of the pages after the call. -/
def unshare (useCount : BitVec 16) (left : Bool) (l : LeftMark) : LeftMark :=
  if left ∧ l.deviceDisableMergeLeftCount = 0#16 then l
  else
    let count :=
      if left then l.deviceDisableMergeLeftCount - 1#16 else l.deviceDisableMergeLeftCount
    let count := if useCount < count then useCount else count
    { l with
      deviceDisableMergeLeftCount := count
      deviceLeft := if count = 0#16 then false else l.deviceLeft }

/-- The new count is at most the use count and the old count, and the flag stays set for a count. -/
theorem unshare_spec (useCount : BitVec 16) (left : Bool) (l : LeftMark) :
    (l.unshare useCount left).deviceDisableMergeLeftCount ≤ useCount ∧
    (l.unshare useCount left).deviceDisableMergeLeftCount ≤ l.deviceDisableMergeLeftCount ∧
    ((l.deviceLeft = true ↔ l.deviceDisableMergeLeftCount ≠ 0#16) →
      ((l.unshare useCount left).deviceLeft = true ↔
        (l.unshare useCount left).deviceDisableMergeLeftCount ≠ 0#16)) := by
  unfold unshare
  split
  · rename_i hearly
    exact ⟨by bv_omega, BitVec.le_refl _, id⟩
  · rename_i hearly
    dsimp only
    generalize hnew : (if useCount < _ then useCount else _) = new
    have hle : new ≤ useCount ∧ new ≤ l.deviceDisableMergeLeftCount := by
      cases left <;> simp only [true_and, if_true, Bool.false_eq_true, if_false] at hearly hnew <;>
        split at hnew <;> bv_omega
    refine ⟨hle.1, hle.2, fun hflag => ?_⟩
    by_cases h0 : new = 0#16
    · simp [h0]
    · rw [if_neg h0, hflag]
      exact iff_of_true (by bv_omega) h0

def lockForIpc (l : LeftMark) : LeftMark :=
  { l with ipcLeft := true, ipcDisableMergeCount := l.ipcDisableMergeCount + 1#16 }

def unlockForIpc (l : LeftMark) : LeftMark :=
  { l with
    ipcLeft := if l.ipcDisableMergeCount = 1#16 then false else l.ipcLeft
    ipcDisableMergeCount := l.ipcDisableMergeCount - 1#16 }

end LeftMark

namespace RightMark

def share (r : RightMark) : RightMark :=
  { r with
    deviceRight := true
    deviceDisableMergeRightCount := r.deviceDisableMergeRightCount + 1#16 }

def unshare (r : RightMark) : RightMark :=
  { r with
    deviceRight := if r.deviceDisableMergeRightCount = 1#16 then false else r.deviceRight
    deviceDisableMergeRightCount := r.deviceDisableMergeRightCount - 1#16 }

end RightMark

namespace MemoryBlockLockFunction

/-- The image of a page. -/
def onPage : MemoryBlockLockFunction → KMemoryPermission → PageProperties → PageProperties
  | shareToDevice, _, v => v.share
  | unshareToDevice, _, v | unshareToDeviceRight, _, v => v.unshare
  | lockForIpc, perm, v => v.lockForIpc perm
  | unlockForIpc, _, v => v.unlockForIpc
  | _, _, v => v

/-- The image of the left mark of a block with the page properties `v`. -/
def onLeft : MemoryBlockLockFunction → PageProperties → Bool → LeftMark → LeftMark
  | shareToDevice, _, left, l | updateDeviceDisableMergeStateForShare, _, left, l
  | updateDeviceDisableMergeStateForShareLeft, _, left, l => if left then l.share else l
  | updateDeviceDisableMergeStateForUnshareLeft, v, left, l
  | updateDeviceDisableMergeStateForUnshare, v, left, l => l.unshare v.deviceUseCount left
  | unshareToDevice, v, left, l => l.unshare (v.deviceUseCount - 1#16) left
  | lockForIpc, _, left, l => if left then l.lockForIpc else l
  | unlockForIpc, _, left, l => if left then l.unlockForIpc else l
  | updateDeviceDisableMergeStateForShareRight, _, _, l
  | updateDeviceDisableMergeStateForUnshareRight, _, _, l | unshareToDeviceRight, _, _, l => l

/-- The image of the right mark. -/
def onRight : MemoryBlockLockFunction → Bool → RightMark → RightMark
  | shareToDevice, right, r | updateDeviceDisableMergeStateForShare, right, r
  | updateDeviceDisableMergeStateForShareRight, right, r => if right then r.share else r
  | unshareToDevice, right, r | unshareToDeviceRight, right, r
  | updateDeviceDisableMergeStateForUnshare, right, r
  | updateDeviceDisableMergeStateForUnshareRight, right, r => if right then r.unshare else r
  | updateDeviceDisableMergeStateForShareLeft, _, r
  | updateDeviceDisableMergeStateForUnshareLeft, _, r | lockForIpc, _, r | unlockForIpc, _, r => r

/-- The checks of the use counts pass on a page. -/
def AdmitsPage : MemoryBlockLockFunction → PageProperties → Prop
  | shareToDevice, v => v.deviceUseCount + 1#16 ≠ 0#16
  | unshareToDevice, v | unshareToDeviceRight, v => v.deviceUseCount ≠ 0#16
  | lockForIpc, v => v.ipcLockCount + 1#16 ≠ 0#16
  | unlockForIpc, v => v.ipcLockCount ≠ 0#16
  | _, _ => True

/-- The check of the merge count passes at the left end of the range. -/
def AdmitsLeft : MemoryBlockLockFunction → LeftMark → Prop
  | shareToDevice, l | updateDeviceDisableMergeStateForShare, l
  | updateDeviceDisableMergeStateForShareLeft, l => l.deviceDisableMergeLeftCount + 1#16 ≠ 0#16
  | lockForIpc, l => l.ipcDisableMergeCount + 1#16 ≠ 0#16
  | _, _ => True

/-- The check of the merge count passes at the right end of the range. -/
def AdmitsRight : MemoryBlockLockFunction → RightMark → Prop
  | shareToDevice, r | updateDeviceDisableMergeStateForShare, r
  | updateDeviceDisableMergeStateForShareRight, r => r.deviceDisableMergeRightCount + 1#16 ≠ 0#16
  | _, _ => True

/-- The block with each of its three parts replaced by its image. -/
def image (f : MemoryBlockLockFunction) (perm : KMemoryPermission) (left right : Bool)
    (b : KMemoryBlock) : KMemoryBlock :=
  b.withParts (f.onPage perm b.properties) (f.onLeft b.properties left b.leftMark)
    (f.onRight right b.rightMark)

end MemoryBlockLockFunction

namespace KMemoryBlock

/-- A run with checks of counts returns `c` when they pass and stops at a count otherwise. -/
inductive Checked (P : Prop) (c : KMemoryBlock) : Run KMemoryBlock → Prop
  | ok : P → Checked P c (.ok c)
  | overflow : ¬ P → Checked P c (.error .countOverflow)
  | underflow : ¬ P → Checked P c (.error .countUnderflow)

namespace Checked

variable {P Q : Prop} {b c : KMemoryBlock} {r : Run KMemoryBlock} {n : BitVec 16}

theorem congr (h : Checked P c r) (hiff : P ↔ Q) : Checked Q c r := propext hiff ▸ h

theorem bind {f : KMemoryBlock → Run KMemoryBlock} (h : Checked P b r) (hf : Checked Q c (f b)) :
    Checked (P ∧ Q) c (r >>= f) := by
  cases h with
  | ok hP => exact hf.congr (and_iff_right hP).symm
  | overflow hP => exact .overflow fun h => hP h.1
  | underflow hP => exact .underflow fun h => hP h.1

theorem increment (h : Checked Q c r) :
    Checked (n ≠ 0#16 ∧ Q) c (if n = 0#16 then .error .countOverflow else r) := by
  split_ifs with hn
  · exact .overflow fun h => h.1 hn
  · exact h.congr (and_iff_right hn).symm

theorem decrement (h : Checked Q c r) :
    Checked (n ≠ 0#16 ∧ Q) c (if n = 0#16 then .error .countUnderflow else r) := by
  split_ifs with hn
  · exact .underflow fun h => h.1 hn
  · exact h.congr (and_iff_right hn).symm

end Checked

variable (b : KMemoryBlock) (perm : KMemoryPermission) (left right : Bool)

theorem shareLeft_checked : Checked (left = true → b.deviceDisableMergeLeftCount + 1#16 ≠ 0#16)
      (b.withParts b.properties (if left then b.leftMark.share else b.leftMark) b.rightMark)
      (b.updateDeviceDisableMergeStateForShareLeft perm left right) := by
  cases left with
  | false => exact .ok nofun
  | true => exact (Checked.increment (.ok trivial)).congr (by simp)

theorem shareRight_checked : Checked (right = true → b.deviceDisableMergeRightCount + 1#16 ≠ 0#16)
      (b.withParts b.properties b.leftMark (if right then b.rightMark.share else b.rightMark))
      (b.updateDeviceDisableMergeStateForShareRight perm left right) := by
  cases right with
  | false => exact .ok nofun
  | true => exact (Checked.increment (.ok trivial)).congr (by simp)

theorem share_checked : Checked ((left = true → b.deviceDisableMergeLeftCount + 1#16 ≠ 0#16) ∧
        (right = true → b.deviceDisableMergeRightCount + 1#16 ≠ 0#16))
      (b.withParts b.properties (if left then b.leftMark.share else b.leftMark)
        (if right then b.rightMark.share else b.rightMark))
      (b.updateDeviceDisableMergeStateForShare perm left right) :=
  (b.shareLeft_checked perm left right).bind (shareRight_checked (b.withParts b.properties
    (if left then b.leftMark.share else b.leftMark) b.rightMark) perm left right)

theorem unshareLeft_eq : b.updateDeviceDisableMergeStateForUnshareLeft perm left right =
      .ok (b.withParts b.properties (b.leftMark.unshare b.deviceUseCount left) b.rightMark) := by
  obtain ⟨dl, dr, ad, np, st, ipc, dev, ipcm, pm, orig, attr, ⟨n, dL, iL, lk, dR⟩⟩ := b
  simp only [updateDeviceDisableMergeStateForUnshareLeft, LeftMark.unshare, leftMark]
  by_cases hearly : left = true ∧ dl = 0#16
  · obtain ⟨rfl, rfl⟩ := hearly
    rfl
  · cases left with
    | false =>
      simp only [Bool.false_eq_true, if_false]
      generalize (if dev < dl then dev else dl) = count
      by_cases h : count = 0#16 <;> simp [h, withParts, properties, rightMark]
    | true =>
      have hdl : ¬ dl = 0#16 := fun h => hearly ⟨rfl, h⟩
      simp only [if_true, hdl, and_false, if_false]
      generalize (if dev < dl - 1#16 then dev else dl - 1#16) = count
      by_cases h : count = 0#16 <;> simp [h, withParts, properties, rightMark]

theorem unshareRight_eq : b.updateDeviceDisableMergeStateForUnshareRight perm left right =
      .ok (b.withParts b.properties b.leftMark
        (if right then b.rightMark.unshare else b.rightMark)) := by
  cases right with
  | false => rfl
  | true =>
    simp only [updateDeviceDisableMergeStateForUnshareRight, if_true, RightMark.unshare, rightMark]
    by_cases h : b.deviceDisableMergeRightCount = 1#16
    · simp only [h, if_true]
      rfl
    · simp only [h, if_false]
      rfl

theorem unshareBoth_eq : b.updateDeviceDisableMergeStateForUnshare perm left right =
      .ok (b.withParts b.properties (b.leftMark.unshare b.deviceUseCount left)
        (if right then b.rightMark.unshare else b.rightMark)) := by
  rw [updateDeviceDisableMergeStateForUnshare, unshareLeft_eq]
  exact unshareRight_eq _ perm left right

theorem unshare_checked : Checked (b.deviceUseCount ≠ 0#16 ∧ True)
      (b.withParts b.properties.unshare b.leftMark b.rightMark) b.unshare := by
  refine Checked.decrement ?_
  simp only [PageProperties.unshare, properties]
  by_cases h : b.deviceUseCount = 1#16
  · simp only [h, if_true]
    exact .ok trivial
  · simp only [h, if_false]
    exact .ok trivial

theorem lockForIpc_checked : Checked (b.ipcLockCount + 1#16 ≠ 0#16 ∧
        (left = true → b.ipcDisableMergeCount + 1#16 ≠ 0#16))
      (b.withParts (b.properties.lockForIpc perm)
        (if left then b.leftMark.lockForIpc else b.leftMark) b.rightMark)
      (b.lockForIpc perm left right) := by
  have hone : b.ipcLockCount + 1#16 = 1#16 ↔ b.ipcLockCount = 0#16 := by bv_omega
  refine Checked.increment ?_
  -- the two forms of the first-lock test agree; the left flag decides the last check
  simp only [PageProperties.lockForIpc, properties, hone]
  by_cases h : b.ipcLockCount = 0#16
  all_goals
    simp only [h, if_true, if_false]
    cases left with
    | false => exact .ok fun h => absurd h Bool.false_ne_true
    | true => exact (Checked.increment (.ok trivial)).congr (by simp)

theorem unlockForIpc_checked :
    Checked (b.ipcLockCount ≠ 0#16 ∧ True) (b.withParts b.properties.unlockForIpc
        (if left then b.leftMark.unlockForIpc else b.leftMark) b.rightMark)
      (b.unlockForIpc perm left right) := by
  refine Checked.decrement ?_
  simp only [PageProperties.unlockForIpc, LeftMark.unlockForIpc, properties, leftMark]
  by_cases h : b.ipcLockCount = 1#16 <;> by_cases h' : b.ipcDisableMergeCount = 1#16 <;>
    cases left
  all_goals
    simp only [h, h', if_true, if_false]
    exact .ok trivial

end KMemoryBlock

namespace MemoryBlockLockFunction

open KMemoryBlock

variable {f : MemoryBlockLockFunction} {b c : KMemoryBlock} {perm : KMemoryPermission}
variable {left right : Bool}

/-- A lock function returns exactly when its count checks pass, and then
replaces the three parts of the block by their images. -/
theorem call_checked :
    Checked (f.AdmitsPage b.properties ∧ (left = true → f.AdmitsLeft b.leftMark) ∧
      (right = true → f.AdmitsRight b.rightMark)) (f.image perm left right b)
      (f.call b perm left right) := by
  have hnone : (left = true → True) ∧ (right = true → True) := ⟨fun _ => trivial, fun _ => trivial⟩
  cases f with
  | updateDeviceDisableMergeStateForShareLeft =>
    exact (b.shareLeft_checked perm left right).congr
      ⟨fun h => ⟨trivial, h, hnone.2⟩, fun h => h.2.1⟩
  | updateDeviceDisableMergeStateForShareRight =>
    exact (b.shareRight_checked perm left right).congr
      ⟨fun h => ⟨trivial, hnone.1, h⟩, fun h => h.2.2⟩
  | updateDeviceDisableMergeStateForShare =>
    exact (b.share_checked perm left right).congr ⟨fun h => ⟨trivial, h⟩, fun h => h.2⟩
  | shareToDevice =>
    exact Checked.increment (share_checked
      (b.withParts b.properties.share b.leftMark b.rightMark) perm left right)
  | updateDeviceDisableMergeStateForUnshareLeft =>
    rw [call, unshareLeft_eq]
    exact .ok ⟨trivial, hnone⟩
  | updateDeviceDisableMergeStateForUnshareRight =>
    rw [call, unshareRight_eq]
    exact .ok ⟨trivial, hnone⟩
  | updateDeviceDisableMergeStateForUnshare =>
    rw [call, unshareBoth_eq]
    exact .ok ⟨trivial, hnone⟩
  | unshareToDevice =>
    refine (b.unshare_checked.bind (Q := True) ?_).congr
      ⟨fun h => ⟨h.1.1, hnone⟩, fun h => ⟨⟨h.1, trivial⟩, trivial⟩⟩
    rw [unshareBoth_eq]
    exact .ok trivial
  | unshareToDeviceRight =>
    refine (b.unshare_checked.bind (Q := True) ?_).congr
      ⟨fun h => ⟨h.1.1, hnone⟩, fun h => ⟨⟨h.1, trivial⟩, trivial⟩⟩
    rw [unshareRight_eq]
    exact .ok trivial
  | lockForIpc =>
    exact (b.lockForIpc_checked perm left right).congr
      ⟨fun h => ⟨h.1, h.2, hnone.2⟩, fun h => ⟨h.1, h.2.1⟩⟩
  | unlockForIpc =>
    exact (b.unlockForIpc_checked perm left right).congr
      ⟨fun h => ⟨h.1, hnone⟩, fun h => ⟨h.1, trivial⟩⟩

theorem call_eq_ok_iff : f.call b perm left right = .ok c ↔
      (f.AdmitsPage b.properties ∧ (left = true → f.AdmitsLeft b.leftMark) ∧
        (right = true → f.AdmitsRight b.rightMark)) ∧ c = f.image perm left right b := by
  have h := @call_checked f b perm left right
  generalize f.call b perm left right = r at h
  cases h with
  | ok h => rw [and_iff_right h, Except.ok.injEq, eq_comm]
  | overflow h | underflow h => exact iff_of_false nofun fun hc => h hc.1

/-- Off the left end of the range a lock function adds no mark. -/
theorem onLeft_clear (f : MemoryBlockLockFunction) (v : PageProperties) :
    f.onLeft v false .clear = .clear := by
  cases f <;> simp [onLeft, LeftMark.unshare, LeftMark.clear]

end MemoryBlockLockFunction

end Atmosphere.Kern
