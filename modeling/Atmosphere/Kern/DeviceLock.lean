import Atmosphere.Kern.SpaceView

/-!
# Device locks of an address space

What the device lock functions make of a page, of the marks at a position and of
the view of an address space. The left merge counts do not say how many
mappings start at an address, since a mapping may be undone in other pieces than
it was made. They are only bounded: an unlock leaves a left count of at most the
use count of the page.
-/

namespace Atmosphere.Kern

/-! ## What device locks make of a page and of a position -/

/-- The page is not in use by a device. -/
structure PageProperties.NoDevice (v : PageProperties) : Prop where
  deviceUseCount : v.deviceUseCount = 0#16
  attr : v.attr &&& KMemoryAttribute.deviceShared = 0

/-- `v` is the page `v₀` in use by `n` devices. -/
structure DevicePage (n : ℕ) (v₀ v : PageProperties) : Prop where
  count : v.deviceUseCount.toNat = n
  rest : v = { v₀ with
    deviceUseCount := v.deviceUseCount
    attr := if n = 0 then v₀.attr else v₀.attr ||| KMemoryAttribute.deviceShared }

namespace DevicePage

variable {n n' : ℕ} {v₀ v₀' v : PageProperties}

theorem of_noDevice (h : v₀.NoDevice) : DevicePage 0 v₀ v₀ :=
  ⟨by rw [h.deviceUseCount]; rfl, rfl⟩

theorem eq_of_zero (h : DevicePage 0 v₀ v) (h₀ : v₀.NoDevice) : v = v₀ := by
  have hcount : v.deviceUseCount = v₀.deviceUseCount := by
    rw [h₀.deviceUseCount]
    exact BitVec.eq_of_toNat_eq h.count
  rw [h.rest, hcount]
  rfl

theorem share (h : DevicePage n v₀ v) (hadm : v.deviceUseCount + 1#16 ≠ 0#16) :
    DevicePage (n + 1) v₀ v.share := by
  have hcount := h.count
  constructor
  · change (v.deviceUseCount + 1#16).toNat = n + 1
    bv_omega
  · rw [PageProperties.share, h.rest]
    by_cases h0 : n = 0
    · simp [h0]
    · simp [h0, BitVec.or_assoc]

theorem unshare (h : DevicePage (n + 1) v₀ v) (h₀ : v₀.NoDevice) : DevicePage n v₀ v.unshare := by
  have hcount := h.count
  have hone : v.deviceUseCount = 1#16 ↔ n = 0 := by bv_omega
  constructor
  · change (v.deviceUseCount - 1#16).toNat = n
    bv_omega
  · have hattr : v.attr = v₀.attr ||| KMemoryAttribute.deviceShared := by rw [h.rest]; simp
    rw [PageProperties.unshare, hattr, or_and_compl h₀.attr]
    simp only [hone]
    rw [h.rest]

/-- The page without devices can be read off a page in use. -/
theorem unique (h : DevicePage n v₀ v) (h' : DevicePage n' v₀' v) (h₀ : v₀.NoDevice)
    (h₀' : v₀'.NoDevice) : v₀ = v₀' := by
  have hn : n = n' := h.count.symm.trans h'.count
  subst hn
  have hrest := h.rest.symm.trans h'.rest
  obtain ⟨_, _, _, attr, _, _⟩ := v₀
  obtain ⟨_, _, _, attr', _, _⟩ := v₀'
  have hattr : attr &&& KMemoryAttribute.deviceShared = 0 := h₀.attr
  have hattr' : attr' &&& KMemoryAttribute.deviceShared = 0 := h₀'.attr
  have huse := h₀.deviceUseCount
  have huse' := h₀'.deviceUseCount
  simp only [PageProperties.mk.injEq] at hrest huse huse' ⊢
  obtain ⟨h₁, h₂, h₃, h₄, h₅, _⟩ := hrest
  refine ⟨h₁, h₂, h₃, ?_, h₅, huse.trans huse'.symm⟩
  by_cases h0 : n = 0
  · simpa [h0] using h₄
  · simp only [h0, if_false] at h₄
    rw [← or_and_compl hattr, h₄, or_and_compl hattr']

end DevicePage

/-- The left mark has no trace of a device. -/
structure LeftMark.NoDevice (l : LeftMark) : Prop where
  deviceLeft : l.deviceLeft = false
  deviceDisableMergeLeftCount : l.deviceDisableMergeLeftCount = 0#16

/-- `l` is the left mark `l₀` with a count of at most `bound` for devices. -/
structure DeviceLeft (bound : ℕ) (l₀ l : LeftMark) : Prop where
  le : l.deviceDisableMergeLeftCount.toNat ≤ bound
  deviceLeft : l.deviceLeft = decide (l.deviceDisableMergeLeftCount ≠ 0#16)
  rest : { l with deviceLeft := false, deviceDisableMergeLeftCount := 0#16 } = l₀

namespace DeviceLeft

variable {bound bound' : ℕ} {l₀ l : LeftMark}

theorem of_noDevice (h : l₀.NoDevice) : DeviceLeft 0 l₀ l₀ := by
  obtain ⟨_, _, _, _, _, _⟩ := l₀
  obtain ⟨rfl, rfl⟩ := h
  exact ⟨le_rfl, rfl, rfl⟩

theorem mono (h : DeviceLeft bound l₀ l) (hle : bound ≤ bound') : DeviceLeft bound' l₀ l :=
  ⟨h.le.trans hle, h.deviceLeft, h.rest⟩

theorem share (h : DeviceLeft bound l₀ l) (hadm : l.deviceDisableMergeLeftCount + 1#16 ≠ 0#16) :
    DeviceLeft (bound + 1) l₀ l.share := by
  have hle := h.le
  refine ⟨?_, by simp [LeftMark.share, hadm], h.rest⟩
  change (l.deviceDisableMergeLeftCount + 1#16).toNat ≤ bound + 1
  bv_omega

/-- An unshare leaves a count of at most the use count. -/
theorem unshare (h : DeviceLeft bound l₀ l) (useCount : BitVec 16) (left : Bool) :
    DeviceLeft useCount.toNat l₀ (l.unshare useCount left) := by
  obtain ⟨hle, -, hflag⟩ := l.unshare_spec useCount left
  refine ⟨hle, ?_, ?_⟩
  · rw [Bool.eq_iff_iff, decide_eq_true_eq]
    exact hflag (by rw [h.deviceLeft, decide_eq_true_eq])
  · rw [← h.rest, LeftMark.unshare]
    split <;> rfl

theorem eq_of_zero (h : DeviceLeft 0 l₀ l) : l = l₀ := by
  have hcount : l.deviceDisableMergeLeftCount = 0#16 :=
    BitVec.eq_of_toNat_eq (Nat.le_zero.mp h.le)
  have hflag : l.deviceLeft = false := by simp [h.deviceLeft, hcount]
  rw [← h.rest, ← hcount, ← hflag]

/-- An open mark has no count. -/
theorem eq_of_open (h : DeviceLeft bound l₀ l) (ho : l.Open) : l = l₀ := by
  have hflag := h.deviceLeft
  rw [ho.2.1] at hflag
  have hcount : l.deviceDisableMergeLeftCount = 0#16 := by simpa using hflag.symm
  exact eq_of_zero ⟨by simp [hcount], h.deviceLeft, h.rest⟩

end DeviceLeft

/-- The right mark of a position at which `n` locks of a device end. -/
structure DeviceRight (n : ℕ) (r : RightMark) : Prop where
  count : r.deviceDisableMergeRightCount.toNat = n
  deviceRight : r.deviceRight = decide (n ≠ 0)

namespace DeviceRight

variable {n : ℕ} {r : RightMark}

theorem share (h : DeviceRight n r) (hadm : r.deviceDisableMergeRightCount + 1#16 ≠ 0#16) :
    DeviceRight (n + 1) r.share := by
  have hcount := h.count
  refine ⟨?_, by simp [RightMark.share]⟩
  change (r.deviceDisableMergeRightCount + 1#16).toNat = n + 1
  bv_omega

theorem unshare (h : DeviceRight (n + 1) r) : DeviceRight n r.unshare := by
  have hcount := h.count
  constructor
  · change (r.deviceDisableMergeRightCount - 1#16).toNat = n
    bv_omega
  · have hone : r.deviceDisableMergeRightCount = 1#16 ↔ n = 0 := by bv_omega
    by_cases h0 : n = 0 <;> simp [RightMark.unshare, hone, h0, h.deviceRight]

theorem eq_of_zero (h : DeviceRight 0 r) : r = .clear := by
  obtain ⟨flag, count⟩ := r
  have hcount : count = 0#16 := BitVec.eq_of_toNat_eq h.count
  have hflag : flag = false := h.deviceRight
  rw [hcount, hflag]
  rfl

theorem eq_of_open (h : DeviceRight n r) (ho : r.Open) : r = .clear := by
  have hflag := h.deviceRight
  rw [ho] at hflag
  have hn : n = 0 := by simpa using hflag.symm
  exact (hn ▸ h).eq_of_zero

end DeviceRight

/-! ## The invariant on views -/

/-- An address space that no device uses. -/
structure SpaceView.NoDevices (s : SpaceView) : Prop where
  page : ∀ x v, s.page x = some v → v.NoDevice
  left : ∀ x, (s.left x).NoDevice
  right : ∀ x, s.right x = .clear

/-- `s` is the address space `s₀` with pages in use by devices: `use` gives the use
counts, `bound` bounds the left counts and `ends` gives the right counts. -/
structure DeviceView (s₀ : SpaceView) (use bound ends : ℕ → ℕ) (s : SpaceView) : Prop where
  page_none : ∀ x, s₀.page x = none → s.page x = none
  page_some : ∀ x v₀, s₀.page x = some v₀ → ∃ v, s.page x = some v ∧ DevicePage (use x) v₀ v
  left : ∀ x, DeviceLeft (bound x) (s₀.left x) (s.left x)
  right : ∀ x, DeviceRight (ends x) (s.right x)

variable (r : PageRange)

/-- Adds one on the pages of a range. -/
def PageRange.addPages (n : ℕ → ℕ) (x : ℕ) : ℕ := n x + if r.covers x then 1 else 0

/-- Takes one from the pages of a range. -/
def PageRange.subPages (n : ℕ → ℕ) (x : ℕ) : ℕ := n x - if r.covers x then 1 else 0

/-- One at the end of a range. -/
def PageRange.endsAt (x : ℕ) : ℕ := if x = r.endAddress then 1 else 0

/-- The bound of the left counts while a range is locked: a lock for an unmap
counts at the start of the range, if merging is enabled. -/
def PageRange.lockedBound (merge : Bool) (use : ℕ → ℕ) (x : ℕ) : ℕ :=
  use x + if merge ∧ x = r.address then 1 else 0

namespace DeviceView

open PageRange
open MemoryBlockLockFunction (onLeft)

variable {s₀ s : SpaceView} {use bound ends use' bound' ends' : ℕ → ℕ} {r : PageRange}
variable {f : MemoryBlockLockFunction} {perm : KMemoryPermission} {merge : Bool}

theorem start (h : s₀.NoDevices) : DeviceView s₀ (fun _ => 0) (fun _ => 0) (fun _ => 0) s₀ where
  page_none _ hx := hx
  page_some x v₀ hv := ⟨v₀, hv, .of_noDevice (h.page x v₀ hv)⟩
  left x := .of_noDevice (h.left x)
  right x := by rw [h.right x]; exact ⟨rfl, rfl⟩

section

variable (h : DeviceView s₀ use bound ends s)
include h

theorem page_iff {x : ℕ} {v : PageProperties} (hv : s.page x = some v) :
    ∃ v₀, s₀.page x = some v₀ ∧ DevicePage (use x) v₀ v := by
  cases hv₀ : s₀.page x with
  | none => simp [h.page_none x hv₀] at hv
  | some v₀ =>
    obtain ⟨w, hw, hpage⟩ := h.page_some x v₀ hv₀
    rw [hv, Option.some_inj] at hw
    exact ⟨v₀, rfl, hw ▸ hpage⟩

theorem mono (huse : ∀ x, use' x = use x) (hbound : ∀ x, bound x ≤ bound' x)
    (hends : ∀ x, ends' x = ends x) :
    DeviceView s₀ use' bound' ends' s where
  page_none := h.page_none
  page_some x v₀ hv := by rw [huse x]; exact h.page_some x v₀ hv
  left x := (h.left x).mono (hbound x)
  right x := by rw [hends x]; exact h.right x

/-- When nothing is in use the address space is as it was. -/
theorem eq_of_zero (h₀ : s₀.NoDevices) (huse : ∀ x, use x = 0) (hbound : ∀ x, bound x = 0)
    (hends : ∀ x, ends x = 0) : s = s₀ := by
  ext1
  · funext x
    cases hv₀ : s₀.page x with
    | none => exact h.page_none x hv₀
    | some v₀ =>
      obtain ⟨v, hv, hn⟩ := h.page_some x v₀ hv₀
      rw [huse x] at hn
      rw [hv, hn.eq_of_zero (h₀.page x v₀ hv₀)]
  · funext x
    have hl := h.left x
    rw [hbound x] at hl
    exact hl.eq_of_zero
  · funext x
    have hr := h.right x
    rw [hends x] at hr
    rw [hr.eq_of_zero, h₀.right x]

/-- A lock keeps the invariant when its function does so on each page of the range
and on the marks there. -/
theorem of_lock (hin : ∀ x, r.address ≤ x → x < r.endAddress → ∃ v, s.page x = some v)
    (hpage : ∀ x v₀ v, r.address ≤ x → x < r.endAddress → s₀.page x = some v₀ →
      s.page x = some v → DevicePage (use x) v₀ v → DevicePage (use' x) v₀ (f.onPage perm v))
    (hleft : ∀ x v, r.address ≤ x → x < r.endAddress → v.deviceUseCount.toNat = use x →
      DeviceLeft (bound' x) (s₀.left x) (f.onLeft v (x == r.address) (s.left x)))
    (hright : ∀ x, r.address < x → x ≤ r.endAddress →
      DeviceRight (ends' x) (f.onRight (x == r.endAddress) (s.right x)))
    (hout : ∀ x, ¬ (r.address ≤ x ∧ x < r.endAddress) → use' x = use x ∧ bound x ≤ bound' x)
    (hends : ∀ x, ¬ (r.address < x ∧ x ≤ r.endAddress) → ends' x = ends x) :
    DeviceView s₀ use' bound' ends' (s.lock f perm r.address r.endAddress) where
  page_none x hx := by
    have hnone := h.page_none x hx
    simp [SpaceView.lock, hnone]
  page_some x v₀ hv₀ := by
    obtain ⟨v, hv, hn⟩ := h.page_some x v₀ hv₀
    by_cases hx : r.address ≤ x ∧ x < r.endAddress
    · refine ⟨f.onPage perm v, ?_, hpage x v₀ v hx.1 hx.2 hv₀ hv hn⟩
      rw [SpaceView.lock_page_inside hx, hv]
      rfl
    · refine ⟨v, ?_, (hout x hx).1.symm ▸ hn⟩
      rw [SpaceView.lock_page_outside (by omega), hv]
  left x := by
    by_cases hx : r.address ≤ x ∧ x < r.endAddress
    · obtain ⟨v, hv⟩ := hin x hx.1 hx.2
      obtain ⟨_, _, hn⟩ := h.page_iff hv
      rw [SpaceView.lock_left_inside hx hv]
      exact hleft x v hx.1 hx.2 hn.count
    · rw [SpaceView.lock_left_outside (by omega)]
      exact (h.left x).mono (hout x hx).2
  right x := by
    by_cases hx : r.address < x ∧ x ≤ r.endAddress
    · rw [SpaceView.lock_right_inside hx]
      exact hright x hx.1 hx.2
    · rw [SpaceView.lock_right_outside (by omega), hends x hx]
      exact h.right x

end

/-- The right marks after a lock of a range. -/
theorem right_share (h : DeviceView s₀ use bound (fun _ => 0) s) (x : ℕ) :
    DeviceRight (r.endsAt x) (if (x == r.endAddress) = true then (s.right x).share
      else s.right x) := by
  have hx := h.right x
  by_cases he : x = r.endAddress
  · have hcount := hx.count
    simpa [endsAt, he] using he ▸ hx.share (by bv_omega)
  · simpa [endsAt, he] using hx

/-- The right marks after an unlock of the range. -/
theorem right_unshare (h : DeviceView s₀ use bound r.endsAt s) (x : ℕ) :
    DeviceRight 0 (if (x == r.endAddress) = true then (s.right x).unshare else s.right x) := by
  have hx := h.right x
  by_cases he : x = r.endAddress
  · simp only [endsAt, he, if_true] at hx
    simpa [he] using hx.unshare
  · simpa [endsAt, he] using hx

variable (hpos : r.address < r.endAddress)
  (hin : ∀ x, r.address ≤ x → x < r.endAddress → ∃ v, s.page x = some v)
include hpos hin

section

variable (h : DeviceView s₀ use use (fun _ => 0) s)
include h

/-- `ShareToDevice`. -/
theorem shareToDevice (hpage : ∀ x v, r.address ≤ x → x < r.endAddress → s.page x = some v →
      v.deviceUseCount + 1#16 ≠ 0#16)
    (hleft : (s.left r.address).deviceDisableMergeLeftCount + 1#16 ≠ 0#16) :
    DeviceView s₀ (r.addPages use) (r.addPages use) r.endsAt
      (s.lock .shareToDevice perm r.address r.endAddress) := by
  have hadd : ∀ x, r.address ≤ x → x < r.endAddress → r.addPages use x = use x + 1 :=
    fun x hlo hhi => by simp [addPages, hlo, hhi]
  refine h.of_lock hin ?_ ?_ ?_ ?_ ?_
  · intro x v₀ v hlo hhi _ hv hn
    rw [hadd x hlo hhi]
    exact hn.share (hpage x v hlo hhi hv)
  · intro x v hlo hhi _
    rw [hadd x hlo hhi]
    by_cases hx : x = r.address
    · subst hx
      simpa [onLeft] using (h.left r.address).share hleft
    · simpa [onLeft, hx] using (h.left x).mono (Nat.le_succ _)
  · exact fun x _ _ => h.right_share x
  · intro x hx
    have hno : r.covers x = false := by simpa [covers] using hx
    simp [addPages, hno]
  · intro x hx
    exact if_neg (by omega)

/-- `UpdateDeviceDisableMergeStateForShare` or only its right part. -/
theorem forShare (merge : Bool)
    (hleft : merge = true → (s.left r.address).deviceDisableMergeLeftCount + 1#16 ≠ 0#16) :
    DeviceView s₀ use (r.lockedBound merge use) r.endsAt
      (s.lock (if merge then .updateDeviceDisableMergeStateForShare
        else .updateDeviceDisableMergeStateForShareRight) perm r.address r.endAddress) := by
  refine h.of_lock hin ?_ ?_ ?_ ?_ ?_
  · intro x v₀ v _ _ _ _ hn
    cases merge <;> exact hn
  · intro x v hlo hhi _
    cases merge with
    | false => exact (h.left x).mono (Nat.le_add_right _ _)
    | true =>
      by_cases hx : x = r.address
      · subst hx
        simpa [onLeft, lockedBound] using
          (h.left r.address).share (hleft rfl)
      · simpa [onLeft, lockedBound, hx] using h.left x
  · intro x _ _
    cases merge <;> exact h.right_share x
  · exact fun x _ => ⟨rfl, Nat.le_add_right _ _⟩
  · intro x hx
    exact if_neg (by omega)

end

variable (h : DeviceView s₀ use (r.lockedBound merge use) r.endsAt s)
include h

/-- `UpdateDeviceDisableMergeStateForUnshare` or only its right part. -/
theorem forUnshare :
    DeviceView s₀ use use (fun _ => 0)
      (s.lock (if merge then .updateDeviceDisableMergeStateForUnshare
        else .updateDeviceDisableMergeStateForUnshareRight) perm r.address r.endAddress) := by
  refine h.of_lock hin ?_ ?_ ?_ ?_ ?_
  · intro x v₀ v _ _ _ _ hn
    cases merge <;> exact hn
  · intro x v _ _ huse
    cases merge with
    | false =>
      simpa [lockedBound, onLeft] using h.left x
    | true => exact huse ▸ (h.left x).unshare v.deviceUseCount _
  · intro x _ _
    cases merge <;> exact h.right_unshare x
  · intro x hx
    have hne : x ≠ r.address := by omega
    simp [lockedBound, hne]
  · intro x hx
    exact (if_neg (by omega)).symm

/-- `UnshareToDevice`. -/
theorem unshareToDevice (h₀ : s₀.NoDevices)
    (huse : ∀ x, r.address ≤ x → x < r.endAddress → 0 < use x) :
    DeviceView s₀ (r.subPages use) (r.subPages use) (fun _ => 0)
      (s.lock .unshareToDevice perm r.address r.endAddress) := by
  have hsub : ∀ x, r.address ≤ x → x < r.endAddress → use x = r.subPages use x + 1 := by
    intro x hlo hhi
    have := huse x hlo hhi
    simp only [subPages, covers_iff.mpr ⟨hlo, hhi⟩, if_true]
    omega
  refine h.of_lock hin ?_ ?_ ?_ ?_ ?_
  · intro x v₀ v hlo hhi hv₀ _ hn
    rw [hsub x hlo hhi] at hn
    exact hn.unshare (h₀.page x v₀ hv₀)
  · intro x v hlo hhi hcount
    rw [hsub x hlo hhi] at hcount
    have hdec : (v.deviceUseCount - 1#16).toNat = r.subPages use x := by bv_omega
    exact hdec ▸ (h.left x).unshare (v.deviceUseCount - 1#16) _
  · exact fun x _ _ => h.right_unshare x
  · intro x hx
    have hno : r.covers x = false := by simpa [covers] using hx
    have hne : x ≠ r.address := by omega
    simp [subPages, lockedBound, hno, hne]
  · intro x hx
    exact (if_neg (by omega)).symm

end DeviceView

end Atmosphere.Kern
