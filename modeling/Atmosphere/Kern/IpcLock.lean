import Atmosphere.Kern.SpaceView

/-!
# Runs of IPC locks

A message buffer is locked with `LockForIpc` while it is in use and unlocked
with `UnlockForIpc` afterwards. Buffers may overlap and may be unlocked in any
order, so that neither call undoes the other by itself.

The invariant of a run compares the view of the tree with that of the tree
before the first lock, page by page: a page is locked as often as outstanding
buffers cover it, and a position counts the buffers that start there. Nothing
is said about blocks. That the ends of an outstanding buffer are boundaries,
and that the first tree comes back, follow from the views.
-/

namespace Atmosphere.Kern

namespace PageRange

variable (rs : List PageRange)

/-- How many of the ranges cover `x`. -/
def covering (x : ℕ) : ℕ := rs.countP (covers x)

/-- How many of the ranges start at `x`. -/
def starting (x : ℕ) : ℕ := rs.countP fun r => r.address == x

/-- How many of the ranges end at `x`. -/
def ending (x : ℕ) : ℕ := rs.countP fun r => r.endAddress == x

variable {r : PageRange} {rs : List PageRange} {x : ℕ}

/-- Between two neighbouring addresses the cover changes by the ranges that start
and end there. -/
theorem covering_add_ending (hpos : ∀ r ∈ rs, 0 < r.numPages) (hx : 0 < x) :
    covering rs x + ending rs x = covering rs (x - 1) + starting rs x := by
  induction rs with
  | nil => rfl
  | cons r rs ih =>
    have hrest := ih fun q hq => hpos q (.tail _ hq)
    have hend : r.endAddress = r.address + r.numPages * pageSize := rfl
    simp only [covering, ending, starting, List.countP_cons, covers_iff, beq_iff_eq] at hrest ⊢
    split <;> split <;> split <;> split <;> omega

variable (hr : r ∈ rs)
include hr

theorem covering_pos (hx : covers x r = true) : 0 < covering rs x :=
  List.countP_pos_iff.mpr ⟨r, hr, hx⟩

theorem ending_pos : 0 < ending rs r.endAddress :=
  List.countP_pos_iff.mpr ⟨r, hr, by simp⟩

theorem covering_erase (x : ℕ) :
    covering (rs.erase r) x + (if covers x r then 1 else 0) = covering rs x := by
  have := (List.perm_cons_erase hr).countP_eq (covers x)
  rw [List.countP_cons] at this
  exact this.symm

theorem starting_erase (x : ℕ) :
    starting (rs.erase r) x + (if r.address = x then 1 else 0) = starting rs x := by
  have := (List.perm_cons_erase hr).countP_eq fun r => r.address == x
  rw [List.countP_cons] at this
  simpa [starting] using this.symm

end PageRange

open PageRange

/-! ## What locks make of a page and of a position -/

/-- The page has no IPC lock and no trace of one. -/
structure PageProperties.NoIpcLock (v : PageProperties) : Prop where
  ipcLockCount : v.ipcLockCount = 0#16
  originalPermission : v.originalPermission = KMemoryPermission.none
  attr : v.attr &&& KMemoryAttribute.ipcLocked = 0

/-- `v` is the page `v₀` under `n` locks. The permission is that of the first of
them, and the one before is kept. -/
structure IpcPage (n : ℕ) (v₀ v : PageProperties) : Prop where
  count : v.ipcLockCount.toNat = n
  memoryState : v.memoryState = v₀.memoryState
  deviceUseCount : v.deviceUseCount = v₀.deviceUseCount
  unlocked : n = 0 → v = v₀
  originalPermission : n ≠ 0 → v.originalPermission = v₀.permission
  attr : n ≠ 0 → v.attr = v₀.attr ||| KMemoryAttribute.ipcLocked

namespace IpcPage

variable {n n' : ℕ} {v₀ v₀' v : PageProperties}

theorem of_noIpcLock (h : v₀.NoIpcLock) : IpcPage 0 v₀ v₀ :=
  ⟨by rw [h.ipcLockCount]; rfl, rfl, rfl, fun _ => rfl, fun h => absurd rfl h,
    fun h => absurd rfl h⟩

theorem lock (h : IpcPage n v₀ v) (hadm : v.ipcLockCount + 1#16 ≠ 0#16)
    (perm : KMemoryPermission) : IpcPage (n + 1) v₀ (v.lockForIpc perm) := by
  have hcount := h.count
  refine ⟨?_, h.memoryState, h.deviceUseCount, fun h0 => absurd h0 (Nat.succ_ne_zero n), ?_, ?_⟩
  · change (v.ipcLockCount + 1#16).toNat = n + 1
    bv_omega
  · intro _
    simp only [PageProperties.lockForIpc]
    by_cases h0 : n = 0
    · rw [if_pos (by bv_omega), h.unlocked h0]
    · rw [if_neg (by bv_omega), h.originalPermission h0]
  · intro _
    simp only [PageProperties.lockForIpc]
    by_cases h0 : n = 0
    · rw [h.unlocked h0]
    · rw [h.attr h0, BitVec.or_assoc, BitVec.or_self]

theorem unlock (h : IpcPage (n + 1) v₀ v) (h₀ : v₀.NoIpcLock) : IpcPage n v₀ v.unlockForIpc := by
  have hcount := h.count
  have horig := h.originalPermission (Nat.succ_ne_zero n)
  have hattr := h.attr (Nat.succ_ne_zero n)
  refine ⟨?_, h.memoryState, h.deviceUseCount, fun h0 => ?_, fun h0 => ?_, fun h0 => ?_⟩
  · change (v.ipcLockCount - 1#16).toNat = n
    bv_omega
  · -- the last lock: every field is what it was
    have hone : v.ipcLockCount = 1#16 := by bv_omega
    obtain ⟨state₀, perm₀, orig₀, attr₀, ipc₀, dev₀⟩ := v₀
    have h₁ := h₀.ipcLockCount
    have h₂ := h₀.originalPermission
    have h₃ := h₀.attr
    have h₄ := h.memoryState
    have h₅ := h.deviceUseCount
    simp only at h₁ h₂ h₃ h₄ h₅ horig hattr
    simp only [PageProperties.unlockForIpc, hone, horig, hattr, or_and_compl h₃, h₁, h₂, h₄,
      h₅]
    rfl
  · have hne : v.ipcLockCount ≠ 1#16 := by bv_omega
    simp only [PageProperties.unlockForIpc, if_neg hne, horig]
  · have hne : v.ipcLockCount ≠ 1#16 := by bv_omega
    simp only [PageProperties.unlockForIpc, if_neg hne, hattr]

/-- The page before the locks can be read off a locked page. -/
theorem unique (h : IpcPage n v₀ v) (h' : IpcPage n' v₀' v) (h₀ : v₀.NoIpcLock)
    (h₀' : v₀'.NoIpcLock) : v₀ = v₀' := by
  have hn : n = n' := h.count.symm.trans h'.count
  subst hn
  by_cases h0 : n = 0
  · rw [← h.unlocked h0, h'.unlocked h0]
  · have hstate := h.memoryState.symm.trans h'.memoryState
    have hdev := h.deviceUseCount.symm.trans h'.deviceUseCount
    have hperm := (h.originalPermission h0).symm.trans (h'.originalPermission h0)
    have hattr := (h.attr h0).symm.trans (h'.attr h0)
    have hattr' : v₀.attr = v₀'.attr := by
      rw [← or_and_compl h₀.attr, hattr, or_and_compl h₀'.attr]
    obtain ⟨_, _, _, _, _, _⟩ := v₀
    obtain ⟨_, _, _, _, _, _⟩ := v₀'
    have := h₀.ipcLockCount
    have := h₀'.ipcLockCount
    have := h₀.originalPermission
    have := h₀'.originalPermission
    simp_all

/-- The `IpcLocked` bit says whether there is a lock. -/
theorem ipcLocked_iff (h : IpcPage n v₀ v) (h₀ : v₀.NoIpcLock) :
    v.attr &&& KMemoryAttribute.ipcLocked ≠ 0 ↔ n ≠ 0 := by
  by_cases h0 : n = 0
  · simp [h.unlocked h0, h₀.attr, h0]
  · refine iff_of_true ?_ h0
    rw [h.attr h0]
    intro hbit
    have := congrArg (fun w => w.getLsbD 1) hbit
    simp [KMemoryAttribute.ipcLocked] at this

end IpcPage

/-- The left mark has no trace of an IPC lock. -/
structure LeftMark.NoIpcLock (l : LeftMark) : Prop where
  ipcLeft : l.ipcLeft = false
  ipcDisableMergeCount : l.ipcDisableMergeCount = 0#16

/-- `l` is the left mark `l₀` where `n` locked ranges start. -/
structure IpcLeft (n : ℕ) (l₀ l : LeftMark) : Prop where
  count : l.ipcDisableMergeCount.toNat = n
  ipcLeft : l.ipcLeft = decide (n ≠ 0)
  rest : { l with ipcLeft := false, ipcDisableMergeCount := 0#16 } = l₀

namespace IpcLeft

variable {n : ℕ} {l₀ l : LeftMark}

theorem of_noIpcLock (h : l₀.NoIpcLock) : IpcLeft 0 l₀ l₀ := by
  obtain ⟨_, _, _, _, _, _⟩ := l₀
  obtain ⟨rfl, rfl⟩ := h
  exact ⟨rfl, rfl, rfl⟩

theorem lock (h : IpcLeft n l₀ l) (hadm : l.ipcDisableMergeCount + 1#16 ≠ 0#16) :
    IpcLeft (n + 1) l₀ l.lockForIpc := by
  have hcount := h.count
  refine ⟨?_, by simp [LeftMark.lockForIpc], h.rest⟩
  change (l.ipcDisableMergeCount + 1#16).toNat = n + 1
  bv_omega

theorem unlock (h : IpcLeft (n + 1) l₀ l) : IpcLeft n l₀ l.unlockForIpc := by
  have hcount := h.count
  refine ⟨?_, ?_, h.rest⟩
  · change (l.ipcDisableMergeCount - 1#16).toNat = n
    bv_omega
  · have hone : l.ipcDisableMergeCount = 1#16 ↔ n = 0 := by bv_omega
    have hleft : l.ipcLeft = true := by simp [h.ipcLeft]
    by_cases h0 : n = 0 <;> simp [LeftMark.unlockForIpc, hone, h0, hleft]

theorem eq_of_zero (h : IpcLeft 0 l₀ l) : l = l₀ := by
  have hcount : l.ipcDisableMergeCount = 0#16 := BitVec.eq_of_toNat_eq h.count
  rw [← h.rest, ← hcount, show false = l.ipcLeft by simp [h.ipcLeft]]

/-- An open mark belongs to a position at which no locked range starts. -/
theorem zero_of_open (h : IpcLeft n l₀ l) (ho : l.Open) : n = 0 := by
  have := h.ipcLeft
  simp_all [LeftMark.Open]

theorem ne_clear (h : IpcLeft n l₀ l) (hn : 0 < n) : l ≠ .clear := by
  rintro rfl
  have := h.count
  simp [LeftMark.clear] at this
  omega

end IpcLeft

/-! ## The invariant on views -/

/-- An address space without IPC locks. -/
structure SpaceView.NoIpcLocks (s : SpaceView) : Prop where
  page : ∀ x v, s.page x = some v → v.NoIpcLock
  left : ∀ x, (s.left x).NoIpcLock

/-- `s` is the address space `s₀` with the ranges `out` locked. -/
structure IpcView (s₀ : SpaceView) (out : List PageRange) (s : SpaceView) : Prop where
  page_none : ∀ x, s₀.page x = none → s.page x = none
  page_some : ∀ x v₀, s₀.page x = some v₀ → ∃ v, s.page x = some v ∧ IpcPage (covering out x) v₀ v
  left : ∀ x, IpcLeft (starting out x) (s₀.left x) (s.left x)
  right : ∀ x, s.right x = s₀.right x

namespace IpcView

variable {s₀ s : SpaceView} {out : List PageRange} {r : PageRange} {perm : KMemoryPermission}

theorem start (h : s₀.NoIpcLocks) : IpcView s₀ [] s₀ where
  page_none _ hx := hx
  page_some x v₀ hv := ⟨v₀, hv, .of_noIpcLock (h.page x v₀ hv)⟩
  left x := .of_noIpcLock (h.left x)
  right _ := rfl

theorem page_iff (h : IpcView s₀ out s) (x : ℕ) {v : PageProperties} (hv : s.page x = some v) :
    ∃ v₀, s₀.page x = some v₀ ∧ IpcPage (covering out x) v₀ v := by
  cases hv₀ : s₀.page x with
  | none => simp [h.page_none x hv₀] at hv
  | some v₀ =>
    obtain ⟨w, hw, hpage⟩ := h.page_some x v₀ hv₀
    rw [hv, Option.some_inj] at hw
    exact ⟨v₀, rfl, hw ▸ hpage⟩

section

variable (h : IpcView s₀ out s) (hr : ∃ v, s.page r.address = some v) (hpos : 0 < r.numPages)
include h hr hpos

/-- A function that marks only the start of its range keeps the invariant when it does so on each
page of the range and on the mark. -/
theorem of_lock {out' : List PageRange} {f : MemoryBlockLockFunction}
    (hf : ∀ v l, f.onLeft v false l = l) (hf' : ∀ b r, f.onRight b r = r)
    (hpage : ∀ {x v₀ v}, r.covers x → s₀.page x = some v₀ → s.page x = some v →
      IpcPage (covering out x) v₀ v → IpcPage (covering out' x) v₀ (f.onPage perm v))
    (hleft : ∀ v, IpcLeft (starting out' r.address) (s₀.left r.address)
      (f.onLeft v true (s.left r.address)))
    (hout : ∀ x, ¬ r.covers x → covering out' x = covering out x)
    (hstart : ∀ x, r.address ≠ x → starting out' x = starting out x) :
    IpcView s₀ out' (s.lock f perm r.address r.endAddress) where
  page_none x hx := by
    have hnone := h.page_none x hx
    simp [SpaceView.lock, hnone]
  page_some x v₀ hv₀ := by
    obtain ⟨v, hv, hn⟩ := h.page_some x v₀ hv₀
    by_cases hx : r.address ≤ x ∧ x < r.endAddress
    · refine ⟨f.onPage perm v, ?_, hpage (covers_iff.mpr hx) hv₀ hv hn⟩
      rw [SpaceView.lock_page_inside hx, hv, Option.map_some]
    · refine ⟨v, ?_, (hout x fun hc => hx (covers_iff.mp hc)) ▸ hn⟩
      rw [SpaceView.lock_page_outside (by omega), hv]
  left x := by
    have hend : r.address < r.endAddress :=
      Nat.lt_add_of_pos_right (Nat.mul_pos hpos pageSize_pos)
    by_cases hx : r.address = x
    · obtain ⟨v, hv⟩ := hr
      rw [← hx, SpaceView.lock_left_inside ⟨le_rfl, hend⟩ hv, beq_self_eq_true]
      exact hleft v
    · rw [SpaceView.lock_left_of_ne hf (Ne.symm hx), hstart x hx]
      exact h.left x
  right x := by
    simp only [SpaceView.lock, hf', ite_self]
    exact h.right x

/-- One more range is locked. -/
theorem lock (hpage : ∀ x v, r.address ≤ x → x < r.endAddress → s.page x = some v →
      v.ipcLockCount + 1#16 ≠ 0#16)
    (hleft : (s.left r.address).ipcDisableMergeCount + 1#16 ≠ 0#16) :
    IpcView s₀ (r :: out) (s.lock .lockForIpc perm r.address r.endAddress) := by
  refine h.of_lock hr hpos (fun _ _ => rfl) (fun _ _ => rfl) (fun hx _ hv hn => ?_) (fun _ => ?_)
    (fun x hx => List.countP_cons_of_neg hx) fun x hx => List.countP_cons_of_neg (by simpa using hx)
  · have hin := covers_iff.mp hx
    rw [covering, List.countP_cons_of_pos hx]
    exact hn.lock (hpage _ _ hin.1 hin.2 hv) perm
  · rw [starting, List.countP_cons_of_pos (by simp)]
    exact (h.left r.address).lock hleft

/-- An outstanding range is unlocked. -/
theorem unlock (h₀ : s₀.NoIpcLocks) (hmem : r ∈ out) :
    IpcView s₀ (out.erase r) (s.lock .unlockForIpc perm r.address r.endAddress) := by
  refine h.of_lock hr hpos (fun _ _ => rfl) (fun _ _ => rfl) (fun {x v₀ _} hx hv₀ _ hn => ?_)
    (fun _ => ?_) (fun x hx => ?_) fun x hx => ?_
  · rw [← covering_erase hmem x, if_pos hx] at hn
    exact hn.unlock (h₀.page x v₀ hv₀)
  · have hleft := h.left r.address
    rw [← starting_erase hmem, if_pos rfl] at hleft
    exact hleft.unlock
  · rw [← covering_erase hmem x, if_neg hx, Nat.add_zero]
  · rw [← starting_erase hmem x, if_neg hx, Nat.add_zero]

end

/-- Without outstanding ranges the address space is as it was. -/
theorem eq_of_nil (h : IpcView s₀ [] s) : s = s₀ := by
  ext1
  · funext x
    cases hv₀ : s₀.page x with
    | none => exact h.page_none x hv₀
    | some v₀ =>
      obtain ⟨v, hv, hn⟩ := h.page_some x v₀ hv₀
      rw [hv, hn.unlocked rfl]
  · exact funext fun x => (h.left x).eq_of_zero
  · exact funext h.right

end IpcView

/-! ## Runs -/

namespace KMemoryBlockManager

variable {m₀ m m' : KMemoryBlockManager} {out : List PageRange} {r : PageRange}

/-- The blocks have no IPC lock and no trace of one. -/
def NoIpcLocks (m : KMemoryBlockManager) : Prop :=
  ∀ node ∈ m.memoryBlockTree, node.block.properties.NoIpcLock ∧ node.block.leftMark.NoIpcLock

/-- The trees that locks and unlocks of ranges can reach from `m₀`, with the
ranges that are locked. A lock comes with the blocks it may have to split off;
for an unlock nothing is assumed of the allocator. -/
inductive IpcRun (m₀ : KMemoryBlockManager) : KMemoryBlockManager → List PageRange → Prop
  | start : IpcRun m₀ m₀ []
  | lock {m m' : KMemoryBlockManager} {out : List PageRange}
      {alloc alloc' : KMemoryBlockManagerUpdateAllocator} {ps : List ℕ} (r : PageRange)
      (perm : KMemoryPermission)
      (hrun : IpcRun m₀ m out) (hrange : m.IsRange r.address r.numPages) (hps : alloc.Holds ps)
      (hneed : m.blocksNeeded r.address r.endAddress ≤ ps.length)
      (hok : m.updateLock alloc r.address r.numPages .lockForIpc perm = .ok (m', alloc')) :
      IpcRun m₀ m' (r :: out)
  | unlock {m m' : KMemoryBlockManager} {out : List PageRange}
      {alloc alloc' : KMemoryBlockManagerUpdateAllocator} {ps : List ℕ} (r : PageRange)
      (perm : KMemoryPermission)
      (hrun : IpcRun m₀ m out) (hr : r ∈ out) (hps : alloc.Holds ps)
      (hok : m.updateLock alloc r.address r.numPages .unlockForIpc perm = .ok (m', alloc')) :
      IpcRun m₀ m' (out.erase r)

theorem NoIpcLocks.view (h : m₀.NoIpcLocks) : m₀.view.NoIpcLocks where
  page _ _ := blockShape.forall_valAt fun node hnode => (h node hnode).1
  left := blockShape.forall_leftAt ⟨rfl, rfl⟩ fun node hnode => (h node hnode).2

/-- What holds after every lock and unlock. -/
structure IpcInv (m₀ m : KMemoryBlockManager) (out : List PageRange) : Prop where
  wellFormed : m.WellFormed
  startAddress : m.startAddress = m₀.startAddress
  endAddress : m.endAddress = m₀.endAddress
  ranges : ∀ r ∈ out, m.IsRange r.address r.numPages
  view : IpcView m₀.view out m.view

section

variable (h : m₀.IpcInv m out)
include h

theorem IpcInv.isBoundary_start (hr : r ∈ out) : m.IsBoundary r.address :=
  isBoundary_of_leftMarkAt_ne ((h.view.left r.address).ne_clear
    (List.countP_pos_iff.mpr ⟨r, hr, by simp⟩))

/-- Where a locked range ends, either the lock counts differ or another locked
range starts. -/
theorem IpcInv.isBoundary_end (hr : r ∈ out) : m.IsBoundary r.endAddress := by
  by_contra hno
  have hsize := Nat.mul_pos (h.ranges r hr).pos pageSize_pos
  have hst := (h.ranges r hr).start_le
  have hle : r.endAddress ≤ m.endAddress := (h.ranges r hr).le_end
  have hend : r.endAddress = r.address + r.numPages * pageSize := rfl
  have hnd : r.endAddress < m.endAddress := Nat.lt_of_le_of_ne hle fun he => hno (.inr he)
  obtain ⟨hpage, hleft, _⟩ := h.wellFormed.view_of_not_isBoundary (by omega) hnd hno
  obtain ⟨v, hv⟩ := h.wellFormed.exists_page (x := r.endAddress) (by omega) hnd
  obtain ⟨_, _, hn⟩ := h.view.page_iff r.endAddress hv
  obtain ⟨_, _, hn'⟩ := h.view.page_iff (r.endAddress - 1) (hpage.trans hv)
  have hcover := covering_add_ending (x := r.endAddress) (fun q hq => (h.ranges q hq).pos)
    (by omega)
  have hends := ending_pos hr
  have hcounts := hn.count.symm.trans hn'.count
  exact (h.view.left r.endAddress).ne_clear (by omega) hleft

theorem IpcInv.blocksNeeded_le (hr : r ∈ out) (n : ℕ) :
    m.blocksNeeded r.address r.endAddress ≤ n := by
  simp [blocksNeeded, h.isBoundary_start hr, h.isBoundary_end hr]

theorem IpcInv.admits_unlock (hr : r ∈ out) :
    m.AdmitsLock r.address r.endAddress .unlockForIpc where
  page x v hlo hhi hv := by
    obtain ⟨_, _, hn⟩ := h.view.page_iff x hv
    have hcover := covering_pos hr (covers_iff.mpr ⟨hlo, hhi⟩)
    have hcount := hn.count
    intro hzero
    rw [hzero] at hcount
    exact absurd hcount.symm hcover.ne'
  left := trivial
  right := trivial

/-- A completed lock or unlock whose view keeps the invariant. -/
theorem IpcInv.of_locks {out' : List PageRange} {f : MemoryBlockLockFunction}
    {perm : KMemoryPermission} {mid : List KMemoryBlockNode} (hwf₀ : m₀.WellFormed)
    (h₀ : m₀.NoIpcLocks) (hrange : m.IsRange r.address r.numPages)
    (hlocks : m.Locks r.address r.endAddress f perm mid m')
    (hview : IpcView m₀.view out' (m.view.lock f perm r.address r.endAddress))
    (hout : ∀ q ∈ out', m.IsRange q.address q.numPages) : m₀.IpcInv m' out' := by
  have hjoins := hwf₀.joinsHideNothing hview.page_some
    (fun hv hw hn hn' => hn.unique hn' (h₀.view.page _ _ hv) (h₀.view.page _ _ hw))
    (fun x hopen => ((hview.left x).zero_of_open hopen ▸ hview.left x).eq_of_zero)
    (fun x _ => hview.right x)
  rw [← h.startAddress, ← h.endAddress] at hjoins
  refine ⟨hlocks.wellFormed, hlocks.startAddress.trans h.startAddress,
    hlocks.endAddress.trans h.endAddress,
    fun q hq => (hout q hq).congr hlocks.startAddress hlocks.endAddress, ?_⟩
  rwa [hlocks.view_eq h.wellFormed hrange.start_le hrange.le_end hjoins]

end

theorem IpcRun.inv (hwf₀ : m₀.WellFormed) (h₀ : m₀.NoIpcLocks) (hrun : IpcRun m₀ m out) :
    m₀.IpcInv m out := by
  induction hrun with
  | start => exact ⟨hwf₀, rfl, rfl, by simp, .start h₀.view⟩
  | lock r perm _ hrange hps hneed hok ih =>
    obtain ⟨hadm, mid, hlocks⟩ := locks_of_updateLock ih.wellFormed hrange hps hneed hok
    refine ih.of_locks hwf₀ h₀ hrange hlocks ?_ ?_
    · exact ih.view.lock (hrange.exists_page ih.wellFormed le_rfl hrange.lt_end)
        hrange.pos hadm.page hadm.left
    · exact List.forall_mem_cons.mpr ⟨hrange, ih.ranges⟩
  | unlock r perm _ hr hps hok ih =>
    have hrange := ih.ranges r hr
    obtain ⟨_, mid, hlocks⟩ :=
      locks_of_updateLock ih.wellFormed hrange hps (ih.blocksNeeded_le hr _) hok
    refine ih.of_locks hwf₀ h₀ hrange hlocks ?_ ?_
    · exact ih.view.unlock (hrange.exists_page ih.wellFormed le_rfl hrange.lt_end)
        hrange.pos h₀.view hr
    · exact fun q hq => ih.ranges q (List.mem_of_mem_erase hq)

/-- In every run of locks and unlocks, the pages count the locked ranges that
cover them, an outstanding lock is undone without a new block, and when all
are undone the tree is the first one, block for block. -/
theorem ipcRun_counts_and_restores (hwf₀ : m₀.WellFormed) (h₀ : m₀.NoIpcLocks)
    (hrun : IpcRun m₀ m out) :
    (m.WellFormed ∧ m.startAddress = m₀.startAddress ∧ m.endAddress = m₀.endAddress) ∧
    (∀ x v, m.propertiesAt x = some v → v.ipcLockCount.toNat = covering out x ∧
      (v.attr &&& KMemoryAttribute.ipcLocked ≠ 0 ↔ covering out x ≠ 0)) ∧
    (∀ r ∈ out, m.IsBoundary r.address ∧ m.IsBoundary r.endAddress ∧
      ∀ (alloc : KMemoryBlockManagerUpdateAllocator) (ps : List ℕ) (perm : KMemoryPermission),
        alloc.Holds ps → ∃ m' alloc',
          m.updateLock alloc r.address r.numPages .unlockForIpc perm = .ok (m', alloc')) ∧
    (out = [] → m.memoryBlockTree.map KMemoryBlockNode.block =
      m₀.memoryBlockTree.map KMemoryBlockNode.block) := by
  have hinv := hrun.inv hwf₀ h₀
  refine ⟨⟨hinv.wellFormed, hinv.startAddress, hinv.endAddress⟩, fun x v hv => ?_,
    fun r hr => ⟨hinv.isBoundary_start hr, hinv.isBoundary_end hr, ?_⟩, ?_⟩
  · obtain ⟨v₀, hv₀, hn⟩ := hinv.view.page_iff x hv
    exact ⟨hn.count, hn.ipcLocked_iff (h₀.view.page x v₀ hv₀)⟩
  · intro alloc ps perm hps
    obtain ⟨hno, _⟩ | ⟨_, m', _, alloc', _, hok, _⟩ := updateLock_cases
      hinv.wellFormed (hinv.ranges r hr) hps (hinv.blocksNeeded_le hr _) .unlockForIpc perm
    · exact absurd (hinv.admits_unlock hr) hno
    · exact ⟨m', alloc', hok⟩
  · intro hnil
    have hview := hinv.view
    rw [hnil] at hview
    exact hwf₀.blocks_eq_of_view hinv.wellFormed hinv.startAddress hinv.endAddress hview.eq_of_nil

theorem fourFreePages_noIpcLocks : fourFreePages.NoIpcLocks := by
  intro node hnode
  obtain rfl := List.mem_singleton.mp hnode
  exact ⟨⟨rfl, rfl, rfl⟩, rfl, rfl⟩

/-- Two overlapping buffers, of which the first is unlocked first. -/
theorem ipcRun_of_overlapping_buffers : ∃ m, IpcRun fourFreePages m [⟨0x1000, 2⟩] ∧
      (∀ x v, m.propertiesAt x = some v → v.ipcLockCount.toNat = covering [⟨0x1000, 2⟩] x) ∧
      m.IsBoundary 0x1000 ∧ m.IsBoundary 0x3000 := by
  have hlock : IpcRun fourFreePages _ [⟨0x2000, 2⟩] :=
    .lock ⟨0x2000, 2⟩ KMemoryPermission.userRead .start
      ⟨by decide, by decide, by decide, by decide⟩ twoBlockAllocator_holds (by decide) rfl
  have hlock' : IpcRun fourFreePages _ [⟨0x1000, 2⟩, ⟨0x2000, 2⟩] :=
    .lock ⟨0x1000, 2⟩ KMemoryPermission.userRead hlock
      ⟨by decide, by decide, by decide, by decide⟩ twoBlockAllocator_holds (by decide) rfl
  have hunlock : IpcRun fourFreePages _ [⟨0x1000, 2⟩] :=
    .unlock ⟨0x2000, 2⟩ KMemoryPermission.none hlock' (by simp) twoBlockAllocator_holds rfl
  obtain ⟨_, hcount, hends, _⟩ := ipcRun_counts_and_restores fourFreePages_wellFormed
    fourFreePages_noIpcLocks hunlock
  exact ⟨_, hunlock, fun x v hv => (hcount x v hv).1,
    (hends ⟨0x1000, 2⟩ (.head _)).1, (hends ⟨0x1000, 2⟩ (.head _)).2.1⟩

/-- The tree that `Initialize` makes of the stale block. -/
def staleTree : KMemoryBlockManager where
  memoryBlockTree := [⟨1, staleBlock.initializeBlock 0x1000 4 KMemoryState.free
    KMemoryPermission.none KMemoryAttribute.none⟩]
  startAddress := 0x1000
  endAddress := 0x5000

/-- No page of this tree is locked for IPC, but a lock that is undone leaves its first block
marked. -/
theorem ipcRun_leaves_mark :
    initializeManager 0x1000 0x5000 ⟨[1], []⟩ (fun _ => staleBlock) = .ok (staleTree, ⟨[], []⟩) ∧
      staleTree.WellFormed ∧
      (∀ node ∈ staleTree.memoryBlockTree, node.block.properties.NoIpcLock) ∧
      ∃ m, IpcRun staleTree m [] ∧ m.memoryBlockTree.map KMemoryBlockNode.block ≠
        staleTree.memoryBlockTree.map KMemoryBlockNode.block := by
  have hlock : IpcRun staleTree _ [⟨0x1000, 1⟩] :=
    .lock ⟨0x1000, 1⟩ KMemoryPermission.userRead .start
      ⟨by decide, by decide, by decide, by decide⟩ twoBlockAllocator_holds (by decide) rfl
  have hunlock : IpcRun staleTree _ [] :=
    .unlock ⟨0x1000, 1⟩ KMemoryPermission.none hlock (.head _) twoBlockAllocator_holds rfl
  refine ⟨rfl, ⟨by decide, by decide, List.isChain_singleton _⟩,
    List.forall_mem_singleton.mpr ⟨rfl, rfl, rfl⟩, _, hunlock, by decide⟩

end KMemoryBlockManager

end Atmosphere.Kern
