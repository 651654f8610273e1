import Atmosphere.Kern.Basic
import Atmosphere.Lib.BitScan.Basic

/-!
# The core affinity of a thread

A thread has a virtual affinity mask and ideal core, as they were requested, and physical
ones, which the scheduler uses. `Pin` and `DisableCoreMigration` bind the thread to one core
and save the physical affinity; meanwhile `SetCoreMask` changes the saved copy.

Every function runs under the scheduler lock, so each is one step. Once it has set the masks,
`SetCoreMask` only waits until the thread has left the cores it is no longer allowed on; this
wait, and what `Pin` and `Unpin` do to priorities and suspension, is left out.
-/

namespace Atmosphere.Kern

/-- `ams::svc::IdealCoreDontCare`. -/
def idealCoreDontCare : ℤ := -1

/-- `ams::svc::IdealCoreNoUpdate`. -/
def idealCoreNoUpdate : ℤ := -3

/-- `cpu::VirtualToPhysicalCoreMap`. -/
def virtualToPhysicalCoreMap : ℕ → ℕ
  | 1 => 1
  | 2 => 2
  | 3 => 3
  | 63 => 3
  | _ => 0

/-- `1ul << core`; the processor takes the shift modulo the width. -/
def coreBit (core : ℤ) : BitVec 64 := 1#64 <<< (core % 64).toNat

/-- `KAffinityMask::GetAffinity`. -/
def hasAffinity (mask : BitVec 64) (core : ℤ) : Bool := mask &&& coreBit core != 0

/-- `BITSIZEOF(unsigned long long) - 1 - __builtin_clzll(mask)`. -/
def highestCore (mask : BitVec 64) : ℤ := 64 - 1 - (BitScan.countLeadingZeros mask : ℤ)

/-- The translation of a virtual core in `SetCoreMask`. -/
def physicalCore (core : ℤ) : ℤ :=
  if 0 ≤ core then virtualToPhysicalCoreMap core.toNat else core

/-- The loop of `SetCoreMask` that translates a virtual affinity mask. -/
def physicalMask (mask : BitVec 64) : BitVec 64 :=
  BitScan.forBits (fun next p => p ||| 1#64 <<< virtualToPhysicalCoreMap next) 64 mask 0

/-- The fields of a `KThread` that its affinity consists of. -/
structure ThreadAffinity where
  virtualIdealCoreId : ℤ
  virtualAffinityMask : BitVec 64
  physicalIdealCoreId : ℤ
  physicalAffinityMask : BitVec 64
  originalPhysicalIdealCoreId : ℤ
  originalPhysicalAffinityMask : BitVec 64
  numCoreMigrationDisables : ℤ
  activeCore : ℤ
  isPinned : Bool
  deriving DecidableEq, Repr

namespace ThreadAffinity

/-- `KThread::Initialize`. -/
def initializeThread (virtCore : ℕ) : ThreadAffinity where
  virtualIdealCoreId := virtCore
  virtualAffinityMask := 1#64 <<< virtCore
  physicalIdealCoreId := virtualToPhysicalCoreMap virtCore
  physicalAffinityMask := coreBit (virtualToPhysicalCoreMap virtCore)
  originalPhysicalIdealCoreId := 0
  originalPhysicalAffinityMask := 0
  numCoreMigrationDisables := 0
  activeCore := virtualToPhysicalCoreMap virtCore
  isPinned := false

variable (t : ThreadAffinity)

/-- Saves the affinity to restore later. -/
def save : ThreadAffinity :=
  { t with
    originalPhysicalIdealCoreId := t.physicalIdealCoreId
    originalPhysicalAffinityMask := t.physicalAffinityMask }

/-- Sets the active core to the ideal one or, without one, to the highest allowed one. -/
def leaveActiveCore : ThreadAffinity :=
  { t with
    activeCore :=
      if 0 ≤ t.physicalIdealCoreId then t.physicalIdealCoreId
      else highestCore t.physicalAffinityMask }

/-- Restores the saved affinity. -/
def restore : ThreadAffinity :=
  let oldMask := t.physicalAffinityMask
  let t := { t with
    physicalIdealCoreId := t.originalPhysicalIdealCoreId
    physicalAffinityMask := t.originalPhysicalAffinityMask }
  if t.physicalAffinityMask ≠ oldMask ∧ ¬ hasAffinity t.physicalAffinityMask t.activeCore then
    t.leaveActiveCore
  else t

/-- `Pin`, on the core `currentCore`. -/
def pin (currentCore : ℤ) : ThreadAffinity :=
  let t := { t with
    isPinned := true
    numCoreMigrationDisables := t.numCoreMigrationDisables + 1 }
  { t.save with
    activeCore := currentCore
    physicalIdealCoreId := currentCore
    physicalAffinityMask := coreBit currentCore }

/-- `Unpin`. -/
def unpin : ThreadAffinity :=
  { t with
    isPinned := false
    numCoreMigrationDisables := t.numCoreMigrationDisables - 1 }.restore

/-- `DisableCoreMigration`. -/
def disableCoreMigration : ThreadAffinity :=
  let disables := t.numCoreMigrationDisables
  let t := { t with numCoreMigrationDisables := disables + 1 }
  if disables = 0 then
    { t.save with
      physicalIdealCoreId := t.activeCore
      physicalAffinityMask := coreBit t.activeCore }
  else t

/-- `EnableCoreMigration`. -/
def enableCoreMigration : ThreadAffinity :=
  let t := { t with numCoreMigrationDisables := t.numCoreMigrationDisables - 1 }
  if t.numCoreMigrationDisables = 0 then t.restore else t

/-- The part of `SetCoreMask` that applies to the ideal core `coreId`, once it is known. -/
def applyCoreMask (coreId : ℤ) (mask : BitVec 64) : ThreadAffinity :=
  let t := { t with virtualAffinityMask := mask }
  if t.numCoreMigrationDisables = 0 then
    let oldMask := t.physicalAffinityMask
    let t := { t with
      physicalIdealCoreId := physicalCore coreId
      physicalAffinityMask := physicalMask mask }
    if t.physicalAffinityMask ≠ oldMask ∧ 0 ≤ t.activeCore ∧
        ¬ hasAffinity t.physicalAffinityMask t.activeCore then
      t.leaveActiveCore
    else t
  else
    { t with
      originalPhysicalIdealCoreId := physicalCore coreId
      originalPhysicalAffinityMask := physicalMask mask }

/-- `SetCoreMask`. -/
def setCoreMask (coreId : ℤ) (mask : BitVec 64) : Except SvcResult ThreadAffinity :=
  if coreId ≠ idealCoreNoUpdate then
    .ok ({ t with virtualIdealCoreId := coreId }.applyCoreMask coreId mask)
  else if hasAffinity mask t.virtualIdealCoreId then
    .ok (t.applyCoreMask t.virtualIdealCoreId mask)
  else
    .error .invalidCombination

end ThreadAffinity

/-! ### Masks -/

theorem virtualToPhysicalCoreMap_lt (v : ℕ) : virtualToPhysicalCoreMap v < 4 := by
  unfold virtualToPhysicalCoreMap
  split <;> omega

variable {core : ℤ}

theorem getLsbD_coreBit {p : ℕ} :
    (coreBit core).getLsbD p = decide ((p : ℤ) = core % 64) := by
  rw [coreBit, BitScan.getLsbD_one_shiftLeft (by omega)]
  apply decide_eq_decide.mpr
  omega

variable {mask : BitVec 64}

theorem hasAffinity_eq : hasAffinity mask core = mask.getLsbD (core % 64).toNat :=
  BitScan.and_one_shiftLeft_bne_zero (by omega)

/-- The physical mask is the image of the virtual one. -/
theorem getLsbD_physicalMask {p : ℕ} : (physicalMask mask).getLsbD p = true ↔
      ∃ v, mask.getLsbD v = true ∧ virtualToPhysicalCoreMap v = p := by
  have hlt : ∀ v, virtualToPhysicalCoreMap v < 64 := fun v =>
    (virtualToPhysicalCoreMap_lt v).trans (by decide)
  rw [physicalMask, BitScan.forBits_eq_foldl (BitScan.length_bits_le mask),
    BitScan.getLsbD_foldl_or hlt]
  simp [BitScan.mem_bits]

theorem getLsbD_highestCore (h : mask ≠ 0#64) :
    0 ≤ highestCore mask ∧ mask.getLsbD (highestCore mask).toNat = true := by
  obtain ⟨hlt, hget⟩ := BitScan.getLsbD_highest h
  have hcore : highestCore mask = ((64 - 1 - BitScan.countLeadingZeros mask : ℕ) : ℤ) := by
    unfold highestCore
    omega
  rw [hcore]
  exact ⟨Int.natCast_nonneg _, hget⟩

theorem physicalMask_ne_zero (h : mask ≠ 0#64) : physicalMask mask ≠ 0#64 := by
  obtain ⟨-, hget⟩ := BitScan.getLsbD_highest h
  intro hzero
  have himage := getLsbD_physicalMask.mpr ⟨_, hget, rfl⟩
  simp [hzero] at himage

/-! ### Runs -/

/-- A thread, the calls of `DisableCoreMigration` that are still open, and the ideal core and
the mask that were requested last. -/
structure AffinityState where
  thread : ThreadAffinity
  disables : ℕ
  requestedCore : ℤ
  requestedMask : BitVec 64

/-- What happens to the affinity of a thread. -/
inductive AffinityOp
  | setCoreMask (coreId : ℤ) (mask : BitVec 64)
  | pin (currentCore : ℤ)
  | unpin
  | disableCoreMigration
  | enableCoreMigration
  /-- The scheduler moves the thread to a core, or takes its core away. -/
  | schedule (core : ℤ)

namespace AffinityState

variable {s : AffinityState} {op : AffinityOp}

def start (virtCore : ℕ) : AffinityState :=
  ⟨.initializeThread virtCore, 0, virtCore, 1#64 <<< virtCore⟩

def step (s : AffinityState) : AffinityOp → AffinityState
  | .setCoreMask coreId mask =>
    match s.thread.setCoreMask coreId mask with
    | .error _ => s
    | .ok t =>
      { s with
        thread := t
        requestedCore := if coreId = idealCoreNoUpdate then s.requestedCore else coreId
        requestedMask := mask }
  | .pin currentCore => { s with thread := s.thread.pin currentCore }
  | .unpin => { s with thread := s.thread.unpin }
  | .disableCoreMigration =>
    { s with thread := s.thread.disableCoreMigration, disables := s.disables + 1 }
  | .enableCoreMigration =>
    { s with thread := s.thread.enableCoreMigration, disables := s.disables - 1 }
  | .schedule core => { s with thread := { s.thread with activeCore := core } }

/-- The calls that the kernel makes: `SetCoreMask` with the arguments that `SetThreadCoreMask`
lets through, `Pin` and `Unpin` while no `DisableCoreMigration` is open. -/
def Admissible (s : AffinityState) : AffinityOp → Prop
  | .setCoreMask coreId mask => mask ≠ 0 ∧ (coreId = idealCoreNoUpdate ∨
      coreId = idealCoreDontCare ∨ 0 ≤ coreId ∧ mask.getLsbD coreId.toNat = true)
  | .pin currentCore =>
    s.thread.isPinned = false ∧ s.disables = 0 ∧ 0 ≤ currentCore ∧ currentCore < 4
  | .unpin => s.thread.isPinned = true ∧ s.disables = 0
  | .disableCoreMigration => True
  | .enableCoreMigration => 0 < s.disables
  | .schedule core => core < 0 ∨ s.thread.physicalAffinityMask.getLsbD core.toNat = true

/-- The states of a thread since its initialization. -/
inductive Reaches : AffinityState → Prop
  | start {virtCore : ℕ} (hcore : virtCore < 64) : Reaches (start virtCore)
  | step {s : AffinityState} {op : AffinityOp} (hrun : Reaches s) (hop : s.Admissible op) :
      Reaches (s.step op)

/-- The physical affinity is the requested one. -/
def Requested (s : AffinityState) (idealCore : ℤ) (mask : BitVec 64) : Prop :=
  idealCore = physicalCore s.requestedCore ∧ mask = physicalMask s.requestedMask

/-- The active core is allowed, or there is none. -/
def ActiveAllowed (t : ThreadAffinity) : Prop :=
  t.activeCore < 0 ∨ t.physicalAffinityMask.getLsbD t.activeCore.toNat = true

structure AffinityInv (s : AffinityState) : Prop where
  count : s.thread.numCoreMigrationDisables = s.disables + if s.thread.isPinned then 1 else 0
  virtualCore : s.thread.virtualIdealCoreId = s.requestedCore
  virtualMask : s.thread.virtualAffinityMask = s.requestedMask
  mask_ne : s.requestedMask ≠ 0
  core_mem : 0 ≤ s.requestedCore → s.requestedMask.getLsbD s.requestedCore.toNat = true
  free : s.thread.numCoreMigrationDisables = 0 →
    s.Requested s.thread.physicalIdealCoreId s.thread.physicalAffinityMask
  bound : s.thread.numCoreMigrationDisables ≠ 0 →
    s.Requested s.thread.originalPhysicalIdealCoreId s.thread.originalPhysicalAffinityMask ∧
      ∃ core, s.thread.physicalAffinityMask = coreBit core
  active : ActiveAllowed s.thread

namespace AffinityInv

theorem start {virtCore : ℕ} (hcore : virtCore < 64) : (start virtCore).AffinityInv := by
  have hphysical := virtualToPhysicalCoreMap_lt virtCore
  have hmask : coreBit (virtualToPhysicalCoreMap virtCore) = physicalMask (1#64 <<< virtCore) := by
    apply BitVec.eq_of_getLsbD_eq
    intro p _
    rw [Bool.eq_iff_iff, getLsbD_physicalMask, getLsbD_coreBit]
    simp only [BitScan.getLsbD_one_shiftLeft hcore, decide_eq_true_eq, exists_eq_left]
    omega
  have hmem : (1#64 <<< virtCore).getLsbD virtCore = true := by
    simp [BitScan.getLsbD_one_shiftLeft hcore]
  refine ⟨rfl, rfl, rfl, ?_, fun _ => hmem, fun _ => ⟨?_, hmask⟩, fun hne => absurd rfl hne,
    .inr ?_⟩
  · intro hzero
    change 1#64 <<< virtCore = 0#64 at hzero
    simp [hzero] at hmem
  · simp [AffinityState.start, ThreadAffinity.initializeThread, physicalCore]
  · change (coreBit (virtualToPhysicalCoreMap virtCore)).getLsbD
      (virtualToPhysicalCoreMap virtCore) = true
    rw [getLsbD_coreBit, decide_eq_true_eq]
    omega

end AffinityInv

variable {t : ThreadAffinity}

/-- The core that a thread is moved to is allowed by the requested mask. -/
theorem active_leaveActiveCore (hne : s.requestedMask ≠ 0)
    (hmem : 0 ≤ s.requestedCore → s.requestedMask.getLsbD s.requestedCore.toNat = true)
    (hreq : s.Requested t.physicalIdealCoreId t.physicalAffinityMask) :
    ActiveAllowed t.leaveActiveCore := by
  refine .inr ?_
  change t.physicalAffinityMask.getLsbD (Int.toNat (ite _ _ _)) = true
  split_ifs with hideal
  · rw [hreq.2, getLsbD_physicalMask]
    rw [hreq.1] at hideal ⊢
    unfold physicalCore at hideal ⊢
    split_ifs at hideal with hcore
    · rw [if_pos hcore]
      exact ⟨_, hmem hcore, rfl⟩
    · exact absurd hideal hcore
  · rw [hreq.2]
    exact (getLsbD_highestCore (physicalMask_ne_zero hne)).2

theorem ActiveAllowed.lt (h : ActiveAllowed t) : t.activeCore < 64 := by
  rcases h with hneg | hget
  · omega
  · have := BitVec.lt_of_getLsbD hget
    omega

/-- A core of the mask may stay the active one. -/
theorem activeAllowed_of_hasAffinity (hlt : t.activeCore < 64)
    (h : 0 ≤ t.activeCore → hasAffinity t.physicalAffinityMask t.activeCore = true) :
    ActiveAllowed t := by
  by_cases hneg : t.activeCore < 0
  · exact .inl hneg
  · have hget := h (by omega)
    rw [hasAffinity_eq, Int.emod_eq_of_lt (by omega) hlt] at hget
    exact .inr hget

namespace AffinityInv

variable (inv : s.AffinityInv)
include inv

/-- Restoring the saved affinity once nothing binds the thread any more. -/
theorem restore (hbound : s.thread.numCoreMigrationDisables ≠ 0) : AffinityInv { s with
      thread := { s.thread with isPinned := false, numCoreMigrationDisables := 0 }.restore
      disables := 0 } := by
  obtain ⟨⟨hideal, hmask⟩, -⟩ := inv.bound hbound
  unfold ThreadAffinity.restore
  dsimp only
  split_ifs with hmove <;>
  refine ⟨rfl, inv.virtualCore, inv.virtualMask, inv.mask_ne, inv.core_mem,
    fun _ => ⟨hideal, hmask⟩, fun hne => absurd rfl hne, ?_⟩
  · exact active_leaveActiveCore inv.mask_ne inv.core_mem ⟨hideal, hmask⟩
  · rw [not_and_or, not_not, not_not] at hmove
    rcases hmove with hsame | hhas
    · rw [hsame]
      exact inv.active
    · exact activeAllowed_of_hasAffinity inv.active.lt fun _ => hhas

/-- Binding the thread to one core, after its affinity was saved. -/
theorem bind (hfree : s.thread.numCoreMigrationDisables = 0)
    {t : ThreadAffinity} {disables : ℕ} {c : ℤ}
    (hcount : t.numCoreMigrationDisables = disables + if t.isPinned then 1 else 0)
    (hbound : t.numCoreMigrationDisables ≠ 0) (hactive : t.activeCore = c) (hlt : c < 64)
    (ht : t = { s.thread with
      originalPhysicalIdealCoreId := s.thread.physicalIdealCoreId
      originalPhysicalAffinityMask := s.thread.physicalAffinityMask
      physicalIdealCoreId := c
      physicalAffinityMask := coreBit c
      numCoreMigrationDisables := t.numCoreMigrationDisables
      activeCore := t.activeCore
      isPinned := t.isPinned }) :
    AffinityInv { s with thread := t, disables := disables } := by
  obtain ⟨hideal, hmask⟩ := inv.free hfree
  rw [ht] at hcount hbound hactive ⊢
  refine ⟨hcount, inv.virtualCore, inv.virtualMask, inv.mask_ne, inv.core_mem,
    fun hzero => absurd hzero hbound, fun _ => ⟨⟨hideal, hmask⟩, c, rfl⟩, ?_⟩
  refine activeAllowed_of_hasAffinity (hactive ▸ hlt) fun hnonneg => ?_
  rw [hactive, hasAffinity_eq, getLsbD_coreBit, decide_eq_true_eq]
  omega

theorem pin (hop : s.Admissible (.pin core)) : (s.step (.pin core)).AffinityInv := by
  obtain ⟨hpinned, hdisables, hlow, hhigh⟩ := hop
  have hcount : s.thread.numCoreMigrationDisables = 0 := by
    rw [inv.count, hpinned, hdisables]
    rfl
  refine inv.bind (c := core) hcount ?_ ?_ rfl (by omega) rfl
  · change s.thread.numCoreMigrationDisables + 1 = s.disables + 1
    rw [hcount, hdisables]
    rfl
  · change s.thread.numCoreMigrationDisables + 1 ≠ 0
    omega

theorem unpin (hop : s.Admissible .unpin) : (s.step .unpin).AffinityInv := by
  obtain ⟨hpinned, hdisables⟩ := hop
  have hcount : s.thread.numCoreMigrationDisables = 1 := by
    rw [inv.count, hpinned, hdisables]
    rfl
  have hrestore := inv.restore (by omega)
  have hstep : s.step .unpin = { s with
      thread := { s.thread with isPinned := false, numCoreMigrationDisables := 0 }.restore
      disables := 0 } := by
    rw [step, ThreadAffinity.unpin, hcount, ← hdisables]
    rfl
  rwa [hstep]

theorem disableCoreMigration : (s.step .disableCoreMigration).AffinityInv := by
  have hcount := inv.count
  have hsucc : s.thread.numCoreMigrationDisables + 1 =
      ((s.disables + 1 : ℕ) : ℤ) + if s.thread.isPinned then 1 else 0 := by
    omega
  have hbound : s.thread.numCoreMigrationDisables + 1 ≠ 0 := by
    split_ifs at hcount <;> omega
  simp only [step, ThreadAffinity.disableCoreMigration]
  by_cases hfree : s.thread.numCoreMigrationDisables = 0
  · rw [if_pos hfree]
    exact inv.bind hfree hsucc hbound rfl inv.active.lt rfl
  · rw [if_neg hfree]
    exact ⟨hsucc, inv.virtualCore, inv.virtualMask, inv.mask_ne, inv.core_mem,
      fun hzero => absurd hzero hbound, fun _ => inv.bound hfree, inv.active⟩

theorem enableCoreMigration (hop : s.Admissible .enableCoreMigration) :
    (s.step .enableCoreMigration).AffinityInv := by
  change 0 < s.disables at hop
  have hcount := inv.count
  have hbound : s.thread.numCoreMigrationDisables ≠ 0 := by
    split_ifs at hcount <;> omega
  simp only [step, ThreadAffinity.enableCoreMigration]
  by_cases hlast : s.thread.numCoreMigrationDisables - 1 = 0
  · -- The last open call: the thread is not pinned.
    have hpinned : s.thread.isPinned = false := by
      split_ifs at hcount with hpinned
      · omega
      · simpa using hpinned
    have hrestore := inv.restore hbound
    rw [← hpinned] at hrestore
    rwa [hlast, show s.disables - 1 = 0 by omega]
  · rw [if_neg hlast]
    refine ⟨?_, inv.virtualCore, inv.virtualMask, inv.mask_ne, inv.core_mem,
      fun hzero => absurd hzero hlast, fun _ => inv.bound hbound, inv.active⟩
    change s.thread.numCoreMigrationDisables - 1 =
      ((s.disables - 1 : ℕ) : ℤ) + if s.thread.isPinned then 1 else 0
    omega

theorem applyCoreMask {c : ℤ} {mask : BitVec 64} (hne : mask ≠ 0)
    (hmem : 0 ≤ c → mask.getLsbD c.toNat = true) :
    AffinityInv { s with
      thread := { s.thread with virtualIdealCoreId := c }.applyCoreMask c mask
      requestedCore := c
      requestedMask := mask } := by
  unfold ThreadAffinity.applyCoreMask
  dsimp only
  by_cases hfree : s.thread.numCoreMigrationDisables = 0
  · split_ifs with hmove <;>
    refine ⟨inv.count, rfl, rfl, hne, hmem, fun _ => ⟨rfl, rfl⟩,
      fun hbound => absurd hfree hbound, ?_⟩
    · exact active_leaveActiveCore (s := ⟨s.thread, 0, c, mask⟩) hne hmem ⟨rfl, rfl⟩
    · rw [not_and_or, not_and_or, not_not, not_not, Int.not_le] at hmove
      rcases hmove with hsame | hneg | hhas
      · rw [hsame]
        exact inv.active
      · exact .inl hneg
      · exact activeAllowed_of_hasAffinity inv.active.lt fun _ => hhas
  · rw [if_neg hfree]
    obtain ⟨-, hcore⟩ := inv.bound hfree
    exact ⟨inv.count, rfl, rfl, hne, hmem, fun hzero => absurd hzero hfree,
      fun _ => ⟨⟨rfl, rfl⟩, hcore⟩, inv.active⟩

theorem setCoreMask {coreId : ℤ} {mask : BitVec 64}
    (hop : s.Admissible (.setCoreMask coreId mask)) :
    (s.step (.setCoreMask coreId mask)).AffinityInv := by
  obtain ⟨hne, hcore⟩ := hop
  simp only [step, ThreadAffinity.setCoreMask]
  by_cases hupdate : coreId = idealCoreNoUpdate
  · -- The ideal core stays, and the new mask must allow it.
    rw [if_neg (not_not.mpr hupdate), if_pos hupdate]
    by_cases hhas : hasAffinity mask s.thread.virtualIdealCoreId = true
    · rw [if_pos hhas]
      rw [hasAffinity_eq, inv.virtualCore] at hhas
      have happly := inv.applyCoreMask hne fun hnonneg => by
        have := BitVec.lt_of_getLsbD (inv.core_mem hnonneg)
        rwa [Int.emod_eq_of_lt hnonneg (by omega)] at hhas
      rw [← inv.virtualCore] at happly ⊢
      exact happly
    · rw [if_neg hhas]
      exact inv
  · rw [if_pos hupdate, if_neg hupdate]
    refine inv.applyCoreMask hne fun hnonneg => ?_
    rcases hcore with heq | heq | ⟨-, hmem⟩
    · exact absurd heq hupdate
    · rw [heq] at hnonneg
      exact absurd hnonneg (by decide)
    · exact hmem

theorem step (hop : s.Admissible op) : (s.step op).AffinityInv := by
  cases op with
  | setCoreMask coreId mask => exact inv.setCoreMask hop
  | pin core => exact inv.pin hop
  | unpin => exact inv.unpin hop
  | disableCoreMigration => exact inv.disableCoreMigration
  | enableCoreMigration => exact inv.enableCoreMigration hop
  | schedule core =>
    exact ⟨inv.count, inv.virtualCore, inv.virtualMask, inv.mask_ne, inv.core_mem, inv.free,
      inv.bound, hop⟩

end AffinityInv

theorem Reaches.inv (hrun : Reaches s) : s.AffinityInv := by
  induction hrun with
  | start hcore => exact .start hcore
  | step _ hop ih => exact ih.step hop

/-- The thread is pinned or has disabled migration. -/
def Bound (s : AffinityState) : Prop := s.thread.isPinned = true ∨ 0 < s.disables

theorem AffinityInv.bound_iff (inv : s.AffinityInv) :
    s.Bound ↔ s.thread.numCoreMigrationDisables ≠ 0 := by
  have hcount := inv.count
  unfold Bound
  split_ifs at hcount with hpinned
  · exact iff_of_true (.inl hpinned) (by omega)
  · rw [or_iff_right hpinned]
    omega

/-- The active core is always allowed; a thread that nothing binds has the affinity that was
requested last, and any other thread is bound to one core. -/
theorem reaches_affinity (hrun : Reaches s) : (s.thread.activeCore < 0 ∨
      s.thread.physicalAffinityMask.getLsbD s.thread.activeCore.toNat = true) ∧
    (¬ s.Bound → ∀ p, s.thread.physicalAffinityMask.getLsbD p = true ↔
      ∃ v, s.thread.virtualAffinityMask.getLsbD v = true ∧ virtualToPhysicalCoreMap v = p) ∧
    (s.Bound → ∃ core, s.thread.physicalAffinityMask = coreBit core) ∧
    (¬ s.Bound → s.thread.virtualIdealCoreId = s.requestedCore ∧
      s.thread.virtualAffinityMask = s.requestedMask ∧
      s.thread.physicalIdealCoreId = physicalCore s.requestedCore ∧
      s.thread.physicalAffinityMask = physicalMask s.requestedMask) := by
  have inv := hrun.inv
  rw [inv.bound_iff, not_not]
  refine ⟨inv.active, fun hfree p => ?_, fun hbound => (inv.bound hbound).2, fun hfree => ?_⟩
  · rw [(inv.free hfree).2, inv.virtualMask, getLsbD_physicalMask]
  · exact ⟨inv.virtualCore, inv.virtualMask, (inv.free hfree).1, (inv.free hfree).2⟩

/-- A thread that was allowed on the cores 0 and 1, and then pinned and unpinned. -/
def pinnedOnce : AffinityState :=
  (((start 0).step (.setCoreMask 0 3)).step (.pin 1)).step .unpin

theorem pinnedOnce_affinity :
    pinnedOnce.thread.activeCore = 1 ∧ pinnedOnce.thread.physicalAffinityMask = 3#64 ∧
      pinnedOnce.thread.physicalAffinityMask = physicalMask pinnedOnce.requestedMask := by
  have hset : Reaches ((start 0).step (.setCoreMask 0 3)) :=
    .step (.start (by decide)) ⟨by decide, .inr (.inr ⟨by decide, by decide⟩)⟩
  have hpin := @Reaches.step _ (.pin 1) hset ⟨by decide, by decide, by decide, by decide⟩
  have hunpin : Reaches pinnedOnce := @Reaches.step _ .unpin hpin ⟨by decide, by decide⟩
  obtain ⟨-, -, -, hrequested⟩ := reaches_affinity hunpin
  refine ⟨by decide +kernel, by decide +kernel, (hrequested ?_).2.2.2⟩
  rintro (hpinned | hdisables)
  · exact absurd hpinned (by decide +kernel)
  · exact absurd hdisables (by decide +kernel)

/-- Pinning a thread that has disabled migration loses the requested mask; unpinning one that
disabled migration since leaves it on several cores; and a mask without the ideal core moves the
thread to a core that is not allowed. -/
theorem affinity_lost :
    (let s := ((((start 0).step (.setCoreMask 0 3)).step .disableCoreMigration).step (.pin 0)).step
      .unpin |>.step .enableCoreMigration
    s.disables = 0 ∧ s.thread.isPinned = false ∧
      s.thread.physicalAffinityMask ≠ physicalMask s.requestedMask) ∧
    (let s := ((((start 0).step (.setCoreMask 0 3)).step (.pin 0)).step
      .disableCoreMigration).step .unpin
    0 < s.disables ∧ s.thread.physicalAffinityMask = 3#64) ∧
    (let s := (start 0).step (.setCoreMask 0 2)
    s.thread.activeCore = 0 ∧ s.thread.physicalAffinityMask.getLsbD 0 = false) := by
  decide +kernel

end AffinityState

end Atmosphere.Kern
