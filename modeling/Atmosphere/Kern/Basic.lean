import Atmosphere.Lib.Fallible.Basic

/-!
# Shared vocabulary of the kernel model

The model follows the release build. `MESOSPHERE_ASSERT` compiles to nothing
there, so an assertion is never a branch of the model; `MESOSPHERE_ABORT_UNLESS`
and the use of a null pointer stop the kernel and are a `Panic`. A supervisor
call's `Result` is separate from both and is an ordinary value.

Addresses and sizes are natural numbers. The tree of an address space ends
below `2 ^ 64`, so no sum of an address and a size inside it wraps.
-/

namespace Atmosphere.Kern

/-- Ways in which the modelled code stops the kernel. -/
inductive Panic
  /-- `KMemoryBlockManagerUpdateAllocator::Allocate` without a block left. -/
  | updateAllocatorExhausted
  /-- A sixteen-bit count was incremented past its maximum. -/
  | countOverflow
  /-- A sixteen-bit count was decremented at zero where the code checks it. -/
  | countUnderflow
  /-- An end iterator or a null pointer was dereferenced. -/
  | nullDereference
  /-- `MESOSPHERE_R_ABORT_UNLESS` of a result that is not success. -/
  | resultNotSuccess
  /-- A page reference count is not what `OpenFirst`, `Open` or `Close` require. -/
  | badReferenceCount
  /-- An index outside an array. -/
  | outOfBounds
  /-- A loop that makes no progress. -/
  | stuck
  /-- `MESOSPHERE_ABORT_UNLESS` of any other condition. -/
  | abortUnless
  deriving DecidableEq, Repr

/-- A computation that returns or stops the kernel. -/
abbrev Run (α : Type) := Except Panic α

/-- The `svc::Result` values that the modelled code returns besides success. -/
inductive SvcResult
  | outOfResource
  | outOfMemory
  | invalidCurrentMemory
  | busy
  | outOfHandles
  | invalidState
  | invalidCombination
  | invalidHandle
  | messageTooLarge
  deriving DecidableEq, Repr

export Fallible (bind_eq_ok)

/-- `PageSize`. -/
def pageSize : ℕ := 4096

/-- `util::AlignDown`. -/
def alignDown (value alignment : ℕ) : ℕ := value / alignment * alignment

/-- `util::AlignUp`. -/
def alignUp (value alignment : ℕ) : ℕ := alignDown (value + alignment - 1) alignment

theorem pageSize_pos : 0 < pageSize := by decide

theorem alignDown_le (v a : ℕ) : alignDown v a ≤ v := Nat.div_mul_le_self v a

theorem lt_alignDown_add (v : ℕ) {a : ℕ} (ha : 0 < a) : v < alignDown v a + a := by
  have := Nat.lt_div_mul_add (a := v) ha
  exact this

theorem dvd_alignDown (v a : ℕ) : a ∣ alignDown v a := Nat.dvd_mul_left _ _

theorem dvd_alignUp (v a : ℕ) : a ∣ alignUp v a := dvd_alignDown _ _

theorem le_alignUp (v : ℕ) {a : ℕ} (ha : 0 < a) : v ≤ alignUp v a := by
  have := lt_alignDown_add (v + a - 1) ha
  unfold alignUp
  omega

variable {a v : ℕ}

theorem alignUp_lt_add (v : ℕ) (ha : 0 < a) : alignUp v a < v + a := by
  have := alignDown_le (v + a - 1) a
  unfold alignUp
  omega

/-- `alignDown v a` is the largest multiple of `a` not above `v`. -/
theorem le_alignDown_iff {m : ℕ} (ha : 0 < a) (hm : a ∣ m) : m ≤ alignDown v a ↔ m ≤ v := by
  obtain ⟨k, rfl⟩ := hm
  unfold alignDown
  rw [Nat.mul_comm a k, Nat.mul_le_mul_right_iff ha, Nat.le_div_iff_mul_le ha]

/-- `alignUp v a` is the least multiple of `a` not below `v`. -/
theorem alignUp_le_iff {m : ℕ} (ha : 0 < a) (hm : a ∣ m) : alignUp v a ≤ m ↔ v ≤ m := by
  constructor
  · exact Nat.le_trans (le_alignUp v ha)
  · intro hle
    have hdvd : a ∣ alignUp v a := dvd_alignUp v a
    have hlt := alignUp_lt_add v ha
    obtain ⟨k, hk⟩ := hm
    obtain ⟨j, hj⟩ := hdvd
    rw [hj, hk]
    apply Nat.mul_le_mul_left
    by_contra hjk
    have : a * (k + 1) ≤ a * j := Nat.mul_le_mul_left a (by omega)
    rw [Nat.mul_add] at this
    omega

theorem alignDown_of_dvd (h : a ∣ v) : alignDown v a = v := Nat.div_mul_cancel h

theorem alignUp_of_dvd (ha : 0 < a) (h : a ∣ v) : alignUp v a = v :=
  Nat.le_antisymm ((alignUp_le_iff ha h).mpr (Nat.le_refl v)) (le_alignUp v ha)

/-- A range of pages. -/
structure PageRange where
  address : ℕ
  numPages : ℕ
  deriving DecidableEq, Repr

namespace PageRange

def size (r : PageRange) : ℕ := r.numPages * pageSize

def endAddress (r : PageRange) : ℕ := r.address + r.size

def covers (x : ℕ) (r : PageRange) : Bool := r.address ≤ x && x < r.endAddress

@[simp] theorem covers_iff {r : PageRange} {x : ℕ} :
    covers x r = true ↔ r.address ≤ x ∧ x < r.endAddress := by
  simp [covers]

end PageRange

/-- The threads of the concrete states are the numerals of `Fin 4`. -/
scoped instance neZeroFour : NeZero 4 := ⟨four_ne_zero⟩

end Atmosphere.Kern
