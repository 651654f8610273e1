import Atmosphere.Lib.Fallible.Basic

/-!
# Storages

A storage is an array of bytes of a given size. Reading from it fills a part of a buffer, or
fails when the range leaves the storage. Integers are read from bytes in little endian.
-/

namespace Atmosphere.Fs

export Fallible (ok_bind bind_eq_ok)

/-- The `fs::Result` values that the modelled code returns besides success. -/
inductive FsResult
  | outOfRange
  | invalidOffset
  | invalidSize
  | invalidArgument
  | nullptrArgument
  | bufferAllocationFailed
  | invalidBucketTreeNodeIndex
  | invalidBucketTreeNodeEntryCount
  | invalidBucketTreeNodeOffset
  | invalidBucketTreeEntryOffset
  | invalidBucketTreeVirtualOffset
  | invalidIndirectEntryOffset
  | invalidIndirectEntryStorageIndex
  | invalidIndirectStorageSize
  | indirectStorageCorrupted
  | invalidZeroHash
  | nonRealDataVerificationFailed
  | clearedRealDataVerificationFailed
  | unclearedRealDataVerificationFailed
  | allocationFailureInIntegrityVerificationStorageA
  deriving DecidableEq, Repr

/-- A computation that returns a value or a result that is not success. -/
abbrev FsOp (α : Type) := Except FsResult α

/-- `R_UNLESS`. -/
def require (condition : Prop) [Decidable condition] (result : FsResult) : FsOp Unit :=
  if condition then .ok () else .error result

variable {p : Prop} {e : FsResult} {α : Type} {f : Unit → FsOp α}

theorem require_of [Decidable p] (h : p) : require p e = .ok () :=
  if_pos h

theorem require_of_not [Decidable p] (h : ¬ p) : require p e = .error e :=
  if_neg h

theorem require_bind [Decidable p] (h : p) : (require p e >>= f) = f () := by
  rw [require_of h]
  rfl

theorem require_bind_of_not [Decidable p] (h : ¬ p) : (require p e >>= f) = .error e := by
  rw [require_of_not h]
  rfl

/-- A check that was passed. -/
theorem require_bind_eq_ok [Decidable p] {a : α} :
    (require p e >>= f) = .ok a ↔ p ∧ f () = .ok a := by
  constructor
  · intro h
    have hp : p := by
      by_contra hp
      rw [require_bind_of_not hp] at h
      cases h
    rw [require_bind hp] at h
    exact ⟨hp, h⟩
  · rintro ⟨hp, hf⟩
    rw [require_bind hp, hf]

/-! ### Alignment -/

/-- `util::AlignDown` to a power of two. -/
def alignDown (x : ℤ) (align : ℕ) : ℤ := x - x % align

/-- `util::AlignUp` to a power of two. -/
def alignUp (x : ℤ) (align : ℕ) : ℤ := alignDown (x + (align - 1)) align

/-- `util::AlignDown` of a size. -/
def alignSizeDown (size align : ℕ) : ℕ := size - size % align

/-- `util::AlignUp` of a size. -/
def alignSizeUp (size align : ℕ) : ℕ := alignSizeDown (size + (align - 1)) align

section Align

variable {x : ℤ} {align : ℕ}

theorem dvd_alignDown (x : ℤ) (align : ℕ) : (align : ℤ) ∣ alignDown x align :=
  Int.dvd_self_sub_emod

theorem alignDown_le (halign : 0 < align) : alignDown x align ≤ x := by
  have := Int.emod_nonneg x (show (align : ℤ) ≠ 0 by omega)
  unfold alignDown
  omega

theorem lt_alignDown_add (halign : 0 < align) : x < alignDown x align + align := by
  have := Int.emod_lt_of_pos x (show (0 : ℤ) < align by omega)
  unfold alignDown
  omega

theorem dvd_alignUp (x : ℤ) (align : ℕ) : (align : ℤ) ∣ alignUp x align := dvd_alignDown _ _

theorem le_alignUp (halign : 0 < align) : x ≤ alignUp x align := by
  have := @lt_alignDown_add (x + (align - 1)) align halign
  unfold alignUp
  omega

theorem alignUp_lt (halign : 0 < align) : alignUp x align < x + align := by
  have := @alignDown_le (x + (align - 1)) align halign
  unfold alignUp
  omega

/-- The next multiple is the least one. -/
theorem alignUp_le_of_dvd (halign : 0 < align) {m : ℤ} (hm : (align : ℤ) ∣ m) (hle : x ≤ m) :
    alignUp x align ≤ m := by
  have hlt := @alignUp_lt x align halign
  by_contra hgt
  have := Int.le_of_dvd (by omega) (Int.dvd_sub (dvd_alignUp x align) hm)
  omega

/-- The multiples next to an offset are at most one block apart. -/
theorem alignUp_le (halign : 0 < align) : alignUp x align ≤ alignDown x align + align :=
  alignUp_le_of_dvd halign (Int.dvd_add (dvd_alignDown x align) (Int.dvd_refl _))
    (Int.le_of_lt (lt_alignDown_add halign))

theorem alignSizeDown_mul (k align : ℕ) : alignSizeDown (k * align) align = k * align := by
  rw [alignSizeDown, Nat.mul_mod_left, Nat.sub_zero]

end Align

/-! ### Bytes -/

/-- The bytes of a buffer or a storage. -/
abbrev Bytes := ℕ → BitVec 8

namespace Bytes

variable {b b' : Bytes} {i i' : ℕ}

/-- A `s32` at a position. -/
def getInt32 (b : Bytes) (i : ℕ) : ℤ := (b (i + 3) ++ b (i + 2) ++ b (i + 1) ++ b i).toInt

/-- A `s64` at a position. -/
def getInt64 (b : Bytes) (i : ℕ) : ℤ :=
  (b (i + 7) ++ b (i + 6) ++ b (i + 5) ++ b (i + 4) ++
    b (i + 3) ++ b (i + 2) ++ b (i + 1) ++ b i).toInt

/-- The bytes from a position on. -/
def drop (b : Bytes) (n : ℕ) : Bytes := fun i => b (n + i)

theorem getInt32_congr (h : ∀ j < 4, b (i + j) = b' (i' + j)) : b.getInt32 i = b'.getInt32 i' := by
  have h₀ := h 0 (by decide)
  rw [Nat.add_zero, Nat.add_zero] at h₀
  unfold getInt32
  rw [h₀, h 1 (by decide), h 2 (by decide), h 3 (by decide)]

theorem getInt64_congr (h : ∀ j < 8, b (i + j) = b' (i' + j)) : b.getInt64 i = b'.getInt64 i' := by
  have h₀ := h 0 (by decide)
  rw [Nat.add_zero, Nat.add_zero] at h₀
  unfold getInt64
  rw [h₀, h 1 (by decide), h 2 (by decide), h 3 (by decide), h 4 (by decide), h 5 (by decide),
    h 6 (by decide), h 7 (by decide)]

/-- The buffer with other bytes from `start` on. -/
def write (b : Bytes) (start size : ℕ) (data : Bytes) : Bytes :=
  fun i => if start ≤ i ∧ i < start + size then data (i - start) else b i

variable {start size : ℕ} {data : Bytes}

theorem write_of_mem (h : start ≤ i) (h' : i < start + size) :
    b.write start size data i = data (i - start) := if_pos ⟨h, h'⟩

theorem write_of_notMem (h : ¬ (start ≤ i ∧ i < start + size)) :
    b.write start size data i = b i := if_neg h

/-- `memset` to zero. -/
def clear (b : Bytes) (start size : ℕ) : Bytes := b.write start size fun _ => 0

theorem clear_of_mem (h : start ≤ i) (h' : i < start + size) :
    b.clear start size i = 0 := write_of_mem h h'

theorem clear_of_notMem (h : ¬ (start ≤ i ∧ i < start + size)) :
    b.clear start size i = b i := write_of_notMem h

end Bytes

/-! ### Storages -/

/-- A `fs::SubStorage` and the bytes of its part of the base storage. -/
structure SubStorage where
  bytes : Bytes
  size : ℤ

/-- `IStorage::CheckAccessRange`. -/
def checkAccessRange (offset size totalSize : ℤ) : Bool :=
  0 ≤ offset && 0 ≤ size && size ≤ totalSize && offset ≤ totalSize - size

/-- `IStorage::CheckOffsetAndSize`. -/
def checkOffsetAndSize (offset size : ℤ) : Bool :=
  0 ≤ offset && 0 ≤ size && offset ≤ offset + size

namespace SubStorage

variable {s : SubStorage} {buffer : Bytes} {start size offset : ℕ}

/-- `Read` into a buffer, from the position `start` of the buffer on. -/
def read (s : SubStorage) (offset : ℤ) (buffer : Bytes) (start size : ℕ) : FsOp Bytes :=
  if size = 0 then .ok buffer
  else if checkAccessRange offset size s.size then
    .ok (buffer.write start size (s.bytes.drop offset.toNat))
  else .error .outOfRange

/-- A range inside the storage can be read. -/
theorem read_of_le (h : (offset + size : ℤ) ≤ s.size) :
    s.read offset buffer start size = .ok (buffer.write start size (s.bytes.drop offset)) := by
  unfold read
  split_ifs with hsize hrange
  · congr 1
    funext i
    rw [Bytes.write_of_notMem (by omega)]
  · rfl
  · apply hrange
    simp only [checkAccessRange, Bool.and_eq_true, decide_eq_true_eq]
    omega

/-- A read that fills the buffer was one inside the storage. -/
theorem read_eq_ok {offset : ℤ} {buffer' : Bytes}
    (h : s.read offset buffer start size = .ok buffer') :
    buffer' = buffer.write start size (s.bytes.drop offset.toNat) := by
  unfold read at h
  split_ifs at h with hsize
  · cases h
    funext i
    rw [Bytes.write_of_notMem (by omega)]
  · cases h
    rfl

/-- `Write` from the start of a buffer. -/
def write (s : SubStorage) (offset : ℤ) (buffer : Bytes) (size : ℕ) : FsOp SubStorage :=
  if size = 0 then .ok s
  else if checkAccessRange offset size s.size then
    .ok { s with bytes := s.bytes.write offset.toNat size buffer }
  else .error .outOfRange

end SubStorage

/-- A buffer of the pool, which can be smaller than it was asked for. -/
structure PooledBuffer where
  buffer : Bytes
  size : ℕ

end Atmosphere.Fs
