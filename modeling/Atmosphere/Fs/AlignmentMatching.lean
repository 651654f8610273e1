import Atmosphere.Fs.Storage
import Atmosphere.Lib.Fallible.Stateful

/-!
# Alignment matching storages

`AlignmentMatchingStorageImpl` reads and writes any range of a storage that accepts only aligned
ranges. The core of a range is moved directly between the storage and the buffer; the rest goes
through a work buffer of one aligned block.

The base storage can refuse any access, depending on the accesses before.
-/

namespace Atmosphere.Fs

open Fallible (Stateful Triple check)

/-! ### The base storage -/

/-- An access to the base storage. -/
structure Access where
  isWrite : Bool
  offset : ℤ
  size : ℕ

/-- The bytes of a base storage, and the accesses that were made to it, the last one first. -/
structure BaseStorage where
  bytes : ℤ → BitVec 8
  accesses : List Access

abbrev StorageOp := Stateful FsResult BaseStorage

/-- The result with which a base storage refuses an access, after the accesses before. -/
abbrev Refusal := List Access → Access → Option FsResult

namespace BaseStorage

variable (refusal : Refusal)

/-- The answer to an access. -/
def answer : Option FsResult → StorageOp Unit
  | some result => throw result
  | none => return ()

def access (a : Access) : StorageOp Unit := do
  let s ← get
  set { s with accesses := a :: s.accesses }
  answer (refusal s.accesses a)

/-- `Read` into a buffer, from the position `start` of the buffer on. -/
def read (offset : ℤ) (buffer : Bytes) (start size : ℕ) : StorageOp Bytes := do
  access refusal ⟨false, offset, size⟩
  let s ← get
  return buffer.write start size fun i => s.bytes (offset + i)

/-- `Write` from a buffer. -/
def write (offset : ℤ) (buffer : Bytes) (size : ℕ) : StorageOp Unit := do
  access refusal ⟨true, offset, size⟩
  modify fun s => { s with bytes := fun o =>
    if offset ≤ o ∧ o < offset + size then buffer (o - offset).toNat else s.bytes o }

end BaseStorage

/-! ### The model -/

def getRoundDownDifference (x : ℤ) (align : ℕ) : ℕ := (x - alignDown x align).toNat

def getRoundUpDifference (x : ℤ) (align : ℕ) : ℕ := (alignUp x align - x).toNat

namespace AlignmentMatching

/-- The extents that `Read` determines. The aligned core buffer is a position of the buffer. -/
structure Extents where
  alignedCoreBuffer : ℕ
  coreOffset : ℤ
  coreSize : ℕ
  bufferGap : ℕ
  offsetGap : ℕ
  coveredOffset : ℤ

variable (refusal : Refusal) (dataAlignment bufferAlignment : ℕ)

/-- The size of the core behind the first bytes of the buffer. -/
def coreSizeBehind (difference size : ℕ) : ℕ :=
  if size < difference then 0 else alignSizeDown (size - difference) dataAlignment

/-- The extents of a read or a write if the core lies in the buffer as it does in the range. -/
def directExtents (offset : ℤ) (size : ℕ) : Extents :=
  let offsetRoundUpDifference := getRoundUpDifference offset dataAlignment
  let coreOffset := alignUp offset dataAlignment
  let coreSize := coreSizeBehind dataAlignment offsetRoundUpDifference size
  ⟨offsetRoundUpDifference, coreOffset, coreSize, 0, 0, if 0 < coreSize then coreOffset else offset⟩

/-- The extents of a read into the buffer at an address. -/
def readExtents (address : ℕ) (offset : ℤ) (size : ℕ) : Extents :=
  if (address + getRoundUpDifference offset dataAlignment) % bufferAlignment = 0 then
    directExtents dataAlignment offset size
  else
    let bufferRoundUpDifference := getRoundUpDifference address bufferAlignment
    let coreSize := coreSizeBehind dataAlignment bufferRoundUpDifference size
    ⟨bufferRoundUpDifference, alignDown offset dataAlignment, coreSize, bufferRoundUpDifference,
      getRoundDownDifference offset dataAlignment, offset⟩

/-- The `memmove` of the core, and the size of what is left of it. -/
def moveCore (e : Extents) (buffer : Bytes) : Bytes × ℕ :=
  if e.offsetGap ≠ 0 ∨ e.bufferGap ≠ 0 then
    (buffer.write (e.alignedCoreBuffer - e.bufferGap) (e.coreSize - e.offsetGap)
      (buffer.drop (e.alignedCoreBuffer + e.offsetGap)), e.coreSize - e.offsetGap)
  else (buffer, e.coreSize)

/-- The core portion of a read. -/
def readCore (e : Extents) (buffer : Bytes) : StorageOp (Bytes × ℕ) :=
  if 0 < e.coreSize then do
    let buffer ← BaseStorage.read refusal e.coreOffset buffer e.alignedCoreBuffer e.coreSize
    return moveCore e buffer
  else return (buffer, e.coreSize)

/-- The head portion of a read. -/
def readHead (offset coveredOffset : ℤ) (buffer workBuf : Bytes) : StorageOp (Bytes × Bytes) :=
  if offset < coveredOffset then do
    let headOffset := alignDown offset dataAlignment
    let headSize := (coveredOffset - offset).toNat
    let workBuf ← BaseStorage.read refusal headOffset workBuf 0 dataAlignment
    return (buffer.write 0 headSize (workBuf.drop (getRoundDownDifference offset dataAlignment)),
      workBuf)
  else return (buffer, workBuf)

/-- The loop over the tail portion of a read. A round advances at least one byte, so that the
number of rounds is at most the number of bytes. -/
def readTail (offset : ℤ) : ℕ → ℤ → ℕ → Bytes → Bytes → StorageOp Bytes
  | 0, _, _, buffer, _ => return buffer
  | rounds + 1, tailOffset, remainingTailSize, buffer, workBuf =>
    if 0 < remainingTailSize then do
      let alignedTailOffset := alignDown tailOffset dataAlignment
      let curSize := min (alignedTailOffset + dataAlignment - tailOffset).toNat remainingTailSize
      let workBuf ← BaseStorage.read refusal alignedTailOffset workBuf 0 dataAlignment
      let buffer := buffer.write (tailOffset - offset).toNat curSize
        (workBuf.drop (tailOffset - alignedTailOffset).toNat)
      readTail offset rounds (tailOffset + curSize) (remainingTailSize - curSize) buffer workBuf
    else return buffer

/-- `AlignmentMatchingStorageImpl::Read` into the buffer at an address. -/
def read (offset : ℤ) (address : ℕ) (buffer workBuf : Bytes) (size : ℕ) : StorageOp Bytes :=
  if size = 0 then return buffer
  else do
    check (address ≠ 0) .nullptrArgument
    let e := readExtents dataAlignment bufferAlignment address offset size
    let (buffer, coreSize) ← readCore refusal e buffer
    let (buffer, workBuf) ←
      readHead refusal dataAlignment offset e.coveredOffset buffer workBuf
    let tailOffset := e.coveredOffset + coreSize
    let remainingTailSize := (offset + size - tailOffset).toNat
    readTail refusal dataAlignment offset remainingTailSize tailOffset remainingTailSize buffer
      workBuf

/-- The extents of a write. Without a core, its buffer is not used. -/
def writeExtents (address : ℕ) (offset : ℤ) (size : ℕ) : Extents :=
  if (address + getRoundUpDifference offset dataAlignment) % bufferAlignment = 0 then
    directExtents dataAlignment offset size
  else ⟨0, alignDown offset dataAlignment, 0, 0, 0, offset⟩

/-- The core portion of a write. -/
def writeCore (e : Extents) (buffer : Bytes) : StorageOp Unit :=
  if 0 < e.coreSize then
    BaseStorage.write refusal e.coreOffset (buffer.drop e.alignedCoreBuffer) e.coreSize
  else return ()

/-- Changes a part of one aligned block, from a position of the buffer. -/
def updateBlock (blockOffset : ℤ) (start size : ℕ) (data workBuf : Bytes) : StorageOp Bytes := do
  let workBuf ← BaseStorage.read refusal blockOffset workBuf 0 dataAlignment
  let workBuf := workBuf.write start size data
  BaseStorage.write refusal blockOffset workBuf dataAlignment
  return workBuf

/-- The head portion of a write. -/
def writeHead (offset coveredOffset : ℤ) (buffer workBuf : Bytes) : StorageOp Bytes :=
  if offset < coveredOffset then
    let headOffset := alignDown offset dataAlignment
    updateBlock refusal dataAlignment headOffset (offset - headOffset).toNat
      (coveredOffset - offset).toNat buffer workBuf
  else return workBuf

/-- The loop over the tail portion of a write. -/
def writeTail (offset : ℤ) (buffer : Bytes) : ℕ → ℤ → ℕ → Bytes → StorageOp Unit
  | 0, _, _, _ => return ()
  | rounds + 1, tailOffset, remainingTailSize, workBuf =>
    if 0 < remainingTailSize then do
      let alignedTailOffset := alignDown tailOffset dataAlignment
      let curSize := min (alignedTailOffset + dataAlignment - tailOffset).toNat remainingTailSize
      let workBuf ← updateBlock refusal dataAlignment alignedTailOffset
        (getRoundDownDifference tailOffset dataAlignment) curSize
        (buffer.drop (tailOffset - offset).toNat) workBuf
      writeTail offset buffer rounds (tailOffset + curSize) (remainingTailSize - curSize) workBuf
    else return ()

/-- `AlignmentMatchingStorageImpl::Write` from the buffer at an address. -/
def write (offset : ℤ) (address : ℕ) (buffer workBuf : Bytes) (size : ℕ) : StorageOp Unit :=
  if size = 0 then return ()
  else do
    check (address ≠ 0) .nullptrArgument
    let e := writeExtents dataAlignment bufferAlignment address offset size
    writeCore refusal e buffer
    let workBuf ← writeHead refusal dataAlignment offset e.coveredOffset buffer workBuf
    let tailOffset := e.coveredOffset + e.coreSize
    let remainingTailSize := (offset + size - tailOffset).toNat
    writeTail refusal dataAlignment offset buffer remainingTailSize tailOffset remainingTailSize
      workBuf

end AlignmentMatching

/-! ### Accesses -/

variable (dataAlignment : ℕ)

/-- An access with aligned offset and size. -/
def Access.Aligned (a : Access) : Prop :=
  (dataAlignment : ℤ) ∣ a.offset ∧ dataAlignment ∣ a.size

/-- The accesses besides the old ones are aligned. -/
def BaseStorage.OnlyAligned (old : List Access) (s : BaseStorage) : Prop :=
  ∀ a ∈ s.accesses, a ∈ old ∨ a.Aligned dataAlignment

/-- The base storage has the given bytes, after aligned accesses. -/
def BaseStorage.Holds (old : List Access) (bytes : ℤ → BitVec 8) (s : BaseStorage) : Prop :=
  s.bytes = bytes ∧ s.OnlyAligned dataAlignment old

/-- Bytes with a range from a buffer. -/
def overlay (bytes : ℤ → BitVec 8) (offset : ℤ) (size : ℕ) (data : Bytes) : ℤ → BitVec 8 :=
  fun o => if offset ≤ o ∧ o < offset + size then data (o - offset).toNat else bytes o

namespace BaseStorage

variable {refusal : Refusal} {align : ℕ} {old : List Access} {bytes : ℤ → BitVec 8}
variable {offset : ℤ} {buffer : Bytes} {start size : ℕ}

/-- The operation makes only aligned accesses and leaves the bytes; what it returns meets `Q`. -/
abbrev Reads {α : Type} (dataAlignment : ℕ) (old : List Access) (bytes : ℤ → BitVec 8)
    (op : StorageOp α) (Q : α → Prop) : Prop :=
  Triple (Holds dataAlignment old bytes) op (fun r s => Q r ∧ s.Holds dataAlignment old bytes)
    fun _ => OnlyAligned dataAlignment old

/-- The operation makes only aligned accesses and changes the bytes to `bytes'`. -/
abbrev Writes {α : Type} (dataAlignment : ℕ) (old : List Access) (bytes bytes' : ℤ → BitVec 8)
    (op : StorageOp α) : Prop :=
  Triple (Holds dataAlignment old bytes) op (fun _ => Holds dataAlignment old bytes')
    fun _ => OnlyAligned dataAlignment old

theorem access_run (a : Access) (s : BaseStorage) : (access refusal a).run s =
    (answer (refusal s.accesses a)).run { s with accesses := a :: s.accesses } := rfl

theorem access_spec {a : Access} (ha : a.Aligned align) :
    Writes align old bytes bytes (access refusal a) := by
  intro s hs
  obtain ⟨hbytes, haligned⟩ := hs
  have haligned' : OnlyAligned align old { s with accesses := a :: s.accesses } := by
    intro a' ha'
    obtain rfl | hmem := List.mem_cons.mp ha'
    · exact .inr ha
    · exact haligned a' hmem
  rw [access_run]
  cases refusal s.accesses a with
  | none => exact ⟨hbytes, haligned'⟩
  | some result => exact haligned'

variable (hoffset : (align : ℤ) ∣ offset) (hsize : align ∣ size)
include hoffset hsize

theorem read_spec : Reads align old bytes (read refusal offset buffer start size)
      (· = buffer.write start size fun i => bytes (offset + i)) := by
  apply (access_spec ⟨hoffset, hsize⟩).bind
  intro _ s hs
  refine ⟨?_, hs⟩
  rw [← hs.1]

theorem write_spec : Writes align old bytes (overlay bytes offset size buffer)
      (write refusal offset buffer size) := by
  apply (access_spec ⟨hoffset, hsize⟩).bind
  intro _ s hs
  refine ⟨?_, hs.2⟩
  rw [← hs.1]
  rfl

end BaseStorage

namespace AlignmentMatching

open BaseStorage (Reads Writes)

variable {refusal : Refusal} {align bufferAlignment : ℕ} {old : List Access}
variable {bytes : ℤ → BitVec 8} {offset : ℤ} {buffer b workBuf data : Bytes} {size address n : ℕ}
variable {lo hi x blockOffset : ℤ}

/-! ### Read -/

/-- The buffer has the bytes of a part of the range, and is unchanged behind the range. -/
structure HasRead (bytes : ℤ → BitVec 8) (offset : ℤ) (size : ℕ) (buffer b : Bytes) (lo hi : ℤ) :
    Prop where
  bytes_eq : ∀ i : ℕ, lo ≤ offset + i → offset + i < hi → b i = bytes (offset + i)
  untouched : ∀ i, size ≤ i → b i = buffer i

theorem HasRead.start : HasRead bytes offset size buffer buffer lo lo :=
  ⟨fun _ hlow hhigh => absurd hhigh (not_lt.mpr hlow), fun _ _ => rfl⟩

/-- Copying the bytes of another part of the range. -/
theorem HasRead.write (h : HasRead bytes offset size buffer b lo hi) {lo' hi' : ℤ}
    (hx : offset ≤ x) (hfit : x + n ≤ offset + size) (hdata : ∀ j < n, data j = bytes (x + j))
    (hcover : ∀ o, lo' ≤ o → o < hi' → lo ≤ o ∧ o < hi ∨ x ≤ o ∧ o < x + n) :
    HasRead bytes offset size buffer (b.write (x - offset).toNat n data) lo' hi' := by
  constructor
  · intro i hlow hhigh
    by_cases hin : (x - offset).toNat ≤ i ∧ i < (x - offset).toNat + n
    · rw [Bytes.write_of_mem hin.1 hin.2, hdata _ (by omega)]
      congr 1
      omega
    · rw [Bytes.write_of_notMem hin]
      apply h.bytes_eq
      · have := hcover _ hlow hhigh
        omega
      · have := hcover _ hlow hhigh
        omega
  · intro i hi
    rw [Bytes.write_of_notMem (by omega)]
    exact h.untouched i hi

/-- A part of the block that was read into the work buffer. -/
theorem drop_block {k j : ℕ} (h : k + j < align) :
    ((workBuf.write 0 align fun i => bytes (blockOffset + i)).drop k) j =
      bytes (blockOffset + k + j) := by
  rw [Bytes.drop, Bytes.write_of_mem (by omega) (by omega)]
  congr 1
  omega

theorem readTail_spec (halign : 0 < align) :
    ∀ (rounds : ℕ) (tailOffset : ℤ) (remaining : ℕ) (b workBuf : Bytes), remaining ≤ rounds →
      offset ≤ tailOffset → tailOffset + remaining = offset + size →
      HasRead bytes offset size buffer b offset tailOffset →
      Reads align old bytes (readTail refusal align offset rounds tailOffset remaining b workBuf)
        (HasRead bytes offset size buffer · offset (offset + size))
  | 0, tailOffset, remaining, b, workBuf, hrounds, hle, hend, hread => by
    refine .pure fun s hs => ⟨?_, hs⟩
    rw [show offset + size = tailOffset by omega]
    exact hread
  | rounds + 1, tailOffset, remaining, b, workBuf, hrounds, hle, hend, hread => by
    unfold readTail
    split_ifs with hremaining
    · have hdown := @alignDown_le tailOffset align halign
      have hup := @lt_alignDown_add tailOffset align halign
      apply (BaseStorage.read_spec (dvd_alignDown tailOffset align) (Nat.dvd_refl _)).bind
      intro block s hs
      obtain ⟨rfl, hs⟩ := hs
      refine readTail_spec halign rounds _ _ _ _ (by omega) (by omega) (by omega) ?_ s hs
      refine hread.write hle (by omega) (fun j hj => ?_) (fun o hlow hhigh => by omega)
      rw [drop_block (by omega)]
      congr 1
      omega
    · refine .pure fun s hs => ⟨?_, hs⟩
      rw [show offset + size = tailOffset by omega]
      exact hread

theorem readHead_spec (halign : 0 < align) {coveredOffset : ℤ} (hcovered : offset ≤ coveredOffset)
    (hblock : coveredOffset ≤ alignDown offset align + align)
    (hhi : coveredOffset ≤ hi) (hend : hi ≤ offset + size)
    (hread : HasRead bytes offset size buffer b coveredOffset hi) :
    Reads align old bytes (readHead refusal align offset coveredOffset b workBuf)
      (HasRead bytes offset size buffer ·.1 offset hi) := by
  unfold readHead
  split_ifs with hhead
  · have hdown := @alignDown_le offset align halign
    apply (BaseStorage.read_spec (dvd_alignDown offset align) (Nat.dvd_refl _)).bind
    intro block s hs
    obtain ⟨rfl, hs⟩ := hs
    refine ⟨?_, hs⟩
    have hwrite := @HasRead.write bytes offset buffer b ((workBuf.write 0 align fun i =>
      bytes (alignDown offset align + i)).drop (getRoundDownDifference offset align))
      size (coveredOffset - offset).toNat coveredOffset hi offset hread offset hi le_rfl (by omega)
      (fun j hj => by
        unfold getRoundDownDifference
        rw [drop_block (by omega)]
        congr 1
        omega)
      (fun o hlow hhigh => by omega)
    rw [Int.sub_self] at hwrite
    exact hwrite
  · refine .pure fun s hs => ⟨?_, hs⟩
    rw [show offset = coveredOffset by omega] at hread ⊢
    exact hread

/-! ### The extents -/

/-- What `Read` and `Write` need of the extents of the core. -/
structure Extents.Fits (e : Extents) (dataAlignment : ℕ) (offset : ℤ) (size : ℕ) : Prop where
  dvd_offset : (dataAlignment : ℤ) ∣ e.coreOffset
  dvd_size : dataAlignment ∣ e.coreSize
  le_size : 0 < e.coreSize → e.alignedCoreBuffer + e.coreSize ≤ size
  le_covered : offset ≤ e.coveredOffset
  covered_le : e.coveredOffset ≤ alignDown offset dataAlignment + dataAlignment
  empty : e.coreSize = 0 → e.coveredOffset = offset

/-- The core lies in the buffer as it does in the range. -/
def Extents.InPlace (e : Extents) (offset : ℤ) : Prop :=
  e.bufferGap = 0 ∧ e.offsetGap = 0 ∧ e.coreOffset = offset + e.alignedCoreBuffer ∧
    (0 < e.coreSize → e.coveredOffset = e.coreOffset)

/-- The core is moved to the beginning of the buffer. -/
def Extents.IsMoved (e : Extents) (dataAlignment : ℕ) (offset : ℤ) : Prop :=
  e.bufferGap = e.alignedCoreBuffer ∧ e.coreOffset + e.offsetGap = offset ∧
    e.offsetGap < dataAlignment ∧ e.coveredOffset = offset

theorem dvd_coreSizeBehind (difference size : ℕ) :
    align ∣ coreSizeBehind align difference size := by
  unfold coreSizeBehind
  split_ifs
  · exact Nat.dvd_zero _
  · exact Nat.dvd_sub_mod _

theorem coreSizeBehind_le {difference : ℕ} (hpos : 0 < coreSizeBehind align difference size) :
    difference + coreSizeBehind align difference size ≤ size := by
  unfold coreSizeBehind at hpos ⊢
  split_ifs at hpos ⊢ with hsize
  · exact absurd hpos (Nat.lt_irrefl 0)
  · have : alignSizeDown (size - difference) align ≤ size - difference := Nat.sub_le ..
    omega

theorem directExtents_fits (halign : 0 < align) :
    (directExtents align offset size).Fits align offset size ∧
      (directExtents align offset size).InPlace offset := by
  have hup := @le_alignUp offset align halign
  have hnext := @alignUp_le offset align halign
  have hcovered : (directExtents align offset size).coveredOffset = alignUp offset align ∨
      (directExtents align offset size).coreSize = 0 ∧
        (directExtents align offset size).coveredOffset = offset := by
    unfold directExtents
    dsimp only
    split_ifs with hpos
    · exact .inl rfl
    · exact .inr ⟨Nat.eq_zero_of_not_pos hpos, rfl⟩
  refine ⟨⟨dvd_alignUp _ _, dvd_coreSizeBehind _ _, coreSizeBehind_le, by omega, by omega, ?_⟩,
    rfl, rfl, ?_, ?_⟩
  · intro hzero
    exact if_neg (Nat.not_lt.mpr (Nat.le_of_eq hzero))
  · change alignUp offset align = offset + (alignUp offset align - offset).toNat
    omega
  · intro hpos
    exact if_pos hpos

variable {e : Extents}

theorem readExtents_fits (halign : 0 < align)
    (he : readExtents align bufferAlignment address offset size = e) :
    e.Fits align offset size ∧ (e.InPlace offset ∨ e.IsMoved align offset) := by
  have hdown := @alignDown_le offset align halign
  have hlt := @lt_alignDown_add offset align halign
  unfold readExtents at he
  split_ifs at he with haligned <;> subst he
  · obtain ⟨hfits, hplace⟩ := @directExtents_fits align offset size halign
    exact ⟨hfits, .inl hplace⟩
  · refine ⟨⟨dvd_alignDown _ _, dvd_coreSizeBehind _ _, coreSizeBehind_le, le_rfl, le_of_lt hlt,
      fun _ => rfl⟩, .inr ⟨rfl, ?_, ?_, rfl⟩⟩
    · change alignDown offset align + (offset - alignDown offset align).toNat = _
      omega
    · change (offset - alignDown offset align).toNat < align
      omega

theorem writeExtents_fits (halign : 0 < align)
    (he : writeExtents align bufferAlignment address offset size = e) :
    e.Fits align offset size ∧ (0 < e.coreSize → e.InPlace offset) := by
  have hlt := @lt_alignDown_add offset align halign
  unfold writeExtents at he
  split_ifs at he with haligned <;> subst he
  · obtain ⟨hfits, hplace⟩ := @directExtents_fits align offset size halign
    exact ⟨hfits, fun _ => hplace⟩
  · exact ⟨⟨dvd_alignDown _ _, Nat.dvd_zero _, fun hpos => absurd hpos (Nat.lt_irrefl 0), le_rfl,
      le_of_lt hlt, fun _ => rfl⟩, fun hpos => absurd hpos (Nat.lt_irrefl 0)⟩

/-! ### The whole read -/

section

variable (hfits : e.Fits align offset size) (hplace : e.InPlace offset ∨ e.IsMoved align offset)
include hfits hplace

/-- The core is in its place after the move. -/
theorem hasRead_moveCore (hpos : 0 < e.coreSize) {left : ℕ}
    (hmoved : moveCore e (buffer.write e.alignedCoreBuffer e.coreSize fun i =>
      bytes (e.coreOffset + i)) = (b, left)) :
    HasRead bytes offset size buffer b e.coveredOffset (e.coveredOffset + left) ∧
      e.coveredOffset + left ≤ offset + size := by
  have hsize := hfits.le_size hpos
  unfold moveCore at hmoved
  split_ifs at hmoved with hgap
  · obtain ⟨rfl, rfl⟩ := Prod.mk.inj hmoved
    obtain ⟨hbuffer, hoffset, -⟩ | ⟨hbuffer, hcore, hlt, hcovered⟩ := hplace
    · exact absurd hgap (by omega)
    refine ⟨⟨fun i hlow hhigh => ?_, fun i hi => ?_⟩, by omega⟩
    · rw [Bytes.write_of_mem (by omega) (by omega), Bytes.drop, Bytes.write_of_mem (by omega)
        (by omega)]
      congr 1
      omega
    · rw [Bytes.write_of_notMem (by omega), Bytes.write_of_notMem (by omega)]
  · obtain ⟨rfl, rfl⟩ := Prod.mk.inj hmoved
    -- Without gaps the core was read to its place.
    have hcore : e.coreOffset = offset + e.alignedCoreBuffer ∧ e.coveredOffset = e.coreOffset := by
      obtain ⟨-, -, hcore, hcovered⟩ | ⟨hbuffer, hcore, -, hcovered⟩ := hplace
      · exact ⟨hcore, hcovered hpos⟩
      · omega
    refine ⟨⟨fun i hlow hhigh => ?_, fun i hi => ?_⟩, by omega⟩
    · rw [Bytes.write_of_mem (by omega) (by omega)]
      congr 1
      omega
    · rw [Bytes.write_of_notMem (by omega)]

theorem readCore_spec : Reads align old bytes (readCore refusal e buffer) fun r =>
      HasRead bytes offset size buffer r.1 e.coveredOffset (e.coveredOffset + r.2) ∧
        e.coveredOffset + r.2 ≤ offset + size := by
  unfold readCore
  split_ifs with hpos
  · apply (BaseStorage.read_spec hfits.dvd_offset hfits.dvd_size).bind
    rintro b s ⟨rfl, hs⟩
    exact ⟨hasRead_moveCore hfits hplace hpos rfl, hs⟩
  · have hzero := Nat.eq_zero_of_not_pos hpos
    have hcovered := hfits.empty hzero
    refine .pure fun s hs => ⟨?_, hs⟩
    dsimp only
    rw [hzero, Int.natCast_zero, Int.add_zero]
    exact ⟨.start, by omega⟩

end

/-- A read that returns has filled the buffer, and one that fails has made aligned accesses. -/
theorem read_spec (halign : 0 < align) : Reads align old bytes
      (read refusal align bufferAlignment offset address buffer workBuf size)
      (HasRead bytes offset size buffer · offset (offset + size)) := by
  unfold read
  split_ifs with hsize
  · subst hsize
    refine .pure fun s hs => ⟨?_, hs⟩
    rw [Int.natCast_zero, Int.add_zero]
    exact .start
  obtain ⟨hfits, hplace⟩ := readExtents_fits halign rfl
  refine (Triple.check fun s hs => hs.2).bind fun _ => ?_
  apply (readCore_spec hfits hplace).bind
  rintro ⟨b, coreSize⟩ s ⟨⟨hread, hend⟩, hs⟩
  have hcovered := hfits.le_covered
  have hhead := @readHead_spec refusal _ old _ _ _ b workBuf _ _ halign _ hcovered
    hfits.covered_le (by omega) hend hread
  refine (hhead.bind fun r s hs => ?_) s hs
  exact readTail_spec halign _ _ _ _ _ (Nat.le_refl _) (by omega) (by omega) hs.1 s hs.2

/-! ### Write -/

theorem overlay_of_mem {o : ℤ} (hlow : offset ≤ o) (hhigh : o < offset + size) :
    overlay bytes offset size data o = data (o - offset).toNat := if_pos ⟨hlow, hhigh⟩

theorem overlay_of_notMem {o : ℤ} (h : ¬ (offset ≤ o ∧ o < offset + size)) :
    overlay bytes offset size data o = bytes o := if_neg h

/-- Writing the next part of a range. -/
theorem overlay_overlay (hle : offset ≤ x) :
    overlay (overlay bytes offset (x - offset).toNat data) x n (data.drop (x - offset).toNat) =
      overlay bytes offset (x + n - offset).toNat data := by
  funext o
  by_cases hnext : x ≤ o ∧ o < x + n
  · rw [overlay_of_mem hnext.1 hnext.2, overlay_of_mem (by omega) (by omega)]
    exact congrArg data (by omega)
  · rw [overlay_of_notMem hnext]
    by_cases hold : offset ≤ o ∧ o < offset + (x - offset).toNat
    · rw [overlay_of_mem hold.1 hold.2, overlay_of_mem hold.1 (by omega)]
    · rw [overlay_of_notMem hold, overlay_of_notMem (by omega)]

/-- Writing the part of a range before another one. -/
theorem overlay_before (hle : offset ≤ x) :
    overlay (overlay bytes x n (data.drop (x - offset).toNat)) offset (x - offset).toNat data =
      overlay bytes offset (x + n - offset).toNat data := by
  rw [← overlay_overlay hle]
  funext o
  by_cases hfirst : offset ≤ o ∧ o < offset + (x - offset).toNat
  · rw [overlay_of_mem hfirst.1 hfirst.2, overlay_of_notMem (by omega),
      overlay_of_mem hfirst.1 hfirst.2]
  · rw [overlay_of_notMem hfirst]
    exact if_congr Iff.rfl rfl (overlay_of_notMem hfirst).symm

/-- Reading a block, changing a part of it and writing it back changes that part. -/
theorem updateBlock_spec {start : ℕ} (hblock : (align : ℤ) ∣ blockOffset)
    (hfit : start + n ≤ align) :
    Writes align old bytes (overlay bytes (blockOffset + start) n data)
      (updateBlock refusal align blockOffset start n data workBuf) := by
  apply (BaseStorage.read_spec hblock (Nat.dvd_refl _)).bind
  rintro block s ⟨rfl, hs⟩
  refine ((BaseStorage.write_spec hblock (Nat.dvd_refl _)).bind fun _ => .pure fun s hs => ?_) s hs
  convert hs using 1
  funext o
  by_cases hpart : blockOffset + start ≤ o ∧ o < blockOffset + start + n
  · rw [overlay_of_mem hpart.1 hpart.2, overlay_of_mem (by omega) (by omega),
      Bytes.write_of_mem (by omega) (by omega)]
    congr 1
    omega
  · rw [overlay_of_notMem hpart]
    by_cases hin : blockOffset ≤ o ∧ o < blockOffset + align
    · rw [overlay_of_mem hin.1 hin.2, Bytes.write_of_notMem (by omega),
        Bytes.write_of_mem (by omega) (by omega)]
      congr 1
      omega
    · rw [overlay_of_notMem hin]

theorem writeTail_spec (halign : 0 < align) :
    ∀ (rounds : ℕ) (tailOffset : ℤ) (remaining : ℕ) (workBuf : Bytes), remaining ≤ rounds →
      offset ≤ tailOffset → tailOffset + remaining = offset + size →
      Writes align old (overlay bytes offset (tailOffset - offset).toNat buffer)
        (overlay bytes offset size buffer)
        (writeTail refusal align offset buffer rounds tailOffset remaining workBuf)
  | 0, tailOffset, remaining, workBuf, hrounds, hle, hend => by
    refine .pure fun s hs => ?_
    rw [show (tailOffset - offset).toNat = size by omega] at hs
    exact hs
  | rounds + 1, tailOffset, remaining, workBuf, hrounds, hle, hend => by
    unfold writeTail
    split_ifs with hremaining
    · have hdown := @alignDown_le tailOffset align halign
      have hup := @lt_alignDown_add tailOffset align halign
      have hstart : alignDown tailOffset align +
          getRoundDownDifference tailOffset align = tailOffset := by
        unfold getRoundDownDifference
        omega
      apply (updateBlock_spec (dvd_alignDown tailOffset align)
        (by unfold getRoundDownDifference; omega)).bind
      intro block s hs
      refine writeTail_spec halign rounds _ _ _ (by omega) (by omega) (by omega) s ?_
      rwa [hstart, overlay_overlay hle] at hs
    · refine .pure fun s hs => ?_
      rw [show (tailOffset - offset).toNat = size by omega] at hs
      exact hs

theorem writeCore_spec (hfits : e.Fits align offset size)
    (hplace : 0 < e.coreSize → e.InPlace offset) :
    Writes align old bytes (overlay bytes e.coveredOffset e.coreSize
      (buffer.drop (e.coveredOffset - offset).toNat)) (writeCore refusal e buffer) := by
  unfold writeCore
  split_ifs with hpos
  · obtain ⟨-, -, hcore, hcovered⟩ := hplace hpos
    rw [hcovered hpos, show (e.coreOffset - offset).toNat = e.alignedCoreBuffer by omega]
    exact BaseStorage.write_spec hfits.dvd_offset hfits.dvd_size
  · refine .pure fun s hs => ?_
    convert hs using 1
    funext o
    exact overlay_of_notMem (by omega)

theorem writeHead_spec (halign : 0 < align) {coveredOffset : ℤ} (hcovered : offset ≤ coveredOffset)
    (hblock : coveredOffset ≤ alignDown offset align + align) :
    Writes align old (overlay bytes coveredOffset n (buffer.drop (coveredOffset - offset).toNat))
      (overlay bytes offset (coveredOffset + n - offset).toNat buffer)
      (writeHead refusal align offset coveredOffset buffer workBuf) := by
  have hdown := @alignDown_le offset align halign
  unfold writeHead
  split_ifs with hhead
  · refine (updateBlock_spec (dvd_alignDown offset align) (by omega)).mono
      (fun s hs => hs) (fun _ s hs => ?_) fun _ s hs => hs
    rw [show alignDown offset align + ((offset - alignDown offset align).toNat : ℤ) = offset by
      omega, overlay_before hcovered] at hs
    exact hs
  · refine .pure fun s hs => ?_
    obtain rfl : offset = coveredOffset := by omega
    convert hs using 2
    · omega
    · funext i
      rw [Bytes.drop, Int.sub_self, Int.toNat_zero, Nat.zero_add]

/-- A write that returns has changed the range, and one that fails has made aligned accesses. -/
theorem write_spec (halign : 0 < align) : Writes align old bytes (overlay bytes offset size buffer)
      (write refusal align bufferAlignment offset address buffer workBuf size) := by
  unfold write
  split_ifs with hsize
  · refine .pure fun s hs => ?_
    convert hs using 1
    funext o
    exact overlay_of_notMem (by omega)
  generalize he : writeExtents align bufferAlignment address offset size = e
  obtain ⟨hfits, hplace⟩ := writeExtents_fits halign he
  have hcovered := hfits.le_covered
  have hend : e.coveredOffset + e.coreSize ≤ offset + size := by
    obtain hzero | hpos := Nat.eq_zero_or_pos e.coreSize
    · have := hfits.empty hzero
      omega
    · have := hfits.le_size hpos
      obtain ⟨-, -, hcore, hcovered⟩ := hplace hpos
      omega
  refine (Triple.check fun s hs => hs.2).bind fun _ => ?_
  refine (writeCore_spec hfits hplace).bind fun _ => ?_
  refine (writeHead_spec halign hcovered hfits.covered_le).bind fun workBuf => ?_
  exact writeTail_spec halign _ _ _ _ (Nat.le_refl _) (by omega) (by omega)

end AlignmentMatching

/-- A successful read fills the buffer with the range of the base storage and changes neither the
rest of the buffer nor the base storage. A successful write changes exactly the range of the base
storage to the content of the buffer. Both access the base storage at aligned offsets with aligned
sizes only, also when they fail. -/
theorem alignmentMatching_read_write {dataAlignment bufferAlignment : ℕ}
    (hdata : dataAlignment.isPowerOfTwo) (_hbuffer : bufferAlignment.isPowerOfTwo)
    (refusal : Refusal) (base : BaseStorage) (offset : ℤ) (size address : ℕ)
    (buffer workBuf : Bytes) :
    (∀ b base', (AlignmentMatching.read refusal dataAlignment bufferAlignment offset address buffer
        workBuf size).run base = (.ok b, base') →
      (∀ i < size, b i = base.bytes (offset + i)) ∧ (∀ i, size ≤ i → b i = buffer i) ∧
        base'.bytes = base.bytes) ∧
    (∀ base', (AlignmentMatching.write refusal dataAlignment bufferAlignment offset address buffer
        workBuf size).run base = (.ok (), base') →
      ∀ o, base'.bytes o =
        if offset ≤ o ∧ o < offset + size then buffer (o - offset).toNat else base.bytes o) ∧
    (∀ a ∈ ((AlignmentMatching.read refusal dataAlignment bufferAlignment offset address buffer
        workBuf size).run base).2.accesses, a ∈ base.accesses ∨ a.Aligned dataAlignment) ∧
    ∀ a ∈ ((AlignmentMatching.write refusal dataAlignment bufferAlignment offset address buffer
        workBuf size).run base).2.accesses, a ∈ base.accesses ∨ a.Aligned dataAlignment := by
  have halign : 0 < dataAlignment := Nat.pos_of_isPowerOfTwo hdata
  have hread := @AlignmentMatching.read_spec refusal dataAlignment bufferAlignment base.accesses
    base.bytes offset buffer workBuf size address halign
  have hwrite := @AlignmentMatching.write_spec refusal dataAlignment bufferAlignment base.accesses
    base.bytes offset buffer workBuf size address halign
  have hbase : base.Holds dataAlignment base.accesses base.bytes := ⟨rfl, fun a ha => .inl ha⟩
  refine ⟨fun b base' hrun => ?_, fun base' hrun => ?_, ?_, ?_⟩
  · obtain ⟨hfilled, hholds⟩ := hread.of_ok hbase hrun
    exact ⟨fun i hi => hfilled.bytes_eq i (by omega) (by omega), hfilled.untouched, hholds.1⟩
  · have hholds := hwrite.of_ok hbase hrun
    rw [hholds.1]
    exact fun o => rfl
  · exact (hread.mono (fun _ hs => hs) (fun _ _ hs => hs.2.2) fun _ _ hs => hs).of_both hbase
  · exact (hwrite.mono (fun _ hs => hs) (fun _ _ hs => hs.2) fun _ _ hs => hs).of_both hbase

/-- The base storage that holds its offsets, and refuses nothing. -/
def countingBase : BaseStorage := ⟨fun o => BitVec.ofInt 8 o, []⟩

theorem alignmentMatching_read_write_counting : Nat.isPowerOfTwo 4 ∧
    ((AlignmentMatching.read (fun _ _ => none) 4 4 5 4098 (fun _ => 0) (fun _ => 0) 14).run
      countingBase).1.isOk ∧
    (∀ b base', (AlignmentMatching.read (fun _ _ => none) 4 4 5 4098 (fun _ => 0) (fun _ => 0)
        14).run countingBase = (.ok b, base') →
      (∀ i < 14, b i = BitVec.ofInt 8 (5 + i)) ∧ (∀ i, 14 ≤ i → b i = 0) ∧
        base'.bytes = countingBase.bytes) :=
  ⟨⟨2, rfl⟩, by decide +kernel, (alignmentMatching_read_write ⟨2, rfl⟩ ⟨2, rfl⟩ _ countingBase 5
    14 4098 _ _).1⟩

end Atmosphere.Fs
