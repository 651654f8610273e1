import Atmosphere.Fs.IntegrityWrite

/-!
# Runs of an integrity verification storage

After a run of writes and of `FillZero` operations, a read of blocks that were covered returns what
the last operation on each of them left.

This needs that no `FillZero` covers a block of which the data storage has only a part. Such a block
keeps its hash and its data although the operation succeeds.
-/

namespace Atmosphere.Fs

/-- The operations on whole blocks that change an integrity verification storage. -/
inductive IntegrityOp
  | write (hashAnswer dataAnswer : Answer) (poolSize address first : ℕ) (buffer : Bytes) (count : ℕ)
  | fillZero (hashAnswer : Answer) (allocated : Bool) (first count : ℕ)

namespace IntegrityOp

def first : IntegrityOp → ℕ
  | write _ _ _ _ first _ _ => first
  | fillZero _ _ first _ => first

def count : IntegrityOp → ℕ
  | write _ _ _ _ _ _ count => count
  | fillZero _ _ _ count => count

def Covers (op : IntegrityOp) (k : ℕ) : Prop := op.first ≤ k ∧ k < op.first + op.count

instance (op : IntegrityOp) (k : ℕ) : Decidable (op.Covers k) :=
  inferInstanceAs (Decidable (_ ∧ _))

/-- The byte that an operation gives to a block that it covers. -/
def byte (blockSize : ℕ) : IntegrityOp → ℕ → ℕ → BitVec 8
  | write _ _ _ _ first buffer _, k, i => buffer ((k - first) * blockSize + i)
  | fillZero .., _, _ => 0

/-- The byte that the last of some operations gives to a block, the last operation being the first
of the list. -/
def lastByte (blockSize : ℕ) : List IntegrityOp → ℕ → ℕ → Option (BitVec 8)
  | [], _, _ => none
  | op :: ops, k, i =>
    if op.Covers k then some (op.byte blockSize k i) else lastByte blockSize ops k i

end IntegrityOp

namespace IntegrityStorage

variable {s s' : IntegrityStorage} {hashAnswer dataAnswer : Answer} {first count k : ℕ}

def apply (s : IntegrityStorage) : IntegrityOp → FsOp Unit × IntegrityStorage
  | .write hashAnswer dataAnswer poolSize address first buffer count =>
    s.write hashAnswer dataAnswer poolSize address (first * s.verificationBlockSize : ℕ) buffer
      (count * s.verificationBlockSize)
  | .fillZero hashAnswer allocated first count =>
    s.fillZero hashAnswer allocated (first * s.verificationBlockSize : ℕ)
      (count * s.verificationBlockSize)

/-- The buffer of the pool has room for a hash, and the padding behind the data is zero. -/
def Admits (s : IntegrityStorage) : IntegrityOp → Prop
  | .write _ _ poolSize _ first buffer count => hashSize ≤ poolSize ∧
      ∀ i < count * s.verificationBlockSize,
        s.dataStorage.size ≤ ((first * s.verificationBlockSize + i : ℕ) : ℤ) → buffer i = 0
  | .fillZero .. => True

/-- A `FillZero` does not cover a block of which the data storage has only a part. -/
def FillsWholeBlocks (s : IntegrityStorage) : IntegrityOp → Prop
  | .write .. => True
  | .fillZero _ _ first count => (s.verificationBlockSize : ℤ) ∣ s.dataStorage.size ∨
      (((first + count) * s.verificationBlockSize : ℕ) : ℤ) ≤ s.dataStorage.size

/-- Runs of successful operations, the last one first. -/
inductive Run (s : IntegrityStorage) : List IntegrityOp → IntegrityStorage → Prop
  | nil : Run s [] s
  | cons {ops : List IntegrityOp} {op : IntegrityOp} {s' s'' : IntegrityStorage} :
      Run s ops s' → s'.Admits op → s'.apply op = (.ok (), s'') → Run s (op :: ops) s''

/-- What a read of a block needs in order to return some bytes: their hash, or a cleared one. -/
structure Keeps (s : IntegrityStorage) (k : ℕ) (bytes : ℕ → Option (BitVec 8)) : Prop where
  range : ((k + 1) * hashSize : ℕ) ≤ s.hashStorage.size
  bytes_eq : s.signature k = s.calcBlockHash (s.dataBlock k) ∧ (∀ i < s.verificationBlockSize,
      bytes i = some (s.dataByte (k * s.verificationBlockSize + i))) ∨
    s.signature k = .zero ∧ ∀ i < s.verificationBlockSize, bytes i = some 0

/-- A block is kept if its hash and its bytes are. -/
theorem Keeps.congr {h d h' d' : Bytes} {bytes bytes' : ℕ → Option (BitVec 8)}
    (hkeeps : (s.withBytes h d).Keeps k bytes)
    (hsignature : BlockHash.ofBytes h' k = BlockHash.ofBytes h k)
    (hdata : ∀ i < s.verificationBlockSize,
      (s.withBytes h' d').dataByte (k * s.verificationBlockSize + i) =
        (s.withBytes h d).dataByte (k * s.verificationBlockSize + i))
    (hbytes : ∀ i, bytes' i = bytes i) : (s.withBytes h' d').Keeps k bytes' where
  range := hkeeps.range
  bytes_eq := by
    have hblock : (s.withBytes h' d').dataBlock k = (s.withBytes h d).dataBlock k :=
      block_congr hdata
    rcases hkeeps.bytes_eq with ⟨hmatch, heq⟩ | ⟨hzero, heq⟩
    · refine .inl ⟨?_, fun i hi => ?_⟩
      · rw [hblock]
        exact hsignature.trans hmatch
      · rw [hbytes, heq i hi]
        exact congrArg some (hdata i hi).symm
    · refine .inr ⟨hsignature.trans hzero, fun i hi => ?_⟩
      rw [hbytes, heq i hi]

/-- Every stored block that some operations cover is kept. -/
def KeepsAll (s : IntegrityStorage) (ops : List IntegrityOp) : Prop :=
  ∀ k, ((k * s.verificationBlockSize : ℕ) : ℤ) < s.dataStorage.size → (∃ op ∈ ops, op.Covers k) →
    s.Keeps k (IntegrityOp.lastByte s.verificationBlockSize ops k)

section Step

variable {h d h' d' : Bytes} {op : IntegrityOp} {ops : List IntegrityOp}

section

variable (hkeeps : (s.withBytes h d).KeepsAll ops)
include hkeeps

/-- An operation has to keep the blocks that it covers; the others have to stay as they are. -/
theorem KeepsAll.cons
    (hcovered : ∀ k, ((k * s.verificationBlockSize : ℕ) : ℤ) < s.dataStorage.size → op.Covers k →
      (s.withBytes h' d').Keeps k fun i => some (op.byte s.verificationBlockSize k i))
    (hother : ∀ k, ¬ op.Covers k → BlockHash.ofBytes h' k = BlockHash.ofBytes h k ∧
      ∀ i < s.verificationBlockSize,
        (s.withBytes h' d').dataByte (k * s.verificationBlockSize + i) =
          (s.withBytes h d).dataByte (k * s.verificationBlockSize + i)) :
    (s.withBytes h' d').KeepsAll (op :: ops) := by
  intro k hstored hcovers
  by_cases hop : op.Covers k
  · have hlast : IntegrityOp.lastByte s.verificationBlockSize (op :: ops) k =
        fun i => some (op.byte s.verificationBlockSize k i) := funext fun i => if_pos hop
    rw [verificationBlockSize_withBytes, hlast]
    exact hcovered k hstored hop
  · obtain ⟨op', hmem, hop'⟩ := hcovers
    have hold : ∃ op ∈ ops, op.Covers k := by
      rcases List.mem_cons.mp hmem with rfl | hmem
      · exact absurd hop' hop
      · exact ⟨op', hmem, hop'⟩
    obtain ⟨hsignature, hdata⟩ := hother k hop
    exact (hkeeps k hstored hold).congr hsignature hdata fun i => if_neg hop

/-- A step of a run: what the operations before have left is kept. -/
theorem KeepsAll.apply (hadmits : (s.withBytes h d).Admits op) (hwhole : s.FillsWholeBlocks op)
    (happly : (s.withBytes h d).apply op = (.ok (), s')) :
    ∃ h' d', s' = s.withBytes h' d' ∧ s'.KeepsAll (op :: ops) := by
  cases op with
  | write hashAnswer dataAnswer poolSize address first buffer count =>
    obtain ⟨h', d', rfl, hrange, hsignature, hdata⟩ :=
      write_eq_ok (s := s) (h := h) (d := d) hadmits.1 hadmits.2 happly
    refine ⟨h', d', rfl, hkeeps.cons (fun k hstored hk => ?_) fun k hk => ?_⟩
    · obtain ⟨hfirst, hlt⟩ : first ≤ k ∧ k < first + count := hk
      have hbytes : ∀ i < s.verificationBlockSize,
          (s.withBytes h' d').dataByte (k * s.verificationBlockSize + i) =
            buffer ((k - first) * s.verificationBlockSize + i) := by
        intro i hi
        rw [hdata, if_pos ((mem_blocks_iff hi).mpr ⟨hfirst, hlt⟩), Nat.sub_mul]
        have := Nat.mul_le_mul_right s.verificationBlockSize hfirst
        congr 1
        omega
      refine ⟨?_, .inl ⟨?_, fun i hi => congrArg some (hbytes i hi).symm⟩⟩
      · have hle := Nat.mul_le_mul_right hashSize (show k + 1 ≤ first + count by omega)
        simp only [size_hashStorage_withBytes]
        omega
      · have hblock : (s.withBytes h' d').dataBlock k = s.block buffer (k - first) :=
          block_congr hbytes
        rw [hblock]
        exact (hsignature k).trans (if_pos ⟨hfirst, hlt⟩)
    · refine ⟨(hsignature k).trans (if_neg hk), fun i hi => ?_⟩
      exact (hdata _).trans (if_neg (mt (mem_blocks_iff hi).mp hk))
  | fillZero hashAnswer allocated first count =>
    obtain ⟨rfl, hrange⟩ := fillZero_eq_ok (s := s) (h := h) (d := d) happly
    refine ⟨_, d, rfl, hkeeps.cons (fun k hstored hk => ?_) fun k hk => ⟨?_, fun _ _ => rfl⟩⟩
    · obtain ⟨hfirst, hlt⟩ : first ≤ k ∧ k < first + count := hk
      have hblock : (((k + 1) * s.verificationBlockSize : ℕ) : ℤ) ≤ s.dataStorage.size := by
        rcases hwhole with ⟨blocks, hblocks⟩ | hle
        · rw [hblocks, Nat.mul_comm] at hstored
          push_cast at hstored
          have := Int.lt_of_mul_lt_mul_left hstored (by omega)
          rw [hblocks, Nat.mul_comm]
          push_cast
          exact Int.mul_le_mul_of_nonneg_left (by omega) (by omega)
        · have := Nat.mul_le_mul_right s.verificationBlockSize (show k + 1 ≤ first + count by omega)
          omega
      have hcleared := lt_fillCount hfirst hlt hblock
      refine ⟨?_, .inr ⟨?_, fun _ _ => rfl⟩⟩
      · have hle := Nat.mul_le_mul_right hashSize
          (show k + 1 ≤ first + s.fillCount first count by omega)
        simp only [size_hashStorage_withBytes]
        omega
      · change BlockHash.ofBytes (h.write _ _ fun _ => 0) k = _
        rw [ofBytes_write_of_mem hfirst hcleared]
        apply Vector.ext
        intro i hi
        simp only [BlockHash.ofBytes, BlockHash.zero, Vector.getElem_ofFn,
          Vector.getElem_replicate]
    · refine ofBytes_write_of_notMem fun hmem => hk ?_
      have := s.fillCount_le first count
      exact ⟨hmem.1, by change k < first + count; omega⟩

end

/-- A whole run. -/
theorem Run.keepsAll (hrun : s.Run ops s') (hwhole : ∀ op ∈ ops, s.FillsWholeBlocks op) :
    ∃ h d, s' = s.withBytes h d ∧ s'.KeepsAll ops := by
  induction hrun with
  | nil => exact ⟨_, _, (withBytes_self s).symm, fun k _ ⟨_, hmem, _⟩ => by cases hmem⟩
  | cons _ hadmits happly ih =>
    obtain ⟨h, d, rfl, hkeeps⟩ := ih fun op hop => hwhole op (.tail _ hop)
    exact hkeeps.apply hadmits (hwhole _ (.head _)) happly

end Step

/-! ### Reading back -/

theorem isValidationBit_setValidationBit (hash : BlockHash) :
    hash.setValidationBit.isValidationBit = true := by
  have hbit (x : BitVec 8) : (x ||| 0x80) &&& 0x80 = 0x80 := by
    apply BitVec.eq_of_getElem_eq
    intro i hi
    rw [BitVec.getElem_and, BitVec.getElem_or]
    cases x[i] <;> simp
  have hget : hash.setValidationBit.get ⟨hashSize - 1, by decide⟩ =
      hash.get ⟨hashSize - 1, by decide⟩ ||| 0x80 := Vector.getElem_set_self _
  unfold BlockHash.isValidationBit
  rw [hget, hbit]
  decide

/-- The read of a block that is kept. -/
theorem Keeps.passes {bytes : ℕ → Option (BitVec 8)} (hkeeps : s.Keeps k bytes)
    (htype : s.storageType = .saveData) :
    s.Passes k ∧ ∀ i < s.verificationBlockSize, bytes i = some (if s.blockResult k = .ok () then
      s.dataByte (k * s.verificationBlockSize + i) else 0) := by
  rcases hkeeps.bytes_eq with ⟨hmatch, hbytes⟩ | ⟨hzero, hbytes⟩
  · have hresult : s.blockResult k = .ok () := by
      have hbit : (s.calcBlockHash (s.dataBlock k)).isValidationBit = true := by
        unfold calcBlockHash
        rw [if_pos htype]
        exact isValidationBit_setValidationBit _
      have hcleared : s.checkCleared (s.calcBlockHash (s.dataBlock k)) = .ok () := by
        unfold checkCleared BlockHash.isCleared
        rw [if_pos htype, if_pos hbit]
        rfl
      unfold blockResult verifyHash
      rw [hmatch]
      exact (ok_bind hcleared).trans (require_of rfl)
    refine ⟨.inl hresult, fun i hi => ?_⟩
    rw [if_pos hresult]
    exact hbytes i hi
  · have hresult : s.blockResult k = .error .clearedRealDataVerificationFailed := by
      unfold blockResult verifyHash checkCleared
      rw [if_pos htype, hzero]
      rfl
    refine ⟨.inr (.inl hresult), fun i hi => ?_⟩
    rw [if_neg (by rw [hresult]; nofun)]
    exact hbytes i hi

/-- The signatures of blocks that are kept can be read. -/
theorem readable_of_range {signatureBuffer : Bytes}
    (hrange : ((first + count) * hashSize : ℕ) ≤ s.hashStorage.size) :
    ¬ s.Unreadable (fun _ _ => .ok ()) (fun _ _ => .ok ()) signatureBuffer first count := by
  rintro (⟨_, hanswer⟩ | ⟨k, m, hkm, hread⟩)
  · exact hanswer rfl
  · have hle := Nat.mul_le_mul_right hashSize (show first + k + m ≤ first + count by omega)
    rw [Nat.add_mul] at hle
    have hrange' : (((first + k) * hashSize : ℕ) : ℤ) + (m * hashSize : ℕ) ≤
        s.hashStorage.size := by omega
    apply hread
    unfold readBlockSignature
    rw [signOffset_mul, signSize_mul]
    exact (require_bind hrange').trans (SubStorage.read_of_le hrange')

/-- After a run of successful writes and `FillZero` operations on save data, none of which fills
a block that is stored in part, a read of covered blocks returns what the last operation on each
of them left. -/
theorem integrityStorage_run (s s' : IntegrityStorage) (ops : List IntegrityOp)
    (htype : s.storageType = .saveData) (hrun : s.Run ops s')
    (hwhole : ∀ op ∈ ops, s.FillsWholeBlocks op) (pool : PooledBuffer)
    (hpool : hashSize ≤ pool.size) (address first count : ℕ) (buffer : Bytes)
    (hcheck : s'.checkRead address (first * s'.verificationBlockSize : ℕ)
      (count * s'.verificationBlockSize) = .ok ())
    (hcovered : ∀ k < count, ∃ op ∈ ops, op.Covers (first + k)) :
    ∃ output, s'.read (fun _ _ => .ok ()) (fun _ _ => .ok ()) pool address
        (first * s'.verificationBlockSize : ℕ) buffer (count * s'.verificationBlockSize) =
          (.ok (), output) ∧
      ∀ k < count, ∀ i < s'.verificationBlockSize,
        IntegrityOp.lastByte s'.verificationBlockSize ops (first + k) i =
          some (output (k * s'.verificationBlockSize + i)) := by
  obtain ⟨h, d, rfl, hkeeps⟩ := hrun.keepsAll hwhole
  set t := s.withBytes h d with ht
  rcases Nat.eq_zero_or_pos count with rfl | hcount
  · refine ⟨buffer, ?_, fun k hk => absurd hk (Nat.not_lt_zero k)⟩
    rw [Nat.zero_mul]
    rfl
  have hstored : ∀ k < count,
      (((first + k) * t.verificationBlockSize : ℕ) : ℤ) < t.dataStorage.size := by
    intro k hk
    have hrange := (of_checkRead hcheck).2
    have hup := @alignUp_lt t.dataStorage.size _ t.verificationBlockSize_pos
    have hle := Nat.mul_le_mul_right t.verificationBlockSize
      (show first + k + 1 ≤ first + count by omega)
    rw [Nat.succ_mul, Nat.add_mul first count] at hle
    omega
  have hkept : ∀ k < count, t.Keeps (first + k)
      (IntegrityOp.lastByte t.verificationBlockSize ops (first + k)) := fun k hk =>
    hkeeps _ (hstored k hk) (hcovered k hk)
  have hrange : ((first + count) * hashSize : ℕ) ≤ t.hashStorage.size := by
    have hlast := (hkept (count - 1) (by omega)).range
    rwa [show first + (count - 1) + 1 = first + count by omega] at hlast
  rcases read_outcome hcheck hpool rfl with hverified | ⟨hunreadable, _⟩
  · have hpasses : ∀ k < count, t.Passes (first + k) := fun k hk =>
      ((hkept k hk).passes htype).1
    refine ⟨_, Prod.ext (hverified.result.mpr hpasses) rfl, fun k hk i hi => ?_⟩
    exact (((hkept k hk).passes htype).2 i hi).trans
      (congrArg some (hverified.checked k hk i hi).symm)
  · exact absurd hunreadable (readable_of_range hrange)

/-- Save data of one and a half blocks, with a generator that adds the bytes. -/
def halfBlock : IntegrityStorage where
  hashStorage := ⟨fun _ => 0, 64⟩
  dataStorage := ⟨fun _ => 0, 48⟩
  verificationBlockOrder := 5
  upperLayerVerificationBlockOrder := 5
  generator := fun bytes => Vector.replicate _ (bytes.foldl (· + ·) 0)
  salt := []
  isRealData := true
  storageType := .saveData

/-- A write of everything that is stored. -/
def writeAll : IntegrityOp :=
  .write (fun _ _ => .ok ()) (fun _ _ => .ok ()) 64 1 0 (fun i => if i < 48 then 0xAA else 0) 2

/-- `FillZero` of the first blocks. -/
def fillFirst (count : ℕ) : IntegrityOp := .fillZero (fun _ _ => .ok ()) true 0 count

theorem run_halfBlock (count : ℕ)
    (hfill : ((halfBlock.apply writeAll).2.apply (fillFirst count)).1 = .ok ()) :
    halfBlock.Run [fillFirst count, writeAll]
      ((halfBlock.apply writeAll).2.apply (fillFirst count)).2 := by
  have hwrite : (halfBlock.apply writeAll).1 = .ok () := by decide +kernel
  refine .cons (.cons .nil ⟨by decide, fun i hi hstored => ?_⟩ (Prod.ext hwrite rfl)) trivial
    (Prod.ext hfill rfl)
  change (48 : ℤ) ≤ ((0 * 32 + i : ℕ) : ℤ) at hstored
  exact if_neg (by omega)

/-- The block that was filled with zeros and the one that was not are read back. -/
theorem integrityStorage_run_halfBlock :
    ∃ output, ((halfBlock.apply writeAll).2.apply (fillFirst 1)).2.read (fun _ _ => .ok ())
        (fun _ _ => .ok ()) ⟨fun _ => 0, 32⟩ 1 0 (fun _ => 0xFF) 64 = (.ok (), output) ∧
      output 0 = 0 ∧ output 32 = 0xAA := by
  obtain ⟨output, hread, hbytes⟩ := integrityStorage_run halfBlock _ _ rfl
    (run_halfBlock 1 (by decide +kernel)) (by
      intro op hop
      rcases List.mem_cons.mp hop with rfl | hop
      · exact .inr (by decide)
      · rw [List.mem_singleton.mp hop]
        trivial)
    ⟨fun _ => 0, 32⟩ (by decide) 1 0 2 (fun _ => 0xFF) (by decide +kernel) (by
      intro k hk
      exact ⟨writeAll, by simp, ⟨Nat.zero_le _, by change 0 + k < 0 + 2; omega⟩⟩)
  refine ⟨output, hread, ?_, ?_⟩
  · exact (Option.some.inj (hbytes 0 (by decide) 0 (by decide))).symm
  · exact (Option.some.inj (hbytes 1 (by decide) 0 (by decide))).symm

/-- `FillZero` of both blocks succeeds, and a read of both blocks succeeds with the old bytes of the
second one. -/
theorem fillZero_keeps_halfBlock : halfBlock.Run [fillFirst 2, writeAll]
      ((halfBlock.apply writeAll).2.apply (fillFirst 2)).2 ∧
    ∃ output, ((halfBlock.apply writeAll).2.apply (fillFirst 2)).2.read (fun _ _ => .ok ())
        (fun _ _ => .ok ()) ⟨fun _ => 0, 64⟩ 1 0 (fun _ => 0xFF) 64 = (.ok (), output) ∧
      IntegrityOp.lastByte 32 [fillFirst 2, writeAll] 1 0 = some 0 ∧ output 32 = 0xAA := by
  refine ⟨run_halfBlock 2 (by decide +kernel), _, Prod.ext (by decide +kernel) rfl, rfl, ?_⟩
  decide +kernel

end IntegrityStorage

end Atmosphere.Fs
