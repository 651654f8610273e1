import Atmosphere.Fs.IntegrityVerification

/-!
# Reads of an integrity verification storage

A read that has reached the data returns, of every block, the stored bytes if they match the
stored hash and zeros otherwise; if the data or a signature cannot be read it returns only zeros.
-/

namespace Atmosphere.Fs

namespace IntegrityStorage

variable {s : IntegrityStorage} {hashAnswer dataAnswer : Answer} {i size : ℕ}

/-- The stored bytes. Behind the end of the data there is zero padding. -/
def dataByte (s : IntegrityStorage) : Bytes := fun i =>
  if (i : ℤ) < s.dataStorage.size then s.dataStorage.bytes i else 0

def dataBlock (s : IntegrityStorage) (index : ℕ) : List (BitVec 8) := s.block s.dataByte index

/-- The stored hash of a block. -/
def signature (s : IntegrityStorage) (index : ℕ) : BlockHash := .ofBytes s.hashStorage.bytes index

/-- What the verification says of a stored block. -/
def blockResult (s : IntegrityStorage) (index : ℕ) : FsOp Unit :=
  s.verifyHash (s.dataBlock index) (s.signature index)

/-- The blocks that do not make a read fail. -/
def Passes (s : IntegrityStorage) (index : ℕ) : Prop :=
  s.blockResult index = .ok () ∨
    s.blockResult index = .error .clearedRealDataVerificationFailed ∨ s.storageType = .authoring

theorem verificationBlockSize_pos (s : IntegrityStorage) : 0 < s.verificationBlockSize :=
  Nat.two_pow_pos _

/-- The bytes of the first blocks of an array of blocks. -/
theorem index_lt {k n : ℕ} (hk : k < n) (hi : i < size) : k * size + i < n * size := by
  calc k * size + i < (k + 1) * size := by rw [Nat.add_mul]; omega
    _ ≤ n * size := Nat.mul_le_mul_right _ hk

theorem index_div {k : ℕ} (hi : i < size) : (k * size + i) / size = k := by
  rw [Nat.mul_comm, Nat.mul_add_div (Nat.zero_lt_of_lt hi), Nat.div_eq_of_lt hi, Nat.add_zero]

/-- The bytes of some blocks of an array of blocks. -/
theorem mem_blocks_iff {first count k : ℕ} (hi : i < size) :
    first * size ≤ k * size + i ∧ k * size + i < first * size + count * size ↔
      first ≤ k ∧ k < first + count := by
  have hpos : 0 < size := Nat.zero_lt_of_lt hi
  rw [← Nat.add_mul, ← Nat.le_div_iff_mul_le hpos, ← Nat.div_lt_iff_lt_mul hpos, index_div hi]

/-! ### The verification of a block -/

theorem block_congr {b b' : Bytes} {k k' : ℕ} (h : ∀ i < s.verificationBlockSize,
      b (k * s.verificationBlockSize + i) = b' (k' * s.verificationBlockSize + i)) :
    s.block b k = s.block b' k' := by
  apply List.map_congr_left
  intro i hi
  exact h i (List.mem_range.mp hi)

variable {hash : BlockHash} {block : List (BitVec 8)}

theorem verifyHash_eq_ok (h : s.verifyHash block hash = .ok ()) :
    hash = s.calcBlockHash block := by
  obtain ⟨_, _, hrequire⟩ := bind_eq_ok.mp h
  by_contra hne
  rw [require_of_not hne] at hrequire
  cases hrequire

theorem verifyHash_eq_error {e : FsResult}
    (h : s.verifyHash block hash = .error e) : e.isIntegrityVerificationStorageCorrupted ∧
      (e = .clearedRealDataVerificationFailed → s.storageType = .saveData ∧ hash = .zero) := by
  rcases Fallible.bind_eq_error.mp h with hcleared | ⟨_, _, hrequire⟩
  · unfold checkCleared BlockHash.isCleared at hcleared
    split_ifs at hcleared with htype hbit hzero <;> cases hcleared
    · exact ⟨rfl, fun _ => ⟨htype, hzero⟩⟩
    · exact ⟨rfl, nofun⟩
  · unfold require at hrequire
    split_ifs at hrequire <;> cases hrequire <;> exact ⟨rfl, nofun⟩

/-! ### The loops -/

/-- The state of the verification of the blocks from `first` on, after the first `n` of them:
the blocks behind are as they were read. -/
structure Verified (s : IntegrityStorage) (first count n : ℕ) (verified : FsOp Unit × Bytes) :
    Prop where
  checked : ∀ k < n, ∀ i < s.verificationBlockSize, verified.2 (k * s.verificationBlockSize + i) =
      if s.blockResult (first + k) = .ok () then
        s.dataByte ((first + k) * s.verificationBlockSize + i) else 0
  loaded : ∀ k, n ≤ k → k < count → ∀ i < s.verificationBlockSize,
    verified.2 (k * s.verificationBlockSize + i) =
      s.dataByte ((first + k) * s.verificationBlockSize + i)
  result : verified.1 = .ok () ↔ ∀ k < n, s.Passes (first + k)

section Loops

variable {first count n : ℕ} {verified : FsOp Unit × Bytes}

/-- A block that matches stays as it is. -/
theorem Verified.keep (h : s.Verified first count n verified) (hn : n < count)
    (hresult : s.blockResult (first + n) = .ok ()) : s.Verified first count (n + 1) verified where
  checked := by
    intro k hk i hi
    rcases Nat.lt_succ_iff_lt_or_eq.mp hk with hk | rfl
    · exact h.checked k hk i hi
    · rw [if_pos hresult]
      exact h.loaded k (Nat.le_refl k) hn i hi
  loaded := fun k hk => h.loaded k (by omega)
  result := by
    rw [h.result, Nat.forall_lt_succ_right]
    exact ⟨fun hpasses => ⟨hpasses, .inl hresult⟩, And.left⟩

/-- The bytes of different blocks are different. -/
theorem notMem_block {k : ℕ} (hk : k ≠ n) (hi : i < size) :
    ¬ (n * size ≤ k * size + i ∧ k * size + i < n * size + size) := by
  intro h
  have hblock := (@mem_blocks_iff _ _ n 1 k hi).mp (by rwa [Nat.one_mul])
  omega

section

variable (h : s.Verified first count n verified)
include h

/-- A block that does not match is cleared. -/
theorem Verified.clear {result : FsOp Unit} (hresult : s.blockResult (first + n) ≠ .ok ())
    (hkept : result = .ok () ↔ verified.1 = .ok () ∧ s.Passes (first + n)) :
    s.Verified first count (n + 1)
      (result, verified.2.clear (n * s.verificationBlockSize) s.verificationBlockSize) where
  checked := by
    intro k hk i hi
    rcases Nat.lt_succ_iff_lt_or_eq.mp hk with hk | rfl
    · refine (Bytes.clear_of_notMem (notMem_block ?_ hi)).trans (h.checked k hk i hi)
      omega
    · rw [if_neg hresult]
      exact Bytes.clear_of_mem (by omega) (by omega)
  loaded := by
    intro k hk hcount i hi
    refine (Bytes.clear_of_notMem (notMem_block ?_ hi)).trans (h.loaded k ?_ hcount i hi)
    · omega
    · omega
  result := by
    rw [hkept, h.result, Nat.forall_lt_succ_right]

theorem Verified.verifyBlock (hn : n < count) :
    ∃ verified', s.verifyBlock (s.signature (first + n)) n verified = .ok verified' ∧
      s.Verified first count (n + 1) verified' := by
  obtain ⟨result, buffer⟩ := verified
  have hblock : s.verifyHash (s.block buffer n) (s.signature (first + n)) =
      s.blockResult (first + n) := by
    rw [show s.block buffer n = s.dataBlock (first + n) from
      block_congr (h.loaded n (Nat.le_refl n) hn)]
    rfl
  dsimp only [IntegrityStorage.verifyBlock]
  rw [hblock]
  cases hresult : s.blockResult (first + n) with
  | ok _ => exact ⟨_, rfl, h.keep hn hresult⟩
  | error e =>
    have hcorrupted := (verifyHash_eq_error hresult).1
    refine ⟨_, if_pos hcorrupted, h.clear (by rw [hresult]; nofun) ?_⟩
    unfold Passes
    rw [hresult]
    split_ifs with hkeep
    · simp [hkeep.1, hkeep.2]
    · simp only [ne_eq, not_and_or, not_not] at hkeep
      simp [hkeep]

theorem Verified.verifyBlocks {signatures : Bytes} {m : ℕ} (hm : n + m ≤ count)
    (hsignatures : ∀ i < m, BlockHash.ofBytes signatures i = s.signature (first + (n + i))) :
    ∃ verified', s.verifyBlocks signatures n m verified = .ok verified' ∧
      s.Verified first count (n + m) verified' := by
  induction m with
  | zero => exact ⟨verified, rfl, h⟩
  | succ m ih =>
    obtain ⟨verified₁, hprev, h₁⟩ :=
      ih (by omega) fun i hi => hsignatures i (by omega)
    obtain ⟨verified₂, hlast, h₂⟩ := h₁.verifyBlock (by omega)
    refine ⟨verified₂, (ok_bind hprev).trans ?_, h₂⟩
    rw [hsignatures m (by omega)]
    exact hlast

end

theorem signOffset_mul (s : IntegrityStorage) (k : ℕ) :
    s.signOffset (k * s.verificationBlockSize : ℕ) = (k * hashSize : ℕ) := by
  unfold signOffset
  rw [← Int.natCast_ediv, Nat.mul_div_cancel _ s.verificationBlockSize_pos]
  rfl

theorem signSize_mul (s : IntegrityStorage) (k : ℕ) :
    s.signSize (k * s.verificationBlockSize) = k * hashSize := by
  unfold signSize
  rw [Nat.mul_div_cancel _ s.verificationBlockSize_pos]

/-- The signatures that were read are the stored ones. -/
theorem ofBytes_readBlockSignature {buffer signatures : Bytes} {k m : ℕ}
    (h : s.readBlockSignature hashAnswer buffer (k * s.verificationBlockSize : ℕ)
      (m * s.verificationBlockSize) = .ok signatures) (hi : i < m) :
    BlockHash.ofBytes signatures i = s.signature (k + i) := by
  obtain ⟨_, hread⟩ := require_bind_eq_ok.mp h
  obtain ⟨_, _, hread⟩ := bind_eq_ok.mp hread
  rw [SubStorage.read_eq_ok hread, signOffset_mul, signSize_mul]
  apply Vector.ext
  intro j hj
  have hlt : i * hashSize + j < m * hashSize := index_lt hi hj
  simp only [signature, BlockHash.ofBytes, Vector.getElem_ofFn]
  rw [Bytes.write_of_mem (by omega) (by omega), Bytes.drop, Nat.add_mul]
  congr 1
  omega

/-- The loop over the signatures ends with every block verified, or with the result of a read of
signatures that failed. -/
theorem Verified.verifySignatures (h : s.Verified first count n verified) (hashAnswer : Answer)
    (buffer : Bytes) {bufferCount rounds : ℕ} (hn : n ≤ count) (hbuffer : 0 < bufferCount)
    (hrounds : count ≤ n + rounds) {outcome : FsOp (FsOp Unit × Bytes)}
    (houtcome : s.verifySignatures hashAnswer buffer (first * s.verificationBlockSize : ℕ) count
      bufferCount rounds n verified = outcome) :
    (∃ verified', outcome = .ok verified' ∧ s.Verified first count count verified') ∨
    ∃ e k m, k + m ≤ count ∧
      s.readBlockSignature hashAnswer buffer ((first + k) * s.verificationBlockSize : ℕ)
        (m * s.verificationBlockSize) = .error e ∧ outcome = .error e := by
  induction rounds generalizing n verified with
  | zero =>
    obtain rfl : n = count := by omega
    exact .inl ⟨verified, houtcome.symm, h⟩
  | succ rounds ih =>
    by_cases hlt : n < count
    · set m := min bufferCount (count - n) with hm
      have hoffset : ((first * s.verificationBlockSize : ℕ) : ℤ) + n * s.verificationBlockSize =
          ((first + n) * s.verificationBlockSize : ℕ) := by
        rw [Nat.add_mul]
        rfl
      unfold IntegrityStorage.verifySignatures at houtcome
      rw [if_pos hlt] at houtcome
      dsimp only at houtcome
      rw [← hm, hoffset] at houtcome
      cases hread : s.readBlockSignature hashAnswer buffer
          ((first + n) * s.verificationBlockSize : ℕ) (m * s.verificationBlockSize) with
      | error e =>
        rw [hread] at houtcome
        exact .inr ⟨e, n, m, by omega, hread, houtcome.symm⟩
      | ok signatures =>
        obtain ⟨verified₁, hblocks, h₁⟩ := h.verifyBlocks (m := m) (by omega) fun i hi => by
          rw [← Nat.add_assoc]
          exact ofBytes_readBlockSignature hread hi
        rw [hread] at houtcome
        exact ih h₁ (by omega) (by omega) ((ok_bind hblocks).symm.trans houtcome)
    · obtain rfl : n = count := by omega
      exact .inl ⟨verified, houtcome.symm.trans (if_neg hlt), h⟩

end Loops

/-! ### Read -/

section Read

variable {first count : ℕ} {buffer loaded : Bytes} {pool : PooledBuffer} {address : ℕ}

/-- Before the first round no block is verified. -/
theorem Verified.start (h : ∀ i < count * s.verificationBlockSize,
    loaded i = s.dataByte (first * s.verificationBlockSize + i)) :
    s.Verified first count 0 (.ok (), loaded) where
  checked := fun k hk => absurd hk (Nat.not_lt_zero k)
  loaded := by
    intro k _ hk i hi
    refine (h _ (index_lt hk hi)).trans ?_
    rw [Nat.add_mul, Nat.add_assoc]
  result := ⟨fun _ k hk => absurd hk (Nat.not_lt_zero k), fun _ => rfl⟩

/-- Something that a read needs cannot be read: the data, or some of its signatures. -/
def Unreadable (s : IntegrityStorage) (hashAnswer dataAnswer : Answer) (signatureBuffer : Bytes)
    (first count : ℕ) : Prop :=
  (∃ size, dataAnswer (first * s.verificationBlockSize : ℕ) size ≠ .ok ()) ∨
    ∃ k m, k + m ≤ count ∧ ∀ signatures,
      s.readBlockSignature hashAnswer signatureBuffer ((first + k) * s.verificationBlockSize : ℕ)
        (m * s.verificationBlockSize) ≠ .ok signatures

section

variable (hcheck : s.checkRead address (first * s.verificationBlockSize : ℕ)
  (count * s.verificationBlockSize) = .ok ())
include hcheck

/-- What the checks of the arguments say of a range of whole blocks. -/
theorem of_checkRead : (first * s.verificationBlockSize : ℤ) ≤ s.dataStorage.size ∧
      (first * s.verificationBlockSize + count * s.verificationBlockSize : ℤ) ≤
        alignUp s.dataStorage.size s.verificationBlockSize := by
  obtain ⟨_, hcheck⟩ := require_bind_eq_ok.mp hcheck
  obtain ⟨hoffset, hcheck⟩ := require_bind_eq_ok.mp hcheck
  unfold require checkAccessRange at hcheck
  split_ifs at hcheck with hrange
  simp only [Bool.and_eq_true, decide_eq_true_eq] at hrange
  omega

/-- After the data was read the buffer holds the stored bytes and the padding. -/
theorem readData_readExtents {readSize : ℕ} {padded : Bytes}
    (hextents : s.readExtents (first * s.verificationBlockSize : ℕ) buffer
      (count * s.verificationBlockSize) = (readSize, padded))
    (hread : s.readData dataAnswer (first * s.verificationBlockSize : ℕ) padded readSize =
      .ok loaded) :
    ∀ i < count * s.verificationBlockSize,
      loaded i = s.dataByte (first * s.verificationBlockSize + i) := by
  intro i hi
  obtain ⟨hoffset, hrange⟩ := of_checkRead hcheck
  obtain ⟨_, _, hread⟩ := bind_eq_ok.mp hread
  rw [SubStorage.read_eq_ok hread]
  have hup := @alignUp_le s.dataStorage.size _ s.verificationBlockSize_pos
  unfold alignDown at hup
  unfold readExtents at hextents
  unfold dataByte
  split_ifs at hextents with hend <;> cases hextents <;> push_cast at hend
  · by_cases hmem : i < (s.dataStorage.size - (first * s.verificationBlockSize : ℕ)).toNat
    · rw [Bytes.write_of_mem (by omega) (by omega), if_pos (by push_cast at hmem ⊢; omega)]
      rfl
    · have hmod : (s.dataStorage.size - (first * s.verificationBlockSize : ℕ)) %
          s.verificationBlockSize = s.dataStorage.size % s.verificationBlockSize := by
        push_cast
        exact Int.sub_mul_emod_self_right _ _ _
      rw [Bytes.write_of_notMem (by push_cast; omega), hmod,
        Bytes.clear_of_mem (by push_cast; omega) (by push_cast; omega),
        if_neg (by push_cast; omega)]
  · rw [Bytes.write_of_mem (by omega) (by omega), if_pos (by push_cast; omega)]
    rfl

/-- A read that has passed its checks verifies every block, or something cannot be read and it
returns zeros. -/
theorem read_outcome (hpool : hashSize ≤ pool.size) {outcome : FsOp Unit × Bytes}
    (houtcome : s.read hashAnswer dataAnswer pool address (first * s.verificationBlockSize : ℕ)
      buffer (count * s.verificationBlockSize) = outcome) :
    s.Verified first count count outcome ∨
      s.Unreadable hashAnswer dataAnswer pool.buffer first count ∧ outcome.1 ≠ .ok () ∧
        ∀ i < count * s.verificationBlockSize, outcome.2 i = 0 := by
  have hpos := s.verificationBlockSize_pos
  obtain ⟨hoffset, hrange⟩ := of_checkRead hcheck
  unfold read at houtcome
  split_ifs at houtcome with hsize
  · obtain rfl : count = 0 := by
      rcases Nat.mul_eq_zero.mp hsize with h | h
      · exact h
      · omega
    subst houtcome
    exact .inl (Verified.start fun i hi => by omega)
  have hcount : 0 < count := Nat.pos_of_ne_zero fun h => hsize (by rw [h, Nat.zero_mul])
  rw [hcheck] at houtcome
  dsimp only at houtcome
  cases hextents : s.readExtents (first * s.verificationBlockSize : ℕ) buffer
      (count * s.verificationBlockSize) with
  | mk readSize padded =>
  rw [hextents] at houtcome
  cases hread : s.readData dataAnswer (first * s.verificationBlockSize : ℕ) padded readSize with
  | error e =>
    rw [hread] at houtcome
    subst houtcome
    refine .inr ⟨.inl ⟨readSize, fun hanswer => ?_⟩, nofun, fun i hi =>
      Bytes.clear_of_mem (by omega) (by omega)⟩
    have hle : ((first * s.verificationBlockSize : ℕ) : ℤ) + readSize ≤ s.dataStorage.size := by
      unfold readExtents at hextents
      split_ifs at hextents with hend <;> cases hextents <;> omega
    have hloaded := @SubStorage.read_of_le _ padded 0 _ _ hle
    cases hread.symm.trans ((ok_bind hanswer).trans hloaded)
  | ok loaded =>
    rw [hread] at houtcome
    dsimp only [verify] at houtcome
    rw [Nat.mul_div_cancel _ hpos] at houtcome
    have hstart := Verified.start (readData_readExtents hcheck hextents hread)
    have hbuffer : 0 < min count (pool.size / hashSize) :=
      Nat.lt_min.mpr ⟨hcount, Nat.div_pos hpool (by decide)⟩
    rcases hstart.verifySignatures hashAnswer pool.buffer
      (Nat.zero_le _) hbuffer (Nat.le_of_eq (Nat.zero_add count).symm) rfl with
      ⟨verified, hverified, h⟩ | ⟨e, k, m, hkm, hfailed, hverified⟩
    · rw [hverified] at houtcome
      subst houtcome
      exact .inl h
    · rw [hverified] at houtcome
      subst houtcome
      refine .inr ⟨.inr ⟨k, m, hkm, fun signatures => ?_⟩, nofun, fun i hi =>
        Bytes.clear_of_mem (by omega) (by omega)⟩
      rw [hfailed]
      nofun

end

/-- Of a range of whole blocks that a read has accepted, it returns every block with zeros only,
or with the stored bytes, and then they match the stored hash. Unless the storage is for authoring,
it succeeds only if every block matched its hash or was cleared save data. -/
theorem integrityStorage_read (s : IntegrityStorage) (hashAnswer dataAnswer : Answer)
    (pool : PooledBuffer) (hpool : hashSize ≤ pool.size) (address first count : ℕ) (buffer : Bytes)
    (hcheck : s.checkRead address (first * s.verificationBlockSize : ℕ)
      (count * s.verificationBlockSize) = .ok ())
    (result : FsOp Unit) (output : Bytes)
    (hread : s.read hashAnswer dataAnswer pool address (first * s.verificationBlockSize : ℕ) buffer
      (count * s.verificationBlockSize) = (result, output)) :
    (∀ k < count, (∀ i < s.verificationBlockSize, output (k * s.verificationBlockSize + i) = 0) ∨
      (∀ i < s.verificationBlockSize, output (k * s.verificationBlockSize + i) =
        s.dataByte ((first + k) * s.verificationBlockSize + i)) ∧
      s.signature (first + k) = s.calcBlockHash (s.dataBlock (first + k))) ∧
    (s.storageType ≠ .authoring → result = .ok () → ∀ k < count,
      s.signature (first + k) = s.calcBlockHash (s.dataBlock (first + k)) ∨
      s.storageType = .saveData ∧ s.signature (first + k) = .zero) := by
  rcases read_outcome hcheck hpool hread with h | ⟨_, hfailed, hzero⟩
  · constructor
    · intro k hk
      by_cases hresult : s.blockResult (first + k) = .ok ()
      · refine .inr ⟨fun i hi => ?_, verifyHash_eq_ok hresult⟩
        exact (h.checked k hk i hi).trans (if_pos hresult)
      · exact .inl fun i hi => (h.checked k hk i hi).trans (if_neg hresult)
    · intro htype hok k hk
      rcases h.result.mp hok k hk with hresult | hresult | hauthoring
      · exact .inl (verifyHash_eq_ok hresult)
      · exact .inr ((verifyHash_eq_error hresult).2 rfl)
      · exact absurd hauthoring htype
  · constructor
    · intro k hk
      exact .inl fun i hi => hzero _ (index_lt hk hi)
    · intro _ hok
      exact absurd hok hfailed

/-- A generator that adds the bytes, and two blocks of save data of which the second one was
changed. -/
def tampered : IntegrityStorage where
  hashStorage := ⟨fun i => if i = 31 then 0x80 else if i < 32 then 0 else 0x80, 64⟩
  dataStorage := ⟨fun i => if i < 32 then 0 else 1, 64⟩
  verificationBlockOrder := 5
  upperLayerVerificationBlockOrder := 5
  generator := fun bytes => Vector.replicate _ (bytes.foldl (· + ·) 0)
  salt := []
  isRealData := true
  storageType := .saveData

/-- The changed block is cleared and the read fails. -/
theorem integrityStorage_read_tampered :
    ∃ result output, tampered.read (fun _ _ => .ok ()) (fun _ _ => .ok ()) ⟨fun _ => 0, 32⟩ 1 0
        (fun _ => 0xFF) 64 = (result, output) ∧
      result = .error .unclearedRealDataVerificationFailed ∧
      ∀ i < 32, output (1 * 32 + i) = 0 := by
  have hbad : ¬ tampered.signature 1 = tampered.calcBlockHash (tampered.dataBlock 1) := by
    decide +kernel
  have h := (integrityStorage_read tampered (fun _ _ => .ok ()) (fun _ _ => .ok ())
    ⟨fun _ => 0, 32⟩ (by decide) 1 0 2 (fun _ => 0xFF) (by decide +kernel) _ _ rfl).1 1 (by decide)
  refine ⟨_, _, rfl, by decide +kernel, ?_⟩
  rcases h with hzero | ⟨_, hmatch⟩
  · exact hzero
  · exact absurd hmatch hbad

end Read

end IntegrityStorage

end Atmosphere.Fs
