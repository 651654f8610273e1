import Atmosphere.Fs.IntegrityRead

/-!
# Writes of an integrity verification storage

The operations change only the bytes of the two storages. A write stores the bytes of the buffer,
without the padding behind the end of the data, and the hashes of its blocks. `FillZero` rounds the
size of the signatures down, so that it clears the hashes of those blocks only that lie in the data
storage as a whole.
-/

namespace Atmosphere.Fs

open BlockHash (ofBytes)

/-- A multiple that is less than one block behind is the next one. -/
theorem alignUp_eq {x : ℤ} {align k : ℕ} (hle : x ≤ (k * align : ℕ))
    (hlt : ((k * align : ℕ) : ℤ) < x + align) : alignUp x align = (k * align : ℕ) := by
  have halign : 0 < align := by omega
  have hge := @le_alignUp x align halign
  have hdvd : (align : ℤ) ∣ (k * align : ℕ) := Int.natCast_dvd_natCast.mpr (Nat.dvd_mul_left _ _)
  have hup := alignUp_le_of_dvd halign hdvd hle
  by_contra hne
  have := Int.le_of_dvd (by omega) (Int.dvd_sub hdvd (dvd_alignUp x align))
  omega

theorem SubStorage.write_eq_ok {s s' : SubStorage} {offset : ℤ} {buffer : Bytes} {size : ℕ}
    (h : s.write offset buffer size = .ok s') :
    s' = { s with bytes := s.bytes.write offset.toNat size buffer } ∧
      (0 < size → 0 ≤ offset ∧ offset + size ≤ s.size) := by
  unfold write at h
  split_ifs at h with hsize hrange
  · cases h
    refine ⟨?_, by omega⟩
    have hbytes : s.bytes.write offset.toNat size buffer = s.bytes :=
      funext fun i => Bytes.write_of_notMem (by omega)
    rw [hbytes]
  · cases h
    refine ⟨rfl, fun _ => ?_⟩
    simp only [checkAccessRange, Bool.and_eq_true, decide_eq_true_eq] at hrange
    omega

/-- Two parts that are cleared one after the other. -/
theorem Bytes.clear_clear (b : Bytes) (start m n : ℕ) :
    (b.clear start m).clear (start + m) n = b.clear start (m + n) := by
  funext i
  unfold clear write
  split_ifs <;> first | rfl | omega

theorem Bytes.clear_zero (b : Bytes) (start : ℕ) : b.clear start 0 = b :=
  funext fun _ => clear_of_notMem (by omega)

namespace IntegrityStorage

variable {s : IntegrityStorage} {hashAnswer dataAnswer : Answer}

/-- The storage with other bytes. -/
def withBytes (s : IntegrityStorage) (h d : Bytes) : IntegrityStorage :=
  { s with
    hashStorage := { s.hashStorage with bytes := h }
    dataStorage := { s.dataStorage with bytes := d } }

section WithBytes

variable (s : IntegrityStorage) (h d : Bytes)

@[simp] theorem withBytes_self : s.withBytes s.hashStorage.bytes s.dataStorage.bytes = s := rfl

@[simp] theorem verificationBlockSize_withBytes :
    (s.withBytes h d).verificationBlockSize = s.verificationBlockSize := rfl

@[simp] theorem signOffset_withBytes : (s.withBytes h d).signOffset = s.signOffset := rfl

@[simp] theorem signSize_withBytes : (s.withBytes h d).signSize = s.signSize := rfl

@[simp] theorem calcSignatures_withBytes :
    (s.withBytes h d).calcSignatures = s.calcSignatures := rfl

@[simp] theorem size_hashStorage_withBytes :
    (s.withBytes h d).hashStorage.size = s.hashStorage.size := by simp [withBytes]

end WithBytes

section Update

variable {h h' d signatures : Bytes} {first count k : ℕ} {s' : IntegrityStorage}

/-- An array of hashes of which some were replaced. -/
theorem ofBytes_write_of_mem (hk : first ≤ k) (hlt : k < first + count) :
    ofBytes (h.write (first * hashSize) (count * hashSize) signatures) k =
      ofBytes signatures (k - first) := by
  obtain ⟨j, rfl⟩ := Nat.exists_eq_add_of_le hk
  apply Vector.ext
  intro i hi
  have hindex := index_lt (show j < count by omega) hi
  simp only [ofBytes, Vector.getElem_ofFn]
  rw [Bytes.write_of_mem (by rw [Nat.add_mul]; omega) (by rw [Nat.add_mul]; omega)]
  congr 1
  rw [Nat.add_mul, Nat.add_sub_cancel_left]
  omega

theorem ofBytes_write_of_notMem (hk : ¬ (first ≤ k ∧ k < first + count)) :
    ofBytes (h.write (first * hashSize) (count * hashSize) signatures) k =
      ofBytes h k := by
  apply Vector.ext
  intro i hi
  simp only [ofBytes, Vector.getElem_ofFn]
  apply Bytes.write_of_notMem
  rwa [mem_blocks_iff hi]

/-- The signatures that `Write` calculates. -/
theorem ofBytes_calcSignatures (s : IntegrityStorage) (buffer : Bytes) (u j : ℕ) :
    ofBytes (s.calcSignatures buffer u) j = s.calcBlockHash (s.block buffer (u + j)) := by
  apply Vector.ext
  intro i hi
  simp only [ofBytes, Vector.getElem_ofFn, calcSignatures]
  have hmod : (j * hashSize + i) % hashSize = i := by
    rw [Nat.mul_comm, Nat.mul_add_mod, Nat.mod_eq_of_lt hi]
  simp only [index_div hi, hmod]
  rfl

theorem writeBlockSignature_eq_ok
    (hwrite : (s.withBytes h d).writeBlockSignature hashAnswer signatures
      (first * s.verificationBlockSize : ℕ) (count * s.verificationBlockSize) = .ok s') :
    s' = s.withBytes (h.write (first * hashSize) (count * hashSize) signatures) d ∧
      (0 < count → ((first + count) * hashSize : ℕ) ≤ s.hashStorage.size) := by
  obtain ⟨_, _, hwrite⟩ := bind_eq_ok.mp hwrite
  obtain ⟨hashStorage, hstore, hs'⟩ := bind_eq_ok.mp hwrite
  cases hs'
  rw [signOffset_withBytes, signSize_withBytes, signOffset_mul, signSize_mul] at hstore
  obtain ⟨rfl, hrange⟩ := SubStorage.write_eq_ok hstore
  refine ⟨rfl, fun hcount => ?_⟩
  obtain ⟨_, hle⟩ := hrange (Nat.mul_pos hcount (by decide))
  rw [Nat.add_mul]
  exact hle

/-- The loop of `Write` stores the hashes of the blocks of the buffer, or fails. -/
theorem updateSignatures_eq_ok {buffer : Bytes} {bufferCount rounds u u' : ℕ} (hu : u ≤ count)
    (hbuffer : 0 < bufferCount) (hrounds : count ≤ u + rounds)
    (hupdate : updateSignatures hashAnswer buffer (first * s.verificationBlockSize : ℕ) count
      bufferCount rounds u (s.withBytes h d) = (.ok (), u', s')) :
    u' = count ∧ ∃ h', s' = s.withBytes h' d ∧ (∀ k, ofBytes h' k =
        if first + u ≤ k ∧ k < first + count then s.calcBlockHash (s.block buffer (k - first))
        else ofBytes h k) ∧
      (u < count → ((first + count) * hashSize : ℕ) ≤ s.hashStorage.size) := by
  induction rounds generalizing u h with
  | zero =>
    obtain rfl : u = count := by omega
    cases hupdate
    exact ⟨rfl, h, rfl, fun k => (if_neg (by omega)).symm, by omega⟩
  | succ rounds ih =>
    unfold updateSignatures at hupdate
    split_ifs at hupdate with hlt
    · dsimp only at hupdate
      set m := min bufferCount (count - u) with hm
      have hoffset : ((first * s.verificationBlockSize : ℕ) : ℤ) + u * s.verificationBlockSize =
          ((first + u) * s.verificationBlockSize : ℕ) := by
        rw [Nat.add_mul]
        rfl
      rw [verificationBlockSize_withBytes, calcSignatures_withBytes, hoffset] at hupdate
      cases hwrite : (s.withBytes h d).writeBlockSignature hashAnswer (s.calcSignatures buffer u)
          ((first + u) * s.verificationBlockSize : ℕ) (m * s.verificationBlockSize) with
      | error e =>
        rw [hwrite] at hupdate
        cases hupdate
      | ok s₁ =>
        rw [hwrite] at hupdate
        obtain ⟨rfl, hle⟩ := writeBlockSignature_eq_ok hwrite
        obtain ⟨rfl, h', rfl, hsignature, hrange⟩ := ih (by omega) (by omega) hupdate
        refine ⟨rfl, h', rfl, fun k => ?_, fun _ => ?_⟩
        · rw [hsignature k]
          by_cases hk : first + (u + m) ≤ k ∧ k < first + u'
          · rw [if_pos hk, if_pos (by omega)]
          · rw [if_neg hk]
            by_cases hk' : first + u ≤ k ∧ k < first + u + m
            · rw [ofBytes_write_of_mem hk'.1 hk'.2, ofBytes_calcSignatures, if_pos (by omega),
                show u + (k - (first + u)) = k - first by omega]
            · rw [ofBytes_write_of_notMem hk', if_neg (by omega)]
        · by_cases hnext : u + m < u'
          · exact hrange hnext
          · have := hle (by omega)
            rwa [show first + u + m = first + u' by omega] at this
    · obtain rfl : u = count := by omega
      cases hupdate
      exact ⟨rfl, h, rfl, fun k => (if_neg (by omega)).symm, by omega⟩

/-- The loop of `FillZero` clears the signatures that remain, or fails. -/
theorem clearSignatures_eq_ok {signOffset signSize bufSize rounds remaining : ℕ}
    (hremaining : remaining ≤ signSize) (hbuf : 0 < remaining → 0 < bufSize)
    (hrounds : remaining ≤ rounds)
    (hclear : clearSignatures hashAnswer signOffset signSize bufSize rounds remaining
      (s.withBytes h d) = (.ok (), s')) :
    s' = s.withBytes (h.clear (signOffset + (signSize - remaining)) remaining) d ∧
      (0 < remaining → ((signOffset + signSize : ℕ) : ℤ) ≤ s.hashStorage.size) := by
  induction rounds generalizing remaining h with
  | zero =>
    obtain rfl : remaining = 0 := by omega
    cases hclear
    rw [Bytes.clear_zero]
    exact ⟨rfl, by omega⟩
  | succ rounds ih =>
    unfold clearSignatures at hclear
    split_ifs at hclear with hpos
    · dsimp only at hclear
      set m := min remaining bufSize with hm
      have hoffset : (signOffset : ℤ) + signSize - remaining =
          (signOffset + (signSize - remaining) : ℕ) := by omega
      rw [hoffset] at hclear
      split at hclear
      · cases hclear
      rename_i hashStorage hwrite
      obtain ⟨_, _, hwrite⟩ := bind_eq_ok.mp hwrite
      obtain ⟨rfl, hrange⟩ := SubStorage.write_eq_ok hwrite
      obtain ⟨rfl, hrange'⟩ := ih (h := h.clear (signOffset + (signSize - remaining)) m)
        (by omega) (by omega) (by omega) hclear
      refine ⟨?_, fun _ => ?_⟩
      · rw [show signOffset + (signSize - (remaining - m)) =
            signOffset + (signSize - remaining) + m by omega, Bytes.clear_clear,
          Nat.add_sub_cancel' (by omega)]
      · by_cases hnext : 0 < remaining - m
        · exact hrange' hnext
        · have hle := (hrange (by omega)).2
          change _ ≤ s.hashStorage.size at hle
          omega
    · obtain rfl : remaining = 0 := by omega
      cases hclear
      rw [Bytes.clear_zero]
      exact ⟨rfl, by omega⟩

end Update

/-! ### The operations -/

section Operations

variable {h d : Bytes} {first count poolSize address : ℕ} {buffer : Bytes} {s' : IntegrityStorage}

/-- The stored bytes of a storage with other bytes. -/
theorem dataByte_withBytes (s : IntegrityStorage) (h d : Bytes) (i : ℕ) :
    (s.withBytes h d).dataByte i = if (i : ℤ) < s.dataStorage.size then d i else 0 := by
  rw [dataByte]
  rfl

/-- The part that is written: all but the padding behind the end of the data. -/
theorem writeSize_spec (hcount : 0 < count)
    (hcheck : s.checkWrite address (first * s.verificationBlockSize : ℕ)
      (count * s.verificationBlockSize) = .ok ()) {n : ℕ}
    (hn : s.writeSize (first * s.verificationBlockSize : ℕ) (count * s.verificationBlockSize) = n) :
    0 < n ∧ n ≤ count * s.verificationBlockSize ∧ (n = count * s.verificationBlockSize ∨
        ((first * s.verificationBlockSize : ℕ) : ℤ) + n = s.dataStorage.size) ∧
      alignUp n s.verificationBlockSize = (count * s.verificationBlockSize : ℕ) := by
  obtain ⟨_, hcheck⟩ := require_bind_eq_ok.mp hcheck
  obtain ⟨_, hcheck⟩ := require_bind_eq_ok.mp hcheck
  obtain ⟨hoffset, hcheck⟩ := require_bind_eq_ok.mp hcheck
  unfold require checkAccessRange at hcheck
  split_ifs at hcheck with hrange
  simp only [Bool.and_eq_true, decide_eq_true_eq] at hrange
  have hpos := s.verificationBlockSize_pos
  have hsize := Nat.mul_pos hcount hpos
  have hup := @alignUp_lt s.dataStorage.size _ hpos
  have hparts : 0 < n ∧ n ≤ count * s.verificationBlockSize ∧ (n = count * s.verificationBlockSize ∨
        ((first * s.verificationBlockSize : ℕ) : ℤ) + n = s.dataStorage.size) := by
    unfold writeSize at hn
    split_ifs at hn with hend <;> omega
  refine ⟨hparts.1, hparts.2.1, hparts.2.2, alignUp_eq ?_ ?_⟩ <;> omega

theorem writeBlocks_eq_ok {n : ℕ} (hpool : hashSize ≤ poolSize) (hcount : 0 < count)
    (hle : n ≤ count * s.verificationBlockSize)
    (hup : alignUp n s.verificationBlockSize = (count * s.verificationBlockSize : ℕ))
    (hwrite : (s.withBytes h d).writeBlocks hashAnswer dataAnswer poolSize
      (first * s.verificationBlockSize : ℕ) buffer n = (.ok (), s')) :
    ((first + count) * hashSize : ℕ) ≤ s.hashStorage.size ∧
    ∃ h', s' = s.withBytes h' (d.write (first * s.verificationBlockSize) n buffer) ∧
      ∀ k, ofBytes h' k =
        if first ≤ k ∧ k < first + count then s.calcBlockHash (s.block buffer (k - first))
        else ofBytes h k := by
  have hbuffer : 0 < min count (poolSize / hashSize) :=
    Nat.lt_min.mpr ⟨hcount, Nat.div_pos hpool (by decide)⟩
  dsimp only [writeBlocks] at hwrite
  rw [verificationBlockSize_withBytes, hup, Int.toNat_natCast,
    Nat.mul_div_cancel _ s.verificationBlockSize_pos] at hwrite
  cases hupdate : updateSignatures hashAnswer buffer (first * s.verificationBlockSize : ℕ) count
      (min count (poolSize / hashSize)) count 0 (s.withBytes h d) with
  | mk result rest =>
  obtain ⟨u, s₁⟩ := rest
  rw [hupdate] at hwrite
  split at hwrite
  · cases hwrite
  rename_i hdata
  cases hwrite
  obtain ⟨rfl, h', rfl, hsignature, hrange⟩ :=
    updateSignatures_eq_ok (Nat.zero_le _) hbuffer (by omega) hupdate
  refine ⟨hrange hcount, h', ?_, hsignature⟩
  obtain ⟨_, _, hdata⟩ := bind_eq_ok.mp hdata
  obtain ⟨dataStorage, hstore, hs'⟩ := bind_eq_ok.mp hdata
  cases hs'
  obtain ⟨rfl, _⟩ := SubStorage.write_eq_ok hstore
  rw [verificationBlockSize_withBytes, Nat.min_eq_left hle]
  rfl

/-- What a write leaves: the bytes of the buffer and their hashes. -/
theorem write_eq_ok (hpool : hashSize ≤ poolSize) (hpadding : ∀ i < count * s.verificationBlockSize,
      s.dataStorage.size ≤ ((first * s.verificationBlockSize + i : ℕ) : ℤ) → buffer i = 0)
    (hwrite : (s.withBytes h d).write hashAnswer dataAnswer poolSize address
      (first * s.verificationBlockSize : ℕ) buffer (count * s.verificationBlockSize) =
        (.ok (), s')) :
    ∃ h' d', s' = s.withBytes h' d' ∧
      (0 < count → ((first + count) * hashSize : ℕ) ≤ s.hashStorage.size) ∧
      (∀ k, ofBytes h' k =
        if first ≤ k ∧ k < first + count then s.calcBlockHash (s.block buffer (k - first))
        else ofBytes h k) ∧
      ∀ i, (s.withBytes h' d').dataByte i = if first * s.verificationBlockSize ≤ i ∧
            i < first * s.verificationBlockSize + count * s.verificationBlockSize then
          buffer (i - first * s.verificationBlockSize)
        else (s.withBytes h d).dataByte i := by
  have hpos := s.verificationBlockSize_pos
  rcases Nat.eq_zero_or_pos count with rfl | hcount
  · rw [Nat.zero_mul] at hwrite
    cases hwrite
    exact ⟨h, d, rfl, by omega, fun k => (if_neg (by omega)).symm,
      fun i => (if_neg (by omega)).symm⟩
  have hsize := Nat.mul_pos hcount hpos
  unfold write at hwrite
  rw [if_neg (by omega)] at hwrite
  split at hwrite
  · cases hwrite
  rename_i hcheck
  obtain ⟨hn, hle, hend, hup⟩ := writeSize_spec (s := s) hcount hcheck rfl
  change 0 < (s.withBytes h d).writeSize _ _ at hn
  rw [if_neg (by omega)] at hwrite
  obtain ⟨hhash, h', rfl, hsignature⟩ := writeBlocks_eq_ok hpool hcount hle hup hwrite
  refine ⟨h', _, rfl, fun _ => hhash, hsignature, fun i => ?_⟩
  simp only [dataByte_withBytes]
  by_cases hstored : (i : ℤ) < s.dataStorage.size
  · unfold Bytes.write
    split_ifs <;> first | rfl | omega
  · split_ifs with hmem
    · exact (hpadding _ (by omega) (by omega)).symm
    · rfl

/-- The number of the blocks whose signatures `FillZero` clears. -/
def fillCount (s : IntegrityStorage) (first count : ℕ) : ℕ :=
  (min ((count * s.verificationBlockSize : ℕ) : ℤ)
    (s.dataStorage.size - (first * s.verificationBlockSize : ℕ))).toNat / s.verificationBlockSize

theorem fillCount_le (s : IntegrityStorage) (first count : ℕ) :
    s.fillCount first count ≤ count := by
  apply Nat.div_le_of_le_mul
  rw [Nat.mul_comm]
  omega

/-- `FillZero` clears the signatures of the blocks that lie in the data storage as a whole. -/
theorem lt_fillCount {k : ℕ} (hfirst : first ≤ k) (hk : k < first + count)
    (hstored : (((k + 1) * s.verificationBlockSize : ℕ) : ℤ) ≤ s.dataStorage.size) :
    k < first + s.fillCount first count := by
  obtain ⟨j, rfl⟩ := Nat.exists_eq_add_of_le hfirst
  apply Nat.add_lt_add_left
  apply (Nat.le_div_iff_mul_le s.verificationBlockSize_pos).mpr
  change (j + 1) * s.verificationBlockSize ≤ _
  have hj := Nat.mul_le_mul_right s.verificationBlockSize (show j + 1 ≤ count by omega)
  rw [Nat.add_assoc, Nat.add_mul] at hstored
  omega

theorem fillZero_eq_ok {allocated : Bool}
    (hfill : (s.withBytes h d).fillZero hashAnswer allocated (first * s.verificationBlockSize : ℕ)
      (count * s.verificationBlockSize) = (.ok (), s')) :
    s' = s.withBytes (h.clear (first * hashSize) (s.fillCount first count * hashSize)) d ∧
      (0 < s.fillCount first count →
        ((first + s.fillCount first count) * hashSize : ℕ) ≤ s.hashStorage.size) := by
  dsimp only [fillZero] at hfill
  split_ifs at hfill with hrange hallocated
  · rw [signOffset_withBytes, signOffset_mul] at hfill
    obtain ⟨rfl, hle⟩ := clearSignatures_eq_ok (Nat.le_refl _)
      (fun hpos => Nat.lt_min.mpr ⟨hpos, Nat.two_pow_pos _⟩) (Nat.le_refl _) hfill
    rw [Nat.sub_self]
    refine ⟨rfl, fun hpos => ?_⟩
    rw [Nat.add_mul]
    exact hle (Nat.mul_pos hpos (by decide))
  · cases hfill
  · cases hfill

end Operations

end IntegrityStorage

end Atmosphere.Fs
