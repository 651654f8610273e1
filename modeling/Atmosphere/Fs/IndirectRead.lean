import Atmosphere.Fs.ContinuousReading

/-!
# Reading from an indirect storage

A read is right if every byte of the buffer is the one that the entry of its offset maps the
offset to. The loops with and without the continuous check go over the same entries, in step.
What has been passed is right in both buffers (`Filled`); the loop with the check may have read
more entries than it has passed (`ReadAhead`).
-/

namespace Atmosphere.Fs

open Search (IsLast)
open IndirectEntry (byteSize)

/-- `MoveNext` advances to the next entry. -/
def AdvancesOn (moveNext : Visitor → FsOp Visitor) (nodeSize entrySize : ℕ) (t : EntryTable) :
    Prop :=
  ∀ v n, v.PointsAt nodeSize entrySize t n → n + 1 < t.count →
    ∃ v', moveNext v = .ok v' ∧ v'.PointsAt nodeSize entrySize t (n + 1)

/-- The entry of an offset is the one that it lies in. -/
theorem EntryTable.isLast {t : EntryTable} {n : ℕ} {v : ℤ} (hn : n < t.count)
    (hlow : t.offset n ≤ v) (hhigh : v < t.bound (n + 1)) : IsLast t.offset 0 t.count v n := by
  refine ⟨Nat.zero_le n, hn, hlow, fun j hnj hj => hhigh.trans_le ?_⟩
  rw [← t.bound_of_lt hj]
  exact t.bound_mono hnj

/-! ### Reading a part of one entry -/

namespace IndirectStorage

variable (storage : IndirectStorage)

/-- The byte that an entry maps a virtual offset to. -/
def mappedByte (entry : IndirectEntry) (virtualOffset : ℤ) : BitVec 8 :=
  (storage.dataStorage entry.storageIndex.toNat).bytes
    (entry.physicalOffset + (virtualOffset - entry.virtualOffset)).toNat

/-- The checks on the part of an entry that is read. -/
structure Fits (entry : IndirectEntry) (curOffset size : ℤ) : Prop where
  nonneg : 0 ≤ entry.physicalOffset
  le_size : entry.physicalOffset ≤ (storage.dataStorage entry.storageIndex.toNat).size
  end_le : entry.physicalOffset + (curOffset - entry.virtualOffset) + size ≤
    (storage.dataStorage entry.storageIndex.toNat).size

/-- The buffer after the read of a part of an entry. -/
def copyPart (offset : ℤ) (entry : IndirectEntry) (curOffset size : ℤ) (b : Bytes) : Bytes :=
  b.write (curOffset - offset).toNat size.toNat
    ((storage.dataStorage entry.storageIndex.toNat).bytes.drop
      (entry.physicalOffset + (curOffset - entry.virtualOffset)).toNat)

variable {storage} {entry : IndirectEntry} {offset curOffset size v : ℤ} {b b' : Bytes}

theorem copyPart_of_mem (hoffset : offset ≤ curOffset) (hcur : entry.virtualOffset ≤ curOffset)
    (hphys : 0 ≤ entry.physicalOffset) (hlow : curOffset ≤ v) (hhigh : v < curOffset + size) :
    storage.copyPart offset entry curOffset size b (v - offset).toNat =
      storage.mappedByte entry v := by
  unfold copyPart mappedByte
  rw [Bytes.write_of_mem (by omega) (by omega), Bytes.drop]
  congr 1
  omega

theorem copyPart_of_notMem {i : ℕ} (hoffset : offset ≤ curOffset)
    (hout : offset + i < curOffset ∨ curOffset + size ≤ offset + i) :
    storage.copyPart offset entry curOffset size b i = b i := by
  apply Bytes.write_of_notMem
  omega

section

variable (hfits : storage.Fits entry curOffset size) (hcur : entry.virtualOffset ≤ curOffset)
  (hsize : 0 ≤ size)
include hfits hcur hsize

theorem readFunc_of_fits : storage.readFunc offset entry.storageIndex.toNat
      (entry.physicalOffset + (curOffset - entry.virtualOffset)) curOffset size b =
        .ok (storage.copyPart offset entry curOffset size b) := by
  have hphys := hfits.nonneg
  have hend := hfits.end_le
  have hposition : entry.physicalOffset + (curOffset - entry.virtualOffset) =
      ((entry.physicalOffset + (curOffset - entry.virtualOffset)).toNat : ℤ) := by omega
  have hread := @SubStorage.read_of_le (storage.dataStorage entry.storageIndex.toNat) b
    (curOffset - offset).toNat size.toNat
    (entry.physicalOffset + (curOffset - entry.virtualOffset)).toNat (by omega)
  rw [← hposition] at hread
  exact hread

theorem operateEntry_of_fits :
    storage.operateEntry (storage.readFunc offset) entry curOffset size b =
      .ok (storage.copyPart offset entry curOffset size b) := by
  unfold operateEntry
  rw [require_bind ⟨hfits.nonneg, hfits.le_size⟩, require_bind hfits.end_le]
  exact readFunc_of_fits hfits hcur hsize

end

/-! ### What the buffer has -/

/-- The bytes before an offset are right, and those behind the whole read are the old ones. -/
structure Filled (storage : IndirectStorage) (t : EntryTable) (offset : ℤ) (size : ℕ)
    (buffer b : Bytes) (curOffset : ℤ) : Prop where
  mapped : ∀ v, offset ≤ v → v < curOffset → ∃ n, IsLast t.offset 0 t.count v n ∧
    b (v - offset).toNat = storage.mappedByte (t.indirect n) v
  untouched : ∀ i, size ≤ i → b i = buffer i

/-- The part of an entry that is read ends with the entry or with the whole read. -/
def partEnd (t : EntryTable) (endOffset : ℤ) (n : ℕ) : ℤ := min endOffset (t.bound (n + 1))

/-- An entry has been read already, as far as it is behind an offset. -/
structure ReadAhead (storage : IndirectStorage) (t : EntryTable) (offset endOffset : ℤ)
    (b : Bytes) (curOffset : ℤ) (e : ℕ) : Prop where
  fits : t.offset e < endOffset →
    storage.Fits (t.indirect e) (t.offset e) (partEnd t endOffset e - t.offset e)
  mapped : ∀ v, t.offset e ≤ v → curOffset ≤ v → v < partEnd t endOffset e →
    b (v - offset).toNat = storage.mappedByte (t.indirect e) v

variable {t : EntryTable} {bufferSize n e : ℕ} {buffer : Bytes} {endOffset : ℤ}

/-- Equal buffers: what is right is determined by the table. -/
theorem Filled.eq (h : Filled storage t offset bufferSize buffer b (offset + bufferSize))
    (h' : Filled storage t offset bufferSize buffer b' (offset + bufferSize)) : b = b' := by
  funext i
  obtain hi | hi := Nat.lt_or_ge i bufferSize
  · obtain ⟨n, hn, hb⟩ := h.mapped (offset + i) (by omega) (by omega)
    obtain ⟨n', hn', hb'⟩ := h'.mapped (offset + i) (by omega) (by omega)
    have heq : n = n' := by
      obtain hlt | heq | hlt := lt_trichotomy n n'
      · exact absurd (hn.after n' hlt hn'.lt) (not_lt.mpr hn'.le)
      · exact heq
      · exact absurd (hn'.after n hlt hn.lt) (not_lt.mpr hn.le)
    subst heq
    rw [show (offset + i - offset).toNat = i by omega] at hb hb'
    rw [hb, hb']
  · rw [h.untouched i hi, h'.untouched i hi]

section

variable (h : Filled storage t offset bufferSize buffer b curOffset)
include h

/-- What is read behind an offset leaves the bytes before it. -/
theorem Filled.copy (hoffset : offset ≤ curOffset) (hend : curOffset + size ≤ offset + bufferSize) :
    Filled storage t offset bufferSize buffer (storage.copyPart offset entry curOffset size b)
      curOffset := by
  constructor
  · intro v hv hv'
    rw [copyPart_of_notMem hoffset (by omega)]
    exact h.mapped v hv hv'
  · intro i hi
    rw [copyPart_of_notMem hoffset (by omega)]
    exact h.untouched i hi

/-- Reading the part of an entry extends what is right. -/
theorem Filled.copyPart (hn : n < t.count) (hoffset : offset ≤ curOffset)
    (hlow : t.offset n ≤ curOffset) (hphys : 0 ≤ (t.indirect n).physicalOffset) :
    Filled storage t offset bufferSize buffer (storage.copyPart offset (t.indirect n) curOffset
      (partEnd t (offset + bufferSize) n - curOffset) b)
      (partEnd t (offset + bufferSize) n) := by
  have hend : partEnd t (offset + bufferSize) n ≤ offset + bufferSize := min_le_left _ _
  have hbound : partEnd t (offset + bufferSize) n ≤ t.bound (n + 1) := min_le_right _ _
  refine ⟨fun v hv hv' => ?_, (h.copy hoffset (by omega)).untouched⟩
  obtain hbefore | hpart := lt_or_ge v curOffset
  · exact (h.copy hoffset (by omega)).mapped v hv hbefore
  · exact ⟨n, t.isLast hn (by omega) (by omega),
      copyPart_of_mem hoffset hlow hphys hpart (by omega)⟩

/-- So does an entry that has been read already. -/
theorem Filled.readAhead
    (hahead : ReadAhead storage t offset (offset + bufferSize) b curOffset n) (hn : n < t.count)
    (hlow : t.offset n ≤ curOffset) :
    Filled storage t offset bufferSize buffer b (partEnd t (offset + bufferSize) n) := by
  have hbound : partEnd t (offset + bufferSize) n ≤ t.bound (n + 1) := min_le_right _ _
  refine ⟨fun v hv hv' => ?_, h.untouched⟩
  obtain hbefore | hpart := lt_or_ge v curOffset
  · exact h.mapped v hv hbefore
  · exact ⟨n, t.isLast hn (by omega) (by omega), hahead.mapped v (by omega) hpart hv'⟩

end

/-- Reading an entry leaves what was read ahead of the entries behind it. -/
theorem ReadAhead.copyPart (h : ReadAhead storage t offset endOffset b curOffset e)
    (hoffset : offset ≤ curOffset) (hnext : curOffset ≤ partEnd t endOffset n) :
    ReadAhead storage t offset endOffset (storage.copyPart offset (t.indirect n) curOffset
      (partEnd t endOffset n - curOffset) b) (partEnd t endOffset n) e := by
  refine ⟨h.fits, fun v hlow hcur hhigh => ?_⟩
  rw [copyPart_of_notMem hoffset (by omega)]
  exact h.mapped v hlow (by omega) hhigh

theorem ReadAhead.mono (h : ReadAhead storage t offset endOffset b curOffset e)
    {curOffset' : ℤ} (hle : curOffset ≤ curOffset') :
    ReadAhead storage t offset endOffset b curOffset' e :=
  ⟨h.fits, fun v hlow hcur hhigh => h.mapped v hlow (hle.trans hcur) hhigh⟩

/-- The read of several entries at once reads those of the base storage ahead. -/
theorem ReadAhead.of_continuous {info : ContinuousReadingInfo}
    (h : ContinuousFrom t n curOffset endOffset info)
    (hfits : storage.Fits (t.indirect n) curOffset info.readSize) (hoffset : offset ≤ curOffset)
    (hlow : t.offset n ≤ curOffset) (hcount : e < t.count) (hn : n ≤ e)
    (he : (e : ℤ) < n + info.skipCount) (hbase : (t.indirect e).storageIndex = 0) :
    ReadAhead storage t offset endOffset
      (storage.copyPart offset (t.indirect n) curOffset info.readSize b) curOffset e := by
  obtain ⟨hphys, hend⟩ := h.continues e hn he hbase
  have hmono := t.offset_mono hn hcount
  have hn_virtual : (t.indirect n).virtualOffset = t.offset n := rfl
  have he_virtual : (t.indirect e).virtualOffset = t.offset e := rfl
  have hnonneg := hfits.nonneg
  have hsize := hfits.end_le
  rw [min_comm] at hend
  change partEnd t endOffset e ≤ _ at hend
  constructor
  · intro hlt
    have hpart : t.offset e ≤ partEnd t endOffset e :=
      le_min hlt.le (t.offset_lt_bound hcount (Nat.lt_succ_self e)).le
    rw [h.base, ← hbase] at hsize
    refine ⟨by omega, by omega, by omega⟩
  · intro v hv hcur hhigh
    rw [copyPart_of_mem hoffset hlow hnonneg hcur (by omega)]
    -- Both entries are of the base storage, and the same distance apart in it.
    unfold mappedByte
    rw [h.base, hbase]
    congr 1
    omega

/-! ### One round -/

section Round

variable {l2Count : ℕ} {c : OperateContext} {visitor : Visitor}

theorem canMoveNext_iff (r : storage.table.Represents l2Count t)
    (hv : visitor.PointsAt storage.table.nodeSize storage.table.entrySize t n)
    (hn : n < t.count) : visitor.canMoveNext = true ↔ n + 1 < t.count := by
  have hpos := r.perSet_pos
  have hdiv := Nat.div_add_mod n
    (BucketTree.getEntryCount storage.table.nodeSize storage.table.entrySize)
  have hmod := Nat.mod_lt n hpos
  have hset := @r.lt_entrySetCount _ _ _ _ _ _
    (n / BucketTree.getEntryCount storage.table.nodeSize storage.table.entrySize + 1)
  rw [Nat.mul_comm] at hdiv
  rw [Nat.add_mul] at hset
  unfold Visitor.canMoveNext Visitor.isValid
  rw [hv.entryIndex, hv.entrySet, hv.entrySetCount]
  simp only [Bool.and_eq_true, Bool.or_eq_true, decide_eq_true_eq]
  unfold EntryTable.setSize
  omega

/-- The storage has a table, over whose entries the visitors move. -/
structure Reads (storage : IndirectStorage) (c : OperateContext) (l2Count : ℕ) (t : EntryTable) :
    Prop where
  table : storage.table.Represents l2Count t
  entrySize : storage.table.entrySize = byteSize
  moveNext : AdvancesOn c.moveNext storage.table.nodeSize storage.table.entrySize t

section

variable (r : Reads storage c l2Count t)
  (hv : visitor.PointsAt storage.table.nodeSize storage.table.entrySize t n) (hn : n < t.count)
include r hv hn

/-- The visitor moves on if there is an entry left. -/
theorem moveToNextEntry_spec :
    ∃ visitor', storage.moveToNextEntry c visitor = .ok (visitor', t.bound (n + 1)) ∧
      (n + 1 < t.count →
        visitor'.PointsAt storage.table.nodeSize storage.table.entrySize t (n + 1)) := by
  unfold moveToNextEntry
  split_ifs with hcan
  · rw [canMoveNext_iff r.table hv hn] at hcan
    obtain ⟨visitor', hnext, hv'⟩ := r.moveNext visitor n hv hcan
    have hoffset : (IndirectEntry.ofBytes visitor'.entry).virtualOffset = t.offset (n + 1) := by
      rw [IndirectEntry.ofBytes_congr fun b hb => hv'.entry b (r.entrySize ▸ hb)]
      rfl
    refine ⟨visitor', ?_, fun _ => hv'⟩
    rw [ok_bind hnext, hoffset, require_bind (r.table.includes_offset hcan), t.bound_of_lt hcan]
    rfl
  · rw [canMoveNext_iff r.table hv hn] at hcan
    refine ⟨visitor, ?_, fun hlt => absurd hlt hcan⟩
    rw [r.table.endOffset_eq, t.bound_of_le (Nat.not_lt.mp hcan)]
    rfl

/-- A round at an entry, with the next entry filled in. -/
theorem operateRound_eq (hlow : t.offset n ≤ curOffset) (hhigh : curOffset < t.bound (n + 1))
    {σ : Type} {func : OperateFunc σ} :
    ∃ visitor', (n + 1 < t.count →
        visitor'.PointsAt storage.table.nodeSize storage.table.entrySize t (n + 1)) ∧
      ∀ (continuousCheck : Bool) (info : ContinuousReadingInfo) (data : σ),
        storage.operateRound c func endOffset continuousCheck ⟨visitor, curOffset, info, data⟩ =
        (do
          require (0 ≤ (t.indirect n).storageIndex ∧ (t.indirect n).storageIndex < storageCount)
            .invalidIndirectEntryStorageIndex
          let (info, data) ← storage.checkContinuous c func endOffset continuousCheck
            ⟨visitor, curOffset, info, data⟩
          let data ← storage.operateIfNeeded func
            (!continuousCheck || (!info.done || (t.indirect n).storageIndex ≠ 0)) (t.indirect n)
            curOffset (partEnd t endOffset n - curOffset) data
          return ⟨visitor', partEnd t endOffset n, info, data⟩) := by
  obtain ⟨visitor', hnext, hv'⟩ := moveToNextEntry_spec r hv hn
  refine ⟨visitor', hv', fun continuousCheck info data => ?_⟩
  have hentry_eq : IndirectEntry.ofBytes visitor.entry = t.indirect n :=
    IndirectEntry.ofBytes_congr fun b hb => hv.entry b (r.entrySize ▸ hb)
  have hsize : min (endOffset - curOffset) (t.bound (n + 1) - (t.indirect n).virtualOffset -
      (curOffset - (t.indirect n).virtualOffset)) = partEnd t endOffset n - curOffset := by
    unfold partEnd
    omega
  unfold operateRound
  dsimp only
  rw [hentry_eq, require_bind (show (t.indirect n).virtualOffset ≤ curOffset from hlow), hnext]
  congr 1
  funext _
  congr 1
  funext result
  rw [ok_bind rfl]
  rw [require_bind hhigh, hsize, show curOffset + (partEnd t endOffset n - curOffset) =
    partEnd t endOffset n by omega]

end

/-- The states of the two loops at the entry `n`. -/
structure InStep (storage : IndirectStorage) (t : EntryTable) (offset : ℤ) (bufferSize : ℕ)
    (buffer : Bytes) (n : ℕ) (s s' : OperateState Bytes) : Prop where
  lt_count : n < t.count
  pointsAt : s.visitor.PointsAt storage.table.nodeSize storage.table.entrySize t n
  visitor_eq : s'.visitor = s.visitor
  curOffset_eq : s'.curOffset = s.curOffset
  offset_le : offset ≤ s.curOffset
  entry_le : t.offset n ≤ s.curOffset
  lt_bound : s.curOffset < t.bound (n + 1)
  lt_end : s.curOffset < offset + bufferSize
  filled : Filled storage t offset bufferSize buffer s.data s.curOffset
  filled' : Filled storage t offset bufferSize buffer s'.data s.curOffset
  readSize_le : s.info.readSize ≤ 0
  readAhead : s.info.done = true → ∀ e : ℕ, n ≤ e → e < t.count →
    (e : ℤ) < n + (s.info.skipCount - 1) → (t.indirect e).storageIndex = 0 →
    ReadAhead storage t offset (offset + bufferSize) s.data s.curOffset e

/-- What the continuous check leaves: the bytes before the offset are as they were, and the
entries that the round does not operate on have been read ahead. -/
theorem checkContinuous_spec (r : Reads storage c l2Count t) {s s' : OperateState Bytes}
    (hs : InStep storage t offset bufferSize buffer n s s') {info : ContinuousReadingInfo}
    (h : storage.checkContinuous c (storage.readFunc offset) (offset + bufferSize) true s =
      .ok (info, b)) :
    Filled storage t offset bufferSize buffer b s.curOffset ∧ info.readSize ≤ 0 ∧
      (info.done = true → 0 < info.skipCount ∧ ∀ e : ℕ, n ≤ e → e < t.count →
        (e : ℤ) < n + info.skipCount → (t.indirect e).storageIndex = 0 →
        ReadAhead storage t offset (offset + bufferSize) b s.curOffset e) := by
  have hentry_eq : IndirectEntry.ofBytes s.visitor.entry = t.indirect n :=
    IndirectEntry.ofBytes_congr fun b hb => hs.pointsAt.entry b (r.entrySize ▸ hb)
  have hend := hs.lt_end
  obtain ⟨found, hscan, h⟩ := bind_eq_ok.mp h
  unfold scanIfNeeded at hscan
  dsimp only at hscan
  split_ifs at hscan with hskip
  · obtain ⟨scanned, hrun, hdone, hfrom⟩ := r.table.scanContinuousReading r.entrySize
      hs.pointsAt hs.lt_count (c.scanPool s.curOffset) hs.entry_le hs.lt_bound
      (show 0 < offset + bufferSize - s.curOffset by omega)
    rw [hrun] at hscan
    cases hscan
    unfold operateContinuously at h
    split_ifs at h with hpositive
    · have hcontinuous := hfrom hpositive
      rw [show s.curOffset + (offset + bufferSize - s.curOffset) = offset + bufferSize by omega]
        at hcontinuous
      rw [hentry_eq] at h
      obtain ⟨hindex, h⟩ := require_bind_eq_ok.mp h
      obtain ⟨⟨hnonneg, hle⟩, h⟩ := require_bind_eq_ok.mp h
      obtain ⟨hsize, h⟩ := require_bind_eq_ok.mp h
      have hzero : (t.indirect n).storageIndex.toNat = 0 := by
        rw [hindex]
        rfl
      have hfits : storage.Fits (t.indirect n) s.curOffset found.readSize := by
        refine ⟨hnonneg, ?_, ?_⟩
        · rw [hzero]
          exact hle
        · rw [hzero]
          exact hsize
      have hcopy := @readFunc_of_fits storage (t.indirect n) offset s.curOffset found.readSize
        s.data hfits hs.entry_le hpositive.le
      rw [hzero] at hcopy
      rw [ok_bind hcopy] at h
      cases h
      exact ⟨hs.filled.copy hs.offset_le hcontinuous.readSize_le, le_rfl, fun _ =>
        ⟨hcontinuous.skipCount_pos, fun e hne he hlt hbase =>
          .of_continuous hcontinuous hfits hs.offset_le hs.entry_le he hne hlt hbase⟩⟩
    · cases h
      refine ⟨hs.filled, not_lt.mp hpositive, fun htrue => ?_⟩
      rw [hdone] at htrue
      exact absurd htrue (by decide)
  · cases hscan
    unfold operateContinuously at h
    rw [if_neg (not_lt.mpr hs.readSize_le)] at h
    cases h
    exact ⟨hs.filled, hs.readSize_le, fun hdone => ⟨not_le.mp hskip, hs.readAhead hdone⟩⟩

/-! ### The two loops -/

/-- A round of the loop with the check is matched by one without it. -/
theorem InStep.operateRound (r : Reads storage c l2Count t)
    (hinside : offset + bufferSize ≤ t.endOffset) {s s' next : OperateState Bytes}
    (h : InStep storage t offset bufferSize buffer n s s')
    (hround : storage.operateRound c (storage.readFunc offset) (offset + bufferSize) true s =
      .ok next) :
    ∃ next', storage.operateRound c (storage.readFunc offset) (offset + bufferSize) false s' =
        .ok next' ∧ s.curOffset < next.curOffset ∧
      ((next.curOffset = offset + bufferSize ∧ next'.curOffset = offset + bufferSize ∧
          Filled storage t offset bufferSize buffer next.data (offset + bufferSize) ∧
          Filled storage t offset bufferSize buffer next'.data (offset + bufferSize)) ∨
        InStep storage t offset bufferSize buffer (n + 1) next next') := by
  obtain ⟨visitor, curOffset, info, b⟩ := s
  obtain ⟨visitor', curOffset', info', b'⟩ := s'
  have hstep := h
  obtain ⟨hn, hv, hvisitor, hcur, hoffset, hlow, hhigh, hend, -, hfilled', -, -⟩ := h
  subst hvisitor hcur
  obtain ⟨moved, hmoved, heq⟩ := @operateRound_eq storage curOffset' t n (offset + bufferSize)
    l2Count c visitor' r hv hn hlow hhigh Bytes (storage.readFunc offset)
  have hpart : curOffset' < partEnd t (offset + bufferSize) n := lt_min hend hhigh
  rw [heq] at hround
  obtain ⟨hindex, hround⟩ := require_bind_eq_ok.mp hround
  obtain ⟨⟨info₁, b₁⟩, hcheck, hround⟩ := bind_eq_ok.mp hround
  obtain ⟨hfilled₁, hread₁, hahead₁⟩ := checkContinuous_spec r hstep hcheck
  obtain ⟨b₂, hoperate, hround⟩ := bind_eq_ok.mp hround
  cases hround
  -- The entry fits, and what is read of it is right, whether it is read now or was before.
  have hentry_ok : storage.Fits (t.indirect n) curOffset'
        (partEnd t (offset + bufferSize) n - curOffset') ∧
      Filled storage t offset bufferSize buffer b₂ (partEnd t (offset + bufferSize) n) ∧
      (info₁.done = true → ∀ e : ℕ, n + 1 ≤ e → e < t.count →
        (e : ℤ) < n + info₁.skipCount → (t.indirect e).storageIndex = 0 →
        ReadAhead storage t offset (offset + bufferSize) b₂
          (partEnd t (offset + bufferSize) n) e) := by
    unfold operateIfNeeded at hoperate
    split_ifs at hoperate with hneeds
    · obtain ⟨⟨hnonneg, hle⟩, hrest⟩ := require_bind_eq_ok.mp hoperate
      have hfits : storage.Fits _ _ _ := ⟨hnonneg, hle, (require_bind_eq_ok.mp hrest).1⟩
      rw [operateEntry_of_fits hfits hlow (by omega)] at hoperate
      cases hoperate
      exact ⟨hfits, hfilled₁.copyPart hn hoffset hlow hfits.nonneg,
        fun hdone e he hcount hlt hbase =>
        ((hahead₁ hdone).2 e (by omega) hcount hlt hbase).copyPart hoffset hpart.le⟩
    · cases hoperate
      simp only [Bool.not_true, Bool.false_or, Bool.or_eq_true, Bool.not_eq_true',
        decide_eq_true_eq, not_or, Bool.not_eq_false, not_not, ne_eq] at hneeds
      obtain ⟨hdone, hbase⟩ := hneeds
      obtain ⟨hskip, hahead₁⟩ := hahead₁ hdone
      have hself := hahead₁ n le_rfl hn (by omega) hbase
      have hfits := hself.fits (by omega)
      have hend := hfits.end_le
      exact ⟨⟨hfits.nonneg, hfits.le_size, by omega⟩, hfilled₁.readAhead hself hn hlow,
        fun _ e he hcount hlt hbase => (hahead₁ e (by omega) hcount hlt hbase).mono hpart.le⟩
  obtain ⟨hfits, hfilled₂, hahead₂⟩ := hentry_ok
  refine ⟨⟨moved, partEnd t (offset + bufferSize) n, info', storage.copyPart offset (t.indirect n)
    curOffset' (partEnd t (offset + bufferSize) n - curOffset') b'⟩, ?_, hpart, ?_⟩
  · rw [heq, require_bind hindex]
    exact ok_bind (operateEntry_of_fits hfits hlow (by omega))
  · have hfilled₂' := hfilled'.copyPart hn hoffset hlow hfits.nonneg
    obtain hlast | hmore := le_or_gt (offset + bufferSize) (t.bound (n + 1))
    · have hpartEnd : partEnd t (offset + bufferSize) n = offset + bufferSize := min_eq_left hlast
      rw [hpartEnd] at hfilled₂ hfilled₂'
      rw [hpartEnd]
      exact .inl ⟨rfl, rfl, hfilled₂, hfilled₂'⟩
    · have hpartEnd : partEnd t (offset + bufferSize) n = t.bound (n + 1) := min_eq_right hmore.le
      have hnext : n + 1 < t.count := by
        by_contra hlast
        rw [t.bound_of_le (Nat.not_lt.mp hlast)] at hmore
        omega
      have hbound := t.bound_of_lt hnext
      have hbound' : t.offset (n + 1) < t.bound (n + 1 + 1) :=
        t.offset_lt_bound hnext (Nat.lt_succ_self (n + 1))
      right
      refine ⟨hnext, hmoved hnext, rfl, rfl, ?_, ?_, ?_, ?_, hfilled₂, hfilled₂', hread₁, ?_⟩
      · dsimp only
        omega
      · dsimp only
        omega
      · dsimp only
        omega
      · dsimp only
        omega
      · intro hdone e he hcount hlt hbase
        dsimp only at hlt
        exact hahead₂ hdone e he hcount (by omega) hbase

theorem operateLoop_done {continuousCheck : Bool} {σ : Type} {func : OperateFunc σ}
    {s : OperateState σ} (h : s.curOffset = endOffset) (rounds : ℕ) :
    storage.operateLoop c func endOffset continuousCheck rounds s = .ok s := by
  cases rounds with
  | zero => rfl
  | succ rounds => exact if_neg (not_lt.mpr h.ge)

/-- The two loops end with the same bytes. -/
theorem InStep.operateLoop (r : Reads storage c l2Count t)
    (hinside : offset + bufferSize ≤ t.endOffset) :
    ∀ (rounds n : ℕ) (s s' final : OperateState Bytes),
      InStep storage t offset bufferSize buffer n s s' →
      offset + bufferSize - s.curOffset ≤ rounds →
      storage.operateLoop c (storage.readFunc offset) (offset + bufferSize) true rounds s =
        .ok final →
      ∃ final', storage.operateLoop c (storage.readFunc offset) (offset + bufferSize) false rounds
          s' = .ok final' ∧
        Filled storage t offset bufferSize buffer final.data (offset + bufferSize) ∧
        Filled storage t offset bufferSize buffer final'.data (offset + bufferSize)
  | 0, n, s, s', final, h, hrounds, _ => by
    have hlt := h.lt_end
    omega
  | rounds + 1, n, s, s', final, h, hrounds, hloop => by
    have hlt := h.lt_end
    unfold IndirectStorage.operateLoop at hloop ⊢
    rw [if_pos hlt] at hloop
    rw [if_pos (by rw [h.curOffset_eq]; exact hlt)]
    obtain ⟨next, hround, hloop⟩ := bind_eq_ok.mp hloop
    obtain ⟨next', hround', hprogress, ⟨hcur, hcur', hfilled, hfilled'⟩ | hnext⟩ :=
      h.operateRound r hinside hround
    · rw [operateLoop_done hcur] at hloop
      cases hloop
      exact ⟨next', (ok_bind hround').trans (operateLoop_done hcur' rounds), hfilled, hfilled'⟩
    · obtain ⟨final', hfinal, hfilled⟩ := InStep.operateLoop r hinside rounds (n + 1)
        next next' final hnext (by omega) hloop
      exact ⟨final', (ok_bind hround').trans hfinal, hfilled⟩

/-- A read that succeeded is right, and so is the one without the continuous check. -/
theorem read_filled (r : Reads storage c l2Count t)
    (h : storage.read c offset buffer bufferSize = .ok b) :
    Filled storage t offset bufferSize buffer b (offset + bufferSize) ∧
      storage.readWith c false offset buffer bufferSize = .ok b := by
  unfold read readWith at *
  obtain rfl | hsize := Nat.eq_zero_or_pos bufferSize
  · cases h
    exact ⟨⟨fun v hlow hhigh => absurd hhigh (by push_cast; omega), fun _ _ => rfl⟩, rfl⟩
  rw [if_neg hsize.ne'] at h ⊢
  unfold operatePerEntry at h ⊢
  rw [if_neg (by omega)] at h ⊢
  obtain ⟨hrange, h⟩ := require_bind_eq_ok.mp h
  obtain ⟨visitor, hfind, h⟩ := bind_eq_ok.mp h
  obtain ⟨hvirtual, h⟩ := require_bind_eq_ok.mp h
  obtain ⟨final, hloop, h⟩ := bind_eq_ok.mp h
  cases h
  rw [Int.toNat_natCast] at hloop ⊢
  have hinside : offset + bufferSize ≤ t.endOffset := by
    unfold BucketTree.includesRange at hrange
    rw [r.table.endOffset_eq] at hrange
    simp only [Bool.and_eq_true, decide_eq_true_eq] at hrange
    omega
  obtain ⟨n, hlast, hv⟩ := r.table.of_find hfind
  have hbound : offset < t.bound (n + 1) := by
    obtain hn | hn := Nat.lt_or_ge (n + 1) t.count
    · rw [t.bound_of_lt hn]
      exact hlast.after (n + 1) (Nat.lt_succ_self n) hn
    · rw [t.bound_of_le hn]
      omega
  have hstart : InStep storage t offset bufferSize buffer n
      ⟨visitor, offset, ⟨0, 0, false⟩, buffer⟩ ⟨visitor, offset, ⟨0, 0, false⟩, buffer⟩ := by
    have hfilled : Filled storage t offset bufferSize buffer buffer offset :=
      ⟨fun v hlow hhigh => absurd hhigh (not_lt.mpr hlow), fun _ _ => rfl⟩
    exact ⟨hlast.lt, hv, rfl, rfl, le_rfl, hlast.le, hbound, by dsimp only; omega, hfilled, hfilled,
      le_rfl, nofun⟩
  obtain ⟨final', hloop', hfilled, hfilled'⟩ := hstart.operateLoop r hinside bufferSize
    n _ _ final (by dsimp only; omega) hloop
  refine ⟨hfilled, ?_⟩
  rw [require_bind hrange, ok_bind hfind, require_bind hvirtual, ok_bind hloop',
    ← hfilled.eq hfilled']
  rfl

end Round

end IndirectStorage

/-- A successful read of an indirect storage fills the buffer with the bytes that the table maps
its offsets to, and changes nothing behind them. The read that goes entry by entry succeeds with
the same buffer. -/
theorem indirectStorage_read {nodeStorage entryStorage : SubStorage} {l2Count : ℕ} {t : EntryTable}
    (h : Layout nodeStorage entryStorage IndirectStorage.nodeSize byteSize l2Count t)
    {table : BucketTree} (htable : BucketTree.initializeTree true nodeStorage entryStorage
      IndirectStorage.nodeSize byteSize t.count = .ok table)
    {storage : IndirectStorage} (hstorage : storage.table = table) {c : OperateContext}
    (hmove : AdvancesOn c.moveNext IndirectStorage.nodeSize byteSize t)
    {offset : ℤ} {size : ℕ} {buffer b : Bytes}
    (hread : storage.read c offset buffer size = .ok b) :
    (∀ i < size, ∃ n, IsLast t.offset 0 t.count (offset + i) n ∧
      b i = storage.mappedByte (t.indirect n) (offset + i)) ∧
    (∀ i, size ≤ i → b i = buffer i) ∧
    storage.readWith c false offset buffer size = .ok b := by
  obtain ⟨tree, hinit, r, hnode, hentry⟩ := h.initializeTree
  rw [htable] at hinit
  cases hinit
  rw [← hnode, ← hentry] at hmove
  subst hstorage
  obtain ⟨hfilled, hplain⟩ := IndirectStorage.read_filled ⟨r, hentry, hmove⟩ hread
  refine ⟨fun i hi => ?_, hfilled.untouched, hplain⟩
  obtain ⟨n, hlast, hb⟩ := hfilled.mapped (offset + i) (by omega) (by omega)
  rw [show (offset + i - offset).toNat = i by omega] at hb
  exact ⟨n, hlast, hb⟩

/-! ### A read over a fragment -/

/-- The visitor at an entry. -/
def EntryTable.visitorAt (t : EntryTable) (nodeSize entrySize n : ℕ) : Visitor :=
  let perSet := BucketTree.getEntryCount nodeSize entrySize
  ⟨t.entry n, (n % perSet : ℕ), BucketTree.getEntrySetCount nodeSize entrySize t.count,
    ⟨(n / perSet : ℕ), t.setSize perSet (n / perSet), t.setOffset perSet (n / perSet + 1),
      t.offset (n / perSet * perSet)⟩⟩

/-- The visitor behind another one. -/
def EntryTable.advance (t : EntryTable) (nodeSize entrySize : ℕ) (v : Visitor) : FsOp Visitor :=
  .ok (t.visitorAt nodeSize entrySize
    (v.entrySet.index.toNat * BucketTree.getEntryCount nodeSize entrySize + v.entryIndex.toNat + 1))

theorem EntryTable.advancesOn (t : EntryTable) (nodeSize entrySize : ℕ) :
    AdvancesOn (t.advance nodeSize entrySize) nodeSize entrySize t := by
  intro v n hv _
  refine ⟨t.visitorAt nodeSize entrySize (n + 1), ?_, fun _ _ => rfl, rfl, rfl, rfl⟩
  unfold advance
  rw [hv.entryIndex, hv.entrySet]
  rw [Int.toNat_natCast, Int.toNat_natCast, Nat.div_add_mod']

/-- An entry with small numbers. -/
def indirectBytes (virtualOffset physicalOffset storageIndex : ℕ) : List (BitVec 8) :=
  numberBytes 8 virtualOffset ++ numberBytes 8 physicalOffset ++ numberBytes 4 storageIndex

/-- Two entries of the base storage around a fragment. -/
def threeEntryBytes (i : ℕ) : List (BitVec 8) :=
  indirectBytes (10 * i) (if i = 1 then 0 else 10 * i) (if i = 1 then 1 else 0)

def threeEntries : EntryTable where
  count := 3
  entry := fun i => .ofList (threeEntryBytes i)
  endOffset := 30
  count_pos := by decide
  first_nonneg := by decide
  increasing := by
    have hall : ∀ j < 3, ∀ i < j, (Bytes.ofList (threeEntryBytes i)).getInt64 0 <
        (Bytes.ofList (threeEntryBytes j)).getInt64 0 := by decide
    exact fun i j hij hj => hall j hj i hij
  last_lt := by decide

def threeNodes : SubStorage := ⟨.ofList (nodeBytes 0 1 30 [0]), 0x4000⟩

def threeEntrySets : SubStorage :=
  ⟨.ofList (nodeBytes 0 3 30 [] ++ threeEntryBytes 0 ++ threeEntryBytes 1 ++ threeEntryBytes 2),
    0x4000⟩

theorem layout_threeNodes : Layout threeNodes threeEntrySets IndirectStorage.nodeSize
    byteSize 0 threeEntries where
  entrySize_ge := by decide
  nodeSize_ge := by decide
  l2Count_eq := by decide +kernel
  entrySets := by
    decide +kernel
  l1 := fun _ => by decide +kernel
  l1WithL2 := nofun
  l1Rest := nofun
  l2 := nofun

/-- The storages of the three entries, and what a read of them gets. -/
def threeStorage (table : BucketTree) : IndirectStorage :=
  ⟨table, fun i => ⟨fun j => BitVec.ofNat 8 (100 * i + j), 30⟩⟩

def threeContext : OperateContext where
  memory := ⟨true, ⟨fun _ => 0, 0⟩, ⟨fun _ => 0, 0⟩⟩
  scanPool := fun _ => ⟨fun _ => 0, 0x4000⟩
  moveNext := threeEntries.advance IndirectStorage.nodeSize byteSize

theorem threeStorage_read : ((do
    let table ← BucketTree.initializeTree true threeNodes threeEntrySets IndirectStorage.nodeSize
      byteSize threeEntries.count
    let b ← (threeStorage table).read threeContext 5 (fun _ => 0) 23
    return b 15) : FsOp (BitVec 8)) = .ok 20 := by
  decide +kernel

theorem indirectStorage_read_threeEntries :
    ∃ table b, BucketTree.initializeTree true threeNodes threeEntrySets IndirectStorage.nodeSize
        byteSize threeEntries.count = .ok table ∧
      (threeStorage table).read threeContext 5 (fun _ => 0) 23 = .ok b ∧
      (∀ i : ℕ, i < 23 → ∃ n, IsLast threeEntries.offset 0 threeEntries.count (5 + i) n ∧
        b i = (threeStorage table).mappedByte (threeEntries.indirect n) (5 + i)) ∧
      (∀ i, 23 ≤ i → b i = 0) ∧
      (threeStorage table).readWith threeContext false 5 (fun _ => 0) 23 = .ok b := by
  obtain ⟨table, htable, hrest⟩ := bind_eq_ok.mp threeStorage_read
  obtain ⟨b, hread, -⟩ := bind_eq_ok.mp hrest
  exact ⟨table, b, htable, hread, indirectStorage_read layout_threeNodes htable rfl
    (threeEntries.advancesOn _ _) hread⟩

end Atmosphere.Fs
