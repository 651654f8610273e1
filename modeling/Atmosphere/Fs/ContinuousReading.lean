import Atmosphere.Fs.BucketTreeFind
import Atmosphere.Fs.IndirectStorage

/-!
# The scan for continuous reading

The scan goes over entries of one entry set (`ScansSet`), from the entry of the visitor on. Its
invariant `Scanned` says that the entries of the base storage among those it has passed continue
the first one, and that they end inside the part that can be read at once.
-/

namespace Atmosphere.Fs

namespace IndirectEntry

variable {b b' : Bytes}

theorem ofBytes_congr (h : ∀ i < byteSize, b i = b' i) : ofBytes b = ofBytes b' := by
  have h₀ : ∀ j < 8, b (0 + j) = b' (0 + j) := fun j hj => h _ (by simp only [byteSize]; omega)
  have h₈ : ∀ j < 8, b (8 + j) = b' (8 + j) := fun j hj => h _ (by simp only [byteSize]; omega)
  have h₁₆ : ∀ j < 4, b (16 + j) = b' (16 + j) := fun j hj => h _ (by simp only [byteSize]; omega)
  unfold ofBytes
  rw [Bytes.getInt64_congr h₀, Bytes.getInt64_congr h₈, Bytes.getInt32_congr h₁₆]

theorem isFragment_eq_false {entry : IndirectEntry} :
    entry.isFragment = false ↔ entry.storageIndex = 0 := by
  simp [isFragment]

end IndirectEntry

/-- An entry of the table of an indirect storage. -/
def EntryTable.indirect (t : EntryTable) (n : ℕ) : IndirectEntry := .ofBytes (t.entry n)

/-! ### The entries of an entry set -/

/-- The scan works on the entry set of the entries from `first` to `first + count`. -/
structure ScansSet (tree : BucketTree) (buffer : Option Bytes) (param : ContinuousReadingParam)
    (t : EntryTable) (first count : ℕ) : Prop where
  count_eq : param.entrySet.count = count
  offset_eq : param.entrySet.offset = t.bound (first + count)
  le_count : first + count ≤ t.count
  readEntry : ∀ i < count, tree.readEntry buffer param i = .ok (t.indirect (first + i))
  includes : ∀ e < t.count, tree.includes (t.offset e) = true

variable {tree : BucketTree} {buffer : Option Bytes} {param : ContinuousReadingParam}
variable {t : EntryTable} {first count : ℕ} {s : ScanState}

theorem ScansSet.scanNextEntry (h : ScansSet tree buffer param t first count) {i : ℕ}
    (hi : i < count) : ∃ next, tree.scanNextEntry buffer param i =
        .ok (next, t.bound (first + (i + 1))) ∧
      (i + 1 < count → next = t.indirect (first + (i + 1))) := by
  have hle := h.le_count
  unfold BucketTree.scanNextEntry
  rw [h.count_eq]
  split_ifs with hnext
  · have hlt : i + 1 < count := by omega
    refine ⟨t.indirect (first + (i + 1)), ?_, fun _ => rfl⟩
    rw [ok_bind (h.readEntry (i + 1) hlt), t.bound_of_lt (by omega)]
    exact require_bind (h.includes _ (by omega))
  · refine ⟨⟨0, 0, 0⟩, ?_, fun hlt => absurd hlt (by omega)⟩
    rw [h.offset_eq, show i + 1 = count by omega]
    rfl

/-! ### The loop -/

/-- What the scan has seen when it has passed the entries before `first + s.entryIndex`. -/
structure Scanned (param : ContinuousReadingParam) (t : EntryTable) (first count : ℕ)
    (s : ScanState) : Prop where
  index_ge : param.entryIndex ≤ s.entryIndex
  index_le : s.entryIndex ≤ count
  entry_eq : s.entryIndex < count → s.entry = t.indirect (first + s.entryIndex)
  curOffset_eq : s.curOffset =
    max param.offset (min (t.bound (first + s.entryIndex)) (param.offset + param.size))
  physOffset_eq : s.physOffset = param.entry.physicalOffset +
    (t.bound (first + s.entryIndex) - t.offset (first + param.entryIndex))
  sizes_eq : s.readableSize + s.mergeSize = s.curOffset - param.offset
  mergeSize_nonneg : 0 ≤ s.mergeSize
  continues : ∀ e, first + param.entryIndex ≤ e → e < first + s.entryIndex →
    (t.indirect e).storageIndex = 0 →
    (t.indirect e).physicalOffset = param.entry.physicalOffset +
        (t.offset e - t.offset (first + param.entryIndex)) ∧
      min (t.bound (e + 1)) (param.offset + param.size) ≤ param.offset + s.readableSize

/-- The scan begins at an offset of the entry of the visitor. -/
structure ScanStart (param : ContinuousReadingParam) (t : EntryTable) (first count : ℕ) : Prop where
  index_lt : param.entryIndex < count
  entry_eq : param.entry = t.indirect (first + param.entryIndex)
  offset_le : t.offset (first + param.entryIndex) ≤ param.offset
  lt_bound : param.offset < t.bound (first + param.entryIndex + 1)
  size_pos : 0 < param.size

/-- The state in which the loop begins. -/
theorem ScanStart.scanned (hs : ScanStart param t first count) (hle : first + count ≤ t.count) :
    Scanned param t first count ⟨param.entryIndex, param.offset, param.entry,
      param.entry.physicalOffset, 0, 0, false⟩ := by
  have hlt := hs.index_lt
  have hoffset := hs.offset_le
  have hbound : t.bound (first + param.entryIndex) = t.offset (first + param.entryIndex) :=
    t.bound_of_lt (by omega)
  refine ⟨le_rfl, hlt.le, fun _ => hs.entry_eq, ?_, ?_, ?_, le_rfl, ?_⟩
  · dsimp only
    omega
  · dsimp only
    omega
  · dsimp only
    omega
  · intro e hge hlt'
    exact absurd hlt' (Nat.not_lt.mpr hge)

/-- A round of the loop passes one entry, or leaves the loop. It does not fail. -/
theorem Scanned.scanStep (h : ScansSet tree buffer param t first count)
    (hs : ScanStart param t first count) (hscan : Scanned param t first count s)
    (hlt : s.entryIndex < count) :
    tree.scanStep buffer param s = .ok none ∨ ∃ s', tree.scanStep buffer param s = .ok (some s') ∧
        s'.entryIndex = s.entryIndex + 1 ∧ Scanned param t first count s' := by
  have hle := h.le_count
  have hge := hscan.index_ge
  have hcur := hscan.curOffset_eq
  have hstart := hs.lt_bound
  have hmono := @t.bound_mono (first + param.entryIndex + 1) (first + (s.entryIndex + 1)) (by omega)
  have hnext_lt := @t.offset_lt_bound (first + s.entryIndex) (first + (s.entryIndex + 1))
    (by omega) (by omega)
  have hbound : t.bound (first + s.entryIndex) = t.offset (first + s.entryIndex) :=
    t.bound_of_lt (by omega)
  obtain ⟨next, hnext, hnext_eq⟩ := h.scanNextEntry hlt
  unfold BucketTree.scanStep
  dsimp only
  by_cases hend : param.offset + param.size ≤ s.curOffset
  · exact .inl (if_pos hend)
  have hvirtual : s.entry.virtualOffset = t.offset (first + s.entryIndex) := by
    rw [hscan.entry_eq hlt]
    rfl
  rw [require_bind (by rw [hvirtual]; omega), ok_bind hnext]
  rw [require_bind (by omega)]
  -- The part of the entry that the round passes ends with the entry or with the whole read.
  have hcur' : s.curOffset + min (t.bound (first + (s.entryIndex + 1)) - s.curOffset)
      (param.offset + param.size - s.curOffset) = max param.offset
        (min (t.bound (first + (s.entryIndex + 1))) (param.offset + param.size)) := by
    omega
  have hphys := hscan.physOffset_eq
  have hsizes := hscan.sizes_eq
  have hmerge := hscan.mergeSize_nonneg
  have hphys' : s.physOffset + (t.bound (first + (s.entryIndex + 1)) - s.entry.virtualOffset) =
      param.entry.physicalOffset + (t.bound (first + (s.entryIndex + 1)) -
        t.offset (first + param.entryIndex)) := by
    omega
  split_ifs with hfragment hlarge hphysical
  · exact .inl rfl
  · refine .inr ⟨_, rfl, rfl, ⟨Nat.le_succ_of_le hge, hlt, hnext_eq, hcur', hphys', ?_, ?_, ?_⟩⟩
    · dsimp only
      omega
    · dsimp only
      omega
    · intro e hge' hlt' hbase
      obtain heq | hlt'' : e = first + s.entryIndex ∨ e < first + s.entryIndex := by
        dsimp only at hlt'
        omega
      · rw [hscan.entry_eq hlt, ← heq] at hfragment
        rw [IndirectEntry.isFragment_eq_false.mpr hbase] at hfragment
        exact absurd hfragment (by decide)
      · exact hscan.continues e hge' hlt'' hbase
  · exact .inl rfl
  · refine .inr ⟨_, rfl, rfl, ⟨Nat.le_succ_of_le hge, hlt, hnext_eq, hcur', hphys', ?_, le_rfl, ?_⟩⟩
    · dsimp only
      omega
    · intro e hge' hlt' hbase
      obtain rfl | hlt'' : e = first + s.entryIndex ∨ e < first + s.entryIndex := by
        dsimp only at hlt'
        omega
      · rw [← hscan.entry_eq hlt]
        constructor
        · rw [← not_not.mp hphysical, hphys, hbound]
        · dsimp only
          rw [Nat.add_assoc]
          omega
      · obtain ⟨hphys_e, hend_e⟩ := hscan.continues e hge' hlt'' hbase
        refine ⟨hphys_e, ?_⟩
        dsimp only
        omega

theorem Scanned.scanLoop (h : ScansSet tree buffer param t first count)
    (hs : ScanStart param t first count) :
    ∀ (rounds : ℕ) (s : ScanState), s.entryIndex + rounds ≤ count → Scanned param t first count s →
      ∃ s', tree.scanLoop buffer param rounds s = .ok s' ∧ Scanned param t first count s'
  | 0, s, _, hscan => ⟨s, rfl, hscan⟩
  | rounds + 1, s, hrounds, hscan => by
    obtain hstop | ⟨s', hstep, hindex, hscan'⟩ := hscan.scanStep h hs (by omega)
    · exact ⟨s, ok_bind hstop, hscan⟩
    · obtain ⟨s'', hloop, hscan''⟩ := Scanned.scanLoop h hs rounds s' (by omega) hscan'
      exact ⟨s'', (ok_bind hstep).trans hloop, hscan''⟩

/-! ### The whole scan -/

/-- What the scan promises at the entry `n`: if it reads several entries at once, then the ones
of the base storage among the skipped entries lie where the read finds them. -/
structure ContinuousFrom (t : EntryTable) (n : ℕ) (offset endOffset : ℤ)
    (info : ContinuousReadingInfo) : Prop where
  skipCount_pos : 0 < info.skipCount
  base : (t.indirect n).storageIndex = 0
  readSize_le : offset + info.readSize ≤ endOffset
  continues : ∀ e : ℕ, n ≤ e → (e : ℤ) < n + info.skipCount → (t.indirect e).storageIndex = 0 →
    (t.indirect e).physicalOffset = (t.indirect n).physicalOffset + (t.offset e - t.offset n) ∧
      min (t.bound (e + 1)) endOffset ≤ offset + info.readSize

/-- The scan does not fail, and keeps its promise. -/
theorem ScanStart.scanContinuousReading {pool : PooledBuffer} (hs : ScanStart param t first count)
    (hbuffer : ∃ buffer, tree.scanBuffer param pool = .ok buffer ∧
      ScansSet tree buffer param t first count) :
    ∃ info, tree.scanContinuousReading param pool = .ok info ∧ info.done = false ∧
      (0 < info.readSize → ContinuousFrom t (first + param.entryIndex) param.offset
        (param.offset + param.size) info) := by
  have hsize := hs.size_pos
  unfold BucketTree.scanContinuousReading
  rw [if_neg (by omega)]
  split_ifs with hfragment
  · exact ⟨_, rfl, rfl, fun hread => absurd hread (lt_irrefl _)⟩
  · obtain ⟨buffer, hbuffer, h⟩ := hbuffer
    have hvirtual : param.entry.virtualOffset ≤ param.offset := by
      rw [hs.entry_eq]
      exact hs.offset_le
    have hlt := hs.index_lt
    obtain ⟨s, hloop, hscan⟩ := Scanned.scanLoop h hs (param.entrySet.count.toNat -
      param.entryIndex) _ (by dsimp only; rw [h.count_eq]; omega) (hs.scanned h.le_count)
    refine ⟨⟨if s.merged then s.readableSize else 0, s.entryIndex - param.entryIndex, false⟩,
      ?_, rfl, fun hread => ?_⟩
    · rw [require_bind hvirtual, ok_bind hbuffer, ok_bind hloop]
      rfl
    · dsimp only at hread
      have hmerged : s.merged = true := by
        by_contra hmerged
        rw [if_neg hmerged] at hread
        exact lt_irrefl _ hread
      have hsizes := hscan.sizes_eq
      have hmerge := hscan.mergeSize_nonneg
      have hcur := hscan.curOffset_eq
      have hge := hscan.index_ge
      refine ⟨?_, ?_, ?_, fun e hn he hbase => ?_⟩
      -- Before the first entry nothing can be read.
      · dsimp only
        by_contra hskip
        rw [show s.entryIndex = param.entryIndex by omega] at hcur
        have hoffset := hs.offset_le
        rw [t.bound_of_lt (by have := h.le_count; omega)] at hcur
        omega
      · rw [← hs.entry_eq]
        exact IndirectEntry.isFragment_eq_false.mp (by simpa using hfragment)
      · dsimp only
        omega
      · dsimp only at he ⊢
        rw [if_pos hmerged, ← hs.entry_eq]
        exact hscan.continues e hn (by omega) hbase

/-! ### The scan of a visitor -/

namespace BucketTree.Represents

variable {l2Count n : ℕ} {v : Visitor}

variable (r : tree.Represents l2Count t)
include r

theorem includes_offset {e : ℕ} (he : e < t.count) : tree.includes (t.offset e) = true := by
  have hmono := t.offset_mono (Nat.zero_le e) he
  have hlast := t.last_lt e he
  unfold includes
  rw [r.startOffset_eq, r.endOffset_eq]
  simp only [Bool.and_eq_true, decide_eq_true_eq]
  exact ⟨hmono, hlast⟩

/-- The entries of an entry set can be read from a buffer or from the storage. -/
theorem scanBuffer
    (hentry : tree.entrySize = IndirectEntry.byteSize) {k : ℕ} (hk : k < tree.entrySetCount)
    (pool : PooledBuffer) (hset : param.entrySet = ⟨k, t.setSize tree.perSet k,
        t.setOffset tree.perSet (k + 1)⟩) :
    ∃ buffer, tree.scanBuffer param pool = .ok buffer ∧
      ScansSet tree buffer param t (k * tree.perSet) (t.setSize tree.perSet k) := by
  rw [r.entrySetCount_eq] at hk
  have hlt : k * tree.perSet < t.count := r.lt_entrySetCount.mp hk
  have node := r.searchable_entrySet hk
  have hinside := node.inside
  have hbytes := (r.entrySets k hk).2
  have hindex : param.entrySet.index.toNat = k := by
    rw [hset]
    exact Int.toNat_natCast k
  -- The last entry set can be smaller than the others.
  have hend : t.setOffset tree.perSet (k + 1) = t.bound (k * tree.perSet +
        t.setSize tree.perSet k) := by
    unfold EntryTable.setOffset EntryTable.setSize
    rw [Nat.add_mul, Nat.one_mul]
    obtain hfull | hpart := Nat.le_total tree.perSet (t.count - k * tree.perSet)
    · rw [Nat.min_eq_left hfull]
    · rw [t.bound_of_le (by omega), t.bound_of_le (by omega)]
  have hscans : ∀ buffer, (∀ i < t.setSize tree.perSet k, tree.readEntry buffer param i =
        .ok (t.indirect (k * tree.perSet + i))) →
      ScansSet tree buffer param t (k * tree.perSet) (t.setSize tree.perSet k) := by
    intro buffer hread
    refine ⟨?_, ?_, ?_, hread, fun e he => r.includes_offset he⟩
    · rw [hset]
    · rw [hset, ← hend]
    · unfold EntryTable.setSize
      omega
  unfold BucketTree.scanBuffer
  split_ifs with hpool
  · rw [hindex]
    refine ⟨_, ok_bind (SubStorage.read_of_le hinside), hscans _ fun i hi => ?_⟩
    have hposition := node.position_lt hi
    refine congrArg Except.ok (IndirectEntry.ofBytes_congr fun b hb => ?_)
    rw [← hentry] at hb
    rw [← hbytes i hi b hb, Bytes.drop, Bytes.write_of_mem (by omega)
      (by unfold getBucketTreeEntryOffset; omega), Bytes.drop]
    congr 1
    unfold getBucketTreeEntryOffset
    omega
  · refine ⟨none, rfl, hscans _ fun i hi => ?_⟩
    have hposition := node.position_lt hi
    unfold readEntry
    rw [hindex]
    refine (ok_bind (SubStorage.read_of_le ?_)).trans ?_
    · unfold getBucketTreeEntryOffset
      omega
    · refine congrArg Except.ok (IndirectEntry.ofBytes_congr fun b hb => ?_)
      rw [← hentry] at hb
      rw [← hbytes i hi b hb, Bytes.write_of_mem (by omega) (by omega), Bytes.drop, Nat.sub_zero]

/-- The scan of a visitor that points at an entry. -/
theorem scanContinuousReading (hentry : tree.entrySize = IndirectEntry.byteSize)
    (hv : v.PointsAt tree.nodeSize tree.entrySize t n) (hn : n < t.count) (pool : PooledBuffer)
    {offset size : ℤ} (hoffset : t.offset n ≤ offset) (hbound : offset < t.bound (n + 1))
    (hsize : 0 < size) :
    ∃ info, v.scanContinuousReading tree pool offset size = .ok info ∧ info.done = false ∧
      (0 < info.readSize → ContinuousFrom t n offset (offset + size) info) := by
  have hpos : 0 < tree.perSet := r.perSet_pos
  have hdiv := Nat.div_add_mod n tree.perSet
  have hmod := Nat.mod_lt n hpos
  rw [Nat.mul_comm] at hdiv
  have hk : n / tree.perSet < tree.entrySetCount := by
    rw [r.entrySetCount_eq]
    exact r.lt_entrySetCount.mpr (show n / tree.perSet * tree.perSet < t.count by omega)
  have hindex : v.entryIndex.toNat = n % tree.perSet := by
    rw [hv.entryIndex, Int.toNat_natCast]
  have hparam : v.entrySet.header = ⟨(n / tree.perSet : ℕ), t.setSize tree.perSet (n / tree.perSet),
      t.setOffset tree.perSet (n / tree.perSet + 1)⟩ := by
    rw [hv.entrySet]
    rfl
  have hset := @r.scanBuffer _ ⟨offset, size, v.entrySet.header, v.entryIndex.toNat,
    .ofBytes v.entry⟩ _ _ hentry _ hk pool hparam
  have hs : ScanStart ⟨offset, size, v.entrySet.header, v.entryIndex.toNat, .ofBytes v.entry⟩ t
      (n / tree.perSet * tree.perSet)
      (t.setSize tree.perSet (n / tree.perSet)) := by
    refine ⟨?_, ?_, ?_, ?_, hsize⟩
    · dsimp only
      unfold EntryTable.setSize
      omega
    · rw [hindex, hdiv]
      exact IndirectEntry.ofBytes_congr fun b hb => hv.entry b (hentry ▸ hb)
    · rw [hindex, hdiv]
      exact hoffset
    · rw [hindex, hdiv]
      exact hbound
  have hscan := hs.scanContinuousReading hset
  rw [hindex, hdiv] at hscan
  unfold Visitor.scanContinuousReading
  rw [hindex]
  exact hscan

end BucketTree.Represents

end Atmosphere.Fs
