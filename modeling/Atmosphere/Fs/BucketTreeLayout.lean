import Atmosphere.Fs.BucketTree

/-!
# The layout of a bucket tree

`EntryTable` is what a bucket tree stands for: entries with strictly increasing offsets. `Layout`
says how its entries and their offsets lie in the two storages of a tree.
-/

namespace Atmosphere.Fs

/-- The entries of a bucket tree. The offset of an entry is its first field. -/
structure EntryTable where
  count : ℕ
  entry : ℕ → Bytes
  endOffset : ℤ
  count_pos : 0 < count
  first_nonneg : 0 ≤ (entry 0).getInt64 0
  increasing : ∀ i j, i < j → j < count → (entry i).getInt64 0 < (entry j).getInt64 0
  last_lt : ∀ i < count, (entry i).getInt64 0 < endOffset

namespace EntryTable

variable (t : EntryTable) {perSet i j k : ℕ}

/-- The virtual offset of an entry. -/
def offset (i : ℕ) : ℤ := (t.entry i).getInt64 0

/-- The offset of an entry; behind the last entry, the end of the table. -/
def bound (i : ℕ) : ℤ := if i < t.count then t.offset i else t.endOffset

/-- The first offset of an entry set, or the end of the table. -/
def setOffset (perSet k : ℕ) : ℤ := t.bound (k * perSet)

/-- The number of entries of an entry set: all sets but the last are full. -/
def setSize (perSet k : ℕ) : ℕ := min perSet (t.count - k * perSet)

theorem bound_of_lt (hi : i < t.count) : t.bound i = t.offset i := if_pos hi

theorem bound_of_le (hi : t.count ≤ i) : t.bound i = t.endOffset := if_neg (Nat.not_lt.mpr hi)

theorem offset_mono (hij : i ≤ j) (hj : j < t.count) : t.offset i ≤ t.offset j := by
  obtain rfl | hlt := Nat.eq_or_lt_of_le hij
  · exact le_rfl
  · exact (t.increasing i j hlt hj).le

/-- An entry ends behind its beginning. -/
theorem offset_lt_bound (hi : i < t.count) (hij : i < j) : t.offset i < t.bound j := by
  unfold bound
  split_ifs with hj
  · exact t.increasing i j hij hj
  · exact t.last_lt i hi

theorem bound_mono (hij : i ≤ j) : t.bound i ≤ t.bound j := by
  obtain rfl | hlt := Nat.eq_or_lt_of_le hij
  · exact le_rfl
  obtain hi | hi := Nat.lt_or_ge i t.count
  · rw [t.bound_of_lt hi]
    exact (t.offset_lt_bound hi hlt).le
  · rw [t.bound_of_le hi, t.bound_of_le (by omega)]

theorem setOffset_of_lt (hk : k * perSet < t.count) :
    t.setOffset perSet k = t.offset (k * perSet) := t.bound_of_lt hk

theorem setOffset_mono (hjk : j ≤ k) : t.setOffset perSet j ≤ t.setOffset perSet k :=
  t.bound_mono (Nat.mul_le_mul_right perSet hjk)

theorem setOffset_nonneg : 0 ≤ t.setOffset perSet k := by
  have hfirst : 0 ≤ t.offset 0 := t.first_nonneg
  rw [← t.bound_of_lt t.count_pos] at hfirst
  exact hfirst.trans (t.bound_mono (Nat.zero_le _))

end EntryTable

theorem divideUp_pos {v d : ℕ} (hv : 0 < v) (hd : 0 < d) : 0 < divideUp v d :=
  Nat.div_pos (by omega) hd

theorem lt_divideUp {v d k : ℕ} (hd : 0 < d) : k < divideUp v d ↔ k * d < v := by
  unfold divideUp
  rw [Nat.lt_iff_add_one_le, Nat.le_div_iff_mul_le hd, Nat.add_mul]
  omega

theorem divideUp_le {v d k : ℕ} (hd : 0 < d) : divideUp v d ≤ k ↔ v ≤ k * d := by
  rw [← Nat.not_lt, lt_divideUp hd, Nat.not_lt]

namespace BucketTree

/-- The first entry set of a node L2, where `offsets` is the number of offsets of a node. -/
def firstSet (offsets l2Count j : ℕ) : ℕ := (offsets - l2Count) + offsets * j

/-- Two rounded-up divisions give the least number of nodes L2 that have room for `e` entry sets. -/
theorem isLeast_divideUp {e o : ℕ} (ho : 0 < o) (hmore : o < e) (hroom : divideUp e o ≤ o) :
    divideUp (e - (o - (divideUp e o - 1))) o ≤ o ∧
      IsLeast {c | e ≤ firstSet o c c} (divideUp (e - (o - (divideUp e o - 1))) o) := by
  -- `n` nodes would do if the node L1 had no entry sets of its own.
  generalize hn : divideUp e o = n at hroom ⊢
  have hn_le : e ≤ n * o := (divideUp_le ho).mp hn.le
  generalize hc : divideUp (e - (o - (n - 1))) o = c
  have hc_le : ∀ {k}, c ≤ k ↔ e - (o - (n - 1)) ≤ k * o := fun {k} => hc ▸ divideUp_le ho
  have hc_self := hc_le.mp le_rfl
  have hcn : c ≤ n := hc_le.mpr (by omega)
  refine ⟨hcn.trans hroom, ?_, fun k hk => hc_le.mpr ?_⟩
  · change e ≤ o - c + o * c
    rw [Nat.mul_comm]
    obtain rfl | hlt := hcn.eq_or_lt
    · omega
    · omega
  · change e ≤ o - k + o * k at hk
    rw [Nat.mul_comm] at hk
    have hnk : n ≤ k + 1 := hn ▸ (divideUp_le ho).mpr (by rw [Nat.add_mul]; omega)
    omega

/-- The number of nodes L2 is right: with the offsets that they leave free in the node L1 they
have room for all entry sets, and none of them is empty. -/
theorem getNodeL2Count_spec {nodeSize entrySize entryCount l2Count : ℕ}
    (hoffsets : 0 < getOffsetCount nodeSize)
    (h : getNodeL2Count nodeSize entrySize entryCount = some l2Count) :
    (l2Count = 0 ∧ getEntrySetCount nodeSize entrySize entryCount ≤ getOffsetCount nodeSize) ∨
    (0 < l2Count ∧ l2Count ≤ getOffsetCount nodeSize ∧
      getOffsetCount nodeSize < getEntrySetCount nodeSize entrySize entryCount ∧
      getEntrySetCount nodeSize entrySize entryCount ≤
        firstSet (getOffsetCount nodeSize) l2Count l2Count ∧
      ∀ j < l2Count, firstSet (getOffsetCount nodeSize) l2Count j <
        getEntrySetCount nodeSize entrySize entryCount) := by
  unfold getNodeL2Count at h
  dsimp only at h
  generalize getOffsetCount nodeSize = o at h hoffsets ⊢
  generalize getEntrySetCount nodeSize entrySize entryCount = e at h ⊢
  split_ifs at h with hfit hroom
  · injection h with h
    exact .inl ⟨h.symm, hfit⟩
  · injection h with h
    right
    obtain ⟨hle, henough, hmin⟩ := isLeast_divideUp hoffsets (by omega) hroom
    rw [h] at hle henough hmin
    have hpos : 0 < l2Count := by
      refine Nat.pos_of_ne_zero fun h0 => hfit ?_
      rw [h0] at henough
      exact henough
    refine ⟨hpos, hle, by omega, henough, fun j hj => ?_⟩
    -- One node less is not enough.
    have hless : ¬ e ≤ firstSet o (l2Count - 1) (l2Count - 1) := fun hk => by
      have := hmin hk
      omega
    have hmul : o * j ≤ o * (l2Count - 1) := Nat.mul_le_mul_left o (by omega)
    unfold firstSet at hless ⊢
    omega

/-- If the node L1 has offsets for the least number of nodes L2 that have room for all entry sets
with it, that number is returned. -/
theorem getNodeL2Count_isLeast {nodeSize entrySize entryCount : ℕ} (hnode : 1024 ≤ nodeSize)
    (hmore : getOffsetCount nodeSize < getEntrySetCount nodeSize entrySize entryCount) (c : ℕ)
    (hc : c ≤ getOffsetCount nodeSize) :
    getNodeL2Count nodeSize entrySize entryCount = some c ↔
      IsLeast {c | getEntrySetCount nodeSize entrySize entryCount ≤
        (getOffsetCount nodeSize - c) + getOffsetCount nodeSize * c} c := by
  have ho : 0 < getOffsetCount nodeSize :=
    Nat.div_pos (by unfold NodeHeader.byteSize; omega) (by decide)
  unfold getNodeL2Count
  dsimp only
  generalize getOffsetCount nodeSize = o at *
  generalize getEntrySetCount nodeSize entrySize entryCount = e at *
  rw [if_neg (Nat.not_le.mpr hmore)]
  split_ifs with hroom
  · have hleast := (isLeast_divideUp ho hmore hroom).2
    rw [Option.some_inj]
    exact ⟨fun h => h ▸ hleast, fun h => le_antisymm (hleast.2 h.1) (h.2 hleast.1)⟩
  · refine iff_of_false nofun fun hleast => ?_
    have hlt : o * o < e := (lt_divideUp ho).mp (Nat.lt_of_not_le hroom)
    have henough : e ≤ o - c + o * c := hleast.1
    obtain ⟨d, rfl⟩ := Nat.exists_eq_add_of_le hc
    have hd := Nat.le_mul_of_pos_left d ho
    rw [Nat.mul_add] at hlt
    omega

/-- One more entry set than a node has offsets needs one node L2. -/
theorem getNodeL2Count_isLeast_one :
    IsLeast {c | getEntrySetCount 1024 8 16002 ≤
      (getOffsetCount 1024 - c) + getOffsetCount 1024 * c} 1 :=
  (getNodeL2Count_isLeast (by decide) (by decide) 1 (by decide)).mp (by decide)

end BucketTree

/-- A node with its header and its offsets, at a position of a storage. -/
structure NodeAt (storage : SubStorage) (position nodeSize stride : ℕ) (header : NodeHeader)
    (offset : ℕ → ℤ) : Prop where
  inside : (position + nodeSize : ℤ) ≤ storage.size
  header_eq : NodeHeader.ofBytes (storage.bytes.drop position) = header
  offsets : ∀ i : ℕ, i < header.count →
    storage.bytes.getInt64 (position + NodeHeader.byteSize + i * stride) = offset i

instance {storage : SubStorage} {position nodeSize stride : ℕ} {header : NodeHeader}
    {offset : ℕ → ℤ} : Decidable (NodeAt storage position nodeSize stride header offset) :=
  decidable_of_iff ((position + nodeSize : ℤ) ≤ storage.size ∧
      NodeHeader.ofBytes (storage.bytes.drop position) = header ∧
      ∀ i < header.count.toNat,
        storage.bytes.getInt64 (position + NodeHeader.byteSize + i * stride) = offset i)
    ⟨fun ⟨hinside, hheader, hoffsets⟩ => ⟨hinside, hheader, fun i hi => hoffsets i (by omega)⟩,
      fun n => ⟨n.inside, n.header_eq, fun i hi => n.offsets i (by omega)⟩⟩

/-- How a table lies in the storages of nodes and of entries. -/
structure Layout (nodeStorage entryStorage : SubStorage) (nodeSize entrySize l2Count : ℕ)
    (t : EntryTable) : Prop where
  entrySize_ge : 8 ≤ entrySize
  nodeSize_ge : entrySize + NodeHeader.byteSize ≤ nodeSize
  l2Count_eq : BucketTree.getNodeL2Count nodeSize entrySize t.count = some l2Count
  /-- Every entry set has its entries. -/
  entrySets : ∀ k < BucketTree.getEntrySetCount nodeSize entrySize t.count,
    let perSet := BucketTree.getEntryCount nodeSize entrySize
    NodeAt entryStorage (k * nodeSize) nodeSize entrySize
      ⟨k, t.setSize perSet k, t.setOffset perSet (k + 1)⟩ (fun i => t.offset (k * perSet + i)) ∧
    ∀ i < t.setSize perSet k, ∀ b < entrySize,
      entryStorage.bytes (getBucketTreeEntryOffset (k * nodeSize) entrySize i + b) =
        t.entry (k * perSet + i) b
  /-- Without nodes L2, the node L1 has the offsets of all entry sets. -/
  l1 : l2Count = 0 → NodeAt nodeStorage 0 nodeSize 8
    ⟨0, BucketTree.getEntrySetCount nodeSize entrySize t.count, t.endOffset⟩
    (t.setOffset (BucketTree.getEntryCount nodeSize entrySize))
  /-- With nodes L2, it has their offsets. -/
  l1WithL2 : 0 < l2Count → NodeAt nodeStorage 0 nodeSize 8 ⟨0, l2Count, t.endOffset⟩
    (fun j => t.setOffset (BucketTree.getEntryCount nodeSize entrySize)
      (BucketTree.firstSet (BucketTree.getOffsetCount nodeSize) l2Count j))
  /-- Behind them are the offsets of the first entry sets. -/
  l1Rest : 0 < l2Count → ∀ k < BucketTree.getOffsetCount nodeSize - l2Count,
    nodeStorage.bytes.getInt64 (NodeHeader.byteSize + 8 * (l2Count + k)) =
      t.setOffset (BucketTree.getEntryCount nodeSize entrySize) k
  /-- The nodes L2 have the offsets of the other entry sets. -/
  l2 : ∀ j < l2Count,
    let perSet := BucketTree.getEntryCount nodeSize entrySize
    let first := BucketTree.firstSet (BucketTree.getOffsetCount nodeSize) l2Count
    let last := min (first (j + 1)) (BucketTree.getEntrySetCount nodeSize entrySize t.count)
    NodeAt nodeStorage ((j + 1) * nodeSize) nodeSize 8
      ⟨j, (last - first j : ℕ), t.setOffset perSet last⟩ (fun i => t.setOffset perSet (first j + i))

end Atmosphere.Fs
