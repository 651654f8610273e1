import Atmosphere.Fs.BucketTreeLayout

/-!
# Searching the nodes of a bucket tree

Entry sets, nodes L2 and the node L1 are nodes with increasing offsets (`SearchableAt`). A node
is searched in a buffer or in the storage, with the same result. `Represents` says that a tree
was initialized over a layout, and its nodes can all be searched.
-/

namespace Atmosphere.Fs

open Search (IsLast)

namespace NodeHeader

variable {b b' : Bytes}

theorem ofBytes_congr (h : ∀ i < byteSize, b i = b' i) : ofBytes b = ofBytes b' := by
  have hint : ∀ j < 8, b (8 + j) = b' (8 + j) := fun j hj => h _ (by simp only [byteSize]; omega)
  have hint₀ : ∀ j < 4, b (0 + j) = b' (0 + j) := fun j hj => h _ (by simp only [byteSize]; omega)
  have hint₄ : ∀ j < 4, b (4 + j) = b' (4 + j) := fun j hj => h _ (by simp only [byteSize]; omega)
  unfold ofBytes
  rw [Bytes.getInt64_congr hint, Bytes.getInt32_congr hint₀, Bytes.getInt32_congr hint₄]

end NodeHeader

/-! ### Searching one node -/

/-- A node with increasing offsets that passes its verification. -/
structure SearchableAt (storage : SubStorage) (position nodeSize stride : ℕ) (header : NodeHeader)
    (offset : ℕ → ℤ) : Prop extends NodeAt storage position nodeSize stride header offset where
  stride_ge : 8 ≤ stride
  nodeSize_ge : stride + NodeHeader.byteSize ≤ nodeSize
  count_pos : 0 < header.count
  count_le : header.count ≤ ((nodeSize - NodeHeader.byteSize) / stride : ℕ)
  header_offset : 0 ≤ header.offset
  mono : ∀ i j, i ≤ j → j < header.count.toNat → offset i ≤ offset j

namespace SearchableAt

variable {storage : SubStorage} {position nodeSize stride : ℕ} {header : NodeHeader}
variable {offset : ℕ → ℤ} {virtualAddress : ℤ} {buffer : Bytes}

variable (n : SearchableAt storage position nodeSize stride header offset) {size : ℕ}
include n

/-- The bytes of the offsets lie inside the node. -/
theorem position_lt {i : ℕ} (hi : i < header.count.toNat) :
    NodeHeader.byteSize + i * stride + stride ≤ nodeSize := by
  have hcount := n.count_le
  have hsize := n.nodeSize_ge
  have hmul : (i + 1) * stride ≤ nodeSize - NodeHeader.byteSize := by
    have hle : i + 1 ≤ (nodeSize - NodeHeader.byteSize) / stride := by omega
    exact (Nat.mul_le_mul_right stride hle).trans (Nat.div_mul_le_self _ _)
  rw [Nat.add_mul, Nat.one_mul] at hmul
  omega

/-- The header can be read with any number of bytes that includes it. -/
theorem ofBytes_write (hsize : NodeHeader.byteSize ≤ size) :
    NodeHeader.ofBytes (buffer.write 0 size (storage.bytes.drop position)) = header := by
  rw [← n.header_eq]
  apply NodeHeader.ofBytes_congr
  intro i hi
  rw [Bytes.write_of_mem (by omega) (by omega), Nat.sub_zero]

theorem verify {index : ℤ} (hindex : header.index = index) :
    header.verify index nodeSize stride = .ok () := by
  have hstride := n.stride_ge
  unfold NodeHeader.verify
  rw [require_bind hindex, require_bind ⟨by omega, n.nodeSize_ge⟩,
    require_bind ⟨n.count_pos, n.count_le⟩, require_of n.header_offset]

theorem getInt64_write {i : ℕ} (hi : i < header.count.toNat) :
    (buffer.write 0 nodeSize (storage.bytes.drop position)).getInt64
      (NodeHeader.byteSize + i * stride) = offset i := by
  have hlt := n.position_lt hi
  have hstride := n.stride_ge
  rw [← n.offsets i (by omega)]
  apply Bytes.getInt64_congr
  intro j hj
  rw [Bytes.write_of_mem (by omega) (by omega), Bytes.drop]
  congr 1
  omega

/-- The search in a buffer with the whole node. -/
theorem find (hfirst : offset 0 ≤ virtualAddress) :
    ∃ k : ℕ, StorageNode.find ⟨NodeHeader.byteSize, stride, header.count.toNat⟩
        (buffer.write 0 nodeSize (storage.bytes.drop position)) virtualAddress = k ∧
      IsLast offset 0 header.count.toNat virtualAddress k := by
  have hpos := n.count_pos
  obtain ⟨k, hrun, hlast⟩ := @Search.upperBound_spec Id _ ℤ _
    (fun i => (buffer.write 0 nodeSize (storage.bytes.drop position)).getInt64
      (NodeHeader.byteSize + i * stride)) offset virtualAddress 0 header.count.toNat _
    (fun i _ hi => n.getInt64_write (by omega))
    (fun i j _ hij hj => n.mono i j hij (by omega)) hfirst (by omega)
  rw [Nat.zero_add] at hlast
  refine ⟨k, ?_, hlast⟩
  unfold StorageNode.find StorageNode.position
  rw [hrun]
  change ((k + 1 : ℕ) : ℤ) - 1 = k
  omega

/-- The search that reads one offset after another from the storage. -/
theorem findInStorage (hfirst : offset 0 ≤ virtualAddress) : ∃ k : ℕ, StorageNode.findInStorage
        ⟨NodeHeader.byteSize + position, stride, header.count.toNat⟩ storage virtualAddress =
          .ok (k : ℤ) ∧
      IsLast offset 0 header.count.toNat virtualAddress k := by
  have hpos := n.count_pos
  have hread : ∀ i < header.count.toNat, (storage.read ((StorageNode.position
      ⟨NodeHeader.byteSize + position, stride, header.count.toNat⟩ i : ℕ) : ℤ)
      (fun _ => 0) 0 8 >>= fun b => pure (b.getInt64 0)) = (pure (offset i) : FsOp ℤ) := by
    intro i hi
    have hlt := n.position_lt hi
    have hstride := n.stride_ge
    have hinside := n.inside
    unfold StorageNode.position
    dsimp only
    rw [ok_bind (SubStorage.read_of_le (by push_cast; omega))]
    congr 1
    rw [← n.offsets i (by omega)]
    apply Bytes.getInt64_congr
    intro j hj
    rw [Bytes.write_of_mem (by omega) (by omega), Bytes.drop]
    congr 1
    omega
  obtain ⟨k, hrun, hlast⟩ := @Search.upperBound_spec FsOp _ ℤ _ _ offset virtualAddress 0
    header.count.toNat _ (fun i _ hi => hread i (by omega))
    (fun i j _ hij hj => n.mono i j hij (by omega)) hfirst (by omega)
  rw [Nat.zero_add] at hlast
  refine ⟨k, ?_, hlast⟩
  unfold StorageNode.findInStorage
  rw [ok_bind hrun]
  congr 1
  omega

/-- The header of an entry set ends with the offset of its first entry. -/
theorem entrySetHeader_write (hsize : EntrySetHeader.byteSize ≤ size) :
    EntrySetHeader.ofBytes (buffer.write 0 size (storage.bytes.drop position)) =
      ⟨header.index, header.count, header.offset, offset 0⟩ := by
  have hsize' : 24 ≤ size := hsize
  have hpos := n.count_pos
  have hheader := @ofBytes_write _ _ _ _ _ _ buffer n size
    (by simp only [NodeHeader.byteSize]; omega)
  have hstart : (buffer.write 0 size (storage.bytes.drop position)).getInt64 16 = offset 0 := by
    rw [← n.offsets 0 (by omega)]
    apply Bytes.getInt64_congr
    intro j hj
    rw [Bytes.write_of_mem (by omega) (by omega), Bytes.drop]
    congr 1
    simp only [NodeHeader.byteSize]
    omega
  rw [← hheader, ← hstart]
  rfl

end SearchableAt

/-! ### Searching one entry set -/

namespace SearchableAt

variable {tree : BucketTree} {k : ℕ} {header : NodeHeader} {offset : ℕ → ℤ} {virtualAddress : ℤ}

/-- The visitor has the entry of an entry set, and its header. -/
structure Visits (tree : BucketTree) (k : ℕ) (header : NodeHeader) (offset : ℕ → ℤ) (i : ℕ)
    (v : Visitor) : Prop where
  entry : ∀ b < tree.entrySize, v.entry b = tree.entryStorage.bytes
    (getBucketTreeEntryOffset (k * tree.nodeSize) tree.entrySize i + b)
  entryIndex : v.entryIndex = i
  entrySet : v.entrySet = ⟨header.index, header.count, header.offset, offset 0⟩
  entrySetCount : v.entrySetCount = tree.entrySetCount

section

variable (hentrySet : EntrySetHeader.byteSize ≤ tree.nodeSize)
  (n : SearchableAt tree.entryStorage (k * tree.nodeSize) tree.nodeSize tree.entrySize header
    offset)
  (hindex : header.index = k) (hfirst : offset 0 ≤ virtualAddress)
include hentrySet n hindex hfirst

theorem findEntryWithBuffer (buffer : Bytes) :
    ∃ v i, Visitor.findEntryWithBuffer tree virtualAddress k buffer = .ok v ∧
      IsLast offset 0 header.count.toNat virtualAddress i ∧ Visits tree k header offset i v := by
  obtain ⟨i, hfind, hlast⟩ := @n.find _ _ _ _ _ _ _ buffer hfirst
  have hi := n.position_lt hlast.lt
  refine ⟨⟨Bytes.write (fun _ => 0) 0 tree.entrySize
    ((buffer.write 0 tree.nodeSize (tree.entryStorage.bytes.drop (k * tree.nodeSize))).drop
      (getBucketTreeEntryOffset 0 tree.entrySize i)), i, tree.entrySetCount, _⟩, i, ?_, hlast,
    fun b hb => ?_, rfl, rfl, rfl⟩
  · refine (ok_bind (SubStorage.read_of_le n.inside)).trans ?_
    rw [n.entrySetHeader_write hentrySet]
    refine (ok_bind (n.verify hindex)).trans ?_
    dsimp only
    rw [hfind]
    rfl
  · dsimp only
    rw [Bytes.write_of_mem (by omega) (by omega), Bytes.drop, Bytes.write_of_mem (by omega)
      (by unfold getBucketTreeEntryOffset; omega), Bytes.drop]
    congr 1
    unfold getBucketTreeEntryOffset
    omega

theorem findEntryWithoutBuffer :
    ∃ v i, Visitor.findEntryWithoutBuffer tree virtualAddress k = .ok v ∧
      IsLast offset 0 header.count.toNat virtualAddress i ∧ Visits tree k header offset i v := by
  obtain ⟨i, hfind, hlast⟩ := n.findInStorage hfirst
  have hi := n.position_lt hlast.lt
  have hinside := n.inside
  refine ⟨⟨Bytes.write (fun _ => 0) 0 tree.entrySize (tree.entryStorage.bytes.drop
    (getBucketTreeEntryOffset (k * tree.nodeSize) tree.entrySize i)), i, tree.entrySetCount, _⟩,
    i, ?_, hlast, fun b hb => ?_, rfl, rfl, rfl⟩
  · refine (ok_bind (SubStorage.read_of_le (by omega))).trans ?_
    rw [n.entrySetHeader_write le_rfl]
    refine (ok_bind (n.verify hindex)).trans ?_
    refine (ok_bind hfind).trans ?_
    rw [require_bind (by omega), Int.toNat_natCast]
    refine (ok_bind (SubStorage.read_of_le ?_)).trans rfl
    unfold getBucketTreeEntryOffset
    omega
  · dsimp only
    rw [Bytes.write_of_mem (by omega) (by omega), Bytes.drop, Nat.sub_zero]

/-- Both ways to search an entry set find the last entry that is not behind the address. -/
theorem findEntry (pool : PooledBuffer) :
    ∃ v i, Visitor.findEntry tree pool virtualAddress k = .ok v ∧
      IsLast offset 0 header.count.toNat virtualAddress i ∧ Visits tree k header offset i v := by
  unfold Visitor.findEntry
  split_ifs
  · exact n.findEntryWithBuffer hentrySet hindex hfirst pool.buffer
  · exact n.findEntryWithoutBuffer hentrySet hindex hfirst

end

/-- Both ways to search a node L2 find the last offset that is not behind the address. -/
theorem findEntrySet (pool : PooledBuffer)
    (n : SearchableAt tree.nodeStorage ((k + 1) * tree.nodeSize) tree.nodeSize 8 header offset)
    (hindex : header.index = k) (hfirst : offset 0 ≤ virtualAddress) :
    ∃ i : ℕ, Visitor.findEntrySet tree pool virtualAddress k = .ok (tree.getEntrySetIndex k i) ∧
      IsLast offset 0 header.count.toNat virtualAddress i := by
  have hnode := n.nodeSize_ge
  have hinside := n.inside
  unfold Visitor.findEntrySet
  split_ifs
  · obtain ⟨i, hfind, hlast⟩ := @n.find _ _ _ _ _ _ _ pool.buffer hfirst
    refine ⟨i, ?_, hlast⟩
    refine (ok_bind (SubStorage.read_of_le n.inside)).trans ?_
    rw [n.ofBytes_write (by omega)]
    refine (ok_bind (n.verify hindex)).trans ?_
    dsimp only
    rw [hfind, hindex]
    rfl
  · obtain ⟨i, hfind, hlast⟩ := n.findInStorage hfirst
    refine ⟨i, ?_, hlast⟩
    refine (ok_bind (SubStorage.read_of_le (by omega))).trans ?_
    rw [n.ofBytes_write le_rfl]
    refine (ok_bind (n.verify hindex)).trans ?_
    refine (ok_bind hfind).trans ?_
    rw [hindex]
    rfl

end SearchableAt

/-! ### The nodes of a tree -/

/-- A tree that was initialized over a layout. -/
structure BucketTree.Represents (tree : BucketTree) (l2Count : ℕ) (t : EntryTable) : Prop
    extends Layout tree.nodeStorage tree.entryStorage tree.nodeSize tree.entrySize l2Count t where
  offsetCount_eq : tree.offsetCount = getOffsetCount tree.nodeSize
  entrySetCount_eq : tree.entrySetCount = getEntrySetCount tree.nodeSize tree.entrySize t.count
  nodeL1_eq : tree.nodeL1.bytes =
    Bytes.write (fun _ => 0) 0 tree.nodeSize (tree.nodeStorage.bytes.drop 0)
  startOffset_eq : tree.startOffset = t.offset 0
  endOffset_eq : tree.endOffset = t.endOffset

/-- The number of entries of a full entry set. -/
abbrev BucketTree.perSet (tree : BucketTree) : ℕ := getEntryCount tree.nodeSize tree.entrySize

namespace Layout

open BucketTree

variable {nodeStorage entryStorage : SubStorage} {nodeSize entrySize l2Count : ℕ}
variable {t : EntryTable}

variable (h : Layout nodeStorage entryStorage nodeSize entrySize l2Count t)
include h

theorem perSet_pos : 0 < getEntryCount nodeSize entrySize := by
  have hentry := h.entrySize_ge
  have hnode := h.nodeSize_ge
  exact Nat.div_pos (by omega) (by omega)

theorem offsets_pos : 0 < getOffsetCount nodeSize := by
  have hentry := h.entrySize_ge
  have hnode := h.nodeSize_ge
  exact Nat.div_pos (by omega) (by omega)

theorem lt_entrySetCount {k : ℕ} : k < getEntrySetCount nodeSize entrySize t.count ↔
      k * getEntryCount nodeSize entrySize < t.count :=
  lt_divideUp h.perSet_pos

theorem entrySetCount_pos : 0 < getEntrySetCount nodeSize entrySize t.count :=
  divideUp_pos t.count_pos h.perSet_pos

/-- An entry set can be searched. -/
theorem searchable_entrySet {k : ℕ} (hk : k < getEntrySetCount nodeSize entrySize t.count) :
    SearchableAt entryStorage (k * nodeSize) nodeSize entrySize
      ⟨k, t.setSize (getEntryCount nodeSize entrySize) k,
        t.setOffset (getEntryCount nodeSize entrySize) (k + 1)⟩
      (fun i => t.offset (k * getEntryCount nodeSize entrySize + i)) := by
  have hpos := h.perSet_pos
  have hlt := h.lt_entrySetCount.mp hk
  refine ⟨(h.entrySets k hk).1, h.entrySize_ge, h.nodeSize_ge, ?_, ?_, t.setOffset_nonneg,
    fun i j hij hj => t.offset_mono (by omega) ?_⟩
  · change (0 : ℤ) < (t.setSize _ k : ℕ)
    unfold EntryTable.setSize
    omega
  · change ((t.setSize _ k : ℕ) : ℤ) ≤ _
    exact_mod_cast Nat.min_le_left _ _
  · change j < t.setSize _ k at hj
    unfold EntryTable.setSize at hj
    omega

/-- A node L2 can be searched. -/
theorem searchable_l2 {j : ℕ} (hj : j < l2Count) :
    SearchableAt nodeStorage ((j + 1) * nodeSize) nodeSize 8
      ⟨j, (min (firstSet (getOffsetCount nodeSize) l2Count (j + 1))
          (getEntrySetCount nodeSize entrySize t.count) -
          firstSet (getOffsetCount nodeSize) l2Count j : ℕ),
        t.setOffset (getEntryCount nodeSize entrySize)
          (min (firstSet (getOffsetCount nodeSize) l2Count (j + 1))
            (getEntrySetCount nodeSize entrySize t.count))⟩
      (fun i => t.setOffset (getEntryCount nodeSize entrySize)
        (firstSet (getOffsetCount nodeSize) l2Count j + i)) := by
  have hentry := h.entrySize_ge
  have hnode := h.nodeSize_ge
  have hoffsets := h.offsets_pos
  obtain ⟨rfl, -⟩ | ⟨-, -, -, -, hnonempty⟩ :=
    getNodeL2Count_spec h.offsets_pos h.l2Count_eq
  · exact absurd hj (Nat.not_lt_zero j)
  have hfirst := hnonempty j hj
  have hnext : firstSet (getOffsetCount nodeSize) l2Count (j + 1) =
      firstSet (getOffsetCount nodeSize) l2Count j + getOffsetCount nodeSize := by
    unfold firstSet
    rw [Nat.mul_add, Nat.mul_one, Nat.add_assoc]
  refine ⟨h.l2 j hj, le_rfl, by omega, ?_, ?_, t.setOffset_nonneg,
    fun i i' hii _ => t.setOffset_mono (by omega)⟩
  · change (0 : ℤ) < (_ - _ : ℕ)
    omega
  · change ((_ - _ : ℕ) : ℤ) ≤ (getOffsetCount nodeSize : ℕ)
    omega

end Layout

/-- The visitor points at an entry of the table. -/
structure Visitor.PointsAt (v : Visitor) (nodeSize entrySize : ℕ) (t : EntryTable) (n : ℕ) :
    Prop where
  entry : ∀ b < entrySize, v.entry b = t.entry n b
  entryIndex : v.entryIndex = (n % BucketTree.getEntryCount nodeSize entrySize : ℕ)
  entrySet : v.entrySet = let perSet := BucketTree.getEntryCount nodeSize entrySize
    ⟨(n / perSet : ℕ), t.setSize perSet (n / perSet), t.setOffset perSet (n / perSet + 1),
      t.offset (n / perSet * perSet)⟩
  entrySetCount : v.entrySetCount = BucketTree.getEntrySetCount nodeSize entrySize t.count

/-! ### Finding the entry in its set -/

namespace BucketTree.Represents

variable {tree : BucketTree} {l2Count k : ℕ} {t : EntryTable} {virtualAddress : ℤ}

variable (r : tree.Represents l2Count t)
include r

/-- A visitor that has the parts of an entry set points at the entry. -/
theorem pointsAt {v : Visitor} {i : ℕ} (hi : i < t.setSize tree.perSet k)
    (hentry : ∀ b < tree.entrySize, v.entry b = t.entry (k * tree.perSet + i) b)
    (hindex : v.entryIndex = i)
    (hset : v.entrySet = ⟨k, t.setSize tree.perSet k, t.setOffset tree.perSet (k + 1),
      t.offset (k * tree.perSet + 0)⟩)
    (hcount : v.entrySetCount = tree.entrySetCount) :
    v.PointsAt tree.nodeSize tree.entrySize t (k * tree.perSet + i) := by
  have hpos := r.perSet_pos
  have hlt : i < tree.perSet := by
    unfold EntryTable.setSize at hi
    omega
  have hdiv : (k * tree.perSet + i) / tree.perSet = k := by
    rw [Nat.mul_comm, Nat.mul_add_div hpos, Nat.div_eq_of_lt hlt, Nat.add_zero]
  have hmod : (k * tree.perSet + i) % tree.perSet = i := by
    rw [Nat.mul_comm, Nat.mul_add_mod, Nat.mod_eq_of_lt hlt]
  refine ⟨hentry, ?_, ?_, ?_⟩
  · rw [hindex, hmod]
  · dsimp only
    rw [hset, hdiv]
    rfl
  · rw [hcount, r.entrySetCount_eq]

theorem findEntry (pool : PooledBuffer) (hk : k < tree.entrySetCount)
    (hfirst : t.offset (k * tree.perSet) ≤ virtualAddress) :
    ∃ v i, Visitor.findEntry tree pool virtualAddress k = .ok v ∧
      IsLast (fun i => t.offset (k * tree.perSet + i)) 0
        (t.setSize tree.perSet k) virtualAddress i ∧
      v.PointsAt tree.nodeSize tree.entrySize t (k * tree.perSet + i) := by
  rw [r.entrySetCount_eq] at hk
  have n := r.searchable_entrySet hk
  have hbytes := (r.entrySets k hk).2
  have hset : EntrySetHeader.byteSize ≤ tree.nodeSize := by
    have hentry := r.entrySize_ge
    have hnode := r.nodeSize_ge
    simp only [NodeHeader.byteSize, EntrySetHeader.byteSize] at hnode ⊢
    omega
  obtain ⟨v, i, hrun, hlast, hv⟩ := n.findEntry hset rfl hfirst pool
  refine ⟨v, i, hrun, hlast, r.pointsAt hlast.lt (fun b hb => ?_) hv.entryIndex hv.entrySet
    hv.entrySetCount⟩
  rw [hv.entry b hb]
  exact hbytes i hlast.lt b hb

/-! ### Finding the entry set -/

/-- The offsets of the node L1. -/
theorem l1_spec : ∃ (header : NodeHeader) (offset : ℕ → ℤ),
      SearchableAt tree.nodeStorage 0 tree.nodeSize 8 header offset ∧ header.index = 0 ∧
      header.offset = t.endOffset ∧
      ((l2Count = 0 ∧ header.count = tree.entrySetCount ∧ offset = t.setOffset tree.perSet) ∨
      (0 < l2Count ∧ header.count = l2Count ∧ offset = fun j =>
        t.setOffset tree.perSet (firstSet tree.offsetCount l2Count j))) := by
  have hentry := r.entrySize_ge
  have hnode := r.nodeSize_ge
  have hend : 0 ≤ t.endOffset := t.first_nonneg.trans (t.last_lt 0 t.count_pos).le
  have hsets := r.entrySetCount_pos
  obtain ⟨hzero, hfit⟩ | ⟨hpos, hle, -, -, -⟩ :=
    getNodeL2Count_spec r.offsets_pos r.l2Count_eq
  · refine ⟨_, _, ⟨r.l1 hzero, le_rfl, by omega, ?_, ?_, hend, fun i j hij _ =>
      t.setOffset_mono hij⟩, rfl, rfl, .inl ⟨hzero, ?_, rfl⟩⟩
    · change (0 : ℤ) < (_ : ℕ)
      omega
    · change ((_ : ℕ) : ℤ) ≤ (getOffsetCount tree.nodeSize : ℕ)
      omega
    · rw [r.entrySetCount_eq]
  · refine ⟨_, _, ⟨r.l1WithL2 hpos, le_rfl, by omega, ?_, ?_, hend, fun i j hij _ =>
      t.setOffset_mono ?_⟩, rfl, rfl, .inr ⟨hpos, rfl, ?_⟩⟩
    · change (0 : ℤ) < (_ : ℕ)
      omega
    · change ((_ : ℕ) : ℤ) ≤ (getOffsetCount tree.nodeSize : ℕ)
      omega
    · unfold firstSet
      have := Nat.mul_le_mul_left (getOffsetCount tree.nodeSize) hij
      omega
    · rw [r.offsetCount_eq]

/-- What the node L1 in memory says about itself. -/
theorem nodeL1_header {header : NodeHeader} {offset : ℕ → ℤ}
    (n : SearchableAt tree.nodeStorage 0 tree.nodeSize 8 header offset) :
    tree.nodeL1.getCount = header.count ∧ tree.nodeL1.getEndOffset = header.offset ∧
      ∀ i < header.count.toNat, tree.nodeL1.getArray i = offset i := by
  have hnode := n.nodeSize_ge
  have hbytes := @n.ofBytes_write _ _ _ _ _ _ (fun _ => 0) tree.nodeSize (by omega)
  rw [← r.nodeL1_eq] at hbytes
  refine ⟨congrArg NodeHeader.count hbytes, congrArg NodeHeader.offset hbytes, fun i hi => ?_⟩
  unfold BucketTreeNode.getArray
  rw [r.nodeL1_eq, Nat.mul_comm 8 i]
  exact n.getInt64_write hi

/-- The room behind the offsets of the nodes L2. -/
theorem nodeL1_rest (hl2 : 0 < l2Count) {i : ℕ} (hi : l2Count ≤ i) (hi' : i < tree.offsetCount) :
    tree.nodeL1.getArray i = t.setOffset tree.perSet (i - l2Count) := by
  rw [r.offsetCount_eq] at hi'
  have hrest := r.l1Rest hl2 (i - l2Count) (by omega)
  rw [Nat.add_sub_cancel' hi] at hrest
  rw [← hrest]
  unfold BucketTreeNode.getArray
  rw [r.nodeL1_eq]
  apply Bytes.getInt64_congr
  intro j hj
  have hsize : 8 * (i + 1) ≤ tree.nodeSize - NodeHeader.byteSize := by
    have hmul := Nat.mul_le_mul_left 8 (show i + 1 ≤ getOffsetCount tree.nodeSize from hi')
    exact hmul.trans (Nat.mul_div_le _ _)
  rw [Bytes.write_of_mem (by omega) (by omega), Bytes.drop, Nat.sub_zero, Nat.zero_add]

end BucketTree.Represents

end Atmosphere.Fs
