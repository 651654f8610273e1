import Atmosphere.Fs.BucketTreeNodes

/-!
# Searching a bucket tree

The search finds the entry set in the node L1, in its room behind the offsets of the nodes L2,
or in a node L2, and then the entry in the entry set. Every step finds the last position in a
segment, and the segments are put together.
-/

namespace Atmosphere.Fs

open Search (IsLast)

namespace BucketTree.Represents

variable {tree : BucketTree} {l2Count : ℕ} {t : EntryTable} {virtualAddress : ℤ}

theorem setOffset_zero (perSet : ℕ) : t.setOffset perSet 0 = t.offset 0 := by
  rw [t.setOffset_of_lt (by rw [Nat.zero_mul]; exact t.count_pos), Nat.zero_mul]

theorem isExistL2_eq (r : tree.Represents l2Count t) : tree.isExistL2 = decide (0 < l2Count) := by
  unfold isExistL2
  rw [r.offsetCount_eq, r.entrySetCount_eq]
  obtain ⟨rfl, hfit⟩ | ⟨hpos, -, hlt, -, -⟩ := getNodeL2Count_spec r.offsets_pos r.l2Count_eq
  · simpa using hfit
  · simp [hpos, hlt]

theorem firstSet_succ (offsets j : ℕ) :
    firstSet offsets l2Count (j + 1) = firstSet offsets l2Count j + offsets := by
  unfold firstSet
  rw [Nat.mul_add, Nat.mul_one, Nat.add_assoc]

variable (r : tree.Represents l2Count t) {memory : FindMemory}
include r

/-- The entry set is one of those whose offsets stand behind the offsets of the nodes L2. -/
theorem isLast_rest (hl2 : 0 < l2Count)
    (hroom : l2Count < tree.offsetCount) (hstart : t.offset 0 ≤ virtualAddress)
    (hbegin : virtualAddress < t.setOffset tree.perSet (tree.offsetCount - l2Count)) :
    ∃ k, tree.nodeL1.upperBound l2Count (tree.offsetCount - l2Count) virtualAddress = k + 1 ∧
      l2Count ≤ k ∧ IsLast (t.setOffset tree.perSet) 0
        tree.entrySetCount virtualAddress (k - l2Count) := by
  obtain ⟨rfl, -⟩ | ⟨-, -, hlt, -, -⟩ := getNodeL2Count_spec r.offsets_pos r.l2Count_eq
  · exact absurd hl2 (Nat.lt_irrefl 0)
  rw [← r.offsetCount_eq, ← r.entrySetCount_eq] at hlt
  obtain ⟨k, hfind, hlast⟩ := @Search.upperBound_spec Id _ ℤ _ tree.nodeL1.getArray
    (fun i => t.setOffset tree.perSet (i - l2Count)) virtualAddress l2Count
    (tree.offsetCount - l2Count) _ (fun i hi hi' => r.nodeL1_rest hl2 hi (by omega))
    (fun i j _ hij _ => t.setOffset_mono (by omega))
    (by rw [Nat.sub_self, setOffset_zero]; exact hstart) (by omega)
  refine ⟨k, hfind, hlast.ge, ?_⟩
  have hsegment := hlast.shift le_rfl (fun i _ _ => rfl)
  rw [Nat.sub_self, Nat.add_sub_cancel_left] at hsegment
  exact hsegment.of_segment le_rfl (by omega) (fun i j _ hij _ => t.setOffset_mono hij)
    (fun _ => hbegin)

/-- The entry set is found in a node L2. -/
theorem isLast_l2 (pool : PooledBuffer) {j : ℕ} (hnode : IsLast (fun j => t.setOffset tree.perSet
      (firstSet tree.offsetCount l2Count j)) 0 l2Count virtualAddress j) :
    ∃ k : ℕ, Visitor.findEntrySet tree pool virtualAddress j = .ok (k : ℤ) ∧
      IsLast (t.setOffset tree.perSet) 0 tree.entrySetCount virtualAddress k := by
  have hj := hnode.lt
  obtain ⟨rfl, -⟩ | ⟨-, hle, -, hall, hnonempty⟩ :=
    getNodeL2Count_spec r.offsets_pos r.l2Count_eq
  · exact absurd hj (Nat.not_lt_zero j)
  have n := r.searchable_l2 hj
  rw [← r.offsetCount_eq, ← r.entrySetCount_eq] at hall n
  rw [← r.offsetCount_eq] at hle
  have hfirst := hnonempty j hj
  rw [← r.offsetCount_eq, ← r.entrySetCount_eq] at hfirst
  have hsucc := @firstSet_succ l2Count tree.offsetCount j
  obtain ⟨i, hfind, hlast⟩ := n.findEntrySet pool rfl hnode.le
  refine ⟨firstSet tree.offsetCount l2Count j + i, ?_, ?_⟩
  · rw [hfind]
    congr 1
    obtain ⟨header, offset, n₁, -, -, hcases⟩ := r.l1_spec
    obtain ⟨hcount, -, -⟩ := r.nodeL1_header n₁
    have hheader : header.count = l2Count := by
      obtain ⟨hzero, -, -⟩ | ⟨-, hheader, -⟩ := hcases
      · omega
      · exact hheader
    unfold getEntrySetIndex firstSet
    rw [hcount, hheader]
    push_cast [hle]
    rfl
  · rw [Int.toNat_natCast] at hlast
    refine hlast.translate.of_segment (Nat.zero_le _) (by omega)
      (fun i j _ hij _ => t.setOffset_mono hij) fun hlt => ?_
    -- The next entry set is the first one of the next node.
    have hnext : j + 1 < l2Count := by
      by_contra hge
      have heq : j + 1 = l2Count := by omega
      rw [heq] at hlt hsucc
      omega
    have hafter := hnode.after (j + 1) (by omega) hnext
    rw [show firstSet tree.offsetCount l2Count j +
      (min (firstSet tree.offsetCount l2Count (j + 1)) tree.entrySetCount -
        firstSet tree.offsetCount l2Count j) = firstSet tree.offsetCount l2Count (j + 1) by omega]
    exact hafter

/-- The entry set index of an address of the table. -/
theorem findEntrySetIndex (pool : PooledBuffer) (hstart : t.offset 0 ≤ virtualAddress) :
    ∃ k : ℕ, Visitor.findEntrySetIndex tree pool virtualAddress = .ok (k : ℤ) ∧
      IsLast (t.setOffset tree.perSet) 0 tree.entrySetCount virtualAddress k := by
  obtain ⟨header, offset, n, -, -, hcases⟩ := r.l1_spec
  obtain ⟨hcount, -, harray⟩ := r.nodeL1_header n
  have hpos := n.count_pos
  -- The search of the offsets at the beginning of the node L1.
  have hsearch : offset 0 ≤ virtualAddress →
      ∃ k, tree.nodeL1.upperBound 0 tree.nodeL1.getCount.toNat virtualAddress = k + 1 ∧
        IsLast offset 0 header.count.toNat virtualAddress k := by
    intro hfirst
    obtain ⟨k, hfind, hlast⟩ := @Search.upperBound_spec Id _ ℤ _ tree.nodeL1.getArray offset
      virtualAddress 0 header.count.toNat _ (fun i _ hi => harray i (by omega))
      (fun i j _ hij hj => n.mono i j hij (by omega)) hfirst (by omega)
    rw [Nat.zero_add] at hlast
    exact ⟨k, by rw [hcount]; exact hfind, hlast⟩
  unfold Visitor.findEntrySetIndex
  dsimp only
  obtain ⟨rfl, hheader, rfl⟩ | ⟨hl2, hheader, rfl⟩ := hcases
  · obtain ⟨k, hfind, hlast⟩ := hsearch (by rw [setOffset_zero]; exact hstart)
    have hexists : tree.isExistOffsetL2OnL1 = false := by
      unfold isExistOffsetL2OnL1
      rw [r.isExistL2_eq]
      rfl
    rw [hexists, if_neg (by simp), hfind, require_bind (by omega), r.isExistL2_eq, if_neg (by simp)]
    refine ⟨k, rfl, ?_⟩
    rw [show tree.entrySetCount = header.count.toNat by omega]
    exact hlast
  · have hle : l2Count ≤ tree.offsetCount := by
      obtain ⟨hzero, -⟩ | ⟨-, hle, -, -, -⟩ := getNodeL2Count_spec r.offsets_pos r.l2Count_eq
      · omega
      · rw [r.offsetCount_eq]
        exact hle
    have hbegin : tree.nodeL1.getBeginOffset = t.setOffset tree.perSet
          (tree.offsetCount - l2Count) := by
      unfold BucketTreeNode.getBeginOffset
      rw [harray 0 (by omega)]
      rfl
    have hrestExists : tree.isExistOffsetL2OnL1 = decide (l2Count < tree.offsetCount) := by
      rw [isExistOffsetL2OnL1, r.isExistL2_eq, hcount, hheader]
      simp [hl2]
    rw [hrestExists, hbegin]
    split_ifs with hrest hexists
    · simp only [decide_eq_true_eq] at hrest
      obtain ⟨k, hfind, hk, hlast⟩ := r.isLast_rest hl2 hrest.1 hstart hrest.2
      rw [show tree.nodeL1.getCount.toNat = l2Count by omega, hfind, require_bind (by omega)]
      exact ⟨k - l2Count, rfl, hlast⟩
    · simp only [decide_eq_true_eq] at hrest
      have hfirst : t.setOffset tree.perSet
          (firstSet tree.offsetCount l2Count 0) ≤ virtualAddress := by
        have hzero : firstSet tree.offsetCount l2Count 0 = tree.offsetCount - l2Count := rfl
        rw [hzero]
        obtain hroom | hfull := Nat.lt_or_ge l2Count tree.offsetCount
        · exact not_lt.mp fun hlt => hrest ⟨hroom, hlt⟩
        · rw [Nat.sub_eq_zero_of_le hfull, setOffset_zero]
          exact hstart
      obtain ⟨j, hfind, hlast⟩ := hsearch hfirst
      have hj := hlast.lt
      rw [hfind, require_bind (by omega), require_bind (by omega)]
      rw [show header.count.toNat = l2Count by omega] at hlast
      exact r.isLast_l2 pool hlast
    · rw [r.isExistL2_eq] at hexists
      exact absurd hl2 (by simpa using hexists)

/-- An address before the table has no entry set. -/
theorem findEntrySetIndex_error (pool : PooledBuffer) (hstart : virtualAddress < t.offset 0) :
    Visitor.findEntrySetIndex tree pool virtualAddress = .error .outOfRange := by
  obtain ⟨header, offset, n, -, -, hcases⟩ := r.l1_spec
  obtain ⟨hcount, -, harray⟩ := r.nodeL1_header n
  have hsearch : virtualAddress < offset 0 →
      tree.nodeL1.upperBound 0 tree.nodeL1.getCount.toNat virtualAddress = 0 := by
    intro hfirst
    rw [hcount]
    exact @Search.upperBound_eq_start Id _ ℤ _ tree.nodeL1.getArray offset virtualAddress 0
      header.count.toNat _ (fun i _ hi => harray i (by omega))
      (fun i j _ hij hj => n.mono i j hij (by omega)) hfirst
  unfold Visitor.findEntrySetIndex
  dsimp only
  obtain ⟨rfl, hheader, rfl⟩ | ⟨hl2, hheader, rfl⟩ := hcases
  · have hexists : tree.isExistOffsetL2OnL1 = false := by
      unfold isExistOffsetL2OnL1
      rw [r.isExistL2_eq]
      rfl
    rw [hexists, if_neg (by simp), hsearch (by rw [setOffset_zero]; exact hstart),
      require_bind_of_not (by omega)]
  · have hfirst : virtualAddress < t.setOffset tree.perSet
        (firstSet tree.offsetCount l2Count 0) := by
      apply hstart.trans_le
      rw [← @setOffset_zero t tree.perSet]
      exact t.setOffset_mono (Nat.zero_le _)
    split_ifs with hrest hexists
    · have heq : tree.nodeL1.upperBound l2Count _ virtualAddress = l2Count :=
        @Search.upperBound_eq_start Id _ ℤ _ tree.nodeL1.getArray
        (fun i => t.setOffset tree.perSet (i - l2Count)) virtualAddress l2Count
        (tree.offsetCount - l2Count) _ (fun i hi hi' => r.nodeL1_rest hl2 hi (by omega))
        (fun i j _ hij _ => t.setOffset_mono (by omega))
        (by rw [Nat.sub_self, setOffset_zero]; exact hstart)
      rw [show tree.nodeL1.getCount.toNat = l2Count by omega, heq, require_bind_of_not (by omega)]
    · rw [hsearch hfirst, require_bind_of_not (by omega)]
    · rw [hsearch hfirst, require_bind_of_not (by omega)]

/-- The start of the table, as `Initialize` reads it from the node L1. -/
theorem start_eq : tree.nodeL1.getStartOffset tree.offsetCount tree.entrySetCount = t.offset 0 ∧
      t.offset 0 ≤ tree.nodeL1.getBeginOffset := by
  obtain ⟨header, offset, n, -, -, hcases⟩ := r.l1_spec
  obtain ⟨hcount, -, harray⟩ := r.nodeL1_header n
  have hpos := n.count_pos
  have hl2 := r.isExistL2_eq
  unfold isExistL2 at hl2
  rw [decide_eq_decide] at hl2
  have hbegin : tree.nodeL1.getBeginOffset = offset 0 := harray 0 (by omega)
  unfold BucketTreeNode.getStartOffset
  obtain ⟨rfl, hheader, rfl⟩ | ⟨hpos', hheader, rfl⟩ := hcases
  · rw [if_neg fun h => absurd (hl2.mp h.1) (Nat.lt_irrefl 0), hbegin, harray 0 (by omega),
      setOffset_zero]
    exact ⟨rfl, le_rfl⟩
  · constructor
    · split_ifs with hroom
      · rw [show tree.nodeL1.getCount.toNat = l2Count by omega,
          r.nodeL1_rest hpos' le_rfl (by omega), Nat.sub_self, setOffset_zero]
      · have hfull : tree.offsetCount ≤ l2Count := by
          by_contra hlt
          exact hroom ⟨hl2.mpr hpos', by omega⟩
        rw [harray 0 (by omega)]
        dsimp only [firstSet]
        rw [Nat.sub_eq_zero_of_le hfull, Nat.mul_zero, setOffset_zero]
    · rw [hbegin, ← @setOffset_zero t tree.perSet]
      exact t.setOffset_mono (Nat.zero_le _)

/-! ### The whole search -/

theorem nodeL1_end : tree.nodeL1.getEndOffset = t.endOffset := by
  obtain ⟨header, offset, n, -, hend, -⟩ := r.l1_spec
  rw [(r.nodeL1_header n).2.1, hend]

theorem isEmpty_eq : tree.isEmpty = false := by
  have hentry := r.entrySize_ge
  unfold isEmpty
  rw [decide_eq_false_iff_not]
  omega

/-- An address of the table leads to the last entry that is not behind it. -/
theorem find (hallocated : memory.entryAllocated = true)
    (hstart : t.offset 0 ≤ virtualAddress) (hend : virtualAddress < t.endOffset) :
    ∃ v n, tree.find memory virtualAddress = .ok v ∧ IsLast t.offset 0 t.count virtualAddress n ∧
      v.PointsAt tree.nodeSize tree.entrySize t n := by
  have hnonneg : 0 ≤ virtualAddress := t.first_nonneg.trans hstart
  obtain ⟨k, hset, hlastSet⟩ := r.findEntrySetIndex memory.nodePool hstart
  have hk := hlastSet.lt
  have hk' : k * tree.perSet < t.count := by
    rw [r.entrySetCount_eq] at hk
    exact r.lt_entrySetCount.mp hk
  have hfirst := hlastSet.le
  rw [t.setOffset_of_lt hk'] at hfirst
  obtain ⟨v, i, hentry, hlast, hv⟩ := r.findEntry memory.entryPool hk hfirst
  refine ⟨v, _, ?_, ?_, hv⟩
  · unfold BucketTree.find Visitor.find
    rw [require_bind hnonneg, require_bind r.isEmpty_eq, require_bind hallocated,
      require_bind (by rw [r.nodeL1_end]; exact hend), ok_bind hset, require_bind (by omega),
      Int.toNat_natCast]
    exact hentry
  · refine hlast.translate.of_segment (Nat.zero_le _) ?_
      (fun i j _ hij hj => t.offset_mono hij hj) fun hlt => ?_
    · unfold EntryTable.setSize
      omega
    -- The entry behind a full entry set is the first one of the next set.
    · have hfull : k * tree.perSet + t.setSize tree.perSet k = (k + 1) * tree.perSet := by
        unfold EntryTable.setSize at hlt ⊢
        rw [Nat.add_mul, Nat.one_mul]
        omega
      rw [hfull] at hlt ⊢
      have hnext : k + 1 < tree.entrySetCount := by
        rw [r.entrySetCount_eq]
        exact r.lt_entrySetCount.mpr hlt
      have hafter := hlastSet.after (k + 1) (by omega) hnext
      rw [t.setOffset_of_lt hlt] at hafter
      exact hafter

/-- Other addresses are refused. -/
theorem find_error (memory : FindMemory)
    (hout : ¬ (t.offset 0 ≤ virtualAddress ∧ virtualAddress < t.endOffset)) :
    ∃ e, tree.find memory virtualAddress = .error e := by
  unfold BucketTree.find Visitor.find
  by_cases hnonneg : 0 ≤ virtualAddress
  · rw [require_bind hnonneg, require_bind r.isEmpty_eq]
    by_cases hallocated : memory.entryAllocated = true
    · rw [require_bind hallocated]
      by_cases hend : virtualAddress < tree.nodeL1.getEndOffset
      · rw [require_bind hend]
        rw [r.nodeL1_end] at hend
        rw [r.findEntrySetIndex_error _ (not_le.mp fun hstart => hout ⟨hstart, hend⟩)]
        exact ⟨_, rfl⟩
      · exact ⟨_, require_bind_of_not hend⟩
    · exact ⟨_, require_bind_of_not hallocated⟩
  · exact ⟨_, require_bind_of_not hnonneg⟩

/-- A search that succeeded points at the entry of the address. -/
theorem of_find {v : Visitor} (h : tree.find memory virtualAddress = .ok v) :
    ∃ n, IsLast t.offset 0 t.count virtualAddress n ∧
      v.PointsAt tree.nodeSize tree.entrySize t n := by
  have hin : t.offset 0 ≤ virtualAddress ∧ virtualAddress < t.endOffset := by
    by_contra hout
    obtain ⟨e, he⟩ := r.find_error memory hout
    rw [h] at he
    cases he
  obtain ⟨-, hrest⟩ := require_bind_eq_ok.mp h
  obtain ⟨-, hrest⟩ := require_bind_eq_ok.mp hrest
  obtain ⟨hallocated, -⟩ := require_bind_eq_ok.mp hrest
  obtain ⟨v', n, hfind, hlast, hv⟩ := r.find hallocated hin.1 hin.2
  rw [h] at hfind
  cases hfind
  exact ⟨n, hlast, hv⟩

end BucketTree.Represents

/-- `Initialize` accepts every layout. -/
theorem Layout.initializeTree {nodeStorage entryStorage : SubStorage}
    {nodeSize entrySize l2Count : ℕ} {t : EntryTable}
    (h : Layout nodeStorage entryStorage nodeSize entrySize l2Count t) :
    ∃ tree, BucketTree.initializeTree true nodeStorage entryStorage nodeSize entrySize t.count =
        .ok tree ∧ tree.Represents l2Count t ∧ tree.nodeSize = nodeSize ∧
      tree.entrySize = entrySize := by
  let tree : BucketTree := {
    nodeStorage := nodeStorage
    entryStorage := entryStorage
    nodeL1 := ⟨Bytes.write (fun _ => 0) 0 nodeSize (nodeStorage.bytes.drop 0)⟩
    nodeSize := nodeSize
    entrySize := entrySize
    entryCount := t.count
    offsetCount := BucketTree.getOffsetCount nodeSize
    entrySetCount := BucketTree.getEntrySetCount nodeSize entrySize t.count
    startOffset := t.offset 0
    endOffset := t.endOffset }
  have r : tree.Represents l2Count t := ⟨h, rfl, rfl, rfl, rfl, rfl⟩
  refine ⟨tree, ?_, r, rfl, rfl⟩
  obtain ⟨header, offset, n, hindex, -, -⟩ := r.l1_spec
  have hsize : 8 + NodeHeader.byteSize ≤ nodeSize := n.nodeSize_ge
  have hcount : (0 : ℤ) < t.count := by exact_mod_cast t.count_pos
  have hread : nodeStorage.read 0 (fun _ => 0) 0 nodeSize = .ok tree.nodeL1.bytes :=
    SubStorage.read_of_le n.inside
  have hheader : NodeHeader.ofBytes tree.nodeL1.bytes = header := n.ofBytes_write (by omega)
  obtain ⟨hstart, hbegin⟩ := r.start_eq
  unfold BucketTree.initializeTree
  rw [require_bind hcount, require_bind rfl, ok_bind hread, hheader,
    ok_bind (show header.verify 0 nodeSize 8 = .ok () from n.verify hindex), Int.toNat_natCast]
  dsimp only
  rw [show BucketTreeNode.getStartOffset _ _ _ = t.offset 0 from hstart,
    require_bind ⟨t.first_nonneg, hbegin⟩]
  rw [show BucketTreeNode.getEndOffset _ = t.endOffset from r.nodeL1_end,
    require_bind (show t.offset 0 < t.endOffset from t.last_lt 0 t.count_pos)]
  rfl

/-- A tree over a layout finds the last entry whose offset is at most the address, with its entry
set and index, whatever buffers the pool has. It refuses the addresses outside. -/
theorem bucketTree_find {nodeStorage entryStorage : SubStorage} {nodeSize entrySize l2Count : ℕ}
    {t : EntryTable} (h : Layout nodeStorage entryStorage nodeSize entrySize l2Count t) :
    ∃ tree, BucketTree.initializeTree true nodeStorage entryStorage nodeSize entrySize t.count =
        .ok tree ∧ tree.startOffset = t.offset 0 ∧ tree.endOffset = t.endOffset ∧
      ∀ (memory : FindMemory) (virtualAddress : ℤ),
        (memory.entryAllocated = true → tree.startOffset ≤ virtualAddress →
          virtualAddress < tree.endOffset → ∃ v n, tree.find memory virtualAddress = .ok v ∧
            IsLast t.offset 0 t.count virtualAddress n ∧ v.PointsAt nodeSize entrySize t n) ∧
        (¬ (tree.startOffset ≤ virtualAddress ∧ virtualAddress < tree.endOffset) →
          ∃ e, tree.find memory virtualAddress = .error e) := by
  obtain ⟨tree, hinit, r, hnode, hentry⟩ := h.initializeTree
  refine ⟨tree, hinit, r.startOffset_eq, r.endOffset_eq, fun memory virtualAddress => ?_⟩
  rw [r.startOffset_eq, r.endOffset_eq]
  refine ⟨fun hallocated hlow hhigh => ?_, r.find_error memory⟩
  obtain ⟨v, n, hfind, hlast, hv⟩ := r.find hallocated hlow hhigh
  rw [hnode, hentry] at hv
  exact ⟨v, n, hfind, hlast, hv⟩

/-! ### A tree with a node L2 -/

/-- Bytes from a list, and zeros behind it. -/
def Bytes.ofList (l : List (BitVec 8)) : Bytes := fun i => l.getD i 0

/-- A number below 256 in so many bytes. -/
def numberBytes (size value : ℕ) : List (BitVec 8) :=
  BitVec.ofNat 8 value :: List.replicate (size - 1) 0

/-- A node whose header and array have small numbers. -/
def nodeBytes (index count offset : ℕ) (array : List ℕ) : List (BitVec 8) :=
  numberBytes 4 index ++ numberBytes 4 count ++ numberBytes 8 offset ++
    array.flatMap (numberBytes 8)

/-- Five entries of eight bytes, at every tenth offset. -/
def fiveEntries : EntryTable where
  count := 5
  entry := fun i => .ofList (numberBytes 8 (10 * i))
  endOffset := 50
  count_pos := by decide
  first_nonneg := by decide
  increasing := by
    have hall : ∀ j < 5, ∀ i < j, (Bytes.ofList (numberBytes 8 (10 * i))).getInt64 0 <
        (Bytes.ofList (numberBytes 8 (10 * j))).getInt64 0 := by decide
    exact fun i j hij hj => hall j hj i hij
  last_lt := by decide

/-- Nodes of 32 bytes have room for two offsets or two entries. Two of the three entry sets have
their offsets in a node L2. -/
def smallNodes : SubStorage :=
  ⟨.ofList (nodeBytes 0 1 50 [20, 0] ++ nodeBytes 0 2 50 [20, 40]), 64⟩

def smallEntrySets : SubStorage :=
  ⟨.ofList (nodeBytes 0 2 20 [0, 10] ++ nodeBytes 1 2 40 [20, 30] ++ nodeBytes 2 1 50 [40]), 96⟩

theorem layout_smallNodes : Layout smallNodes smallEntrySets 32 8 1 fiveEntries where
  entrySize_ge := by decide
  nodeSize_ge := by decide
  l2Count_eq := by decide
  entrySets := by
    decide +kernel
  l1 := nofun
  l1WithL2 := fun _ => by decide +kernel
  l1Rest := fun _ => by decide +kernel
  l2 := by
    decide +kernel

/-- One node and one entry set of the smallest size that the code expects. -/
def oneNode : SubStorage := ⟨.ofList (nodeBytes 0 1 50 [0]), 1024⟩

def oneEntrySet : SubStorage := ⟨.ofList (nodeBytes 0 5 50 [0, 10, 20, 30, 40]), 1024⟩

theorem layout_oneNode : Layout oneNode oneEntrySet 1024 8 0 fiveEntries where
  entrySize_ge := by decide
  nodeSize_ge := by decide
  l2Count_eq := by decide
  entrySets := by
    decide +kernel
  l1 := fun _ => by decide +kernel
  l1WithL2 := nofun
  l1Rest := nofun
  l2 := nofun

/-- The entry for the address 35 is the one with the offset 30. -/
theorem eq_three_of_isLast {n : ℕ} (h : IsLast fiveEntries.offset 0 fiveEntries.count 35 n) :
    n = 3 := by
  obtain hlt | heq | hgt := Nat.lt_trichotomy n 3
  · exact absurd (h.after 3 hlt (by decide)) (by decide)
  · exact heq
  · have hn : n < 5 := h.lt
    obtain rfl : n = 4 := by omega
    exact absurd h.le (by decide)

theorem bucketTree_find_fiveEntries :
    (∃ tree v, BucketTree.initializeTree true smallNodes smallEntrySets 32 8 5 = .ok tree ∧
      tree.find ⟨true, ⟨fun _ => 0, 0⟩, ⟨fun _ => 0, 32⟩⟩ 35 = .ok v ∧
      v.PointsAt 32 8 fiveEntries 3) ∧
    ∃ tree v, BucketTree.initializeTree true oneNode oneEntrySet 1024 8 5 = .ok tree ∧
      tree.find ⟨true, ⟨fun _ => 0, 1024⟩, ⟨fun _ => 0, 1024⟩⟩ 35 = .ok v ∧
      v.PointsAt 1024 8 fiveEntries 3 := by
  constructor
  · obtain ⟨tree, hinit, hstart, hend, hfind⟩ := bucketTree_find layout_smallNodes
    obtain ⟨v, n, hrun, hlast, hv⟩ := (hfind ⟨true, ⟨fun _ => 0, 0⟩, ⟨fun _ => 0, 32⟩⟩ 35).1 rfl
      (by rw [hstart]; decide) (by rw [hend]; decide)
    rw [eq_three_of_isLast hlast] at hv
    exact ⟨tree, v, hinit, hrun, hv⟩
  · obtain ⟨tree, hinit, hstart, hend, hfind⟩ := bucketTree_find layout_oneNode
    obtain ⟨v, n, hrun, hlast, hv⟩ := (hfind
      ⟨true, ⟨fun _ => 0, 1024⟩, ⟨fun _ => 0, 1024⟩⟩ 35).1 rfl
      (by rw [hstart]; decide) (by rw [hend]; decide)
    rw [eq_three_of_isLast hlast] at hv
    exact ⟨tree, v, hinit, hrun, hv⟩

end Atmosphere.Fs
