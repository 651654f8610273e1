import Atmosphere.Kern.HandleTable
import Atmosphere.Lib.FreeList.Basic

/-!
# The operations of the handle table

What each operation does to the lookups and to the free list. The links of the free list
share their place with the linear ids, so an operation on an entry says nothing about the
list unless the entry is known to be on it or not.
-/

namespace Atmosphere.Kern

open FreeList

namespace KHandleTable

variable {α : Type} {t t' : KHandleTable α} {free : List ℕ} {h h' : Handle} {i id : ℕ} {o o' : α}

/-! ### Lookups -/

/-- An entry resolves for one handle only. -/
theorem eq_of_getObjectImpl (ho : t.getObjectImpl h = some o) (ho' : t.getObjectImpl h' = some o')
    (hindex : h.index = h'.index) : h = h' := by
  obtain ⟨hres, -, -, -, hid⟩ := getObjectImpl_eq_some.mp ho
  obtain ⟨hres', -, -, -, hid'⟩ := getObjectImpl_eq_some.mp ho'
  refine Handle.eq_of_fields hres hres' hindex ?_
  rw [← hid, ← hid', hindex]

theorem getObjectImpl_congr (hinfos : t'.entryInfos h.index = t.entryInfos h.index)
    (hobjects : t'.objects h.index = t.objects h.index) (hsize : t'.tableSize = t.tableSize) :
    t'.getObjectImpl h = t.getObjectImpl h := by
  apply Option.ext
  intro o
  rw [getObjectImpl_eq_some, getObjectImpl_eq_some, hinfos, hobjects, hsize]

theorem getObjectImpl_eq_none_of_objects (hnone : t.objects h.index = none) :
    t.getObjectImpl h = none := by
  apply Option.eq_none_iff_forall_ne_some.mpr
  intro o ho
  obtain ⟨-, -, -, hobj, -⟩ := getObjectImpl_eq_some.mp ho
  rw [hnone] at hobj
  cases hobj

/-- The handle that was put into an entry is the only one that resolves to it. -/
theorem getObjectImpl_setEntry (hi : h.index < t.tableSize) (hres : h.reserved = 0)
    (hid : h.linearId ≠ 0) :
    (t.setEntry h.index h.linearId o).getObjectImpl h' =
      if h'.index = h.index then (if h' = h then some o else none) else t.getObjectImpl h' := by
  have hlt : h.linearId < 2 ^ 16 := by
    unfold Handle.linearId
    omega
  by_cases hindex : h'.index = h.index
  · have hself : (t.setEntry h.index h.linearId o).getObjectImpl h = some o := by
      rw [getObjectImpl_eq_some]
      refine ⟨hres, hid, hi, ?_, ?_⟩
      · simp [setEntry]
      · simp [setEntry, EntryInfo.getLinearId_ofLinearId hlt]
    split_ifs with heq
    · rw [heq, hself]
    · apply Option.eq_none_iff_forall_ne_some.mpr
      intro o' ho'
      exact heq (eq_of_getObjectImpl ho' hself hindex)
  · rw [if_neg hindex]
    refine getObjectImpl_congr ?_ ?_ rfl
    · simp [setEntry, hindex]
    · simp [setEntry, hindex]

theorem getObjectImpl_freeEntry :
    (t.freeEntry i).getObjectImpl h = if h.index = i then none else t.getObjectImpl h := by
  by_cases hindex : h.index = i
  · rw [if_pos hindex]
    apply getObjectImpl_eq_none_of_objects
    simp [freeEntry, hindex]
  · rw [if_neg hindex]
    refine getObjectImpl_congr ?_ ?_ rfl
    · simp [freeEntry, hindex]
    · simp [freeEntry, hindex]

/-! ### The free list -/

/-- The link of an entry of the free list. -/
def nextFree (t : KHandleTable α) (i : ℕ) : Option ℕ := (t.entryInfos i).getNextFreeIndex.toNat?

/-- The table after the first free entry was taken. -/
def taken (t : KHandleTable α) (i : ℕ) : KHandleTable α :=
  { t with
    freeHeadIndex := (t.entryInfos i).getNextFreeIndex
    count := t.count + 1
    maxCount := max t.maxCount (t.count + 1) }

/-- The free list visits the entries `free`, and the other entries are counted. -/
structure FreeListOk (t : KHandleTable α) (free : List ℕ) : Prop where
  size_le : t.tableSize ≤ maxTableSize
  head_ge : -2 ^ 15 ≤ t.freeHeadIndex
  chain : IsChain t.nextFree t.freeHeadIndex.toNat? free
  lt_size : ∀ i ∈ free, i < t.tableSize
  count_add : t.count + free.length = t.tableSize

namespace FreeListOk

section

variable (ok : t.FreeListOk free)
include ok

theorem of_eq (hinfos : ∀ i ∈ free, t'.entryInfos i = t.entryInfos i)
    (hhead : t'.freeHeadIndex = t.freeHeadIndex) (hsize : t'.tableSize = t.tableSize)
    (hcount : t'.count = t.count) : t'.FreeListOk free where
  size_le := hsize ▸ ok.size_le
  head_ge := hhead ▸ ok.head_ge
  chain := by
    rw [hhead]
    refine ok.chain.congr fun j hj => ?_
    rw [nextFree, nextFree, hinfos j hj]
  lt_size := hsize ▸ ok.lt_size
  count_add := by rw [hcount, hsize, ok.count_add]

theorem setEntry (hi : i ∉ free) : (t.setEntry i id o).FreeListOk free := by
  refine ok.of_eq (fun j hj => Function.update_of_ne ?_ _ _) rfl rfl rfl
  rintro rfl
  exact hi hj

theorem allocateLinearId : t.allocateLinearId.2.FreeListOk free :=
  ok.of_eq (fun _ _ => rfl) rfl rfl rfl

/-- While the table is not full, the free list has a first entry, which is taken. -/
theorem allocateEntry (hcount : t.count < t.tableSize) :
    ∃ i rest, free = i :: rest ∧ t.freeHeadIndex = i ∧
      t.allocateEntry = .ok (i, t.taken i) ∧ (t.taken i).FreeListOk rest := by
  have hsize := ok.size_le
  have hadd := ok.count_add
  have hchain := ok.chain
  generalize hhead : t.freeHeadIndex.toNat? = head at hchain
  cases hchain with
  | nil =>
    rw [List.length_nil] at hadd
    omega
  | @cons i rest htail =>
    have hindex : t.freeHeadIndex = i := Int.mem_toNat?.mp hhead
    have hlt := ok.lt_size i (.head _)
    rw [List.length_cons] at hadd
    unfold maxTableSize at hsize
    refine ⟨i, rest, rfl, hindex, ?_, ok.size_le, BitVec.le_toInt _, htail,
      fun j hj => ok.lt_size j (.tail _ hj), ?_⟩
    · have hmod : (t.count + 1) % 2 ^ 16 = t.count + 1 := by omega
      have hrange : 0 ≤ (i : ℤ) ∧ (i : ℤ) < maxTableSize := by
        unfold maxTableSize
        omega
      rw [KHandleTable.allocateEntry, hindex, if_pos hrange, hmod]
      rfl
    · change t.count + 1 + rest.length = t.tableSize
      omega

/-- An entry that is not free becomes the first of the free list. -/
theorem freeEntry (hi : i < t.tableSize) (hnot : i ∉ free) :
    (t.freeEntry i).FreeListOk (i :: free) := by
  have hsize := ok.size_le
  have hadd := ok.count_add
  have hlt : ∀ j ∈ i :: free, j < t.tableSize := by
    intro j hj
    rcases List.mem_cons.mp hj with rfl | hmem
    · exact hi
    · exact ok.lt_size j hmem
  -- The entries of the longer list are different, so the table has room for all of them.
  have hlength : (i :: free).length ≤ t.tableSize := by
    have hnodup : (i :: free).Nodup := List.nodup_cons.mpr ⟨hnot, ok.chain.nodup⟩
    rw [← List.length_range (n := t.tableSize)]
    exact (hnodup.subperm fun j hj => List.mem_range.mpr (hlt j hj)).length_le
  rw [List.length_cons] at hlength
  unfold maxTableSize at hsize
  have hhead : t.freeHeadIndex < 2 ^ 15 := by
    have hchain := ok.chain
    generalize hindex : t.freeHeadIndex.toNat? = head at hchain
    cases hchain with
    | nil =>
      cases hz : t.freeHeadIndex with
      | ofNat n =>
        rw [hz] at hindex
        cases hindex
      | negSucc n => omega
    | @cons j rest _ =>
      have hj := ok.lt_size j (.head _)
      rw [Int.mem_toNat?.mp hindex]
      omega
  refine ⟨ok.size_le, ?_, ?_, hlt, ?_⟩
  · change -2 ^ 15 ≤ (i : ℤ)
    omega
  · have hnext : (t.freeEntry i).nextFree =
        Function.update t.nextFree i t.freeHeadIndex.toNat? := by
      funext j
      by_cases hj : j = i
      · subst hj
        simp [nextFree, KHandleTable.freeEntry,
          EntryInfo.getNextFreeIndex_ofNextFreeIndex ok.head_ge hhead]
      · simp [nextFree, KHandleTable.freeEntry, hj]
    rw [hnext]
    exact ok.chain.push hnot
  · change (t.count + (2 ^ 16 - 1)) % 2 ^ 16 + (i :: free).length = t.tableSize
    rw [List.length_cons]
    omega

end

/-- The loop of `Initialize` links every entry to the one before it. -/
theorem freeEntries (t : KHandleTable α) (n : ℕ) (hn : n ≤ maxTableSize)
    (hhead : t.freeHeadIndex = -1) :
    IsChain (t.freeEntries n).nextFree (t.freeEntries n).freeHeadIndex.toNat?
      (List.range n).reverse ∧ (t.freeEntries n).freeHeadIndex = (n : ℤ) - 1 := by
  induction n with
  | zero =>
    refine ⟨?_, by simpa [KHandleTable.freeEntries] using hhead⟩
    change IsChain _ t.freeHeadIndex.toNat? _
    rw [hhead]
    exact .nil
  | succ n ih =>
    unfold maxTableSize at hn ih
    obtain ⟨hchain, hlast⟩ := ih (by omega)
    have hnext : (t.freeEntries (n + 1)).nextFree =
        Function.update (t.freeEntries n).nextFree n (t.freeEntries n).freeHeadIndex.toNat? := by
      funext j
      by_cases hj : j = n
      · subst hj
        rw [hlast]
        simp only [nextFree, KHandleTable.freeEntries, Function.update_self]
        rw [EntryInfo.getNextFreeIndex_ofNextFreeIndex (by omega) (by omega)]
      · simp [nextFree, KHandleTable.freeEntries, hj]
    refine ⟨?_, ?_⟩
    · rw [hnext, List.range_succ, List.reverse_append]
      exact hchain.push (by simp)
    · change (n : ℤ) = ((n + 1 : ℕ) : ℤ) - 1
      omega

end FreeListOk

theorem freeEntries_objects (t : KHandleTable α) (n : ℕ) :
    ∀ i < n, (t.freeEntries n).objects i = none := by
  induction n with
  | zero =>
    omega
  | succ n ih =>
    intro i hi
    by_cases heq : i = n
    · simp [freeEntries, heq]
    · simp only [freeEntries, Function.update_of_ne heq]
      exact ih i (by omega)

/-- The fields that the loop of `Initialize` leaves alone. -/
theorem freeEntries_frame (t : KHandleTable α) (n : ℕ) :
    (t.freeEntries n).tableSize = t.tableSize ∧ (t.freeEntries n).count = t.count ∧
      (t.freeEntries n).nextLinearId = t.nextLinearId := by
  induction n with
  | zero => exact ⟨rfl, rfl, rfl⟩
  | succ n ih => exact ih

/-- Every entry of the table is free and no object is left in it. -/
structure AllFree (t : KHandleTable α) : Prop where
  freeOk : ∃ free, t.FreeListOk free ∧ ∀ i, i ∈ free ↔ i < t.tableSize
  objects : ∀ i < t.tableSize, t.objects i = none
  nextLinearId : t.nextLinearId = minLinearId

theorem allFree_constantInitialize : (constantInitialize : KHandleTable α).AllFree where
  freeOk := ⟨[], ⟨Nat.zero_le _, by simp [constantInitialize], .nil, by simp, rfl⟩,
    by simp [constantInitialize]⟩
  objects := fun _ _ => rfl
  nextLinearId := rfl

theorem allFree_freeEntries (hsize : t.tableSize ≤ maxTableSize) (hhead : t.freeHeadIndex = -1)
    (hcount : t.count = 0) (hid : t.nextLinearId = minLinearId) :
    (t.freeEntries t.tableSize).AllFree := by
  obtain ⟨htable, hcount', hid'⟩ := freeEntries_frame t t.tableSize
  obtain ⟨hchain, hlast⟩ := FreeListOk.freeEntries t t.tableSize hsize hhead
  refine ⟨⟨(List.range t.tableSize).reverse, ⟨?_, ?_, hchain, ?_, ?_⟩, ?_⟩, ?_, ?_⟩
  · rwa [htable]
  · omega
  · simp [htable]
  · simp [htable, hcount', hcount]
  · simp [htable]
  · rw [htable]
    exact freeEntries_objects t t.tableSize
  · rw [hid', hid]

theorem allFree_of_initializeTable {size : ℤ} (hinit : t.initializeTable size = .ok t') :
    t'.AllFree := by
  unfold initializeTable at hinit
  split_ifs at hinit with hsize hneg
  all_goals
    cases hinit
    refine allFree_freeEntries ?_ rfl rfl rfl
    dsimp only
    omega

end KHandleTable

end Atmosphere.Kern
