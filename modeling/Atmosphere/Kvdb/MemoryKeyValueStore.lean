import Mathlib

/-!
# The key value store in memory

`MemoryKeyValueStore` keeps the values of its entries in buffers of a memory resource, and the
entries in an array that is sorted by key. `Set` makes room for a new entry, or frees the value of
an old one, before it allocates the new value. So a failing allocation leaves a cell that is not an
entry, and the store is right in the runs without one.
-/

namespace Atmosphere.Kvdb

open Function (update update_self update_of_ne update_idem)

/-- The `kvdb::Result` values besides success. -/
inductive KvdbResult
  | outOfKeyResource
  | allocationFailed
  | keyNotFound
  | invalidKeyValue
  deriving DecidableEq

/-- The buffers that are allocated, by address. -/
abbrev Heap := ℕ → Option (List UInt8)

/-- A memory resource; an allocation fails, or gives an address that is free. -/
structure MemoryResource where
  allocate : Heap → ℕ → Option ℕ
  free : ∀ {heap size p}, allocate heap size = some p → heap p = none

structure Entry (Key : Type) where
  key : Key
  value : ℕ
  valueSize : ℕ

/-- `MemoryKeyValueStore` with its index. The cells behind the entries hold anything. -/
structure MemoryKeyValueStore (Key : Type) where
  cells : ℕ → Entry Key
  count : ℕ
  capacity : ℕ
  heap : Heap

namespace MemoryKeyValueStore

variable {Key : Type} [LinearOrder Key] (s : MemoryKeyValueStore Key) (mr : MemoryResource)

/-- `std::lower_bound` of the entries. -/
def lowerBound (key : Key) : ℕ :=
  ((List.range s.count).find? fun i => key ≤ (s.cells i).key).getD s.count

def find (key : Key) : Option ℕ :=
  if s.lowerBound key < s.count ∧ (s.cells (s.lowerBound key)).key = key then
    some (s.lowerBound key)
  else none

/-- `Deallocate` of the value of an entry. -/
def deallocate (i : ℕ) : MemoryKeyValueStore Key :=
  { s with heap := update s.heap (s.cells i).value none }

/-- The cells from `i` on move forward; what was in the first of them stays there too. -/
def moveForward (i : ℕ) : MemoryKeyValueStore Key :=
  { s with
    cells := fun j => if i < j ∧ j ≤ s.count then s.cells (j - 1) else s.cells j
    count := s.count + 1 }

/-- The cells behind `i` move back. -/
def moveBack (i : ℕ) : MemoryKeyValueStore Key :=
  { s with
    cells := fun j => if i ≤ j ∧ j + 1 < s.count then s.cells (j + 1) else s.cells j
    count := s.count - 1 }

/-- The end of `Index::Set`: the new value is allocated and the entry is saved. -/
def saveEntry (i : ℕ) (key : Key) (value : List UInt8) :
    Except KvdbResult Unit × MemoryKeyValueStore Key :=
  match mr.allocate s.heap value.length with
  | none => (.error .allocationFailed, s)
  | some p => (.ok (), { s with
      heap := update s.heap p (some value)
      cells := update s.cells i ⟨key, p, value.length⟩ })

def set (key : Key) (value : List UInt8) : Except KvdbResult Unit × MemoryKeyValueStore Key :=
  let i := s.lowerBound key
  if i < s.count ∧ (s.cells i).key = key then (s.deallocate i).saveEntry mr i key value
  else if s.count < s.capacity then (s.moveForward i).saveEntry mr i key value
  else (.error .outOfKeyResource, s)

def remove (key : Key) : Except KvdbResult Unit × MemoryKeyValueStore Key :=
  match s.find key with
  | none => (.error .keyNotFound, s)
  | some i => (.ok (), (s.deallocate i).moveBack i)

/-- `Get` of at most `maxOutSize` bytes; `none` where the buffer is not allocated. -/
def get (maxOutSize : ℕ) (key : Key) : Option (Except KvdbResult (List UInt8)) :=
  match s.find key with
  | none => some (.error .keyNotFound)
  | some i => (s.heap (s.cells i).value).map fun value =>
      .ok (value.take (min maxOutSize (s.cells i).valueSize))

/-- The map that a store represents. -/
def lookup (key : Key) : Option (List UInt8) :=
  (s.find key).bind fun i => s.heap (s.cells i).value

inductive Op (Key : Type)
  | set (key : Key) (value : List UInt8)
  | remove (key : Key)

def apply : Op Key → Except KvdbResult Unit × MemoryKeyValueStore Key
  | .set key value => s.set mr key value
  | .remove key => s.remove key

/-- What an operation that succeeds does to the map. -/
def Op.effect (m : Key → Option (List UInt8)) : Op Key → Key → Option (List UInt8)
  | .set key value => update m key (some value)
  | .remove key => update m key none

/-- The memory resource grants the allocation that the operation asks for: `Set` of a key that is
there asks when the old value is freed, `Set` of another one when there is room for an entry. -/
def Grants : Op Key → Prop
  | .set key value =>
    match s.find key with
    | some i => (mr.allocate (s.deallocate i).heap value.length).isSome
    | none => s.count < s.capacity → (mr.allocate s.heap value.length).isSome
  | .remove _ => True

/-- The entries are sorted, and each owns a buffer of its own. -/
structure Inv : Prop where
  count_le : s.count ≤ s.capacity
  sorted : ∀ i j, i < j → j < s.count → (s.cells i).key < (s.cells j).key
  owns : ∀ i < s.count, ∃ value, s.heap (s.cells i).value = some value ∧
    value.length = (s.cells i).valueSize
  apart : ∀ i j, i < j → j < s.count → (s.cells i).value ≠ (s.cells j).value

variable {s mr} {result : Except KvdbResult Unit} {s' : MemoryKeyValueStore Key} {i j : ℕ}
  {key : Key} {value : List UInt8}

theorem lowerBound_spec (s : MemoryKeyValueStore Key) (key : Key) :
    s.lowerBound key ≤ s.count ∧ (∀ j < s.lowerBound key, (s.cells j).key < key) ∧
      (s.lowerBound key < s.count → key ≤ (s.cells (s.lowerBound key)).key) := by
  unfold lowerBound
  cases hfind : (List.range s.count).find? fun i => key ≤ (s.cells i).key with
  | none =>
    rw [List.find?_range_eq_none] at hfind
    exact ⟨le_rfl, fun j hj => by simpa using hfind j hj,
      fun hlt => absurd hlt (Nat.lt_irrefl _)⟩
  | some i =>
    rw [List.find?_range_eq_some] at hfind
    exact ⟨Nat.le_of_lt (List.mem_range.mp hfind.2.1), fun j hj => by simpa using hfind.2.2 j hj,
      fun _ => by simpa using hfind.1⟩

variable (h : s.Inv)
include h

theorem Inv.find_eq_some : s.find key = some i ↔ i < s.count ∧ (s.cells i).key = key := by
  obtain ⟨hle, hbefore, hbehind⟩ := s.lowerBound_spec key
  rw [find]
  constructor
  · intro hfind
    split_ifs at hfind with hfound
    exact Option.some.inj hfind ▸ hfound
  · rintro ⟨hi, rfl⟩
    have hi : s.lowerBound (s.cells i).key = i := by
      rcases Nat.lt_trichotomy (s.lowerBound (s.cells i).key) i with hlt | heq | hgt
      · exact absurd (h.sorted _ i hlt hi) (not_lt.mpr (hbehind (Nat.lt_trans hlt hi)))
      · exact heq
      · exact absurd (hbefore i hgt) (lt_irrefl _)
    rw [hi, if_pos ⟨‹_›, rfl⟩]

theorem Inv.lookup_key (hi : i < s.count) :
    s.lookup (s.cells i).key = s.heap (s.cells i).value := by
  rw [lookup, (h.find_eq_some).mpr ⟨hi, rfl⟩, Option.bind_some]

theorem Inv.lookup_eq_none (hne : ∀ i < s.count, (s.cells i).key ≠ key) : s.lookup key = none := by
  rw [lookup, Option.bind_eq_none_iff]
  intro i hfind
  obtain ⟨hi, heq⟩ := h.find_eq_some.mp hfind
  exact absurd heq (hne i hi)

omit h

/-- The indices other than `i`, in order. -/
def skip (i j : ℕ) : ℕ := if j < i then j else j + 1

theorem skip_spec (i j : ℕ) : j < i ∧ skip i j = j ∨ i ≤ j ∧ skip i j = j + 1 := by
  unfold skip
  split_ifs <;> omega

theorem skip_ne (j : ℕ) : skip i j ≠ i := by
  have := skip_spec i j
  omega

theorem skip_lt_skip {k : ℕ} : skip i j < skip i k ↔ j < k := by
  have := skip_spec i j
  have := skip_spec i k
  omega

theorem exists_skip {n : ℕ} (hi : i ≤ n) (hj : j < n + 1) (hne : j ≠ i) :
    ∃ k < n, skip i k = j := by
  rcases Nat.lt_or_gt_of_ne hne with hlt | hgt
  · exact ⟨j, by omega, if_pos hlt⟩
  · exact ⟨j - 1, by omega, by rw [skip, if_neg (by omega)]; omega⟩

/-- The entries of `s` are those of `s'` without the one in the cell `i`. -/
structure Without (i : ℕ) (s s' : MemoryKeyValueStore Key) : Prop where
  count : s'.count = s.count + 1
  le : i ≤ s.count
  cells : ∀ j < s.count, s'.cells (skip i j) = s.cells j
  heap : ∀ j < s.count, s'.heap (s.cells j).value = s.heap (s.cells j).value

section

omit [LinearOrder Key]

variable (hw : Without i s s')
include hw

theorem Without.exists_cell (hj : j < s'.count) (hne : j ≠ i) :
    ∃ k < s.count, s'.cells j = s.cells k ∧ skip i k = j := by
  obtain ⟨k, hk, rfl⟩ := exists_skip hw.le (hw.count ▸ hj) hne
  exact ⟨k, hk, hw.cells k hk, rfl⟩

theorem Without.skip_lt (hj : j < s.count) : skip i j < s'.count := by
  have := skip_spec i j
  have := hw.count
  omega

end

/-- The stores represent the same but for the key of that entry, which is only in `s'`. -/
theorem Without.lookup (hw : Without i s s') (h : s.Inv) (h' : s'.Inv) :
    s.lookup = update s'.lookup (s'.cells i).key none := by
  have hi : i < s'.count := hw.count ▸ Nat.lt_succ_of_le hw.le
  funext key
  by_cases hkey : ∃ j < s.count, (s.cells j).key = key
  · obtain ⟨j, hj, rfl⟩ := hkey
    have hne : (s'.cells (skip i j)).key ≠ (s'.cells i).key := by
      rcases Nat.lt_or_gt_of_ne (skip_ne j) with hlt | hgt
      · exact ne_of_lt (h'.sorted _ i hlt hi)
      · exact ne_of_gt (h'.sorted i _ hgt (hw.skip_lt hj))
    rw [h.lookup_key hj, ← hw.heap j hj, ← hw.cells j hj, update_of_ne hne,
      h'.lookup_key (hw.skip_lt hj)]
  · rw [h.lookup_eq_none fun j hj heq => hkey ⟨j, hj, heq⟩]
    by_cases heq : key = (s'.cells i).key
    · rw [heq, update_self]
    · rw [update_of_ne heq, h'.lookup_eq_none]
      rintro j hj rfl
      obtain ⟨k, hk, hcell, _⟩ := hw.exists_cell hj fun hji => heq (hji ▸ rfl)
      exact hkey ⟨k, hk, hcell ▸ rfl⟩

theorem Inv.removed (h : s.Inv) (hi : i < s.count) :
    ((s.deallocate i).moveBack i).Inv ∧ Without i ((s.deallocate i).moveBack i) s := by
  have hcells : ∀ j < s.count - 1, s.cells (skip i j) = ((s.deallocate i).moveBack i).cells j := by
    intro j hj
    unfold skip
    split_ifs with hlt
    · exact (if_neg (by omega)).symm
    · exact (if_pos ⟨Nat.le_of_not_lt hlt, Nat.add_lt_of_lt_sub hj⟩).symm
  have hskip : ∀ j < s.count - 1, skip i j < s.count := fun j hj => by
    have := skip_spec i j
    omega
  have hw : Without i ((s.deallocate i).moveBack i) s := by
    refine ⟨(Nat.sub_add_cancel (Nat.zero_lt_of_lt hi)).symm, Nat.le_sub_one_of_lt hi, hcells, ?_⟩
    intro j hj
    rw [← hcells j hj]
    refine (update_of_ne ?_ _ _).symm
    rcases Nat.lt_or_gt_of_ne (skip_ne j) with hlt | hgt
    · exact h.apart _ i hlt hi
    · exact (h.apart i _ hgt (hskip j hj)).symm
  refine ⟨⟨?_, fun j k hjk hk => ?_, fun j hj => ?_, fun j k hjk hk => ?_⟩, hw⟩
  · exact Nat.le_trans (Nat.sub_le _ _) h.count_le
  · rw [← hw.cells j (Nat.lt_trans hjk hk), ← hw.cells k hk]
    exact h.sorted _ _ (skip_lt_skip.mpr hjk) (hw.skip_lt hk)
  · rw [← hw.heap j hj, ← hw.cells j hj]
    exact h.owns _ (hw.skip_lt hj)
  · rw [← hw.cells j (Nat.lt_trans hjk hk), ← hw.cells k hk]
    exact h.apart _ _ (skip_lt_skip.mpr hjk) (hw.skip_lt hk)

/-- An entry is added where its key belongs, with a value that no other entry owns. -/
theorem Without.inv (hw : Without i s s') (h : s.Inv) (hroom : s'.count ≤ s'.capacity)
    (hbefore : ∀ j < i, (s.cells j).key < (s'.cells i).key)
    (hbehind : ∀ j, i ≤ j → j < s.count → (s'.cells i).key < (s.cells j).key)
    (howns : ∃ value, s'.heap (s'.cells i).value = some value ∧
      value.length = (s'.cells i).valueSize)
    (hfree : s.heap (s'.cells i).value = none) : s'.Inv := by
  have hfresh : ∀ j < s.count, (s.cells j).value ≠ (s'.cells i).value := by
    intro j hj heq
    obtain ⟨v, hv, _⟩ := h.owns j hj
    rw [heq, hfree] at hv
    cases hv
  have hpair : ∀ j k, j < k → k < s'.count → (s'.cells j).key < (s'.cells k).key ∧
      (s'.cells j).value ≠ (s'.cells k).value := by
    intro j k hjk hk
    by_cases hj : j = i
    · subst hj
      obtain ⟨k, hk, hcell, rfl⟩ := hw.exists_cell hk (Nat.ne_of_gt hjk)
      have := skip_spec j k
      exact hcell ▸ ⟨hbehind k (by omega) ‹_›, (hfresh k ‹_›).symm⟩
    obtain ⟨j, hj, hcell, rfl⟩ := hw.exists_cell (Nat.lt_trans hjk hk) hj
    by_cases hki : k = i
    · subst hki
      have := skip_spec k j
      exact hcell ▸ ⟨hbefore j (by omega), hfresh j ‹_›⟩
    · obtain ⟨k, hk, hcell', rfl⟩ := hw.exists_cell hk hki
      have hlt : j < k := skip_lt_skip.mp hjk
      exact hcell ▸ hcell' ▸ ⟨h.sorted j k hlt ‹_›, h.apart j k hlt ‹_›⟩
  refine ⟨hroom, fun j k hjk hk => (hpair j k hjk hk).1, fun j hj => ?_,
    fun j k hjk hk => (hpair j k hjk hk).2⟩
  by_cases hji : j = i
  · exact hji ▸ howns
  · obtain ⟨k, hk, hcell, _⟩ := hw.exists_cell hj hji
    rw [hcell, hw.heap k hk]
    exact h.owns k hk

/-- The entry is saved in the cell that was made free: the entries of `t` are then those of `s` and
the new one. -/
theorem saveEntry_spec {t : MemoryKeyValueStore Key} (h : s.Inv) (hcount : t.count = s.count + 1)
    (hroom : t.count ≤ t.capacity) (hi : i ≤ s.count)
    (hcells : ∀ j < s.count, t.cells (skip i j) = s.cells j) (hheap : t.heap = s.heap)
    (hbefore : ∀ j < i, (s.cells j).key < key)
    (hbehind : ∀ j, i ≤ j → j < s.count → key < (s.cells j).key)
    (hsave : t.saveEntry mr i key value = (result, s'))
    (hresult : result ≠ .error .allocationFailed) :
    result = .ok () ∧ s'.Inv ∧ s'.lookup = update s.lookup key (some value) := by
  rw [saveEntry] at hsave
  cases hallocate : mr.allocate t.heap value.length with
  | none =>
    rw [hallocate] at hsave
    exact absurd (Prod.mk.inj hsave).1.symm hresult
  | some p =>
    rw [hallocate] at hsave
    obtain ⟨rfl, rfl⟩ := Prod.mk.inj hsave
    have hfree : s.heap p = none := hheap ▸ mr.free hallocate
    have hw : Without i s { t with
        heap := update t.heap p (some value)
        cells := update t.cells i ⟨key, p, value.length⟩ } := by
      refine ⟨hcount, hi, fun j hj => ?_, fun j hj => ?_⟩
      · exact (update_of_ne (skip_ne j) _ _).trans (hcells j hj)
      · refine (update_of_ne ?_ _ _).trans (congrFun hheap _)
        rintro rfl
        obtain ⟨v, hv, _⟩ := h.owns j hj
        cases hfree.symm.trans hv
    have hkey : update t.cells i ⟨key, p, value.length⟩ i = ⟨key, p, value.length⟩ :=
      update_self ..
    have hself : update t.heap p (some value) p = some value := update_self ..
    have hinv := hw.inv h hroom (by simpa only [hkey] using hbefore)
      (by simpa only [hkey] using hbehind) ⟨value, by simp only [hkey, hself, and_self]⟩
      (by simpa only [hkey] using hfree)
    refine ⟨rfl, hinv, ?_⟩
    have hnew := hinv.lookup_key (hw.count.symm ▸ Nat.lt_succ_of_le hi : i < _)
    simp only [hkey, hself] at hnew
    rw [hw.lookup h hinv]
    dsimp only
    rw [hkey, update_idem]
    exact Function.eq_update_iff.mpr ⟨hnew, fun _ _ => rfl⟩

/-- An operation other than a `Set` whose allocation fails keeps the invariant. It changes the map
at its key when it succeeds, and leaves the map as it is when it fails. -/
theorem Inv.apply (h : s.Inv) {op : Op Key} (hop : s.apply mr op = (result, s'))
    (hresult : result ≠ .error .allocationFailed) :
    s'.Inv ∧ s'.lookup = if result = .ok () then op.effect s.lookup else s.lookup := by
  cases op with
  | set key value =>
    obtain ⟨hle, hbefore, hbehind⟩ := s.lowerBound_spec key
    rw [MemoryKeyValueStore.apply, set] at hop
    split_ifs at hop with hfound hroom
    · obtain ⟨hi, hkey⟩ := hfound
      obtain ⟨hremoved, hw⟩ := h.removed hi
      obtain ⟨rfl, hinv, hlookup⟩ := saveEntry_spec (t := s.deallocate _) hremoved hw.count
        h.count_le hw.le (fun j hj => hw.cells j hj) rfl
        (fun j hj => by
          rw [← hw.cells j (Nat.lt_of_lt_of_le hj hw.le), skip, if_pos hj]
          exact hbefore j hj)
        (fun j hij hj => by
          rw [← hw.cells j hj, skip, if_neg (Nat.not_lt.mpr hij), ← hkey]
          exact h.sorted _ _ (Nat.lt_succ_of_le hij) (hw.count ▸ Nat.succ_lt_succ hj)) hop hresult
      refine ⟨hinv, ?_⟩
      rw [hlookup, hw.lookup hremoved h, hkey, update_idem]
      rfl
    · obtain ⟨rfl, hinv, hlookup⟩ := saveEntry_spec (t := s.moveForward _) h rfl
        (Nat.succ_le_of_lt hroom) hle
        (fun j hj => by
          unfold skip
          split_ifs with hlt
          · exact if_neg fun hj => Nat.lt_asymm hlt hj.1
          · exact if_pos ⟨Nat.lt_succ_of_le (Nat.le_of_not_lt hlt), hj⟩) rfl hbefore
        (fun j hij hj => by
          have hi := Nat.lt_of_le_of_lt hij hj
          have hlt := lt_of_le_of_ne (hbehind hi) fun heq => hfound ⟨hi, heq.symm⟩
          rcases Nat.eq_or_lt_of_le hij with rfl | hij
          · exact hlt
          · exact lt_trans hlt (h.sorted _ j hij hj)) hop hresult
      exact ⟨hinv, by rw [if_pos rfl, hlookup]; rfl⟩
    · obtain ⟨rfl, rfl⟩ := Prod.mk.inj hop
      exact ⟨h, rfl⟩
  | remove key =>
    rw [MemoryKeyValueStore.apply, remove] at hop
    cases hfind : s.find key with
    | none =>
      rw [hfind] at hop
      obtain ⟨rfl, rfl⟩ := Prod.mk.inj hop
      exact ⟨h, rfl⟩
    | some i =>
      rw [hfind] at hop
      obtain ⟨rfl, rfl⟩ := Prod.mk.inj hop
      obtain ⟨hi, rfl⟩ := h.find_eq_some.mp hfind
      obtain ⟨hinv, hw⟩ := h.removed hi
      exact ⟨hinv, by rw [if_pos rfl, hw.lookup hinv h]; rfl⟩

omit [LinearOrder Key] in
theorem saveEntry_ne_allocationFailed (hgrants : (mr.allocate s.heap value.length).isSome)
    (hsave : s.saveEntry mr i key value = (result, s')) : result ≠ .error .allocationFailed := by
  obtain ⟨p, hp⟩ := Option.isSome_iff_exists.mp hgrants
  rw [saveEntry, hp] at hsave
  obtain ⟨rfl, -⟩ := Prod.mk.inj hsave
  decide

theorem apply_ne_allocationFailed {op : Op Key} (hgrants : s.Grants mr op)
    (hop : s.apply mr op = (result, s')) : result ≠ .error .allocationFailed := by
  cases op with
  | set key value =>
    simp only [Grants, find] at hgrants
    rw [MemoryKeyValueStore.apply, set] at hop
    split_ifs at hop with hfound hroom
    · rw [if_pos hfound] at hgrants
      exact saveEntry_ne_allocationFailed hgrants hop
    · rw [if_neg hfound] at hgrants
      exact saveEntry_ne_allocationFailed (s := s.moveForward _) (hgrants hroom) hop
    · obtain ⟨rfl, -⟩ := Prod.mk.inj hop
      decide
  | remove key =>
    rw [MemoryKeyValueStore.apply, remove] at hop
    split at hop <;> obtain ⟨rfl, -⟩ := Prod.mk.inj hop <;> decide

/-- `Get` copies the first bytes of the value that the map has. -/
theorem Inv.get (h : s.Inv) (n : ℕ) : s.get n key = some (match s.lookup key with
    | none => .error .keyNotFound
    | some value => .ok (value.take n)) := by
  rw [MemoryKeyValueStore.get, MemoryKeyValueStore.lookup]
  cases hfind : s.find key with
  | none => rfl
  | some i =>
    obtain ⟨hi, rfl⟩ := h.find_eq_some.mp hfind
    obtain ⟨value, hvalue, hlength⟩ := h.owns i hi
    dsimp only [Option.bind_some]
    rw [hvalue, ← hlength, Option.map_some, ← List.take_eq_take_min]

/-- An operation, with the memory resource as it is then, that is granted its allocation. -/
def Step (s s' : MemoryKeyValueStore Key) : Prop :=
  ∃ mr op result, s.Grants mr op ∧ s.apply mr op = (result, s')

/-- In every run from an empty store in which each allocation of a value is granted, the index is
sorted, has at most `capacity` entries and each owns a buffer; an operation changes the represented
map exactly at its key when it succeeds, and a failing one leaves it; `Get` reads the map. -/
theorem memoryKeyValueStore_run {s s' : MemoryKeyValueStore Key} (hempty : s.count = 0)
    (hrun : Relation.ReflTransGen Step s s') :
    s'.Inv ∧ (∀ mr op result s'', s'.Grants mr op → s'.apply mr op = (result, s'') →
      s''.lookup = if result = .ok () then op.effect s'.lookup else s'.lookup) ∧
    ∀ n key, s'.get n key = some (match s'.lookup key with
      | none => .error .keyNotFound
      | some value => .ok (value.take n)) := by
  have hinv : s'.Inv := by
    induction hrun with
    | refl =>
      constructor
      · exact hempty ▸ Nat.zero_le _
      all_goals intros; omega
    | tail _ hstep ih =>
      obtain ⟨mr, op, result, hgrants, hop⟩ := hstep
      exact (ih.apply hop (apply_ne_allocationFailed hgrants hop)).1
  refine ⟨hinv, fun _ _ _ _ hgrants hop => ?_, fun n _ => hinv.get n⟩
  exact (hinv.apply hop (apply_ne_allocationFailed hgrants hop)).2

/-- A memory resource with two buffers, one without memory, and a store with no entry. -/
def twoBuffers : MemoryResource where
  allocate heap _ := (List.range 2).find? fun p => (heap p).isNone
  free hfind := by simpa using List.find?_some hfind

def outOfMemory : MemoryResource := ⟨fun _ _ => none, fun h => nomatch h⟩

def emptyStore : MemoryKeyValueStore ℕ := ⟨fun _ => ⟨0, 0, 0⟩, 0, 2, fun _ => none⟩

theorem memoryKeyValueStore_run_oneEntry : (emptyStore.set twoBuffers 5 [1]).2.Inv ∧
      (emptyStore.set twoBuffers 5 [1]).2.get 8 5 = some (.ok [1]) := by
  obtain ⟨hinv, _, hget⟩ := memoryKeyValueStore_run (s := emptyStore) rfl
    (.single ⟨twoBuffers, .set 5 [1], .ok (), fun _ => rfl, rfl⟩)
  exact ⟨hinv, hget 8 5⟩

/-- `Set` of a key that is there frees the value before it fails, and the entry stays without one;
`Set` of a new key leaves the cells moved, and the next entry is there twice. -/
theorem set_outOfMemory : let s := (emptyStore.set twoBuffers 5 [1]).2
    (s.set outOfMemory 5 [2]).1 = .error .allocationFailed ∧ s.lookup 5 = some [1] ∧
      (s.set outOfMemory 5 [2]).2.lookup 5 = none ∧ (s.set outOfMemory 5 [2]).2.count = 1 ∧
      (s.set outOfMemory 3 [2]).2.count = 2 ∧
      ((s.set outOfMemory 3 [2]).2.cells 0).key = ((s.set outOfMemory 3 [2]).2.cells 1).key := by
  decide

end MemoryKeyValueStore

end Atmosphere.Kvdb
