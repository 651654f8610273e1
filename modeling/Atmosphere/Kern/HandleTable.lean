import Atmosphere.Kern.Basic

/-!
# The handle table of a process

`KHandleTable` keeps the objects of a process in an array. A handle packs an index of
the array with the linear id that the entry was given, and resolves as long as the entry
still has that id. A free entry keeps the index of the next free entry in the place of
its linear id; a reserved entry has no object and is on no list.

The lock of the table makes every operation atomic. `KAutoObject::Open` and `Close` are
not part of the table: an operation returns the object that it closes.
-/

namespace Atmosphere.Kern

open Function (update)

/-- `ams::svc::Handle`. -/
abbrev Handle := BitVec 32

namespace Handle

/-- `PseudoHandle::CurrentThread`. -/
def currentThread : Handle := 0xFFFF8000

/-- `PseudoHandle::CurrentProcess`. -/
def currentProcess : Handle := 0xFFFF8001

/-- `ams::svc::InvalidHandle`. -/
def invalid : Handle := 0

variable (handle : Handle)

/-- `IsPseudoHandle`. -/
def isPseudoHandle : Bool :=
  handle == currentProcess || handle == currentThread

/-- `Get<HandleIndex>`. -/
def index : ℕ := handle.toNat % 2 ^ 15

/-- `Get<HandleLinearId>`. -/
def linearId : ℕ := handle.toNat / 2 ^ 15 % 2 ^ 15

/-- `Get<HandleReserved>`. -/
def reserved : ℕ := handle.toNat / 2 ^ 30

/-- `EncodeHandle`. -/
def encode (index linearId : ℕ) : Handle :=
  BitVec.ofNat 32 (index % 2 ^ 15 + linearId % 2 ^ 15 * 2 ^ 15)

theorem toNat_encode (i id : ℕ) : (encode i id).toNat = i % 2 ^ 15 + id % 2 ^ 15 * 2 ^ 15 := by
  rw [encode, BitVec.toNat_ofNat]
  omega

@[simp]
theorem index_encode (i id : ℕ) : (encode i id).index = i % 2 ^ 15 := by
  rw [index, toNat_encode]
  omega

@[simp]
theorem linearId_encode (i id : ℕ) : (encode i id).linearId = id % 2 ^ 15 := by
  rw [linearId, toNat_encode]
  omega

@[simp]
theorem reserved_encode (i id : ℕ) : (encode i id).reserved = 0 := by
  rw [reserved, toNat_encode]
  omega

variable {h : Handle}

theorem encode_eq_self (hres : h.reserved = 0) : encode h.index h.linearId = h := by
  apply BitVec.eq_of_toNat_eq
  rw [toNat_encode]
  unfold index linearId reserved at *
  omega

/-- The fields determine the handle. -/
theorem eq_of_fields {h' : Handle} (hres : h.reserved = 0) (hres' : h'.reserved = 0)
    (hindex : h.index = h'.index) (hid : h.linearId = h'.linearId) : h = h' := by
  rw [← encode_eq_self hres, ← encode_eq_self hres', hindex, hid]

/-- A handle with a linear id is not zero. -/
theorem ne_invalid (hid : h.linearId ≠ 0) : h ≠ invalid := by
  rintro rfl
  exact hid rfl

/-- The pseudo handles have reserved bits. -/
theorem isPseudoHandle_eq_false (hres : h.reserved = 0) : h.isPseudoHandle = false := by
  have hprocess : h ≠ currentProcess := by
    rintro rfl
    exact absurd hres (by decide)
  have hthread : h ≠ currentThread := by
    rintro rfl
    exact absurd hres (by decide)
  simp [isPseudoHandle, hprocess, hthread]

end Handle

/-- The union `KHandleTable::EntryInfo`. -/
abbrev EntryInfo := BitVec 16

namespace EntryInfo

def getLinearId (info : EntryInfo) : ℕ := info.toNat

def getNextFreeIndex (info : EntryInfo) : ℤ := info.toInt

/-- The union holds a linear id. -/
def ofLinearId (id : ℕ) : EntryInfo := BitVec.ofNat 16 id

/-- The union holds a link of the free list. -/
def ofNextFreeIndex (index : ℤ) : EntryInfo := BitVec.ofInt 16 index

theorem getLinearId_ofLinearId {id : ℕ} (hid : id < 2 ^ 16) :
    (ofLinearId id).getLinearId = id := by
  rw [getLinearId, ofLinearId, BitVec.toNat_ofNat, Nat.mod_eq_of_lt hid]

theorem getNextFreeIndex_ofNextFreeIndex {i : ℤ} (hlow : -2 ^ 15 ≤ i) (hhigh : i < 2 ^ 15) :
    (ofNextFreeIndex i).getNextFreeIndex = i := by
  rw [getNextFreeIndex, ofNextFreeIndex, BitVec.toInt_ofInt]
  exact Int.bmod_eq_of_le (by omega) (by omega)

end EntryInfo

structure KHandleTable (α : Type) where
  entryInfos : ℕ → EntryInfo
  objects : ℕ → Option α
  freeHeadIndex : ℤ
  tableSize : ℕ
  maxCount : ℕ
  nextLinearId : ℕ
  count : ℕ

namespace KHandleTable

/-- `MaxTableSize`. -/
def maxTableSize : ℕ := 1024

/-- `MinLinearId`. -/
def minLinearId : ℕ := 1

/-- `MaxLinearId`. -/
def maxLinearId : ℕ := 32767

variable {α : Type}

/-- The table after its constructor with `ConstantInitializeTag`. -/
def constantInitialize : KHandleTable α where
  entryInfos := fun _ => 0
  objects := fun _ => none
  freeHeadIndex := -1
  tableSize := 0
  maxCount := 0
  nextLinearId := minLinearId
  count := 0

variable (t : KHandleTable α)

/-- The loop of `Initialize` over the first entries. -/
def freeEntries (t : KHandleTable α) : ℕ → KHandleTable α
  | 0 => t
  | i + 1 =>
    let t := t.freeEntries i
    { t with
      objects := update t.objects i none
      entryInfos := update t.entryInfos i (EntryInfo.ofNextFreeIndex ((i : ℤ) - 1))
      freeHeadIndex := i }

/-- `Initialize`. -/
def initializeTable (size : ℤ) : Except SvcResult (KHandleTable α) :=
  if size ≤ maxTableSize then
    let tableSize := if size ≤ 0 then maxTableSize else size.toNat
    let t := { t with
      maxCount := 0
      tableSize := tableSize
      nextLinearId := minLinearId
      count := 0
      freeHeadIndex := -1 }
    .ok (t.freeEntries tableSize)
  else
    .error .outOfMemory

/-- `AllocateEntry`. -/
def allocateEntry : Run (ℕ × KHandleTable α) :=
  if 0 ≤ t.freeHeadIndex ∧ t.freeHeadIndex < maxTableSize then
    let index := t.freeHeadIndex.toNat
    let count := (t.count + 1) % 2 ^ 16
    .ok (index, { t with
      freeHeadIndex := (t.entryInfos index).getNextFreeIndex
      count := count
      maxCount := max t.maxCount count })
  else
    .error .outOfBounds

/-- `FreeEntry`. -/
def freeEntry (index : ℕ) : KHandleTable α :=
  { t with
    objects := update t.objects index none
    entryInfos := update t.entryInfos index (EntryInfo.ofNextFreeIndex t.freeHeadIndex)
    freeHeadIndex := index
    count := (t.count + (2 ^ 16 - 1)) % 2 ^ 16 }

/-- `AllocateLinearId`. -/
def allocateLinearId : ℕ × KHandleTable α :=
  let next := (t.nextLinearId + 1) % 2 ^ 16
  (t.nextLinearId, { t with nextLinearId := if maxLinearId < next then minLinearId else next })

/-- `m_entry_infos[index].linear_id = linear_id; m_objects[index] = obj`. -/
def setEntry (index linearId : ℕ) (obj : α) : KHandleTable α :=
  { t with
    entryInfos := update t.entryInfos index (EntryInfo.ofLinearId linearId)
    objects := update t.objects index (some obj) }

/-- `Add`, which opens the object if it succeeds. -/
def add (obj : α) : Run (Except SvcResult Handle × KHandleTable α) := do
  if t.count < t.tableSize then
    let (linearId, t) := t.allocateLinearId
    let (index, t) ← t.allocateEntry
    return (.ok (Handle.encode index linearId), t.setEntry index linearId obj)
  else
    return (.error .outOfHandles, t)

/-- `Reserve`. -/
def reserve : Run (Except SvcResult Handle × KHandleTable α) := do
  if t.count < t.tableSize then
    let (linearId, t) := t.allocateLinearId
    let (index, t) ← t.allocateEntry
    return (.ok (Handle.encode index linearId), t)
  else
    return (.error .outOfHandles, t)

variable (handle : Handle)

/-- `Unreserve`, which does not look at the linear id. -/
def unreserve : KHandleTable α :=
  if handle.index < t.tableSize then t.freeEntry handle.index else t

/-- `Register`, which does not check that the entry is reserved. -/
def register (obj : α) : KHandleTable α :=
  if handle.index < t.tableSize then t.setEntry handle.index handle.linearId obj else t

/-- `IsValidHandle`. -/
def isValidHandle : Bool :=
  if handle = 0 then false
  else if handle.linearId = 0 then false
  else if t.tableSize ≤ handle.index then false
  else if (t.objects handle.index).isNone then false
  else decide ((t.entryInfos handle.index).getLinearId = handle.linearId)

/-- `Remove`, with the object it closes; none where it returns false. -/
def remove : Option (α × KHandleTable α) :=
  if handle.isPseudoHandle then none
  else if handle.reserved ≠ 0 then none
  else if t.isValidHandle handle then
    (t.objects handle.index).map fun obj => (obj, t.freeEntry handle.index)
  else none

/-- `GetObjectImpl`. -/
def getObjectImpl : Option α :=
  if handle.reserved ≠ 0 then none
  else if t.isValidHandle handle then t.objects handle.index
  else none

/-- `GetObjectByIndexImpl`, with the handle it returns. -/
def getObjectByIndexImpl (index : ℕ) : Option (Handle × α) :=
  if t.tableSize ≤ index then none
  else (t.objects index).map fun obj =>
    (Handle.encode index (t.entryInfos index).getLinearId, obj)

/-- A handle resolves to the object of its entry if the linear ids agree. -/
theorem getObjectImpl_eq_some {t : KHandleTable α} {h : Handle} {o : α} :
    t.getObjectImpl h = some o ↔ h.reserved = 0 ∧ h.linearId ≠ 0 ∧ h.index < t.tableSize ∧
      t.objects h.index = some o ∧ (t.entryInfos h.index).getLinearId = h.linearId := by
  have hzero : h = 0 → h.linearId = 0 := by
    rintro rfl
    rfl
  unfold getObjectImpl isValidHandle
  cases t.objects h.index with
  | none | some o' => grind

/-- `Remove` frees the entry of a handle that resolves, and only of such a handle. -/
theorem remove_eq (t : KHandleTable α) (h : Handle) :
    t.remove h = (t.getObjectImpl h).map fun o => (o, t.freeEntry h.index) := by
  unfold remove getObjectImpl
  by_cases hres : h.reserved = 0
  · rw [Handle.isPseudoHandle_eq_false hres]
    by_cases hvalid : t.isValidHandle h = true <;> simp [hres, hvalid]
  · simp [hres]

end KHandleTable

end Atmosphere.Kern
