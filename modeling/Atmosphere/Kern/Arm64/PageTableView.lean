import Atmosphere.Kern.Arm64.PageTable
import Atmosphere.Lib.AlignedBlock.Basic

/-!
# What a page table maps

The walk to an address meets one entry at each level until it finds a block or
nothing. This module reads a page table through that walk: the entry met at a
level, the table it stands in, the block that maps the address, and the
translation. The permissions of a translation are those of the block as far as the
tables above it leave them: a table entry has bits of its own that limit what the
blocks below it grant. A table page is reached from one place only in a well-formed
table, so a write to it shows up in the walks through that place and in no other.
-/

namespace Atmosphere.Kern.Arm64

open PageTableEntry

namespace Level

theorem blockSize_dvd_contiguousBlockSize (lvl : Level) : lvl.blockSize ∣ lvl.contiguousBlockSize :=
  Nat.dvd_mul_left _ _

theorem contiguousBlockSize_dvd_parent {lvl : Level} (h : lvl ≠ .l1) :
    lvl.contiguousBlockSize ∣ lvl.parent.blockSize := by
  cases lvl with
  | l1 => exact absurd rfl h
  | l2 | l3 => decide

theorem blockSize_dvd_parent (lvl : Level) : lvl.blockSize ∣ lvl.parent.blockSize := by
  cases lvl <;> decide

end Level

/-! ## The address space -/

namespace Config

variable {c : Config} {a b : ℕ}

/-- Which block of the size of the address space it is: the first one for a process, the last one
below `2 ^ 64` for the kernel. -/
def top (c : Config) : ℕ := if c.isKernel then 2 ^ (34 - c.bits) - 1 else 0

/-- The address belongs to the address space of the table. -/
def InSpace (c : Config) (a : ℕ) : Prop := a / 2 ^ (30 + c.bits) = c.top

instance (c : Config) (a : ℕ) : Decidable (c.InSpace a) := inferInstanceAs (Decidable (_ = _))

theorem l1Slot_eq (c : Config) (a : ℕ) : l1Slot c a = a / Level.l1.blockSize % 2 ^ c.bits := by
  unfold l1Slot index numEntries
  rw [Nat.and_two_pow_sub_one_eq_mod]
  exact Nat.mod_mod_of_dvd _ (Nat.pow_dvd_pow 2 c.bits_le)

theorem l1Slot_congr (c : Config) (h : a / Level.l1.blockSize = b / Level.l1.blockSize) :
    l1Slot c a = l1Slot c b := by
  rw [l1Slot_eq, l1Slot_eq, h]

theorem space_eq (c : Config) : 2 ^ (30 + c.bits) = Level.l1.blockSize * 2 ^ c.bits := by
  rw [Nat.pow_add]
  rfl

/-- Inside the address space the slot in the root table determines the L1 block. -/
theorem InSpace.div_eq_of_l1Slot_eq (ha : c.InSpace a) (hb : c.InSpace b)
    (h : l1Slot c a = l1Slot c b) : a / Level.l1.blockSize = b / Level.l1.blockSize := by
  rw [l1Slot_eq, l1Slot_eq] at h
  apply AlignedBlock.div_eq_of_mod_eq _ h
  rw [← space_eq]
  exact ha.trans hb.symm

/-- An L1 block lies in the address space as a whole. -/
theorem InSpace.of_div_eq (ha : c.InSpace a) (h : b / Level.l1.blockSize = a / Level.l1.blockSize) :
    c.InSpace b := by
  have hdvd : Level.l1.blockSize ∣ 2 ^ (30 + c.bits) := by
    rw [space_eq]
    exact Nat.dvd_mul_right _ _
  exact (AlignedBlock.div_eq_of_dvd hdvd h).trans ha

end Config

variable {lvl : Level} {e : PageTableEntry}

theorem index_congr {a b : ℕ} (h : a / lvl.blockSize = b / lvl.blockSize) :
    index lvl a = index lvl b := by
  unfold index
  rw [h]

theorem index_lt (lvl : Level) (a : ℕ) : index lvl a < maxPageTableEntries :=
  Nat.mod_lt _ (by decide)

/-- In one table, the index determines the block. -/
theorem div_eq_of_index_eq {a b : ℕ} (hlvl : lvl ≠ .l1)
    (h : a / lvl.parent.blockSize = b / lvl.parent.blockSize) (hi : index lvl a = index lvl b) :
    a / lvl.blockSize = b / lvl.blockSize := by
  cases lvl with
  | l1 => exact absurd rfl hlvl
  | l2 | l3 => exact AlignedBlock.div_eq_of_mod_eq h hi

/-! ## The walk -/

/-- `bool GetTable(KPhysicalAddress &)`. -/
def tableOf (e : PageTableEntry) : Option ℕ := if isTable e then some (getTable e) else none

@[simp] theorem tableOf_zero : tableOf 0#64 = none := by
  unfold tableOf
  simp

theorem tableOf_of_isBlock (h : isBlock lvl e = true) : tableOf e = none := by
  unfold tableOf
  simp [isTable_eq_false_of_isBlock h]

theorem tableOf_eq_some {p : ℕ} : tableOf e = some p ↔ isTable e = true ∧ getTable e = p := by
  unfold tableOf
  split <;> simp_all

theorem tableOf_of_not_isTable (h : isTable e = false) : tableOf e = none := by
  unfold tableOf
  simp [h]

theorem tableOf_tableEntry {p : ℕ} (h : IsTableAddress p) (isKernel pxn : Bool) :
    tableOf (tableEntry p isKernel pxn) = some p :=
  tableOf_eq_some.mpr ⟨isTable_tableEntry h isKernel pxn, getTable_tableEntry h isKernel pxn⟩

namespace PageTable

variable (c : Config) (t : PageTable)

/-- The table of a level that the walk to the address goes through, below the root table. -/
def tableAt : Level → ℕ → Option ℕ
  | .l1, _ => none
  | .l2, a => tableOf (t.getL1Entry c a)
  | .l3, a => (tableOf (t.getL1Entry c a)).bind fun p => tableOf (t.getEntryFromTable .l2 p a)

/-- The entry of a level that the walk to the address meets; empty if it does not get there. -/
def entryAt : Level → ℕ → PageTableEntry
  | .l1, a => t.getL1Entry c a
  | .l2, a => (t.tableAt c .l2 a).elim 0#64 fun p => t.getEntryFromTable .l2 p a
  | .l3, a => (t.tableAt c .l3 a).elim 0#64 fun p => t.getEntryFromTable .l3 p a

/-- The block that maps the address. -/
def leafAt (a : ℕ) : Option (Level × PageTableEntry) :=
  if isBlock .l1 (t.entryAt c .l1 a) then some (.l1, t.entryAt c .l1 a)
  else if isBlock .l2 (t.entryAt c .l2 a) then some (.l2, t.entryAt c .l2 a)
  else if isBlock .l3 (t.entryAt c .l3 a) then some (.l3, t.entryAt c .l3 a)
  else none

/-- The physical address of an address, and the permissions and attributes that the entry of its
block has. -/
def mapping (a : ℕ) : Option (ℕ × BitVec 64) :=
  (t.leafAt c a).map fun l => (getBlock l.1 l.2 + a % l.1.blockSize, getEntryTemplateForMerge l.2)

/-- What the entry of a level on the walk leaves of the permissions, if it points to a table. -/
def restrictAt (lvl : Level) (a : ℕ) (attr : BitVec 64) : BitVec 64 :=
  if isTable (t.entryAt c lvl a) then restrictBy (t.entryAt c lvl a) attr else attr

/-- The physical address and the permissions and attributes with which an address is mapped. -/
def translate (a : ℕ) : Option (ℕ × BitVec 64) :=
  (t.mapping c a).map fun m => (m.1, t.restrictAt c .l1 a (t.restrictAt c .l2 a m.2))

/-- The tables on the walk take nothing away from what the block that maps the address grants, and
a table that the kernel adds would not either. -/
def NotCut (a : ℕ) : Prop :=
  ∀ m, t.mapping c a = some m →
    (∀ lvl, isTable (t.entryAt c lvl a) = true → restrictBy (t.entryAt c lvl a) m.2 = m.2) ∧
      restrictBy (tableEntry 0 c.isKernel true) m.2 = m.2

variable {c t} {lvl : Level} {a b p : ℕ} {e : PageTableEntry} {t' : PageTable}

theorem tableAt_eq (h : lvl ≠ .l1) : t.tableAt c lvl a = tableOf (t.entryAt c lvl.parent a) := by
  cases lvl with
  | l1 => exact absurd rfl h
  | l2 => rfl
  | l3 =>
    change (tableOf (t.getL1Entry c a)).bind _ = tableOf ((tableOf (t.getL1Entry c a)).elim _ _)
    cases tableOf (t.getL1Entry c a) <;> simp

theorem ne_l1_of_tableAt (h : t.tableAt c lvl a = some p) : lvl ≠ .l1 := by
  rintro rfl
  cases h

theorem entryAt_of_tableAt (h : t.tableAt c lvl a = some p) :
    t.entryAt c lvl a = t.getEntryFromTable lvl p a := by
  cases lvl with
  | l1 => cases h
  | l2 | l3 => simp only [entryAt, h, Option.elim]

theorem entryAt_eq_zero (hlvl : lvl ≠ .l1) (h : t.tableAt c lvl a = none) :
    t.entryAt c lvl a = 0#64 := by
  cases lvl with
  | l1 => exact absurd rfl hlvl
  | l2 | l3 => simp only [entryAt, h, Option.elim]

/-- An entry that is not empty stands in some table. -/
theorem exists_tableAt (hlvl : lvl ≠ .l1) (h : t.entryAt c lvl a ≠ 0#64) :
    ∃ p, t.tableAt c lvl a = some p := by
  cases ht : t.tableAt c lvl a with
  | none => exact absurd (entryAt_eq_zero hlvl ht) h
  | some p => exact ⟨p, rfl⟩

theorem isTable_of_tableAt (h : t.tableAt c lvl a = some p) :
    isTable (t.entryAt c lvl.parent a) = true ∧ getTable (t.entryAt c lvl.parent a) = p := by
  rw [tableAt_eq (ne_l1_of_tableAt h)] at h
  exact tableOf_eq_some.mp h

theorem tableAt_l2_of_l3 (h : t.tableAt c .l3 a = some p) : ∃ q, t.tableAt c .l2 a = some q := by
  apply exists_tableAt (by decide)
  intro hz
  have hp := (isTable_of_tableAt h).1
  rw [Level.parent, hz] at hp
  simp at hp

/-- Addresses of one block meet the same entry. -/
theorem walk_congr (h : a / lvl.blockSize = b / lvl.blockSize) :
    t.entryAt c lvl a = t.entryAt c lvl b := by
  have h1 : a / Level.l1.blockSize = b / Level.l1.blockSize :=
    AlignedBlock.div_eq_of_dvd (by cases lvl <;> decide) h
  have he1 : t.getL1Entry c a = t.getL1Entry c b := by
    unfold getL1Entry
    rw [c.l1Slot_congr h1]
  cases lvl with
  | l1 => exact he1
  | l2 =>
    simp only [entryAt, tableAt, getEntryFromTable, he1, index_congr h]
  | l3 =>
    have h2 : a / Level.l2.blockSize = b / Level.l2.blockSize :=
      AlignedBlock.div_eq_of_dvd (by decide) h
    simp only [entryAt, tableAt, getEntryFromTable, he1, index_congr h, index_congr h2]

/-- Addresses below one table go through the same table. -/
theorem tableAt_congr (h : a / lvl.parent.blockSize = b / lvl.parent.blockSize) :
    t.tableAt c lvl a = t.tableAt c lvl b := by
  by_cases hlvl : lvl = .l1
  · subst hlvl
    rfl
  · rw [tableAt_eq hlvl, tableAt_eq hlvl, walk_congr h]

/-- A block that a walk meets below a table is met below tables only. -/
theorem isBlock_parent_eq_false (hlvl : lvl ≠ .l1) (h : t.entryAt c lvl a ≠ 0#64) :
    isBlock lvl.parent (t.entryAt c lvl.parent a) = false := by
  obtain ⟨p, hp⟩ := exists_tableAt hlvl h
  exact isBlock_eq_false_of_isTable (isTable_of_tableAt hp).1

theorem ne_zero_of_isBlock (h : isBlock lvl e = true) : e ≠ 0#64 := by
  rintro rfl
  simp at h

theorem ne_zero_of_isTable (h : isTable e = true) : e ≠ 0#64 := by
  rintro rfl
  simp at h

/-- The walk to an address meets at most one block, which is the one that maps it. -/
theorem leafAt_eq_some_iff :
    t.leafAt c a = some (lvl, e) ↔ t.entryAt c lvl a = e ∧ isBlock lvl e = true := by
  have h12 : isBlock .l2 (t.entryAt c .l2 a) = true →
      isBlock .l1 (t.entryAt c .l1 a) = false := fun h =>
    @isBlock_parent_eq_false c t .l2 a (by decide) (ne_zero_of_isBlock h)
  have h23 : isBlock .l3 (t.entryAt c .l3 a) = true →
      isBlock .l2 (t.entryAt c .l2 a) = false := fun h =>
    @isBlock_parent_eq_false c t .l3 a (by decide) (ne_zero_of_isBlock h)
  have h13 : isBlock .l3 (t.entryAt c .l3 a) = true →
      isBlock .l1 (t.entryAt c .l1 a) = false := by
    intro h
    obtain ⟨p, hp⟩ := exists_tableAt (by decide) (ne_zero_of_isBlock h)
    have htab := (isTable_of_tableAt hp).1
    exact @isBlock_parent_eq_false c t .l2 a (by decide) (ne_zero_of_isTable htab)
  unfold leafAt
  constructor
  · intro h
    split_ifs at h with h1 h2 h3 <;> cases h
    · exact ⟨rfl, h1⟩
    · exact ⟨rfl, h2⟩
    · exact ⟨rfl, h3⟩
  · rintro ⟨rfl, h⟩
    cases lvl with
    | l1 => simp [h]
    | l2 => simp [h, h12 h]
    | l3 => simp [h, h13 h, h23 h]

/-- The same entries along a walk give the same block. -/
theorem leafAt_congr (h : ∀ lvl, t'.entryAt c lvl b = t.entryAt c lvl a) :
    t'.leafAt c b = t.leafAt c a := by
  unfold leafAt
  rw [h, h, h]

theorem mapping_of_leafAt (h : t.leafAt c a = some (lvl, e)) :
    t.mapping c a = some (getBlock lvl e + a % lvl.blockSize, getEntryTemplateForMerge e) := by
  unfold mapping
  rw [h]
  rfl

theorem mapping_congr (h : t'.leafAt c a = t.leafAt c a) : t'.mapping c a = t.mapping c a := by
  unfold mapping
  rw [h]

/-- The same entries along a walk give the same translation. -/
theorem translate_congr (h : ∀ lvl, t'.entryAt c lvl a = t.entryAt c lvl a) :
    t'.translate c a = t.translate c a := by
  unfold translate restrictAt
  rw [mapping_congr (leafAt_congr h), h, h]

/-- Where nothing is cut the translation is what the block says. -/
theorem NotCut.translate_eq (h : t.NotCut c a) : t.translate c a = t.mapping c a := by
  unfold translate
  cases hm : t.mapping c a with
  | none => rfl
  | some m =>
    have hid : ∀ lvl, t.restrictAt c lvl a m.2 = m.2 := by
      intro lvl
      unfold restrictAt
      split_ifs with htable
      · exact (h m hm).1 lvl htable
      · rfl
    rw [Option.map_some, hid, hid]

/-- The blocks are the same, and so are the tables on the walk, apart from new ones. -/
theorem NotCut.of_tables (h : t.NotCut c a) (hmap : t'.mapping c a = t.mapping c a)
    (htables : ∀ lvl, isTable (t'.entryAt c lvl a) = true →
      t'.entryAt c lvl a = t.entryAt c lvl a ∨
        ∃ p, IsTableAddress p ∧ t'.entryAt c lvl a = tableEntry p c.isKernel true) :
    t'.NotCut c a := by
  intro m hm
  obtain ⟨hold, hnew⟩ := h m (hmap ▸ hm)
  refine ⟨?_, hnew⟩
  intro lvl htable
  obtain heq | ⟨p, hp, heq⟩ := htables lvl htable
  · rw [heq] at htable ⊢
    exact hold lvl htable
  · rw [heq, restrictBy_tableEntry hp]
    exact hnew

end PageTable

end Atmosphere.Kern.Arm64
