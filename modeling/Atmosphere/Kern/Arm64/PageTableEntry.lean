import Atmosphere.Kern.Basic
import Atmosphere.Lib.BitField.Basic

/-!
# Page table entries

The 64-bit entries of an ARM64 page table as the kernel packs them. Bits 0 to 11
and 52 to 63 hold permissions and attributes, bits 12 to 47 an address. Bit 58
marks an entry that maps something even while its hardware valid bit 0 is clear,
and together with bit 1 it tells blocks, tables and empty entries apart. Bits 55
to 57 say which neighbours the entry must not be merged with.

The L1, L2 and L3 entry classes differ only in the position of the block address
and in the type bits, so each of their functions takes the level.
-/

namespace Atmosphere.Kern.Arm64

open BitField

/-- The levels of a page table. -/
inductive Level
  | l1
  | l2
  | l3
  deriving DecidableEq, Repr

namespace Level

/-- The lowest bit of the block address in an entry. -/
def shift : Level → ℕ
  | l1 => 30
  | l2 => 21
  | l3 => 12

/-- `L1BlockSize`, `L2BlockSize`, `L3BlockSize`. -/
def blockSize : Level → ℕ
  | l1 => 0x40000000
  | l2 => 0x200000
  | l3 => 0x1000

/-- `L1ContiguousBlockSize`, `L2ContiguousBlockSize`, `L3ContiguousBlockSize`. -/
def contiguousBlockSize (lvl : Level) : ℕ := 0x10 * lvl.blockSize

/-- The level above, where a table of this level hangs. -/
def parent : Level → Level
  | l1 | l2 => l1
  | l3 => l2

variable (lvl : Level)
include lvl

theorem blockSize_eq : lvl.blockSize = 2 ^ lvl.shift := by cases lvl <;> rfl

theorem blockSize_pos : 0 < lvl.blockSize := by cases lvl <;> decide

theorem contiguousBlockSize_pos : 0 < lvl.contiguousBlockSize := by
  cases lvl <;> decide

theorem shift_pos : 0 < lvl.shift := by cases lvl <;> decide

theorem shift_add_le : lvl.shift + (48 - lvl.shift) ≤ 64 := by
  cases lvl <;> decide

theorem shift_add_eq : lvl.shift + (48 - lvl.shift) = 48 := by
  cases lvl <;> decide

end Level

/-- `MaxPageTableEntries`. -/
def maxPageTableEntries : ℕ := 512

/-- `PageTableEntry`, the word `m_attributes`. -/
abbrev PageTableEntry := BitVec 64

namespace PageTableEntry

/-- `SoftwareReservedBit_DisableMergeHead`. -/
def disableMergeHead : BitVec 64 := 1#64
/-- `SoftwareReservedBit_DisableMergeHeadAndBody`. -/
def disableMergeHeadAndBody : BitVec 64 := 2#64
/-- `SoftwareReservedBit_DisableMergeHeadTail`. -/
def disableMergeHeadTail : BitVec 64 := 4#64

/-- `ExtensionFlag_DisableMergeHead`. -/
def extDisableMergeHead : BitVec 64 := disableMergeHead <<< 55
/-- `ExtensionFlag_DisableMergeHeadAndBody`. -/
def extDisableMergeHeadAndBody : BitVec 64 := disableMergeHeadAndBody <<< 55
/-- `ExtensionFlag_DisableMergeTail`. -/
def extDisableMergeTail : BitVec 64 := disableMergeHeadTail <<< 55
/-- `ExtensionFlag_Valid`. -/
def extValid : BitVec 64 := 8#64 <<< 55
/-- `ExtensionFlag_TestTableMask`. -/
def testTableMask : BitVec 64 := extValid ||| (1#64 <<< 1)

/-- `ContigType_Contiguous`. -/
def contigType : BitVec 64 := 1#64 <<< 52

/-- The three merge flags. -/
def mergeFlags : BitVec 64 :=
  extDisableMergeHead ||| extDisableMergeHeadAndBody ||| extDisableMergeTail

/-- `BaseMask`: the permissions and attributes. -/
def baseMask : BitVec 64 :=
  0xFFF0000000000FFF#64 &&& ~~~((1#64 <<< 52) ||| testTableMask ||| mergeFlags)

/-- `EncodeSoftwareReservedBits`. -/
def encodeSoftwareReservedBits (head headBody tail : Bool) : BitVec 64 :=
  (if head then disableMergeHead else 0#64) |||
    (if headBody then disableMergeHeadAndBody else 0#64) |||
      (if tail then disableMergeHeadTail else 0#64)

section Reads

variable (e : PageTableEntry)

/-- `GetBits`. -/
def getBits (offset count : ℕ) : BitVec 64 := (e >>> offset) &&& ((1#64 <<< count) - 1#64)

/-- `SelectBits`. -/
def selectBits (offset count : ℕ) : BitVec 64 := e &&& field 64 offset count

/-- `GetSoftwareReservedBits`. -/
def getSoftwareReservedBits : BitVec 64 := getBits e 55 3

/-- `IsHeadMergeDisabled`. -/
def isHeadMergeDisabled : Bool := getSoftwareReservedBits e &&& disableMergeHead != 0#64

/-- `IsHeadAndBodyMergeDisabled`. -/
def isHeadAndBodyMergeDisabled : Bool :=
  getSoftwareReservedBits e &&& disableMergeHeadAndBody != 0#64

/-- `IsTailMergeDisabled`. -/
def isTailMergeDisabled : Bool := getSoftwareReservedBits e &&& disableMergeHeadTail != 0#64

/-- `IsHeadOrHeadAndBodyMergeDisabled`. -/
def isHeadOrHeadAndBodyMergeDisabled : Bool :=
  getSoftwareReservedBits e &&& (disableMergeHead ||| disableMergeHeadAndBody) != 0#64

/-- `IsContiguous`. -/
def isContiguous : Bool := getBits e 52 1 != 0#64

/-- `IsTable`. -/
def isTable : Bool := e &&& testTableMask == 2#64

/-- `IsEmpty`. -/
def isEmpty : Bool := e &&& testTableMask == 0#64

/-- `GetTable`. -/
def getTable : ℕ := (selectBits e 12 36).toNat

/-- `GetEntryTemplateForMerge`. -/
def getEntryTemplateForMerge : BitVec 64 := e &&& baseMask

/-- `IsForMerge`. -/
def isForMerge (attr : BitVec 64) : Bool := e &&& ~~~mergeFlags == attr

end Reads

/-- `Type_L1Block`, `Type_L2Block`, `Type_L3Block`. -/
def blockType : Level → BitVec 64
  | .l1 | .l2 => extValid
  | .l3 => testTableMask

/-- `IsBlock` of the three entry classes. -/
def isBlock (lvl : Level) (e : PageTableEntry) : Bool := e &&& testTableMask == blockType lvl

/-- `GetBlock` of the three entry classes. -/
def getBlock (lvl : Level) (e : PageTableEntry) : ℕ :=
  (selectBits e lvl.shift (48 - lvl.shift)).toNat

/-- The `TableTag` constructors of L1 and L2 entries. -/
def tableEntry (phys : ℕ) (isKernel pxn : Bool) : PageTableEntry :=
  ((if isKernel then 3#64 else 0#64) <<< 60) ||| ((if pxn then 1#64 else 0#64) <<< 59) |||
    BitVec.ofNat 64 phys ||| 3#64

/-- The `BlockTag` constructors: the attributes extended by flags, address and type. -/
def blockEntry (lvl : Level) (phys : ℕ) (attr sw : BitVec 64) (contig : Bool) : PageTableEntry :=
  attr ||| ((sw <<< 55) ||| ((if contig then 1#64 else 0#64) <<< 52) ||| BitVec.ofNat 64 phys |||
    blockType lvl)

/-- What a merge expects of an entry, apart from its merge flags. -/
def mergePattern (lvl : Level) (template : BitVec 64) (phys : ℕ) (contig : Bool) : BitVec 64 :=
  template ||| BitVec.ofNat 64 phys ||| (if contig then contigType else 0#64) ||| blockType lvl

/-- `L1PageTableEntry::GetEntryTemplateForL2BlockMask` and
`L2PageTableEntry::GetEntryTemplateForL3BlockMask`: what entry `idx` of a new table of level
`lvl` takes over from the block that the table replaces. -/
def tableTemplateMask (lvl : Level) (idx : ℕ) : BitVec 64 :=
  if idx = 0 then baseMask ||| extDisableMergeHead ||| extDisableMergeHeadAndBody
  else if idx < lvl.contiguousBlockSize / lvl.blockSize then baseMask ||| extDisableMergeHeadAndBody
  else if idx < (maxPageTableEntries * lvl.blockSize - lvl.contiguousBlockSize) / lvl.blockSize then
    baseMask
  else baseMask ||| extDisableMergeTail

/-- `L2PageTableEntry::GetEntryTemplateForL2BlockMask` and
`L3PageTableEntry::GetEntryTemplateForL3BlockMask`: what entry `idx` of a contiguous group keeps
when the group is split. -/
def groupTemplateMask (lvl : Level) (idx : ℕ) : BitVec 64 :=
  if idx = 0 then baseMask ||| extDisableMergeHead ||| extDisableMergeHeadAndBody
  else if idx < lvl.contiguousBlockSize / lvl.blockSize - 1 then baseMask
  else baseMask ||| extDisableMergeTail

/-! ## What the parts of an entry say -/

/-- The bits that an attribute word handed to a `BlockTag` constructor may have. -/
def templateMask : BitVec 64 := baseMask ||| mergeFlags ||| contigType ||| extValid

/-- The bits of the block address. -/
def addressMask (lvl : Level) : BitVec 64 := field 64 lvl.shift (48 - lvl.shift)

variable {lvl : Level} {e attr sw tmpl : BitVec 64} {phys idx : ℕ} {contig : Bool}

theorem getBits_one_ne_zero (e : BitVec 64) (offset : ℕ) (h : offset < 64) :
    (getBits e offset 1 != 0#64) = (e &&& (1#64 <<< offset) != 0#64) := by
  have hbit : getBits e offset 1 = if e.getLsbD offset then 1#64 else 0#64 := by
    apply BitVec.eq_of_getLsbD_eq
    intro i hi
    unfold getBits
    rw [BitVec.getLsbD_and, BitVec.getLsbD_ushiftRight]
    cases i with
    | zero | succ i => cases e.getLsbD offset <;> simp
  have hand : e &&& (1#64 <<< offset) = if e.getLsbD offset then 1#64 <<< offset else 0#64 := by
    rw [← BitVec.twoPow_eq]
    apply BitVec.eq_of_getLsbD_eq
    intro i hi
    rw [BitVec.getLsbD_and]
    by_cases hio : i = offset
    · subst hio
      cases e.getLsbD i <;> simp [hi]
    · cases e.getLsbD offset <;> simp [Ne.symm hio]
  have hne : (1#64 <<< offset) ≠ 0#64 := by
    intro hz
    have := congrArg (fun b => BitVec.getLsbD b offset) hz
    simp [h] at this
  rw [hbit, hand]
  cases e.getLsbD offset with
  | true => simpa using hne
  | false => rfl

theorem isContiguous_eq (e : BitVec 64) : isContiguous e = (e &&& contigType != 0#64) :=
  getBits_one_ne_zero e 52 (by decide)

theorem isTable_eq_false_of_isBlock (h : isBlock lvl e = true) : isTable e = false := by
  unfold isBlock at h
  unfold isTable
  rw [beq_iff_eq] at h
  rw [h]
  cases lvl <;> decide

theorem isBlock_eq_false_of_isTable (h : isTable e = true) : isBlock lvl e = false := by
  cases hb : isBlock lvl e with
  | false => rfl
  | true => rw [isTable_eq_false_of_isBlock hb] at h; cases h

theorem isEmpty_eq_false_of_isBlock (h : isBlock lvl e = true) : isEmpty e = false := by
  unfold isBlock at h
  unfold isEmpty
  rw [beq_iff_eq] at h
  rw [h]
  cases lvl <;> decide

theorem isEmpty_eq_false_of_isTable (h : isTable e = true) : isEmpty e = false := by
  unfold isTable at h
  unfold isEmpty
  rw [beq_iff_eq] at h
  rw [h]
  decide

@[simp] theorem isBlock_zero (lvl : Level) : isBlock lvl 0#64 = false := by cases lvl <;> decide

@[simp] theorem isTable_zero : isTable 0#64 = false := by decide

@[simp] theorem isEmpty_zero : isEmpty 0#64 = true := by decide

/-- An address that a block of the level may have. -/
structure IsBlockAddress (lvl : Level) (phys : ℕ) : Prop where
  aligned : lvl.blockSize ∣ phys
  fits : phys < 2 ^ 48

theorem isBlockAddress_getBlock (lvl : Level) (e : BitVec 64) :
    IsBlockAddress lvl (getBlock lvl e) := by
  have hlt := toNat_and_field_lt lvl.shift_add_le lvl.shift_pos e
  rw [lvl.shift_add_eq] at hlt
  refine ⟨?_, hlt⟩
  rw [Level.blockSize_eq, getBlock, selectBits, toNat_and_field lvl.shift_add_le lvl.shift_pos e]
  exact Nat.dvd_mul_left _ _

theorem IsBlockAddress.under (h : IsBlockAddress lvl phys) :
    Under (BitVec.ofNat 64 phys) (addressMask lvl) := by
  apply ofNat_under_field lvl.shift_add_le lvl.shift_pos
  · rw [← Level.blockSize_eq]
    exact h.aligned
  · rw [lvl.shift_add_eq]
    exact h.fits

theorem IsBlockAddress.toNat (h : IsBlockAddress lvl phys) :
    (BitVec.ofNat 64 phys).toNat = phys := by
  have := h.fits
  rw [BitVec.toNat_ofNat, Nat.mod_eq_of_lt (by omega)]

theorem under_blockType (lvl : Level) : Under (blockType lvl) testTableMask := by
  cases lvl <;> decide

/-- The three bits of the merge flags, where an entry keeps them. -/
theorem under_shift_sw (hsw : Under sw 7#64) : Under (sw <<< 55) mergeFlags := by
  have hm : mergeFlags = 7#64 <<< 55 := by decide
  unfold Under at *
  rw [hm, ← BitVec.shiftLeft_and_distrib, hsw]

theorem under_encode (head headBody tail : Bool) :
    Under (encodeSoftwareReservedBits head headBody tail) 7#64 := by
  cases head <;> cases headBody <;> cases tail <;> decide

theorem under_contig (contig : Bool) :
    Under ((if contig then 1#64 else 0#64) <<< 52) contigType := by
  cases contig <;> decide

/-- The arguments with which a `BlockTag` constructor makes a proper block entry. -/
structure BlockArgs (lvl : Level) (phys : ℕ) (attr sw : BitVec 64) : Prop where
  address : IsBlockAddress lvl phys
  attr : Under attr templateMask
  sw : Under sw 7#64

namespace BlockArgs

/-- Through a mask an entry shows what the mask shows of its parts. -/
theorem and_eq (lvl : Level) (phys : ℕ) (attr sw : BitVec 64) (contig : Bool) (m : BitVec 64) :
    blockEntry lvl phys attr sw contig &&& m = (attr &&& m) ||| (((sw <<< 55) &&& m) |||
        (((if contig then 1#64 else 0#64) <<< 52) &&& m) ||| (BitVec.ofNat 64 phys &&& m) |||
          (blockType lvl &&& m)) := by
  unfold blockEntry
  simp only [or_and]

theorem addressMask_disjoint (lvl : Level) :
    addressMask lvl &&& testTableMask = 0#64 ∧ addressMask lvl &&& baseMask = 0#64 ∧
      addressMask lvl &&& contigType = 0#64 ∧ templateMask &&& addressMask lvl = 0#64 ∧
        mergeFlags &&& addressMask lvl = 0#64 ∧ contigType &&& addressMask lvl = 0#64 ∧
          testTableMask &&& addressMask lvl = 0#64 := by
  cases lvl <;> decide

variable (h : BlockArgs lvl phys attr sw)
include h

theorem and_testTableMask :
    blockEntry lvl phys attr sw contig &&& testTableMask = blockType lvl := by
  have hd := addressMask_disjoint lvl
  rw [and_eq, (under_shift_sw h.sw).and_eq_zero (by decide),
    (under_contig contig).and_eq_zero (by decide), h.address.under.and_eq_zero hd.1,
    under_blockType lvl]
  have hattr : Under (attr &&& testTableMask) extValid := by
    have hsub : templateMask &&& testTableMask = extValid := by decide
    have heq : attr &&& testTableMask = attr &&& extValid := by
      calc attr &&& testTableMask = (attr &&& templateMask) &&& testTableMask := by rw [h.attr]
        _ = attr &&& (templateMask &&& testTableMask) := BitVec.and_assoc ..
        _ = attr &&& extValid := by rw [hsub]
    rw [heq]
    exact under_and attr extValid
  have habsorb : (attr &&& testTableMask) ||| blockType lvl = blockType lvl := by
    have hu : Under (attr &&& testTableMask) (blockType lvl) := hattr.mono (by cases lvl <;> decide)
    apply BitVec.eq_of_getLsbD_eq
    intro i _
    have hi := congrArg (fun b => BitVec.getLsbD b i) hu
    cases hb : (blockType lvl).getLsbD i <;> simp_all
  simpa using habsorb

theorem isBlock : isBlock lvl (blockEntry lvl phys attr sw contig) = true := by
  unfold PageTableEntry.isBlock
  rw [h.and_testTableMask, beq_self_eq_true]

theorem getBlock : getBlock lvl (blockEntry lvl phys attr sw contig) = phys := by
  have hd := addressMask_disjoint lvl
  change (blockEntry lvl phys attr sw contig &&& addressMask lvl).toNat = phys
  rw [and_eq, h.attr.and_eq_zero hd.2.2.2.1, (under_shift_sw h.sw).and_eq_zero hd.2.2.2.2.1,
    (under_contig contig).and_eq_zero hd.2.2.2.2.2.1, h.address.under,
    (under_blockType lvl).and_eq_zero hd.2.2.2.2.2.2]
  simpa using h.address.toNat

theorem entryTemplate :
    getEntryTemplateForMerge (blockEntry lvl phys attr sw contig) = attr &&& baseMask := by
  have hd := addressMask_disjoint lvl
  unfold getEntryTemplateForMerge
  rw [and_eq, (under_shift_sw h.sw).and_eq_zero (by decide),
    (under_contig contig).and_eq_zero (by decide), h.address.under.and_eq_zero hd.2.1,
    (under_blockType lvl).and_eq_zero (by decide)]
  simp

theorem isContiguous : isContiguous (blockEntry lvl phys attr sw contig) =
      (contig || PageTableEntry.isContiguous attr) := by
  have hd := addressMask_disjoint lvl
  rw [isContiguous_eq, isContiguous_eq, and_eq, (under_shift_sw h.sw).and_eq_zero (by decide),
    h.address.under.and_eq_zero hd.2.2.1, (under_blockType lvl).and_eq_zero (by decide)]
  cases contig with
  | false => simp
  | true => simp [contigType]

end BlockArgs

/-- An entry that fits the pattern of a merge is the block that the pattern describes. -/
theorem isForMerge_spec (ht : Under tmpl baseMask) (hp : IsBlockAddress lvl phys)
    (h : isForMerge e (mergePattern lvl tmpl phys contig) = true) :
    isBlock lvl e = true ∧ getEntryTemplateForMerge e = tmpl ∧ getBlock lvl e = phys ∧
      isContiguous e = contig := by
  unfold isForMerge at h
  rw [beq_iff_eq] at h
  have hd := BlockArgs.addressMask_disjoint lvl
  have hc : Under (if contig then contigType else 0#64) contigType := by
    cases contig <;> decide
  -- a mask that avoids the merge flags sees the same of the entry and of the pattern
  have hsee : ∀ m, ~~~mergeFlags &&& m = m →
      e &&& m = (tmpl &&& m) ||| (BitVec.ofNat 64 phys &&& m) |||
        ((if contig then contigType else 0#64) &&& m) ||| (blockType lvl &&& m) := by
    intro m hm
    rw [← and_and_of_subset hm, h, mergePattern]
    simp only [or_and]
  refine ⟨?_, ?_, ?_, ?_⟩
  · unfold isBlock
    rw [hsee testTableMask (by decide), ht.and_eq_zero (by decide), hp.under.and_eq_zero hd.1,
      hc.and_eq_zero (by decide), under_blockType lvl]
    simp
  · unfold getEntryTemplateForMerge
    rw [hsee baseMask (by decide), ht, hp.under.and_eq_zero hd.2.1, hc.and_eq_zero (by decide),
      (under_blockType lvl).and_eq_zero (by decide)]
    simp
  · change (e &&& addressMask lvl).toNat = phys
    rw [hsee (addressMask lvl) (by cases lvl <;> decide),
      ht.and_eq_zero (by cases lvl <;> decide), hp.under, hc.and_eq_zero hd.2.2.2.2.2.1,
      (under_blockType lvl).and_eq_zero hd.2.2.2.2.2.2]
    simpa using hp.toNat
  · rw [isContiguous_eq, hsee contigType (by decide), ht.and_eq_zero (by decide),
      hp.under.and_eq_zero hd.2.2.1, (under_blockType lvl).and_eq_zero (by decide)]
    cases contig <;> decide

theorem template_under (e : BitVec 64) : Under (getEntryTemplateForMerge e) baseMask :=
  under_and e baseMask

theorem under_templateMask_of_baseMask (h : Under attr baseMask) : Under attr templateMask :=
  h.mono (by decide)

theorem isContiguous_of_under_baseMask (h : Under attr baseMask) : isContiguous attr = false := by
  rw [isContiguous_eq, h.and_eq_zero (by decide)]
  decide

/-! ## Templates of split blocks -/

/-- A template mask keeps the attributes and drops the contiguous bit. -/
structure IsTemplateMask (m : BitVec 64) : Prop where
  attributes : m &&& baseMask = baseMask
  under : Under m (baseMask ||| mergeFlags)

theorem isTemplateMask_table (lvl : Level) (idx : ℕ) :
    IsTemplateMask (tableTemplateMask lvl idx) := by
  unfold tableTemplateMask
  split_ifs <;> exact ⟨by decide, by decide⟩

theorem isTemplateMask_group (lvl : Level) (idx : ℕ) :
    IsTemplateMask (groupTemplateMask lvl idx) := by
  unfold groupTemplateMask
  split_ifs <;> exact ⟨by decide, by decide⟩

namespace IsTemplateMask

variable {m : BitVec 64}

variable (h : IsTemplateMask m)
include h

theorem and_baseMask (e : BitVec 64) : (e &&& m) &&& baseMask = getEntryTemplateForMerge e := by
  rw [BitVec.and_assoc, h.attributes]
  rfl

theorem under_template (e : BitVec 64) : Under (e &&& m) templateMask :=
  ((under_and e m).mono h.under).mono (by decide)

theorem not_contiguous (e : BitVec 64) : isContiguous (e &&& m) = false := by
  rw [isContiguous_eq, ((under_and e m).mono h.under).and_eq_zero (by decide)]
  decide

end IsTemplateMask

/-! ## Table entries -/

/-- An address that a page table may have. -/
abbrev IsTableAddress (phys : ℕ) : Prop := IsBlockAddress .l3 phys

theorem tableEntry_flags_under (isKernel pxn : Bool) :
    Under (((if isKernel then 3#64 else 0#64) <<< 60) |||
      ((if pxn then 1#64 else 0#64) <<< 59) : BitVec 64) (7#64 <<< 59) := by
  cases isKernel <;> cases pxn <;> decide

theorem isTable_tableEntry (h : IsTableAddress phys) (isKernel pxn : Bool) :
    isTable (tableEntry phys isKernel pxn) = true := by
  have hd := BlockArgs.addressMask_disjoint .l3
  unfold isTable tableEntry
  rw [or_and, or_and, (tableEntry_flags_under isKernel pxn).and_eq_zero (by decide),
    h.under.and_eq_zero hd.1]
  decide

theorem getTable_tableEntry (h : IsTableAddress phys) (isKernel pxn : Bool) :
    getTable (tableEntry phys isKernel pxn) = phys := by
  have hu : BitVec.ofNat 64 phys &&& field 64 12 36 = BitVec.ofNat 64 phys := h.under
  unfold getTable selectBits tableEntry
  rw [or_and, or_and, (tableEntry_flags_under isKernel pxn).and_eq_zero (by decide), hu]
  have h3 : (3#64 : BitVec 64) &&& field 64 12 36 = 0#64 := by decide
  rw [h3]
  simpa using h.toNat

/-- What is left of the permissions of a block below a table entry. Of the bits of a table entry
the hardware takes `PXNTable` and `UXNTable` to forbid execution, and the two bits of `APTable` to
forbid access from EL0 and to forbid writes. -/
def restrictBy (table attr : BitVec 64) : BitVec 64 :=
  let attr := if table.getLsbD 59 then attr ||| 1#64 <<< 53 else attr
  let attr := if table.getLsbD 60 then attr ||| 1#64 <<< 54 else attr
  let attr := if table.getLsbD 61 then attr &&& ~~~(1#64 <<< 6) else attr
  if table.getLsbD 62 then attr ||| 1#64 <<< 7 else attr

/-- Where a table lies does not matter to what its entry forbids. -/
theorem restrictBy_tableEntry (h : IsTableAddress phys) (isKernel pxn : Bool) :
    restrictBy (tableEntry phys isKernel pxn) attr =
      restrictBy (tableEntry 0 isKernel pxn) attr := by
  have hbit : ∀ i, 59 ≤ i →
      (tableEntry phys isKernel pxn).getLsbD i = (tableEntry 0 isKernel pxn).getLsbD i := by
    intro i hi
    have hlt : phys < 2 ^ i := h.fits.trans_le (Nat.pow_le_pow_right (by decide) (by omega))
    have hzero : (BitVec.ofNat 64 phys).getLsbD i = false := by
      rw [BitVec.getLsbD_ofNat, Nat.testBit_lt_two_pow hlt, Bool.and_false]
    simp [tableEntry, hzero]
  unfold restrictBy
  rw [hbit 59 (by decide), hbit 60 (by decide), hbit 61 (by decide), hbit 62 (by decide)]

end PageTableEntry

end Atmosphere.Kern.Arm64
