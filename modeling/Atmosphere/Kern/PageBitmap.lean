import Atmosphere.Lib.BitField.Basic
import Atmosphere.Lib.BitScan.Basic
import Atmosphere.Lib.Bitmap.Levels

/-!
# The page bitmap

`KPageBitmap` keeps a set of offsets in levels of sixty-four-bit words; that four
are enough (`MaxDepth`) is asserted and nothing here depends on it. A search goes
down from the first word, taking the lowest bit of each word or a random one.

The storage of the levels is zero when a bitmap is initialized, since the
memory manager clears its management region.
-/

namespace Atmosphere.Kern

open Bitmap
open Finset

/-! ## Random bits -/

/-- `RandomBitGenerator`: the bits it is going to give. Nothing is assumed of them. -/
abbrev RandomBitGenerator := ℕ → Bool

namespace RandomBitGenerator

def generateRandomBit (rng : RandomBitGenerator) : Bool × RandomBitGenerator :=
  (rng 0, fun n => rng (n + 1))

/-- The loop of `SelectRandomBit`, from `curNumBits = 2 ^ (m - 1)` on. -/
def selectRandomBitLoop : ℕ → BitVec 64 → ℕ → RandomBitGenerator → ℕ × RandomBitGenerator
  | 0, _, selected, rng => (selected, rng)
  | m + 1, bitmap, selected, rng =>
    let curNumBits := 2 ^ m
    let high := bitmap >>> curNumBits
    let low := bitmap &&& ~~~(BitVec.allOnes 64 <<< curNumBits)
    if high ≠ 0#64 then
      if low = 0#64 then selectRandomBitLoop m high (selected + curNumBits) rng
      else
        let (bit, rng) := rng.generateRandomBit
        if bit then selectRandomBitLoop m high (selected + curNumBits) rng
        else selectRandomBitLoop m low selected rng
    else selectRandomBitLoop m low selected rng

def selectRandomBit (rng : RandomBitGenerator) (bitmap : BitVec 64) : ℕ × RandomBitGenerator :=
  selectRandomBitLoop 6 bitmap 0 rng

/-- The loop ends on a set bit: the part of the word that is left is not zero and
has no bit beyond its width. -/
theorem selectRandomBitLoop_spec (m : ℕ) {bitmap : BitVec 64} (selected : ℕ)
    (rng : RandomBitGenerator) (hne : bitmap ≠ 0#64)
    (hwidth : ∀ j, 2 ^ m ≤ j → bitmap.getLsbD j = false) :
    ∃ k < 2 ^ m, bitmap.getLsbD k = true ∧
      (selectRandomBitLoop m bitmap selected rng).1 = selected + k := by
  induction m generalizing bitmap selected rng with
  | zero =>
    refine ⟨0, by omega, ?_, rfl⟩
    by_contra hbit
    refine hne (BitVec.eq_of_getLsbD_eq fun j hj => ?_)
    rw [BitVec.getLsbD_zero]
    cases j with
    | zero => simpa using hbit
    | succ j => exact hwidth (j + 1) (by omega)
  | succ m ih =>
    simp only [selectRandomBitLoop]
    generalize hh : bitmap >>> 2 ^ m = high
    generalize hl : bitmap &&& ~~~(BitVec.allOnes 64 <<< 2 ^ m) = low
    have hhigh : ∀ j, high.getLsbD j = bitmap.getLsbD (2 ^ m + j) :=
      fun j => hh ▸ BitVec.getLsbD_ushiftRight _ _ _
    have hlow : ∀ j, low.getLsbD j = (bitmap.getLsbD j && decide (j < 2 ^ m)) := by
      intro j
      rw [← hl]
      by_cases hj : j < 64
      · have hsub : j - 2 ^ m < 64 := Nat.lt_of_le_of_lt (Nat.sub_le _ _) hj
        rw [BitVec.getLsbD_and, BitVec.getLsbD_not, BitVec.getLsbD_shiftLeft,
          BitVec.getLsbD_allOnes]
        simp only [hj, hsub, decide_true, Bool.true_and, Bool.and_true, Bool.not_not]
      · simp [BitVec.getLsbD_of_ge bitmap j (by omega)]
    -- the two ways to go on
    have takeHigh : high ≠ 0#64 → ∀ rng : RandomBitGenerator,
        ∃ k < 2 ^ (m + 1), bitmap.getLsbD k = true ∧
          (selectRandomBitLoop m high (selected + 2 ^ m) rng).1 = selected + k := by
      intro h rng
      obtain ⟨k, hk, hbit, hsel⟩ := ih (selected + 2 ^ m) rng h
        fun j hj => by rw [hhigh]; exact hwidth _ (by omega)
      exact ⟨2 ^ m + k, by omega, by rwa [← hhigh], by rw [hsel, Nat.add_assoc]⟩
    have takeLow : low ≠ 0#64 → ∀ rng : RandomBitGenerator,
        ∃ k < 2 ^ (m + 1), bitmap.getLsbD k = true ∧
          (selectRandomBitLoop m low selected rng).1 = selected + k := by
      intro h rng
      obtain ⟨k, hk, hbit, hsel⟩ := ih selected rng h fun j hj => by
        rw [hlow, decide_eq_false (by omega), Bool.and_false]
      rw [hlow, Bool.and_eq_true] at hbit
      exact ⟨k, by omega, hbit.1, hsel⟩
    split
    · rename_i h
      split
      · exact takeHigh h rng
      · rename_i hlow0
        cases (rng.generateRandomBit).1 with
        | true => exact takeHigh h _
        | false => exact takeLow hlow0 _
    · rename_i h
      refine takeLow (fun hzero => hne (BitVec.eq_of_getLsbD_eq fun j _ => ?_)) rng
      -- a bit would be in the high part or in the low part
      rw [BitVec.getLsbD_zero]
      by_cases hj : j < 2 ^ m
      · have := hlow j
        rw [hzero] at this
        simpa [hj] using this.symm
      · have := hhigh (j - 2 ^ m)
        rw [not_not.mp h, BitVec.getLsbD_zero, Nat.add_sub_cancel' (by omega)] at this
        exact this.symm

theorem selectRandomBit_spec (rng : RandomBitGenerator) {v : BitVec 64} (h : v ≠ 0#64) :
    (rng.selectRandomBit v).1 < 64 ∧ v.getLsbD (rng.selectRandomBit v).1 = true := by
  obtain ⟨k, hk, hbit, hsel⟩ := selectRandomBitLoop_spec 6 0 rng h
    fun j hj => BitVec.getLsbD_of_ge v j hj
  rw [Nat.zero_add] at hsel
  rw [selectRandomBit, hsel]
  exact ⟨hk, hbit⟩

end RandomBitGenerator

/-! ## The bitmap -/

/-- `KPageBitmap`; the storages by depth and index. -/
structure KPageBitmap where
  bitStorages : Levels 64
  rng : RandomBitGenerator
  numBits : ℕ
  usedDepths : ℕ

namespace KPageBitmap

/-- The loop of `GetRequiredDepth`; it divides `regionSize` and ends at zero. -/
def requiredDepthLoop : ℕ → ℕ → ℕ → ℕ
  | 0, _, depth => depth
  | fuel + 1, regionSize, depth =>
    let regionSize := regionSize / 64
    let depth := depth + 1
    if regionSize = 0 then depth else requiredDepthLoop fuel regionSize depth

def getRequiredDepth (regionSize : ℕ) : ℕ := requiredDepthLoop (regionSize + 1) regionSize 0

/-- `Initialize` of a bitmap for `size` offsets, on cleared storage. -/
def initializeBitmap (rng : RandomBitGenerator) (size : ℕ) : KPageBitmap where
  bitStorages _ _ := 0#64
  rng := rng
  numBits := 0
  usedDepths := getRequiredDepth size

/-- The loops of `FindFreeBlock`, with the depths still to go. -/
def findFreeBlockLoop (random : Bool) (st : Levels 64) :
    ℕ → ℕ → ℕ → RandomBitGenerator → Option ℕ × RandomBitGenerator
  | 0, _, offset, rng => (some offset, rng)
  | n + 1, depth, offset, rng =>
    let v := st depth offset
    if v = 0#64 then (none, rng)
    else if random then
      let (bit, rng) := rng.selectRandomBit v
      findFreeBlockLoop random st n (depth + 1) (offset * 64 + bit) rng
    else findFreeBlockLoop random st n (depth + 1) (offset * 64 + v.ctz.toNat) rng

/-- `FindFreeBlock`; `none` is the result `-1`. -/
def findFreeBlock (b : KPageBitmap) (random : Bool) : Option ℕ × KPageBitmap :=
  let (offset, rng) := findFreeBlockLoop random b.bitStorages b.usedDepths 0 0 b.rng
  (offset, { b with rng := rng })

/-- The private `SetBit`, from depth `n - 1` up to the first word. -/
def setBitLoop : ℕ → ℕ → Levels 64 → Levels 64
  | 0, _, st => st
  | depth + 1, offset, st =>
    let ind := offset / 64
    let which := offset % 64
    let mask := 1#64 <<< which
    let v := st depth ind
    let st := st.setWord depth ind (v ||| mask)
    if v ≠ 0#64 then st else setBitLoop depth ind st

/-- The private `ClearBit`. -/
def clearBitLoop : ℕ → ℕ → Levels 64 → Levels 64
  | 0, _, st => st
  | depth + 1, offset, st =>
    let ind := offset / 64
    let which := offset % 64
    let mask := 1#64 <<< which
    let v := st depth ind &&& ~~~mask
    let st := st.setWord depth ind v
    if v ≠ 0#64 then st else clearBitLoop depth ind st

def setBit (b : KPageBitmap) (offset : ℕ) : KPageBitmap :=
  { b with
    bitStorages := setBitLoop b.usedDepths offset b.bitStorages
    numBits := b.numBits + 1 }

def clearBit (b : KPageBitmap) (offset : ℕ) : KPageBitmap :=
  { b with
    bitStorages := clearBitLoop b.usedDepths offset b.bitStorages
    numBits := b.numBits - 1 }

/-- The second loop of `ClearRange`: clears `n` words from `bitInd` on. -/
def clearWords (depth bitInd : ℕ) (n : ℕ) (st : Levels 64) : Levels 64 :=
  (List.range n).foldl
    (fun st i => clearBitLoop depth (bitInd + i) (st.setWord depth (bitInd + i) 0#64)) st

def clearRange (b : KPageBitmap) (offset count : ℕ) : Bool × KPageBitmap :=
  let depth := b.usedDepths - 1
  let bitInd := offset / 64
  if count < 64 then
    let shift := offset % 64
    let mask := ((1#64 <<< count) - 1#64) <<< shift
    let v := b.bitStorages depth bitInd
    if v &&& mask ≠ mask then (false, b)
    else
      let v := v &&& ~~~mask
      let st := b.bitStorages.setWord depth bitInd v
      let st := if v = 0#64 then clearBitLoop depth bitInd st else st
      (true, { b with bitStorages := st, numBits := b.numBits - count })
  else
    let n := count / 64
    if (List.range n).all fun i => b.bitStorages depth (bitInd + i) == ~~~0#64 then
      (true, { b with
        bitStorages := clearWords depth bitInd n b.bitStorages
        numBits := b.numBits - count })
    else (false, b)

/-! ## A bitmap is a set of offsets -/

/-- The bitmap keeps the set `s` of offsets below `size`. -/
structure Represents (b : KPageBitmap) (size : ℕ) (s : Finset ℕ) : Prop where
  depths_pos : 0 < b.usedDepths
  size_lt : size < 64 ^ b.usedDepths
  linked : b.bitStorages.Linked b.usedDepths
  bit_iff : ∀ o, b.bitStorages.bit (b.usedDepths - 1) o = true ↔ o ∈ s
  lt_size : ∀ o ∈ s, o < size
  numBits : b.numBits = s.card

variable {b : KPageBitmap} {size : ℕ} {s : Finset ℕ}

theorem requiredDepthLoop_eq (fuel n depth : ℕ) (h : n < fuel) :
    requiredDepthLoop fuel n depth = depth + (Nat.log 64 n + 1) := by
  induction fuel generalizing n depth with
  | zero => omega
  | succ fuel ih =>
    simp only [requiredDepthLoop]
    split_ifs with hzero
    · rw [Nat.log_of_lt (by omega)]
    · have hpos : 0 < Nat.log 64 n := Nat.log_pos (by decide) (by omega)
      rw [ih _ _ (by omega), Nat.log_div_base]
      omega

theorem getRequiredDepth_eq (regionSize : ℕ) :
    getRequiredDepth regionSize = Nat.log 64 regionSize + 1 :=
  (requiredDepthLoop_eq _ _ 0 (Nat.lt_succ_self _)).trans (Nat.zero_add _)

theorem initializeBitmap_represents (rng : RandomBitGenerator) (size : ℕ) :
    (initializeBitmap rng size).Represents size ∅ := by
  have hdepth : (initializeBitmap rng size).usedDepths = Nat.log 64 size + 1 :=
    getRequiredDepth_eq size
  refine ⟨hdepth ▸ Nat.succ_pos _, hdepth ▸ Nat.lt_pow_succ_log_self (by decide) size, ?_, ?_,
    by simp, rfl⟩
  · intro d _ i
    simp [initializeBitmap, Levels.bit]
  · simp [initializeBitmap, Levels.bit]

variable {st : Levels 64} {offset o count depth : ℕ}

/-- One depth of the search, at a word that is not zero. -/
theorem findFreeBlockLoop_succ (random : Bool) (n : ℕ) (rng : RandomBitGenerator)
    (hne : st depth offset ≠ 0#64) : ∃ next rng', st.bit depth next = true ∧
      findFreeBlockLoop random st (n + 1) depth offset rng =
        findFreeBlockLoop random st n (depth + 1) next rng' := by
  have hbit : ∀ k, k < 64 → (st depth offset).getLsbD k = true →
      st.bit depth (offset * 64 + k) = true := by
    intro k hk hset
    rw [Levels.bit, show (offset * 64 + k) / 64 = offset by omega,
      show (offset * 64 + k) % 64 = k by omega]
    exact hset
  cases random with
  | true =>
    obtain ⟨hlt, hset⟩ := rng.selectRandomBit_spec hne
    refine ⟨_, (rng.selectRandomBit (st depth offset)).2, hbit _ hlt hset, ?_⟩
    simp [findFreeBlockLoop, hne]
  | false =>
    have hset := BitVec.getLsbD_true_ctz_of_ne_zero hne
    exact ⟨_, rng, hbit _ (BitVec.lt_of_getLsbD hset) hset, by simp [findFreeBlockLoop, hne]⟩

/-- The search goes down from a word that is not zero to a bit of the last level. -/
theorem findFreeBlockLoop_spec (random : Bool) (n : ℕ) (rng : RandomBitGenerator)
    (hl : st.Linked (depth + n + 1)) (hne : st depth offset ≠ 0#64) :
    ∃ o, (findFreeBlockLoop random st (n + 1) depth offset rng).1 = some o ∧
      st.bit (depth + n) o = true := by
  induction n generalizing depth offset rng with
  | zero =>
    obtain ⟨next, rng', hbit, heq⟩ := findFreeBlockLoop_succ random 0 rng hne
    exact ⟨next, by rw [heq]; rfl, hbit⟩
  | succ n ih =>
    obtain ⟨next, rng', hbit, heq⟩ := findFreeBlockLoop_succ random (n + 1) rng hne
    obtain ⟨o, hsome, ho⟩ := ih rng' (hl.mono (by omega)) ((hl depth (by omega) next).mp hbit)
    refine ⟨o, by rw [heq, hsome], ?_⟩
    rwa [show depth + (n + 1) = depth + 1 + n by omega]

/-- `FindFreeBlock` gives some offset of the set, and none only when it is empty. -/
theorem Represents.findFreeBlock (h : b.Represents size s) (random : Bool) :
    ((b.findFreeBlock random).1 = none ∧ s = ∅ ∨ ∃ o ∈ s, (b.findFreeBlock random).1 = some o) ∧
      (b.findFreeBlock random).2.Represents size s := by
  refine ⟨?_, ⟨h.depths_pos, h.size_lt, h.linked, h.bit_iff, h.lt_size, h.numBits⟩⟩
  obtain ⟨n, hn⟩ := Nat.exists_eq_succ_of_ne_zero h.depths_pos.ne'
  have hlink := h.linked
  have hbit := h.bit_iff
  rw [hn] at hlink hbit
  simp only [KPageBitmap.findFreeBlock, hn]
  by_cases hroot : b.bitStorages 0 0 = 0#64
  · refine .inl ⟨by simp [findFreeBlockLoop, hroot], ?_⟩
    -- an offset of the set would show in the first word
    rw [eq_empty_iff_forall_notMem]
    intro o ho
    refine hlink.root_ne_zero (Nat.lt_succ_self n) ((hbit o).mpr ho) ?_
    have hlt := Nat.lt_trans (h.lt_size o ho) h.size_lt
    rw [hn] at hlt
    rw [Nat.div_eq_of_lt hlt, hroot]
  · obtain ⟨o, hsome, ho⟩ := findFreeBlockLoop_spec random n b.rng
      (hlink.mono (Nat.le_of_eq (by omega))) hroot
    rw [Nat.zero_add] at ho
    exact .inr ⟨o, (hbit o).mp ho, hsome⟩

/-- A word that was zero sets its bit on the level above. -/
theorem setBitLoop_updated (n offset : ℕ) (hl : st.Linked n) :
    Levels.Updated n offset true st (setBitLoop n offset st) := by
  induction n generalizing offset st with
  | zero => exact ⟨fun _ _ => rfl, hl, fun d hd => absurd hd (by omega)⟩
  | succ n ih =>
    have hv := fun j => BitScan.getLsbD_set (v := st n (offset / 64)) (j := j)
      (Nat.mod_lt offset (by decide : 0 < 64))
    have hne : st n (offset / 64) ||| 1#64 <<< (offset % 64) ≠ 0#64 := fun h0 => by
      simpa [h0] using hv (offset % 64)
    refine hl.updated hv ?_
    rw [setBitLoop]
    split
    next hold => exact .inl ⟨iff_of_true hne hold, rfl⟩
    next => exact .inr fun hl => decide_eq_true hne ▸ ih (offset / 64) hl

/-- A word that becomes zero clears its bit on the level above. -/
theorem clearBitLoop_updated (n offset : ℕ) (hl : st.Linked n) :
    Levels.Updated n offset false st (clearBitLoop n offset st) := by
  induction n generalizing offset st with
  | zero => exact ⟨fun _ _ => rfl, hl, fun d hd => absurd hd (by omega)⟩
  | succ n ih =>
    refine hl.updated (fun j => BitScan.getLsbD_clear) ?_
    rw [clearBitLoop]
    split
    next hne => exact .inl ⟨iff_of_true hne fun h0 => hne (by rw [h0, BitVec.zero_and]), rfl⟩
    next hzero => exact .inr fun hl => decide_eq_false hzero ▸ ih (offset / 64) hl

theorem Represents.setBit (h : b.Represents size s) (ho : o < size) (hnot : o ∉ s) :
    (b.setBit o).Represents size (insert o s) := by
  have hup := setBitLoop_updated b.usedDepths o h.linked
  refine ⟨h.depths_pos, h.size_lt, hup.linked, fun i => ?_, ?_, ?_⟩
  · rw [mem_insert, ← h.bit_iff, KPageBitmap.setBit,
      hup.bit _ (Nat.sub_add_cancel h.depths_pos).symm]
    split <;> simp [*]
  · exact (forall_mem_insert ..).mpr ⟨ho, h.lt_size⟩
  · rw [card_insert_of_notMem hnot, ← h.numBits]
    rfl

theorem Represents.clearBit (h : b.Represents size s) (ho : o ∈ s) :
    (b.clearBit o).Represents size (s.erase o) := by
  have hup := clearBitLoop_updated b.usedDepths o h.linked
  refine ⟨h.depths_pos, h.size_lt, hup.linked, fun i => ?_, ?_, ?_⟩
  · rw [mem_erase, ← h.bit_iff, KPageBitmap.clearBit,
      hup.bit _ (Nat.sub_add_cancel h.depths_pos).symm]
    split <;> simp [*]
  · exact fun i hi => h.lt_size i (mem_of_mem_erase hi)
  · rw [card_erase_of_mem ho, ← h.numBits]
    rfl

/-- The mask of `ClearRange`. -/
theorem getLsbD_rangeMask {shift : ℕ} (hcount : count < 64) (hshift : shift + count ≤ 64) (j : ℕ) :
    (((1#64 <<< count) - 1#64) <<< shift).getLsbD j = decide (shift ≤ j ∧ j < shift + count) := by
  rw [BitVec.getLsbD_shiftLeft, BitField.getLsbD_ones hcount]
  by_cases hj : shift ≤ j
  · by_cases hlt : j < shift + count
    · simp [hj, hlt, show j < 64 by omega, show j - shift < count by omega,
        show ¬ j < shift by omega]
    · simp [hlt, show ¬ j - shift < count by omega]
  · simp [hj, show j < shift by omega]

/-- The bits of the range in the word of `ClearRange`. -/
theorem mem_range_iff (hshift : offset % 64 + count ≤ 64) : o ∈ Ico offset (offset + count) ↔
      o / 64 = offset / 64 ∧ offset % 64 ≤ o % 64 ∧ o % 64 < offset % 64 + count := by
  rw [mem_Ico]
  omega

/-- `ClearRange` of a range inside a word: it clears the range if all of it is set,
and changes nothing otherwise. -/
theorem Represents.clearRange (h : b.Represents size s) (offset count : ℕ) (hcount : count < 64)
    (hshift : offset % 64 + count ≤ 64) :
    if Ico offset (offset + count) ⊆ s then (b.clearRange offset count).1 = true ∧
        (b.clearRange offset count).2.Represents size (s \ Ico offset (offset + count))
      else b.clearRange offset count = (false, b) := by
  have hdepth : b.usedDepths - 1 + 1 = b.usedDepths := Nat.sub_add_cancel h.depths_pos
  have hlink := h.linked
  rw [← hdepth] at hlink
  generalize hv : b.bitStorages (b.usedDepths - 1) (offset / 64) = v
  generalize hm : ((1#64 <<< count) - 1#64) <<< (offset % 64) = mask
  have hmask : ∀ j, mask.getLsbD j = decide (offset % 64 ≤ j ∧ j < offset % 64 + count) :=
    fun j => hm ▸ getLsbD_rangeMask hcount hshift j
  have hbit : ∀ o, o / 64 = offset / 64 → (v.getLsbD (o % 64) = true ↔ o ∈ s) := by
    intro o ho
    rw [← h.bit_iff o, Levels.bit, ho, hv]
  -- the test of the mask is a test of the range
  have htest : v &&& mask = mask ↔ Ico offset (offset + count) ⊆ s := by
    constructor
    · intro heq o ho
      obtain ⟨hdiv, hlo, hhi⟩ := (mem_range_iff hshift).mp ho
      have hj := congrArg (fun w => w.getLsbD (o % 64)) heq
      simp only [BitVec.getLsbD_and, hmask, hlo, hhi, and_self, decide_true, Bool.and_true] at hj
      exact (hbit o hdiv).mp hj
    · intro hsub
      refine BitVec.eq_of_getLsbD_eq fun j hj => ?_
      rw [BitVec.getLsbD_and, hmask]
      by_cases hin : offset % 64 ≤ j ∧ j < offset % 64 + count
      · have hmem : offset / 64 * 64 + j ∈ Ico offset (offset + count) :=
          (mem_range_iff hshift).mpr (by omega)
        have hset := (hbit _ (by omega)).mpr (hsub hmem)
        rw [show (offset / 64 * 64 + j) % 64 = j by omega] at hset
        simp [hset, hin]
      · simp [hin]
  split
  · rename_i hsub
    simp only [KPageBitmap.clearRange, if_pos hcount, hv, hm, if_neg (not_not.mpr (htest.mpr hsub))]
    generalize hst : (if v &&& ~~~mask = 0#64 then _ else _) = st
    obtain ⟨_, hlast, hlink'⟩ : _ ∧ st (b.usedDepths - 1) = b.bitStorages.setWord (b.usedDepths - 1)
        (offset / 64) (v &&& ~~~mask) (b.usedDepths - 1) ∧ st.Linked (b.usedDepths - 1 + 1) := by
      refine hlink.write ?_
      rw [← hst]
      split
      next hzero => exact .inr fun hl => by simpa [hzero] using clearBitLoop_updated _ _ hl
      next hne =>
        exact .inl ⟨iff_of_true hne fun h0 => hne (by rw [← hv, h0, BitVec.zero_and]), rfl⟩
    rw [hdepth] at hlink'
    have hcard : b.numBits - count = #(s \ Ico offset (offset + count)) := by
      rw [card_sdiff_of_subset hsub, Nat.card_Ico, h.numBits, Nat.add_sub_cancel_left]
    refine ⟨trivial, h.depths_pos, h.size_lt, hlink', fun o => ?_,
      fun o ho => h.lt_size o (mem_sdiff.mp ho).1, hcard⟩
    rw [mem_sdiff, Levels.bit_congr hlast]
    by_cases ho : o / 64 = offset / 64
    · rw [Levels.bit_setWord_same ho, BitVec.getLsbD_and, BitVec.getLsbD_not, hmask,
        mem_range_iff hshift, ← hbit o ho, Bool.and_eq_true]
      refine and_congr_right fun _ => ?_
      simp only [ho, show o % 64 < 64 by omega, decide_true, Bool.true_and, Bool.not_eq_true',
        decide_eq_false_iff_not, true_and]
    · rw [Levels.bit_setWord_of_ne (.inr ho), h.bit_iff o, mem_range_iff hshift]
      simp [ho]
  · rename_i hsub
    simp only [KPageBitmap.clearRange, if_pos hcount, hv, hm]
    exact if_pos fun heq => hsub (htest.mp heq)

end KPageBitmap

end Atmosphere.Kern
