import Atmosphere.Kern.Arm64.PageTableRewrite

/-!
# Merging keeps the translation

`MergePages` turns a group of entries into a contiguous one, a table of contiguous
groups into a block of the level above, and climbs as far as it can. The blocks it
makes map what the old ones mapped. What a table entry forbids goes away with the
table, so the permissions stay where the blocks forbid it themselves.
-/

namespace Atmosphere.Kern.Arm64

open PageTableEntry

theorem alignDown_add_of_lt {A r S : ℕ} (h : S ∣ A) (hr : r < S) : alignDown (A + r) S = A := by
  obtain ⟨k, rfl⟩ := h
  unfold alignDown
  rw [Nat.mul_add_div (by omega), Nat.div_eq_of_lt hr, Nat.add_zero, Nat.mul_comm]

theorem PageTableEntry.IsBlockAddress.alignDown_add {lvl : Level} {phys S i : ℕ}
    (h : IsBlockAddress lvl phys) (hS : lvl.blockSize ∣ S) (h48 : S ∣ 2 ^ 48)
    (hi : lvl.blockSize * i < S) : IsBlockAddress lvl (alignDown phys S + lvl.blockSize * i) where
  aligned := Nat.dvd_add (hS.trans (dvd_alignDown _ _)) (Nat.dvd_mul_right _ _)
  fits := by
    have hlt : alignDown phys S < 2 ^ 48 := Nat.lt_of_le_of_lt (alignDown_le _ _) h.fits
    obtain ⟨k, hk⟩ := h48
    unfold alignDown at *
    have hq : phys / S < k := by
      rw [hk, Nat.mul_comm S k] at hlt
      exact Nat.lt_of_mul_lt_mul_right hlt
    have hstep : (phys / S + 1) * S ≤ k * S := Nat.mul_le_mul_right S hq
    rw [hk, Nat.mul_comm S k]
    rw [Nat.add_mul] at hstep
    omega

namespace PageTable

variable {c : Config} {t t' u : PageTable} {lvl m : Level} {a b x y p v : ℕ} {e : PageTableEntry}

/-- The blocks of two page tables map the same, and differ around `a` at most. A table in the second
one is one of the first, in the same place, or a new one. -/
structure Remaps (c : Config) (t t' : PageTable) (a : ℕ) : Prop where
  mapping_eq : ∀ x, c.InSpace x → t'.mapping c x = t.mapping c x
  tables : ∀ m x, c.InSpace x → isTable (t'.entryAt c m x) = true →
    t'.entryAt c m x = t.entryAt c m x ∨
      ∃ p, IsTableAddress p ∧ t'.entryAt c m x = tableEntry p c.isKernel true
  elsewhere : ∀ m x, c.InSpace x → ¬ SameTable .l2 x a → t'.entryAt c m x = t.entryAt c m x

namespace Remaps

theorem of_walk (a : ℕ) (h : ∀ m x, c.InSpace x → t'.entryAt c m x = t.entryAt c m x) :
    Remaps c t t' a where
  mapping_eq x hx := mapping_congr (leafAt_congr fun m => h m x hx)
  tables m x hx _ := .inl (h m x hx)
  elsewhere m x hx _ := h m x hx

theorem refl (c : Config) (t : PageTable) (a : ℕ) : Remaps c t t a :=
  .of_walk a fun _ _ _ => rfl

theorem trans (h : Remaps c t t' a) (h' : Remaps c t' u a) : Remaps c t u a where
  mapping_eq x hx := (h'.mapping_eq x hx).trans (h.mapping_eq x hx)
  tables m x hx htable := by
    obtain heq | hnew := h'.tables m x hx htable
    · rw [heq] at htable ⊢
      exact h.tables m x hx htable
    · exact .inr hnew
  elsewhere m x hx hne := (h'.elsewhere m x hx hne).trans (h.elsewhere m x hx hne)

theorem notCut (h : Remaps c t t' a) (hx : c.InSpace x) (hcut : t.NotCut c x) : t'.NotCut c x :=
  hcut.of_tables (h.mapping_eq x hx) fun m => h.tables m x hx

/-- The translations are the same too, around `a` if no table cuts what a block grants. -/
theorem translate_eq (h : Remaps c t t' a) (hx : c.InSpace x)
    (hcut : SameTable .l2 x a → t.NotCut c x) : t'.translate c x = t.translate c x := by
  by_cases hxa : SameTable .l2 x a
  · rw [(hcut hxa).translate_eq, (h.notCut hx (hcut hxa)).translate_eq]
    exact h.mapping_eq x hx
  · exact translate_congr fun m => h.elsewhere m x hx hxa

end Remaps

/-- The table of a level lies below one L1 entry. -/
theorem SameTable.l2 (h : SameTable lvl x a) : SameTable .l2 x a :=
  AlignedBlock.div_eq_of_dvd (by cases lvl <;> decide) h

/-- The old and the new block map the address alike. -/
theorem mapping_eq_of_block {lvl' : Level} {e' : PageTableEntry}
    (h : t.leafAt c x = some (lvl, e)) (h' : t'.leafAt c x = some (lvl', e'))
    (haddr : getBlock lvl' e' + x % lvl'.blockSize = getBlock lvl e + x % lvl.blockSize)
    (htemp : getEntryTemplateForMerge e' = getEntryTemplateForMerge e) :
    t'.mapping c x = t.mapping c x := by
  rw [mapping_of_leafAt h, mapping_of_leafAt h', haddr, htemp]

/-- A new entry above a table, with blocks below it that map the same. -/
theorem SlotWrite.remaps (h : SlotWrite c t lvl a e) (hs : Shape c t)
    (hnew : isTable e = true → ∃ p, IsTableAddress p ∧ e = tableEntry p c.isKernel true)
    (hlow : ∀ x, SameTable lvl x a →
      isTable ((t.setParentEntry c lvl a e).entryAt c lvl x) = false)
    (hmap : ∀ x, SameTable lvl x a → (t.setParentEntry c lvl a e).mapping c x = t.mapping c x) :
    Remaps c t (t.setParentEntry c lvl a e) a where
  mapping_eq x hx := by
    by_cases hxa : SameTable lvl x a
    · exact hmap x hxa
    · exact mapping_congr (h.leafAt_of_not hs hx hxa)
  tables m x hx htable := by
    by_cases hxa : SameTable lvl x a
    · have hwalk := (@SlotWrite.walk c t lvl m a x e h hs hx).2
      split_ifs at hwalk with hparent hself
      · rw [hwalk] at htable ⊢
        exact .inr (hnew htable)
      · rw [hself.1, hlow x hxa] at htable
        cases htable
      · exact .inl hwalk
    · exact .inl (h.entryAt_of_not hs hx hxa)
  elsewhere m x hx hne := h.entryAt_of_not hs hx fun hxa => hne hxa.l2

/-! ## Groups -/

variable {sw T : BitVec 64} {contig : Bool} {S P0 lastTail : ℕ}

theorem under_swOfIndex (h : BitField.Under sw 7#64) (i : ℕ) :
    BitField.Under (swOfIndex sw i) 7#64 := by
  unfold swOfIndex
  split_ifs
  · exact h
  · unfold BitField.Under at *
    rw [BitVec.and_assoc, BitVec.and_comm (~~~disableMergeHead), ← BitVec.and_assoc, h]

theorem under_mergedSw (lvl : Level) (page virtAddr step count : ℕ) :
    BitField.Under (t.mergedSw lvl page virtAddr step count) 7#64 := under_encode _ _ _

/-- What the merge loop has found out. -/
theorem canMerge_spec {page virtAddr physAddr step count : ℕ} {template : BitVec 64}
    (h : t.canMerge lvl page virtAddr physAddr template step count lastTail contig)
    (htemp : BitField.Under template baseMask)
    (haddr : ∀ i < count, IsBlockAddress lvl (physAddr + step * i)) {i : ℕ} (hi : i < count) :
    isBlock lvl (t.getEntryFromTable lvl page (virtAddr + step * i)) = true ∧
      getEntryTemplateForMerge (t.getEntryFromTable lvl page (virtAddr + step * i)) = template ∧
        getBlock lvl (t.getEntryFromTable lvl page (virtAddr + step * i)) = physAddr + step * i ∧
          isContiguous (t.getEntryFromTable lvl page (virtAddr + step * i)) = contig := by
  unfold canMerge at h
  rw [List.all_eq_true] at h
  have hi' := h i (List.mem_range.mpr hi)
  simp only [Bool.and_eq_true] at hi'
  exact isForMerge_spec htemp (haddr i hi) hi'.1.1

theorem contiguousBlockSize_dvd_48 (lvl : Level) : lvl.contiguousBlockSize ∣ 2 ^ 48 := by
  cases lvl <;> decide

theorem parent_blockSize_dvd_48 (lvl : Level) : lvl.parent.blockSize ∣ 2 ^ 48 := by
  cases lvl <;> decide

/-- The addresses of a leaf as blocks from its start on. -/
theorem leaf_block (hS : IsLeafSize lvl S) (h : x / S = a / S) :
    (alignDown a S + lvl.blockSize * (x % S / lvl.blockSize)) / lvl.blockSize =
      x / lvl.blockSize := by
  obtain rfl | rfl := hS <;> cases lvl <;>
    simp only [Level.contiguousBlockSize, Level.blockSize, alignDown] at * <;> omega

theorem mul_div_add_mod (hS : IsLeafSize lvl S) (x : ℕ) :
    lvl.blockSize * (x % S / lvl.blockSize) + x % lvl.blockSize = x % S := by
  obtain ⟨k, rfl⟩ := hS.blockSize_dvd
  have hmod : x % (lvl.blockSize * k) % lvl.blockSize = x % lvl.blockSize :=
    Nat.mod_mul_right_mod x lvl.blockSize k
  rw [← hmod]
  exact Nat.div_add_mod _ _

/-- The blocks of one leaf have been rewritten: they map the physical run from `P0` on with the
attributes `T`, and form a contiguous group or are single blocks. -/
structure LeafRewritten (c : Config) (t t' : PageTable) (lvl : Level) (a S P0 : ℕ) (T : BitVec 64)
    (contig : Bool) : Prop where
  wellFormed : WellFormed c t'
  tableAt_eq : ∀ m x, c.InSpace x → t'.tableAt c m x = t.tableAt c m x
  entryAt_of_not : ∀ m x, c.InSpace x → ¬ (m = lvl ∧ x / S = a / S) →
    t'.entryAt c m x = t.entryAt c m x
  leafAt_self : ∀ x, x / S = a / S → ∃ e, t'.leafAt c x = some (lvl, e) ∧
    isContiguous e = contig ∧ getEntryTemplateForMerge e = T ∧
      getBlock lvl e + x % lvl.blockSize = P0 + x % S

/-- What a block made of attributes without a contiguous bit shows. -/
theorem BlockArgs.spec {phys : ℕ} {attr : BitVec 64} (h : BlockArgs lvl phys attr sw)
    (hattr : attr &&& baseMask = T) (hc : isContiguous attr = false) (contig : Bool) :
    isBlock lvl (blockEntry lvl phys attr sw contig) = true ∧
      isContiguous (blockEntry lvl phys attr sw contig) = contig ∧
        getEntryTemplateForMerge (blockEntry lvl phys attr sw contig) = T ∧
          getBlock lvl (blockEntry lvl phys attr sw contig) = phys := by
  refine ⟨h.isBlock, ?_, h.entryTemplate.trans hattr, h.getBlock⟩
  rw [h.isContiguous, hc, Bool.or_false]

/-- The loop that rewrites the blocks of one leaf. A part of a contiguous group is not a leaf. -/
theorem rewriteLeaf {value : ℕ → PageTableEntry} (hw : WellFormed c t)
    (ha : c.InSpace a) (hp : t.tableAt c lvl a = some p) (hS : IsLeafSize lvl S)
    (hsingle : S = lvl.blockSize → isContiguous (t.entryAt c lvl a) = false ∧ contig = false)
    (hP0 : S ∣ P0) (hold : ∀ x, x / S = a / S → isBlock lvl (t.entryAt c lvl x) = true)
    (hvalue : ∀ i < S / lvl.blockSize, isBlock lvl (value i) = true ∧
      isContiguous (value i) = contig ∧ getEntryTemplateForMerge (value i) = T ∧
        getBlock lvl (value i) = P0 + lvl.blockSize * i) : LeafRewritten c t
      (t.setTable p (writeEntries lvl (alignDown a S) value (t.table p) (S / lvl.blockSize)))
        lvl a S P0 T contig := by
  have hlvl := ne_l1_of_tableAt hp
  generalize hgdef : writeEntries lvl (alignDown a S) value (t.table p) (S / lvl.blockSize) = g
  have hspan : ∀ {x}, x / S = a / S → SameTable lvl x a :=
    fun h => hS.parent_div_eq hlvl h
  have hg : ∀ x, SameTable lvl x a → g (index lvl x) =
      if x / S = a / S then value (x % S / lvl.blockSize) else t.table p (index lvl x) := by
    intro x hx
    rw [← hgdef]
    exact writeEntries_run hlvl hS.blockSize_dvd (hS.dvd_parent hlvl) hx
  have hr : BlockRewrite c t lvl a p g fun x => x / S = a / S := by
    refine ⟨ha, hp, fun x _ _ hR => hold x hR, ?_, ?_⟩
    · intro x hx hdiv hR
      rw [hg x hdiv, if_pos hR]
      exact (hvalue _ (hS.index_lt x)).1
    · intro x hx hdiv hR
      rw [hg x hdiv, if_neg hR, entryAt_of_tableAt ((tableAt_congr hdiv).trans hp)]
      rfl
  have hself : ∀ x, x / S = a / S →
      (t.setTable p g).entryAt c lvl x = value (x % S / lvl.blockSize) := by
    intro x hx
    have hxs : c.InSpace x := inSpace_of_parent_div_eq ha (hspan hx)
    rw [(hr.walk hw.toShape hxs).2, if_pos ⟨rfl, hspan hx⟩, hg x (hspan hx), if_pos hx]
  have hbyLevel : ∀ m x, c.InSpace x → ¬ (m = lvl ∧ x / S = a / S) →
      (t.setTable p g).entryAt c m x = t.entryAt c m x := by
    intro m x hx h
    apply hr.entryAt_of_not hw.toShape hx
    exact fun hin => h ⟨hin.1, hin.2.2⟩
  have hgroups : Groups c (t.setTable p g) := by
    apply hw.groups.of_change hw.toShape hbyLevel
    · rintro m x y hx hC ⟨rfl, hy⟩ hyx hb
      obtain rfl | rfl := hS
      · -- the group of `x` has a block without the contiguous bit, the one around `a`
        by_contra hc
        rw [Bool.not_eq_false] at hc
        have hgroup := hw.groups m x hx hb hc y hyx
        rw [walk_congr hy, (hsingle rfl).1] at hgroup
        exact absurd hgroup.2.1 (by decide)
      · exact absurd ⟨rfl, hyx.symm.trans hy⟩ hC
    · rintro m x hx ⟨rfl, hR⟩ hb hc y hy
      rw [hself x hR, (hvalue _ (hS.index_lt x)).2.1] at hc
      obtain rfl | rfl := hS
      · rw [(hsingle rfl).2] at hc
        cases hc
      · have hS : IsLeafSize m m.contiguousBlockSize := .inr rfl
        have hRy := hy.trans hR
        obtain ⟨-, -, htempx, haddrx⟩ := hvalue _ (hS.index_lt x)
        obtain ⟨hby, hcy, htempy, haddry⟩ := hvalue _ (hS.index_lt y)
        rw [hself x hR, hself y hRy, htempx, haddrx, haddry,
          alignDown_add_of_lt hP0 (hS.mul_lt (hS.index_lt x))]
        refine ⟨hby, hcy.trans hc, htempy, ?_⟩
        unfold alignDown
        rw [Nat.mul_comm]
  refine ⟨hr.wellFormed hw hgroups, fun m x hx => (hr.walk hw.toShape hx).1, hbyLevel, ?_⟩
  intro x hx
  obtain ⟨hb, hc, htemp, haddr⟩ := hvalue _ (hS.index_lt x)
  refine ⟨_, leafAt_eq_some_iff.mpr ⟨hself x hx, hb⟩, hc, htemp, ?_⟩
  rw [haddr, Nat.add_assoc, mul_div_add_mod hS]

/-- Elsewhere the leaves are the same. -/
theorem LeafRewritten.leafAt_of_not (h : LeafRewritten c t t' lvl a S P0 T contig)
    (hx : c.InSpace x) (hne : ¬ x / S = a / S) : t'.leafAt c x = t.leafAt c x := by
  apply leafAt_congr
  intro m
  exact h.entryAt_of_not m x hx fun hin => hne hin.2

/-- The blocks of a level map the physical run from `P0` on with the attributes `T`. -/
def MapsRun (c : Config) (t : PageTable) (lvl : Level) (a S P0 : ℕ) (T : BitVec 64) : Prop :=
  ∀ x, x / S = a / S → isBlock lvl (t.entryAt c lvl x) = true ∧
    getEntryTemplateForMerge (t.entryAt c lvl x) = T ∧
      getBlock lvl (t.entryAt c lvl x) + x % lvl.blockSize = P0 + x % S

/-- Rewritten blocks that map what they mapped before. -/
theorem LeafRewritten.remaps (h : LeafRewritten c t t' lvl a S P0 T contig)
    (hS : IsLeafSize lvl S) (hlvl : lvl ≠ .l1) (hold : MapsRun c t lvl a S P0 T) :
    Remaps c t t' a where
  mapping_eq x hx := by
    by_cases hR : x / S = a / S
    · obtain ⟨hb, htemp, haddr⟩ := hold x hR
      obtain ⟨e, hleaf, -, htemp', haddr'⟩ := h.leafAt_self x hR
      apply mapping_eq_of_block (leafAt_eq_some_iff.mpr ⟨rfl, hb⟩) hleaf
      · rw [haddr', haddr]
      · rw [htemp', htemp]
    · exact mapping_congr (h.leafAt_of_not hx hR)
  tables m x hx htable := by
    by_cases hR : m = lvl ∧ x / S = a / S
    · obtain ⟨e, hleaf, -⟩ := h.leafAt_self x hR.2
      obtain ⟨rfl, hb⟩ := leafAt_eq_some_iff.mp hleaf
      rw [hR.1, isTable_eq_false_of_isBlock hb] at htable
      cases htable
    · exact .inl (h.entryAt_of_not m x hx hR)
  elsewhere m x hx hne :=
    h.entryAt_of_not m x hx fun hR => hne (hS.parent_div_eq hlvl hR.2).l2

/-- Entries of one block are read alike. -/
theorem getEntryFromTable_congr (h : x / lvl.blockSize = y / lvl.blockSize) :
    t.getEntryFromTable lvl p x = t.getEntryFromTable lvl p y := by
  unfold getEntryFromTable
  rw [index_congr h]

/-- The write that replaces a table of blocks by one block. -/
theorem slotWrite_of_blocks (ha : c.InSpace a) (hp : t.tableAt c lvl a = some p)
    (hargs : BlockArgs lvl.parent P0 T sw) (hT : BitField.Under T baseMask)
    (hall : MapsRun c t lvl a lvl.parent.blockSize P0 T) :
    SlotWrite c t lvl a (blockEntry lvl.parent P0 T sw false) := by
  have hc : isContiguous (blockEntry lvl.parent P0 T sw false) = false := by
    rw [hargs.isContiguous, isContiguous_of_under_baseMask hT, Bool.or_false]
  have htab : tableOf (blockEntry lvl.parent P0 T sw false) = none :=
    tableOf_of_isBlock hargs.isBlock
  refine ⟨ne_l1_of_tableAt hp, ha, ?_, ?_, ?_, .block hargs.isBlock fun _ => hc, ?_, ?_,
    fun _ => hc⟩
  · rintro rfl
    exact tableAt_l2_of_l3 hp
  · rintro rfl x hx hdiv
    rw [tableAt_eq (by decide), Level.parent, tableOf_of_isBlock (hall x hdiv).1]
  · intro q hq
    cases htab.symm.trans hq
  · intro q hq
    cases htab.symm.trans hq
  · intro hb
    have htable := (isTable_of_tableAt hp).1
    rw [isTable_eq_false_of_isBlock hb] at htable
    cases htable

variable (hw : WellFormed c t) (ha : c.InSpace a)

section

variable (hp : t.tableAt c lvl a = some p)
include hw ha hp

/-- Making a group contiguous. -/
theorem mergeGroup_spec : t.mergeGroup lvl p a = (t, false) ∨
      ∃ t', t.mergeGroup lvl p a = (t', true) ∧ WellFormed c t' ∧ Remaps c t t' a ∧
        SameTables c t t' := by
  have hlvl := ne_l1_of_tableAt hp
  have hS : IsLeafSize lvl lvl.contiguousBlockSize := .inr rfl
  unfold mergeGroup
  rw [← entryAt_of_tableAt hp]
  simp only
  split_ifs with hcan
  · right
    have haddr : ∀ i < lvl.contiguousBlockSize / lvl.blockSize, IsBlockAddress lvl
        (alignDown (getBlock lvl (t.entryAt c lvl a)) lvl.contiguousBlockSize +
          lvl.blockSize * i) := fun i hi =>
      (isBlockAddress_getBlock lvl _).alignDown_add lvl.blockSize_dvd_contiguousBlockSize
        (contiguousBlockSize_dvd_48 lvl) (hS.mul_lt hi)
    have htemp := template_under (t.entryAt c lvl a)
    have hold : MapsRun c t lvl a lvl.contiguousBlockSize
        (alignDown (getBlock lvl (t.entryAt c lvl a)) lvl.contiguousBlockSize)
        (getEntryTemplateForMerge (t.entryAt c lvl a)) := by
      intro x hx
      have hfound := canMerge_spec hcan htemp haddr (hS.index_lt x)
      rw [getEntryFromTable_congr (leaf_block hS hx),
        ← entryAt_of_tableAt ((tableAt_congr (hS.parent_div_eq hlvl hx)).trans hp)] at hfound
      refine ⟨hfound.1, hfound.2.1, ?_⟩
      rw [hfound.2.2.1, Nat.add_assoc, mul_div_add_mod hS]
    have hrew := rewriteLeaf hw ha hp hS (fun h => by cases lvl <;> cases h) (dvd_alignDown _ _)
      (fun x hx => (hold x hx).1) fun i hi => BlockArgs.spec ⟨haddr i hi,
        under_templateMask_of_baseMask htemp, under_swOfIndex (under_mergedSw (t := t) lvl p
          (alignDown a lvl.contiguousBlockSize) lvl.blockSize
          (lvl.contiguousBlockSize / lvl.blockSize)) i⟩
        htemp (isContiguous_of_under_baseMask htemp) true
    exact ⟨_, rfl, hrew.wellFormed, hrew.remaps hS hlvl hold, hrew.tableAt_eq⟩
  · exact .inl rfl

/-! ## Tables -/

/-- What the merge loop has found out about a whole table. -/
theorem mergedBlock_spec (h : t.mergedBlock lvl p a lastTail = some e) :
    ∃ P0 T sw, e = blockEntry lvl.parent P0 T sw false ∧ BlockArgs lvl.parent P0 T sw ∧
      BitField.Under T baseMask ∧ MapsRun c t lvl a lvl.parent.blockSize P0 T := by
  have hlvl := ne_l1_of_tableAt hp
  unfold mergedBlock at h
  rw [← entryAt_of_tableAt hp] at h
  simp only at h
  split_ifs at h with hcan
  cases h
  have htemp := template_under (t.entryAt c lvl a)
  have hphys := isBlockAddress_getBlock lvl (t.entryAt c lvl a)
  have haddr : ∀ i < lvl.parent.blockSize / lvl.contiguousBlockSize, IsBlockAddress lvl
      (alignDown (getBlock lvl (t.entryAt c lvl a)) lvl.parent.blockSize +
        lvl.contiguousBlockSize * i) := by
    intro i hi
    have hmul : lvl.contiguousBlockSize * i = lvl.blockSize * (0x10 * i) := by
      unfold Level.contiguousBlockSize
      rw [Nat.mul_comm 0x10 lvl.blockSize, Nat.mul_assoc]
    rw [hmul]
    apply hphys.alignDown_add lvl.blockSize_dvd_parent (parent_blockSize_dvd_48 lvl)
    rw [← hmul, Nat.mul_comm]
    exact (Nat.lt_div_iff_mul_lt_of_dvd lvl.contiguousBlockSize_pos.ne'
      (Level.contiguousBlockSize_dvd_parent hlvl)).mp hi
  refine ⟨_, _, _, rfl, ⟨⟨dvd_alignDown _ _, Nat.lt_of_le_of_lt (alignDown_le _ _) hphys.fits⟩,
    under_templateMask_of_baseMask htemp, under_mergedSw _ _ _ _ _⟩, htemp, ?_⟩
  intro x hx
  -- the head of the group of `x`
  have hi : x % lvl.parent.blockSize / lvl.contiguousBlockSize <
      lvl.parent.blockSize / lvl.contiguousBlockSize :=
    Nat.div_lt_div_of_lt_of_dvd (Level.contiguousBlockSize_dvd_parent hlvl)
      (Nat.mod_lt _ lvl.parent.blockSize_pos)
  generalize hidef : x % lvl.parent.blockSize / lvl.contiguousBlockSize = i at hi
  have hhead := canMerge_spec hcan htemp haddr hi
  generalize hydef : alignDown a lvl.parent.blockSize + lvl.contiguousBlockSize * i = y at hhead
  have hyx : y / lvl.contiguousBlockSize = x / lvl.contiguousBlockSize ∧
      y % lvl.contiguousBlockSize = 0 ∧ SameTable lvl y a := by
    cases lvl <;>
      simp only [SameTable, Level.parent, Level.contiguousBlockSize, Level.blockSize,
        alignDown] at * <;>
        omega
  rw [← entryAt_of_tableAt ((tableAt_congr hyx.2.2).trans hp)] at hhead
  have hys := inSpace_of_parent_div_eq ha hyx.2.2
  obtain ⟨hb, -, htempx, haddrx⟩ := hw.groups lvl y hys hhead.1 hhead.2.2.2 x hyx.1.symm
  refine ⟨hb, htempx.trans hhead.2.1, ?_⟩
  rw [haddrx, hhead.2.2.1]
  have hbase : alignDown (alignDown (getBlock lvl (t.entryAt c lvl a)) lvl.parent.blockSize +
      lvl.contiguousBlockSize * i) lvl.contiguousBlockSize =
        alignDown (getBlock lvl (t.entryAt c lvl a)) lvl.parent.blockSize +
          lvl.contiguousBlockSize * i :=
    alignDown_of_dvd (Nat.dvd_add (dvd_trans (Level.contiguousBlockSize_dvd_parent hlvl)
      (dvd_alignDown _ _)) (Nat.dvd_mul_right _ _))
  have hmod : lvl.contiguousBlockSize * i + alignDown (x % lvl.contiguousBlockSize) lvl.blockSize +
      x % lvl.blockSize = x % lvl.parent.blockSize := by
    cases lvl <;>
      simp only [Level.parent, Level.contiguousBlockSize, Level.blockSize, alignDown] at * <;>
        omega
  omega

/-- A table full of blocks is replaced by the block they make together. -/
theorem replaceTable_spec (h : t.mergedBlock lvl p a lastTail = some e) :
    ∃ t', (t.setParentEntry c lvl a e).discardTable c p = .ok t' ∧ WellFormed c t' ∧
      Remaps c t t' a ∧
        (∀ m x, c.InSpace x → m ≠ lvl → t'.tableAt c m x = t.tableAt c m x) := by
  obtain ⟨P0, T, sw, hedef, hargs, hT, hall⟩ := mergedBlock_spec hw ha hp h
  have hblock : isBlock lvl.parent e = true := hedef ▸ hargs.isBlock
  have hslot : SlotWrite c t lvl a e := hedef ▸ slotWrite_of_blocks ha hp hargs hT hall
  have htab : tableOf e = none := tableOf_of_isBlock hblock
  have hparent := (isTable_of_tableAt hp).1
  have hempty : isEmpty e = isEmpty (t.entryAt c lvl.parent a) := by
    rw [isEmpty_eq_false_of_isBlock hblock, isEmpty_eq_false_of_isTable hparent]
  have hbooks := setParentEntry_books (c := c) (t := t) lvl a e
  have hwalk : SlotIs c t (t.setParentEntry c lvl a e) lvl a none := by
    intro m x hx
    rw [(hslot.walk hw.toShape hx).1, htab]
  have hfrom : ∀ {m x q}, c.InSpace x → (t.setParentEntry c lvl a e).tableAt c m x = some q →
      t.tableAt c m x = some q := by
    intro m x q hx hq
    rw [hwalk m x hx] at hq
    split_ifs at hq
    exact hq
  obtain ⟨t', hdiscard, hw', hsame⟩ := discardTable_spec (hslot.shape hw.toShape)
    (hslot.groups hw.toShape hw.groups fun q hq => by rw [htab] at hq; cases hq)
    (hw.books.unhook hw.toShape ha hp hwalk ⟨hbooks.2.1, hbooks.2.2,
      fun hx hq hheap => by
        rw [hbooks.1, liveCount_setParentEntry_same hempty]
        exact hw.books.refCount_eq hx (hfrom hx hq) hheap,
      fun q hq => hw.books.spare_setParentEntry ha hq⟩)
    (by
      rintro ⟨m, x, hx, hq⟩
      obtain ⟨rfl, hdiv⟩ := hw.toShape.distinct hx ha (hfrom hx hq) hp
      rw [hwalk m x hx, if_pos ⟨rfl, hdiv⟩] at hq
      cases hq)
    (fun hheap => by
      rw [hbooks.1, hw.books.refCount_eq ha hp hheap]
      apply liveCount_eq_full
      intro k hk
      obtain ⟨x, -, hx, rfl⟩ := exists_index (ne_l1_of_tableAt hp) ha hk
      have hb := (hall x hx).1
      rw [entryAt_of_tableAt ((tableAt_congr hx).trans hp)] at hb
      exact isEmpty_eq_false_of_isBlock hb)
  refine ⟨t', hdiscard, hw', Remaps.trans ?_ (.of_walk a fun m x hx => (hsame m x hx).2), ?_⟩
  · have hin : ∀ {x}, SameTable lvl x a → c.InSpace x := inSpace_of_parent_div_eq ha
    apply hslot.remaps hw.toShape
    · intro htable
      rw [isTable_eq_false_of_isBlock hblock] at htable
      cases htable
    · intro x hR
      have hnone : (t.setParentEntry c lvl a e).tableAt c lvl x = none := by
        rw [hwalk lvl x (hin hR), if_pos ⟨rfl, hR⟩]
      rw [entryAt_eq_zero (ne_l1_of_tableAt hp) hnone, isTable_zero]
    · intro x hR
      obtain ⟨hb, htemp, haddr⟩ := hall x hR
      apply mapping_eq_of_block (leafAt_eq_some_iff.mpr ⟨rfl, hb⟩) (leafAt_eq_some_iff.mpr
        ⟨by rw [(hslot.walk hw.toShape (hin hR)).2, if_pos ⟨rfl, hR⟩], hblock⟩)
      · rw [haddr, hedef, hargs.getBlock]
      · rw [htemp, hedef, hargs.entryTemplate]
        exact hT
  · intro m x hx hne
    rw [(hsame m x hx).1, hwalk m x hx, if_neg fun h => hne h.1]

/-- The part of a merge that stays inside one table. -/
theorem mergeInTable_spec (lastTail : ℕ) :
    ∃ t' changed o, t.mergeInTable lvl p a lastTail = (t', changed, o) ∧ WellFormed c t' ∧
      Remaps c t t' a ∧ SameTables c t t' ∧
        ∀ e, o = some e → t'.mergedBlock lvl p a lastTail = some e := by
  unfold mergeInTable
  simp only
  split_ifs with hblock hcontig
  · exact ⟨t, _, _, rfl, hw, .refl c t a, fun _ _ _ => rfl, fun e he => by cases he⟩
  · exact ⟨t, _, _, rfl, hw, .refl c t a, fun _ _ _ => rfl, fun e he => he⟩
  · obtain hno | ⟨t', hyes, hw', hco, htab⟩ := mergeGroup_spec hw ha hp
    · rw [hno]
      exact ⟨t, _, _, rfl, hw, .refl c t a, fun _ _ _ => rfl, fun e he => by cases he⟩
    · rw [hyes]
      exact ⟨t', _, _, rfl, hw', hco, htab, fun e he => he⟩

end

include hw ha

/-- A merge that ends with the L2 table. -/
theorem mergeL2Table_spec (merged : Bool) (hp : t.tableAt c .l2 a = some p) :
    ∃ t' b, t.mergeL2Table c p a merged = .ok (t', b) ∧ WellFormed c t' ∧ Remaps c t t' a := by
  obtain ⟨u, changed, o, hmerge, hwu, hcou, htab, hblock⟩ := mergeInTable_spec
    hw ha hp (Level.l1.contiguousBlockSize / Level.l2.contiguousBlockSize - 1)
  unfold mergeL2Table
  simp only [hmerge]
  cases o with
  | none => exact ⟨u, _, rfl, hwu, hcou⟩
  | some e =>
    have hpu : u.tableAt c .l2 a = some p := (htab .l2 a ha).trans hp
    obtain ⟨t', hdiscard, hw', hco, -⟩ := replaceTable_spec hwu ha hpu (hblock e rfl)
    have hset : u.setL1Entry c a e = u.setParentEntry c .l2 a e := rfl
    refine ⟨t', true, ?_, hw', hcou.trans hco⟩
    simp only [hset, hdiscard]
    rfl

/-- `MergePages` keeps the table well formed and what its blocks map. -/
theorem mergePages_spec :
    ∃ t' b, t.mergePages c a = .ok (t', b) ∧ WellFormed c t' ∧ Remaps c t t' a := by
  have hok := (hw.entryOk .l1 a ha).known
  have hl1 : t.entryAt c .l1 a = t.getL1Entry c a := rfl
  rw [hl1] at hok
  unfold mergePages
  cases htable : isTable (t.getL1Entry c a) with
  | false =>
    rw [htable, Bool.or_false] at hok
    refine ⟨t, false, ?_, hw, .refl c t a⟩
    simp only [htable, hok]
    rfl
  | true =>
    have hp : t.tableAt c .l2 a = some (getTable (t.getL1Entry c a)) :=
      tableOf_eq_some.mpr ⟨htable, rfl⟩
    simp only [htable, Bool.not_true, Bool.false_eq_true, if_false, ← entryAt_of_tableAt hp]
    split_ifs with htable2
    · have hp3 : t.tableAt c .l3 a = some (getTable (t.entryAt c .l2 a)) := by
        rw [tableAt_eq (by decide)]
        exact tableOf_eq_some.mpr ⟨htable2, rfl⟩
      obtain ⟨u, changed, o, hmerge, hwu, hcou, htab, hblock⟩ := mergeInTable_spec
        hw ha hp3 (Level.l2.blockSize / Level.l3.contiguousBlockSize - 1)
      simp only [hmerge]
      cases o with
      | none => exact ⟨u, _, rfl, hwu, hcou⟩
      | some e =>
        have hpu := (htab .l2 a ha).trans hp
        have hpu3 := (htab .l3 a ha).trans hp3
        obtain ⟨t', hdiscard, hw', hco, htab'⟩ := replaceTable_spec hwu ha hpu3 (hblock e rfl)
        rw [setParentEntry_l3 hpu] at hdiscard
        obtain ⟨t'', b, hl2, hw'', hco'⟩ := mergeL2Table_spec hw' ha true
          ((htab' .l2 a ha (by decide)).trans hpu)
        refine ⟨t'', b, ?_, hw'', (hcou.trans hco).trans hco'⟩
        simp only [hdiscard]
        exact hl2
    · exact mergeL2Table_spec hw ha false hp

end PageTable

end Atmosphere.Kern.Arm64
