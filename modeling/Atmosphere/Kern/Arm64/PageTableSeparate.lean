import Atmosphere.Kern.Arm64.PageTableMerge

/-!
# Separating keeps the translation

`SeparatePages` splits the block around an address until it is no larger than
asked for: a block of one level becomes a table of contiguous groups, and a group
becomes single blocks. If a table page cannot be allocated, what has been split is
merged again. Either way every address keeps its translation, as long as no table
forbids what a block grants: a new table forbids execution by the kernel, and the
kernel's own tables forbid all access from EL0.
-/

namespace Atmosphere.Kern.Arm64

open PageTableEntry

namespace PageTable

variable {c : Config} {t t' u : PageTable} {lvl m : Level} {a b x y p : ℕ} {e : PageTableEntry}

/-! ## Groups -/

/-- The blocks of a group that is split. -/
theorem splitGroup_spec (hw : WellFormed c t) (ha : c.InSpace a) (hp : t.tableAt c lvl a = some p)
    (hb : isBlock lvl (t.entryAt c lvl a) = true) (hc : isContiguous (t.entryAt c lvl a) = true) :
    WellFormed c (t.splitGroup lvl p a) ∧ Remaps c t (t.splitGroup lvl p a) a ∧
      SameTables c t (t.splitGroup lvl p a) ∧
        isBlock lvl ((t.splitGroup lvl p a).entryAt c lvl a) = true ∧
          isContiguous ((t.splitGroup lvl p a).entryAt c lvl a) = false := by
  have hlvl := ne_l1_of_tableAt hp
  have hS : IsLeafSize lvl lvl.contiguousBlockSize := .inr rfl
  have hgroup := hw.groups lvl a ha hb hc
  have hold : MapsRun c t lvl a lvl.contiguousBlockSize
      (alignDown (getBlock lvl (t.entryAt c lvl a)) lvl.contiguousBlockSize)
      (getEntryTemplateForMerge (t.entryAt c lvl a)) := by
    intro x hx
    obtain ⟨hbx, -, htemp, haddr⟩ := hgroup x hx
    refine ⟨hbx, htemp, ?_⟩
    rw [haddr, Nat.add_assoc]
    unfold alignDown
    rw [Nat.mul_comm (_ / lvl.blockSize), mul_div_add_mod hS]
  have htarget : ∀ i < lvl.contiguousBlockSize / lvl.blockSize,
      getEntryTemplateForMerge (t.getEntryFromTable lvl p
        (alignDown a lvl.contiguousBlockSize + lvl.blockSize * i)) =
          getEntryTemplateForMerge (t.entryAt c lvl a) := by
    intro i hi
    have hx : (alignDown a lvl.contiguousBlockSize + lvl.blockSize * i) / lvl.contiguousBlockSize =
        a / lvl.contiguousBlockSize := by
      unfold alignDown
      rw [Nat.mul_comm, Nat.mul_add_div hS.pos, Nat.div_eq_of_lt (hS.mul_lt hi), Nat.add_zero]
    rw [← entryAt_of_tableAt ((tableAt_congr (hS.parent_div_eq hlvl hx)).trans hp)]
    exact (hold _ hx).2.1
  have hrew := rewriteLeaf hw ha hp hS (fun h => by cases lvl <;> cases h)
    (dvd_alignDown (getBlock lvl (t.entryAt c lvl a)) _) (fun x hx => (hold x hx).1)
    fun i hi => BlockArgs.spec (show BlockArgs lvl _ _ 0#64 from
      ⟨(isBlockAddress_getBlock lvl _).alignDown_add lvl.blockSize_dvd_contiguousBlockSize
        (contiguousBlockSize_dvd_48 lvl) (hS.mul_lt hi),
      (isTemplateMask_group lvl i).under_template _, by decide⟩)
      (((isTemplateMask_group lvl i).and_baseMask _).trans (htarget i hi))
      ((isTemplateMask_group lvl i).not_contiguous _) false
  have heq : t.splitGroup lvl p a = t.setTable p (writeEntries lvl
      (alignDown a lvl.contiguousBlockSize)
      (fun i => blockEntry lvl
        (alignDown (getBlock lvl (t.entryAt c lvl a)) lvl.contiguousBlockSize + lvl.blockSize * i)
        (t.getEntryFromTable lvl p (alignDown a lvl.contiguousBlockSize + lvl.blockSize * i) &&&
          groupTemplateMask lvl i) 0#64 false)
      (t.table p) (lvl.contiguousBlockSize / lvl.blockSize)) := by
    unfold splitGroup
    rw [← entryAt_of_tableAt hp]
  rw [← heq] at hrew
  obtain ⟨e, hleaf, hc', -⟩ := hrew.leafAt_self a rfl
  obtain ⟨he, hb'⟩ := leafAt_eq_some_iff.mp hleaf
  exact ⟨hrew.wellFormed, hrew.remaps hS hlvl hold, hrew.tableAt_eq,
    by rw [he]; exact hb', by rw [he]; exact hc'⟩

/-! ## Blocks -/

/-- The write that hangs a page with known entries, none of them a table. -/
theorem slotWrite_of_table (hlvl : lvl ≠ .l1) (ha : c.InSpace a) (hreach : ParentReached c t lvl a)
    (hp : Unused c t p) (hold : isTable (t.entryAt c lvl.parent a) = false)
    (hng : isBlock lvl.parent (t.entryAt c lvl.parent a) = true →
      isContiguous (t.entryAt c lvl.parent a) = false)
    (hcontents : ∀ k < maxPageTableEntries, EntryOk lvl (t.table p k) ∧
      tableOf (t.table p k) = none) :
    SlotWrite c t lvl a (tableEntry p c.isKernel true) := by
  have htable := isTable_tableEntry hp.address c.isKernel true
  have htab := tableOf_tableEntry hp.address c.isKernel true
  refine ⟨hlvl, ha, hreach, ?_, ?_, .table (by cases lvl <;> decide) htable, ?_, hng, ?_⟩
  · rintro rfl x hx hdiv
    have hl1 : isTable (t.entryAt c .l1 x) = false := by
      rw [walk_congr hdiv]
      exact hold
    have hl2 : t.tableAt c .l2 x = none := tableOf_of_not_isTable hl1
    rw [tableAt_eq (by decide), Level.parent, entryAt_eq_zero (by decide) hl2]
    exact tableOf_zero
  · intro q hq
    rw [htab] at hq
    cases hq
    exact ⟨hp.notHangs, fun _ k hk => (hcontents k hk).2⟩
  · intro q hq
    rw [htab] at hq
    cases hq
    exact fun k hk => (hcontents k hk).1
  · intro hb
    rw [isTable_eq_false_of_isBlock hb] at htable
    cases htable

/-- The entries of the table that replaces a block. -/
theorem splitBlock_args (e : PageTableEntry) {i : ℕ}
    (hi : i < lvl.parent.blockSize / lvl.blockSize) :
    BlockArgs lvl (getBlock lvl.parent e + lvl.blockSize * i) (e &&& tableTemplateMask lvl i)
      0#64 := by
  have hphys := isBlockAddress_getBlock lvl.parent e
  have haddr : IsBlockAddress lvl (getBlock lvl.parent e) :=
    ⟨lvl.blockSize_dvd_parent.trans hphys.aligned, hphys.fits⟩
  have hadd := haddr.alignDown_add lvl.blockSize_dvd_parent (parent_blockSize_dvd_48 lvl) (by
      rw [Nat.mul_comm]
      exact (Nat.lt_div_iff_mul_lt_of_dvd lvl.blockSize_pos.ne'
        lvl.blockSize_dvd_parent).mp hi)
  rw [alignDown_of_dvd hphys.aligned] at hadd
  exact ⟨hadd, (isTemplateMask_table lvl i).under_template e, by decide⟩

/-- A table of contiguous groups that maps what the block `e` of the level above maps. -/
def SplitTable (lvl : Level) (e : PageTableEntry) (a : ℕ) (g : ℕ → PageTableEntry) : Prop :=
  ∀ x, SameTable lvl x a →
    isBlock lvl (g (index lvl x)) = true ∧ isContiguous (g (index lvl x)) = true ∧
      getEntryTemplateForMerge (g (index lvl x)) = getEntryTemplateForMerge e ∧
        getBlock lvl (g (index lvl x)) =
          getBlock lvl.parent e + lvl.blockSize * (x % lvl.parent.blockSize / lvl.blockSize)

theorem splitTable_writeEntries (hlvl : lvl ≠ .l1) (e : PageTableEntry) (a : ℕ)
    (f : ℕ → PageTableEntry) :
    SplitTable lvl e a (writeEntries lvl (alignDown a lvl.parent.blockSize)
      (fun i => blockEntry lvl (getBlock lvl.parent e + lvl.blockSize * i)
        (e &&& tableTemplateMask lvl i) 0#64 true) f (lvl.parent.blockSize / lvl.blockSize)) := by
  intro x hx
  rw [writeEntries_run hlvl lvl.blockSize_dvd_parent dvd_rfl hx, if_pos hx]
  have hargs := splitBlock_args e (Nat.div_lt_div_of_lt_of_dvd lvl.blockSize_dvd_parent
    (Nat.mod_lt x lvl.parent.blockSize_pos))
  refine ⟨hargs.isBlock, ?_, ?_, hargs.getBlock⟩
  · rw [hargs.isContiguous, Bool.true_or]
  · rw [hargs.entryTemplate]
    exact (isTemplateMask_table lvl _).and_baseMask e

namespace SplitTable

variable {g : ℕ → PageTableEntry}

variable (h : SplitTable lvl e a g)
include h

theorem isBlock_of_lt (hlvl : lvl ≠ .l1) (ha : c.InSpace a) {k : ℕ} (hk : k < maxPageTableEntries) :
    isBlock lvl (g k) = true := by
  obtain ⟨x, -, hx, rfl⟩ := exists_index hlvl ha hk
  exact (h x hx).1

theorem liveCount_eq (hlvl : lvl ≠ .l1) (ha : c.InSpace a) : liveCount g = maxPageTableEntries := by
  apply liveCount_eq_full
  intro k hk
  exact isEmpty_eq_false_of_isBlock (h.isBlock_of_lt hlvl ha hk)

/-- The groups of the table are full ones. -/
theorem groupAt (hlvl : lvl ≠ .l1)
    (hg : ∀ y, SameTable lvl y a → t.entryAt c lvl y = g (index lvl y)) (hx : SameTable lvl x a) :
    GroupAt c t lvl x := by
  have hS : IsLeafSize lvl lvl.contiguousBlockSize := .inr rfl
  intro y hy
  have hya := (hS.parent_div_eq hlvl hy).trans hx
  obtain ⟨-, -, htempx, haddrx⟩ := h x hx
  obtain ⟨hby, hcy, htempy, haddry⟩ := h y hya
  rw [hg x hx, hg y hya]
  refine ⟨hby, hcy, htempy.trans htempx.symm, ?_⟩
  obtain ⟨k, hk⟩ := (isBlockAddress_getBlock lvl.parent e).aligned
  cases lvl <;>
    simp only [Level.parent, Level.contiguousBlockSize, Level.blockSize, alignDown] at * <;>
      first | omega | exact absurd rfl hlvl

end SplitTable

/-- The block at an address has become a table of smaller ones. -/
structure SplitAt (c : Config) (t t' : PageTable) (lvl : Level) (a p : ℕ) : Prop where
  wellFormed : WellFormed c t'
  remaps : Remaps c t t' a
  tableAt_eq : t'.tableAt c lvl a = some p

/-- A table hung in place of the block whose addresses it maps. -/
theorem hookSplitTable_spec (hs : Shape c t) (hg : Groups c t) (hb : Books c t (some p))
    (hlvl : lvl ≠ .l1) (ha : c.InSpace a)
    (hblock : isBlock lvl.parent (t.entryAt c lvl.parent a) = true)
    (hc : isContiguous (t.entryAt c lvl.parent a) = false)
    (hsplit : SplitTable lvl (t.entryAt c lvl.parent a) a (t.table p))
    (href : t.refCount p = maxPageTableEntries) :
    SplitAt c t (t.setParentEntry c lvl a (tableEntry p c.isKernel true)) lvl a p := by
  obtain ⟨-, hp⟩ := hb.loose_unused p rfl
  have htable := isTable_tableEntry hp.address c.isKernel true
  have htab := tableOf_tableEntry hp.address c.isKernel true
  have hreach : ParentReached c t lvl a := by
    rintro rfl
    exact exists_tableAt (by decide) (ne_zero_of_isBlock hblock)
  have hslot := slotWrite_of_table hlvl ha hreach hp (isTable_eq_false_of_isBlock hblock)
    (fun _ => hc) fun k hk => by
      have hbk := hsplit.isBlock_of_lt hlvl ha hk
      exact ⟨.block hbk fun h => absurd h hlvl, tableOf_of_isBlock hbk⟩
  have hnew : isTable (tableEntry p c.isKernel true) = true →
      ∃ q, IsTableAddress q ∧ tableEntry p c.isKernel true = tableEntry q c.isKernel true :=
    fun _ => ⟨p, hp.address, rfl⟩
  generalize hedef : tableEntry p c.isKernel true = e at hnew htable htab hslot ⊢
  have hpne : lvl ≠ lvl.parent := by
    cases lvl <;> first | exact absurd rfl hlvl | decide
  have hself : ∀ x, SameTable lvl x a →
      (t.setParentEntry c lvl a e).entryAt c lvl x = t.table p (index lvl x) := by
    intro x hx
    rw [(hslot.walk hs (inSpace_of_parent_div_eq ha hx)).2, if_neg fun hin => hpne hin.1,
      if_pos ⟨rfl, hx⟩, htab, Option.elim]
  have hempty : isEmpty e = isEmpty (t.entryAt c lvl.parent a) := by
    rw [isEmpty_eq_false_of_isBlock hblock, isEmpty_eq_false_of_isTable htable]
  have hbooks := setParentEntry_books (c := c) (t := t) lvl a e
  have hwalk : SlotIs c t (t.setParentEntry c lvl a e) lvl a (some p) := by
    intro m x hx
    rw [(hslot.walk hs hx).1, htab]
  have hlive : liveCount (t.table p) = maxPageTableEntries := hsplit.liveCount_eq hlvl ha
  refine ⟨⟨hslot.shape hs, hslot.groups hs hg ?_, ?_⟩, hslot.remaps hs hnew ?_ ?_, ?_⟩
  · intro q _ x hx hdiv _ _
    exact hsplit.groupAt hlvl hself hdiv
  · refine hb.hook hwalk ⟨hbooks.2.1, hbooks.2.2, ?_, fun q hq => hb.spare_setParentEntry ha hq⟩
    intro m x q hx hq hheap
    rw [hbooks.1, liveCount_setParentEntry_same hempty]
    rw [hwalk m x hx] at hq
    split_ifs at hq
    · cases hq
      rw [href, hlive]
    · exact hb.refCount_eq hx hq hheap
  · intro x hR
    rw [hself x hR, isTable_eq_false_of_isBlock (hsplit x hR).1]
  · intro x hR
    obtain ⟨hbx, -, htemp, haddr⟩ := hsplit x hR
    apply mapping_eq_of_block (leafAt_eq_some_iff.mpr ⟨walk_congr hR, hblock⟩)
      (leafAt_eq_some_iff.mpr ⟨hself x hR, hbx⟩) ?_ htemp
    rw [haddr, Nat.add_assoc, ← Nat.mod_mod_of_dvd x lvl.blockSize_dvd_parent, Nat.div_add_mod]
  · rw [hwalk lvl a ha, if_pos ⟨rfl, rfl⟩]

/-- Only the walks matter to the shape and the groups. -/
theorem WellFormed.shape_groups (hw : WellFormed c t) (h : ∀ m x, c.InSpace x →
    t'.tableAt c m x = t.tableAt c m x ∧ t'.entryAt c m x = t.entryAt c m x) :
    Shape c t' ∧ Groups c t' :=
  ⟨hw.toShape.of_walk (fun m x hx => (h m x hx).1) fun m x hx =>
    (h m x hx).2 ▸ hw.entryOk m x hx, hw.groups.congr hw.toShape fun m x hx => (h m x hx).2⟩

/-- A block is replaced by a new table, unless there is no page for the table. -/
theorem splitBlock_spec (reuseLl : Bool) (hw : WellFormed c t) (hlvl : lvl ≠ .l1)
    (ha : c.InSpace a) (he : t.entryAt c lvl.parent a = e) (hblock : isBlock lvl.parent e = true)
    (hc : isContiguous e = false) :
    (∃ t', t.splitBlock c lvl e a reuseLl = .ok (t', none) ∧ WellFormed c t' ∧ Remaps c t t' a) ∨
    ∃ t' p, t.splitBlock c lvl e a reuseLl = .ok (t', some (tableEntry p c.isKernel true)) ∧
      IsTableAddress p ∧ SameTables c t t' ∧
        SplitAt c t (t'.setParentEntry c lvl a (tableEntry p c.isKernel true)) lvl a p := by
  unfold splitBlock
  generalize halloc : t.allocatePageTable reuseLl = r
  obtain ⟨u, o⟩ := r
  obtain ⟨hroot, htable, hbooks, hblank⟩ := allocatePageTable_spec hw.books reuseLl halloc
  have hwalk : ∀ m x, u.tableAt c m x = t.tableAt c m x ∧ u.entryAt c m x = t.entryAt c m x :=
    fun m x => walk_eq_of_tables hroot htable
  obtain ⟨hs, hg⟩ := hw.shape_groups fun m x _ => hwalk m x
  cases o with
  | none =>
    exact .inl ⟨u, rfl, ⟨hs, hg, hbooks⟩, .of_walk a fun m x _ => (hwalk m x).2⟩
  | some p =>
    right
    have hp := hblank p rfl
    have hcount : lvl.parent.blockSize / lvl.blockSize = maxPageTableEntries := by
      cases lvl <;> first | exact absurd rfl hlvl | rfl
    generalize hgdef : writeEntries lvl (alignDown a lvl.parent.blockSize) (fun i => blockEntry lvl
        (getBlock lvl.parent e + lvl.blockSize * i) (e &&& tableTemplateMask lvl i) 0#64 true)
        (u.table p) (lvl.parent.blockSize / lvl.blockSize) = g
    have hsplit : SplitTable lvl e a g := hgdef ▸ splitTable_writeEntries hlvl _ a _
    -- the new table is filled and its entries counted while nothing points to it
    have hopen : (u.setTable p g).openTable p maxPageTableEntries = .ok { u.setTable p g with
        refCount := Function.update u.refCount p maxPageTableEntries } := by
      have hzero : (u.setTable p g).refCount p = 0 := hp.refCount
      rw [openTable, hzero]
      rfl
    have hbooks' := hbooks.setTable_loose g maxPageTableEntries
    generalize hvdef : { u.setTable p g with
      refCount := Function.update u.refCount p maxPageTableEntries } = w at hopen hbooks'
    have hwalk' : ∀ m x, c.InSpace x →
        w.tableAt c m x = t.tableAt c m x ∧ w.entryAt c m x = t.entryAt c m x := by
      intro m x hx
      have h := walk_setTable_of_not_hangs (m := m) (g := g) hp.notHangs hx
      have hsame : w.tableAt c m x = (u.setTable p g).tableAt c m x ∧
          w.entryAt c m x = (u.setTable p g).entryAt c m x :=
        walk_eq_of_tables (by rw [← hvdef]) (by rw [← hvdef])
      rw [hsame.1, hsame.2, h.1, h.2]
      exact hwalk m x
    have hwtable : w.table p = g := by
      rw [← hvdef]
      exact Function.update_self ..
    have hwref : w.refCount p = maxPageTableEntries := by
      rw [← hvdef]
      exact Function.update_self ..
    have hentry := (hwalk' lvl.parent a ha).2.trans he
    obtain ⟨hs', hg'⟩ := hw.shape_groups hwalk'
    have hhooked := @hookSplitTable_spec c _ lvl a _ hs' hg' hbooks'
      hlvl ha (by rw [hentry]; exact hblock) (by rw [hentry]; exact hc)
      (by rw [hentry, hwtable]; exact hsplit) hwref
    refine ⟨w, p, ?_, hp.address, fun m x hx => (hwalk' m x hx).1, { hhooked with
      remaps := (Remaps.of_walk a fun m x hx => (hwalk' m x hx).2).trans hhooked.remaps }⟩
    change ((u.setTable p (writeEntries lvl (alignDown a lvl.parent.blockSize) _ (u.table p)
      (lvl.parent.blockSize / lvl.blockSize))).openTable p
        (lvl.parent.blockSize / lvl.blockSize) >>= _) = _
    rw [hgdef, hcount, hopen]
    rfl

/-! ## `SeparatePages` -/

variable (blockSize : ℕ) (reuseLl : Bool)

section

variable (hw : WellFormed c t) (ha : c.InSpace a)
include hw ha

/-- The part of a separation that deals with an L3 table. -/
theorem separateL3_spec (hp : t.tableAt c .l3 a = some (getTable e)) :
    WellFormed c (t.separateL3 e a blockSize) ∧ Remaps c t (t.separateL3 e a blockSize) a := by
  simp only [separateL3, ← entryAt_of_tableAt hp]
  split_ifs with hsize hcontig
  · exact ⟨hw, .refl c t a⟩
  · rw [Bool.and_eq_true] at hcontig
    obtain ⟨hw', hr, -⟩ := splitGroup_spec hw ha hp hcontig.1 hcontig.2
    exact ⟨hw', hr⟩
  · exact ⟨hw, .refl c t a⟩

/-- The end of a separation of an L2 block that is not part of a group. -/
theorem separateL2Block_spec (hp : t.tableAt c .l2 a = some p)
    (hb : isBlock .l2 (t.entryAt c .l2 a) = true) (hc : isContiguous (t.entryAt c .l2 a) = false) :
    ∃ t' r, (do
        match ← t.splitBlock c .l3 (t.entryAt c .l2 a) a reuseLl with
        | (t, none) => pure (t, .outOfResource)
        | (t, some l2Entry) =>
          let t := t.setEntryInTable .l2 p a l2Entry
          abortUnless (isTable l2Entry || isEmpty l2Entry)
          pure (t.separateL3 l2Entry a blockSize, .success) : Run (PageTable × OperationResult)) =
          .ok (t', r) ∧ WellFormed c t' ∧ Remaps c t t' a := by
  obtain ⟨t', hsplit, hw', hr'⟩ | ⟨t', q, hsplit, haddr, htab, hw', hr', hq⟩ :=
    @splitBlock_spec c t .l3 a (t.entryAt c .l2 a) reuseLl hw (by decide) ha rfl hb hc
  · refine ⟨t', .outOfResource, ?_, hw', hr'⟩
    rw [hsplit]
    rfl
  · have hset := setParentEntry_l3 (e := tableEntry q c.isKernel true) ((htab .l2 a ha).trans hp)
    rw [hset] at hw' hr' hq
    obtain ⟨hw'', hr''⟩ := separateL3_spec (e := tableEntry q c.isKernel true) blockSize
      hw' ha (by rw [getTable_tableEntry haddr]; exact hq)
    refine ⟨_, .success, ?_, hw'', hr'.trans hr''⟩
    rw [hsplit]
    change (abortUnless (isTable (tableEntry q c.isKernel true) || _) >>= _) = _
    rw [isTable_tableEntry haddr]
    rfl

/-- The part of a separation that deals with an L2 table. -/
theorem separateL2_spec (hp : t.tableAt c .l2 a = some (getTable e)) :
    ∃ t' r, t.separateL2 c e a blockSize reuseLl = .ok (t', r) ∧ WellFormed c t' ∧
      Remaps c t t' a := by
  unfold separateL2
  simp only [← entryAt_of_tableAt hp]
  by_cases hsize : Level.l2.contiguousBlockSize ≤ blockSize
  · rw [if_pos hsize]
    exact ⟨t, _, rfl, hw, .refl c t a⟩
  rw [if_neg hsize]
  cases hw.entryOk .l2 a ha with
  | empty h =>
    rw [h]
    exact ⟨t, .success, rfl, hw, .refl c t a⟩
  | block hblock _ =>
    rw [if_pos hblock]
    -- a group is split first
    obtain ⟨u, hu, hwu, hru, hpu, hbu, hcu⟩ : ∃ u,
        (if isContiguous (t.entryAt c .l2 a) = true then t.splitGroup .l2 (getTable e) a
          else t) = u ∧ WellFormed c u ∧ Remaps c t u a ∧
            u.tableAt c .l2 a = some (getTable e) ∧ isBlock .l2 (u.entryAt c .l2 a) = true ∧
              isContiguous (u.entryAt c .l2 a) = false := by
      cases hc : isContiguous (t.entryAt c .l2 a) with
      | true =>
        obtain ⟨hw', hr, htab, hb, hc'⟩ := splitGroup_spec hw ha hp hblock hc
        exact ⟨_, rfl, hw', hr, (htab .l2 a ha).trans hp, hb, hc'⟩
      | false => exact ⟨t, rfl, hw, .refl c t a, hp, hblock, hc⟩
    simp only [hu, ← entryAt_of_tableAt hpu]
    by_cases hsize2 : Level.l2.blockSize ≤ blockSize
    · rw [if_pos hsize2]
      exact ⟨u, _, rfl, hwu, hru⟩
    · rw [if_neg hsize2]
      obtain ⟨t', r, heq, hw', hr'⟩ := separateL2Block_spec blockSize reuseLl hwu ha hpu hbu hcu
      exact ⟨t', r, heq, hw', hru.trans hr'⟩
  | table _ htable =>
    have hp3 : t.tableAt c .l3 a = some (getTable (t.entryAt c .l2 a)) := by
      rw [tableAt_eq (by decide)]
      exact tableOf_eq_some.mpr ⟨htable, rfl⟩
    obtain ⟨hw', hr'⟩ := separateL3_spec blockSize hw ha hp3
    refine ⟨_, .success, ?_, hw', hr'⟩
    rw [isBlock_eq_false_of_isTable htable, htable]
    rfl

/-- `SeparatePagesImpl` keeps what the blocks map. -/
theorem separatePagesImpl_spec : ∃ t' r, t.separatePagesImpl c a blockSize reuseLl = .ok (t', r) ∧
      WellFormed c t' ∧ Remaps c t t' a := by
  have hl1 : t.getL1Entry c a = t.entryAt c .l1 a := rfl
  unfold separatePagesImpl
  simp only [hl1]
  cases hw.entryOk .l1 a ha with
  | empty h =>
    rw [h]
    exact ⟨t, .success, rfl, hw, .refl c t a⟩
  | block hblock hc =>
    rw [if_pos hblock]
    by_cases hsize : Level.l1.blockSize ≤ blockSize
    · rw [if_pos hsize]
      exact ⟨t, _, rfl, hw, .refl c t a⟩
    · rw [if_neg hsize]
      obtain ⟨t', hsplit, hw', hr'⟩ | ⟨t', q, hsplit, haddr, htab, hw', hr', hq⟩ :=
        @splitBlock_spec c t .l2 a (t.entryAt c .l1 a) reuseLl hw (by decide) ha rfl hblock (hc rfl)
      · refine ⟨t', .outOfResource, ?_, hw', hr'⟩
        rw [hsplit]
        rfl
      · obtain ⟨t'', r, heq, hw'', hr''⟩ := separateL2_spec (e := tableEntry q c.isKernel true)
          blockSize reuseLl hw' ha (by rw [getTable_tableEntry haddr]; exact hq)
        refine ⟨t'', r, ?_, hw'', hr'.trans hr''⟩
        rw [hsplit]
        change (abortUnless (isTable (tableEntry q c.isKernel true) || _) >>= _) = _
        rw [isTable_tableEntry haddr]
        exact heq
  | table _ htable =>
    have hp : t.tableAt c .l2 a = some (getTable (t.entryAt c .l1 a)) :=
      tableOf_eq_some.mpr ⟨htable, rfl⟩
    obtain ⟨t', r, heq, hsep⟩ := separateL2_spec blockSize reuseLl hw ha hp
    refine ⟨t', r, ?_, hsep⟩
    rw [isBlock_eq_false_of_isTable htable, htable]
    exact heq

/-- `SeparatePages` keeps the table well formed and what its blocks map. -/
theorem separatePages_spec :
    ∃ t' r, t.separatePages c a blockSize reuseLl = .ok (t', r) ∧ WellFormed c t' ∧
      Remaps c t t' a := by
  obtain ⟨u, r, heq, hwu, hru⟩ := separatePagesImpl_spec blockSize reuseLl hw ha
  unfold separatePages
  rw [heq]
  cases r with
  | success => exact ⟨u, .success, rfl, hwu, hru⟩
  | outOfResource =>
    obtain ⟨t', b, hmerge, hw', hr'⟩ := mergePages_spec hwu ha
    refine ⟨t', .outOfResource, ?_, hw', hru.trans hr'⟩
    change (u.mergePages c a >>= _) = _
    rw [hmerge]
    rfl

end

/-- What merging and separating around `a` keep of the address `x`: where it is mapped and what its
block grants. Its permissions stay too, unless it lies in the gigabyte around `a` and some table
cuts them; and where no table does, none will. -/
structure KeepsMapping (c : Config) (t t' : PageTable) (a x : ℕ) : Prop where
  mapping_eq : t'.mapping c x = t.mapping c x
  translate_eq : (x / Level.l1.blockSize = a / Level.l1.blockSize → t.NotCut c x) →
    t'.translate c x = t.translate c x
  notCut : t.NotCut c x → t'.NotCut c x

theorem Remaps.keepsMapping (h : Remaps c t t' a) (hx : c.InSpace x) : KeepsMapping c t t' a x where
  mapping_eq := h.mapping_eq x hx
  translate_eq := h.translate_eq hx
  notCut := h.notCut hx

/-- Merging and separating around any address leave what every address is mapped to as it was and
the table well formed, with its contiguous groups in order. -/
theorem mergePages_separatePages_translate (hw : WellFormed c t) (ha : c.InSpace a) :
    (∃ t' merged, t.mergePages c a = .ok (t', merged) ∧ WellFormed c t' ∧ Groups c t' ∧
      ∀ x, c.InSpace x → KeepsMapping c t t' a x) ∧
    ∀ blockSize reuseLl, ∃ t' r, t.separatePages c a blockSize reuseLl = .ok (t', r) ∧
      WellFormed c t' ∧ Groups c t' ∧ ∀ x, c.InSpace x → KeepsMapping c t t' a x := by
  constructor
  · obtain ⟨t', b, heq, hw', hr⟩ := mergePages_spec hw ha
    exact ⟨t', b, heq, hw', hw'.groups, fun x hx => hr.keepsMapping hx⟩
  · intro blockSize reuseLl
    obtain ⟨t', r, heq, hw', hr⟩ := separatePages_spec blockSize reuseLl hw ha
    exact ⟨t', r, heq, hw', hw'.groups, fun x hx => hr.keepsMapping hx⟩

/-- A user table whose first `n` entries are blocks, with one page at hand for a table. -/
def rootBlocks (n : ℕ) (attr : BitVec 64) (contig : Bool) : PageTable where
  root := fun k =>
    if k < n then blockEntry .l1 (0x400000000 + 0x40000000 * k) attr 0#64 contig else 0#64
  table := fun _ _ => 0#64
  refCount := fun _ => 0
  supply := [some 0x80000000]
  pageList := []

/-- The user configuration that goes with it. -/
def userConfig : Config where
  isKernel := false
  bits := 9
  bits_le := le_rfl
  isInPageTableHeap := fun p => decide (0x80000000 ≤ p)

/-- One block that the kernel may execute, or may not. -/
theorem wellFormed_rootBlocks {attr : BitVec 64} (h : attr = 1#64 ∨ attr = 0x20000000000001#64) :
    WellFormed userConfig (rootBlocks 1 attr false) := by
  apply wellFormed_of_root
  · intro k
    by_cases hk : k = 0
    · right
      obtain rfl | rfl := h <;> subst hk <;> decide
    · left
      exact if_neg (by omega)
  · rfl
  · exact List.nodup_singleton _
  · intro p hp
    obtain rfl : p = 0x80000000 := by simpa [rootBlocks] using hp
    exact ⟨⟨by decide, by decide⟩, by decide, rfl, fun _ => rfl⟩

theorem mergePages_separatePages_translate_oneBlock :
    WellFormed userConfig (rootBlocks 1 0x20000000000001#64 false) ∧
      userConfig.InSpace 0x200000 ∧
        (rootBlocks 1 0x20000000000001#64 false).NotCut userConfig 0x200000 ∧
      (∃ t' merged, (rootBlocks 1 0x20000000000001#64 false).mergePages userConfig 0x200000 =
          .ok (t', merged) ∧ WellFormed userConfig t' ∧ Groups userConfig t' ∧
        ∀ x, userConfig.InSpace x →
          KeepsMapping userConfig (rootBlocks 1 0x20000000000001#64 false) t' 0x200000 x) ∧
      ∀ blockSize reuseLl, ∃ t' r, (rootBlocks 1 0x20000000000001#64 false).separatePages userConfig
          0x200000 blockSize reuseLl = .ok (t', r) ∧ WellFormed userConfig t' ∧
        Groups userConfig t' ∧ ∀ x, userConfig.InSpace x →
          KeepsMapping userConfig (rootBlocks 1 0x20000000000001#64 false) t' 0x200000 x := by
  have hcut : (rootBlocks 1 0x20000000000001#64 false).NotCut userConfig 0x200000 := by
    intro m hm
    have hmap : (rootBlocks 1 0x20000000000001#64 false).mapping userConfig 0x200000 =
        some (0x400200000, 0x20000000000001#64) := by decide
    cases hmap.symm.trans hm
    refine ⟨?_, by decide⟩
    intro lvl htable
    cases lvl <;> exact absurd htable (by decide)
  exact ⟨wellFormed_rootBlocks (.inr rfl), by decide, hcut,
    mergePages_separatePages_translate (wellFormed_rootBlocks (.inr rfl)) (by decide)⟩

/-- Sixteen L1 blocks with the contiguous bit are a full group. -/
theorem groupAt_rootBlocks : GroupAt userConfig (rootBlocks 16 1#64 true) .l1 0 := by
  intro b hb
  have hlt : b < 16 * 0x40000000 := by
    simp only [Level.contiguousBlockSize, Level.blockSize] at hb
    omega
  have hslot : l1Slot userConfig b = b / 0x40000000 := by
    rw [Config.l1Slot_eq]
    exact Nat.mod_eq_of_lt (by simp only [Level.blockSize, userConfig]; omega)
  have hentry : (rootBlocks 16 1#64 true).entryAt userConfig .l1 b =
      blockEntry .l1 (0x400000000 + 0x40000000 * (b / 0x40000000)) 1#64 0#64 true := by
    change (rootBlocks 16 1#64 true).root (l1Slot userConfig b) = _
    rw [hslot]
    exact if_pos (by omega)
  have hstart : alignDown (b % Level.l1.contiguousBlockSize) Level.l1.blockSize =
      0x40000000 * (b / 0x40000000) := by
    simp only [Level.contiguousBlockSize, Level.blockSize, alignDown]
    omega
  rw [hentry, hstart]
  have hk : b / 0x40000000 < 16 := by omega
  generalize b / 0x40000000 = k at hk
  revert k
  decide

/-- Separating a block that the kernel may execute forbids it, and merging the table allows it
again. And the code takes a block out of a contiguous group of L1 blocks without a look at the
others. -/
theorem separatePages_cuts_execution :
    WellFormed userConfig (rootBlocks 1 1#64 false) ∧
      (rootBlocks 1 1#64 false).translate userConfig 0 = some (0x400000000, 1#64) ∧
      (((rootBlocks 1 1#64 false).separatePages userConfig 0 Level.l2.contiguousBlockSize
        true).toOption.map fun r => r.1.translate userConfig 0) =
          some (some (0x400000000, 0x20000000000001#64)) ∧
      (((rootBlocks 1 1#64 false).separatePages userConfig 0 Level.l2.contiguousBlockSize
        true >>= fun r => r.1.mergePages userConfig 0).toOption.map fun r =>
          r.1.translate userConfig 0) = some (some (0x400000000, 1#64)) ∧
      GroupAt userConfig (rootBlocks 16 1#64 true) .l1 0 ∧
      (((rootBlocks 16 1#64 true).separatePages userConfig 0 Level.l2.contiguousBlockSize
        true).toOption.map fun r => (isBlock .l1 (r.1.entryAt userConfig .l1 0),
          isContiguous (r.1.entryAt userConfig .l1 0x40000000))) = some (false, true) := by
  refine ⟨wellFormed_rootBlocks (.inl rfl), by decide, by decide +kernel, by decide +kernel,
    groupAt_rootBlocks, by decide +kernel⟩

end PageTable

end Atmosphere.Kern.Arm64
