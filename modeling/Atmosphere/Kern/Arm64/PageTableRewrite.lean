import Atmosphere.Kern.Arm64.PageTableInvariant

/-!
# Rewriting the entries of one table

The loops of the page table write runs of entries of one table. This module gives
the contents that such a loop leaves, and what it takes for a table with rewritten
entries to stay well formed: blocks that stay blocks keep the shape and the books,
and a contiguous group survives if it is rewritten as a whole or not at all.
-/

namespace Atmosphere.Kern.Arm64

open PageTableEntry
open Function (update update_self update_of_ne)

namespace PageTable

variable {c : Config} {t t' : PageTable} {lvl m : Level} {a x p v n : ℕ} {e : PageTableEntry}
  {f g value : ℕ → PageTableEntry} {loose : Option ℕ}

/-- What a loop of writes leaves at the addresses of its table. -/
theorem writeEntries_index (hlvl : lvl ≠ .l1) (hv : lvl.blockSize ∣ v)
    (hfit : v % lvl.parent.blockSize + lvl.blockSize * n ≤ lvl.parent.blockSize)
    (hx : SameTable lvl x v) :
    writeEntries lvl v value f n (index lvl x) =
      if v ≤ x ∧ x < v + lvl.blockSize * n then value ((x - v) / lvl.blockSize)
      else f (index lvl x) := by
  induction n with
  | zero =>
    rw [if_neg (by omega)]
    rfl
  | succ n ih =>
    have hih := ih (by rw [Nat.mul_add] at hfit; omega)
    unfold writeEntries
    by_cases hlast : index lvl x = index lvl (v + lvl.blockSize * n)
    · rw [hlast, update_self]
      have hx' : x / lvl.blockSize = (v + lvl.blockSize * n) / lvl.blockSize := by
        apply div_eq_of_index_eq hlvl _ hlast
        rw [hx]
        cases lvl <;> simp only [Level.parent, Level.blockSize] at * <;> omega
      have hin : v ≤ x ∧ x < v + lvl.blockSize * (n + 1) ∧ (x - v) / lvl.blockSize = n := by
        cases lvl <;> simp only [Level.parent, Level.blockSize] at * <;> omega
      rw [if_pos ⟨hin.1, hin.2.1⟩, hin.2.2]
    · rw [update_of_ne hlast, hih]
      have hiff : (v ≤ x ∧ x < v + lvl.blockSize * n) ↔
          (v ≤ x ∧ x < v + lvl.blockSize * (n + 1)) := by
        constructor
        · rw [Nat.mul_add]
          omega
        · intro h
          refine ⟨h.1, ?_⟩
          by_contra hge
          apply hlast
          apply index_congr
          cases lvl <;> simp only [Level.parent, Level.blockSize] at * <;> omega
      simp only [hiff]

/-- The sizes that a block of a level can have. -/
def IsLeafSize (lvl : Level) (S : ℕ) : Prop := S = lvl.blockSize ∨ S = lvl.contiguousBlockSize

namespace IsLeafSize

variable {S : ℕ}

variable (h : IsLeafSize lvl S)
include h

theorem blockSize_dvd : lvl.blockSize ∣ S := by
  obtain rfl | rfl := h
  · exact dvd_rfl
  · exact lvl.blockSize_dvd_contiguousBlockSize

theorem pos : 0 < S := by
  obtain rfl | rfl := h
  · exact lvl.blockSize_pos
  · exact lvl.contiguousBlockSize_pos

theorem dvd_parent (hlvl : lvl ≠ .l1) : S ∣ lvl.parent.blockSize := by
  have hdvd := Level.contiguousBlockSize_dvd_parent hlvl
  obtain rfl | rfl := h
  · exact lvl.blockSize_dvd_contiguousBlockSize.trans hdvd
  · exact hdvd

/-- The number of an address in its leaf. -/
theorem index_lt (x : ℕ) : x % S / lvl.blockSize < S / lvl.blockSize :=
  Nat.div_lt_div_of_lt_of_dvd h.blockSize_dvd (Nat.mod_lt _ h.pos)

theorem mul_lt {i : ℕ} (hi : i < S / lvl.blockSize) : lvl.blockSize * i < S := by
  rw [Nat.mul_comm]
  exact (Nat.lt_div_iff_mul_lt_of_dvd lvl.blockSize_pos.ne' h.blockSize_dvd).mp hi

/-- A leaf lies below one table. -/
theorem parent_div_eq (hlvl : lvl ≠ .l1) (hx : x / S = a / S) : SameTable lvl x a :=
  AlignedBlock.div_eq_of_dvd (h.dvd_parent hlvl) hx

end IsLeafSize

/-- A loop over an aligned run of entries around an address. -/
theorem writeEntries_run {S : ℕ} (hlvl : lvl ≠ .l1) (hS : lvl.blockSize ∣ S)
    (hP : S ∣ lvl.parent.blockSize) (hx : SameTable lvl x a) :
    writeEntries lvl (alignDown a S) value f (S / lvl.blockSize) (index lvl x) =
      if x / S = a / S then value (x % S / lvl.blockSize) else f (index lvl x) := by
  have hpos : 0 < S := Nat.pos_of_dvd_of_pos hP lvl.parent.blockSize_pos
  rw [writeEntries_index hlvl]
  · rw [Nat.mul_div_cancel' hS]
    have hiff : (alignDown a S ≤ x ∧ x < alignDown a S + S) ↔ x / S = a / S :=
      (AlignedBlock.div_eq_iff hpos).symm
    simp only [hiff]
    split_ifs with h
    · unfold alignDown
      rw [← h, Nat.sub_eq_of_eq_add]
      rw [Nat.mul_comm]
      exact (Nat.mod_add_div x S).symm
    · rfl
  · exact hS.trans (dvd_alignDown _ _)
  · rw [Nat.mul_div_cancel' hS]
    exact AlignedBlock.mod_add_le hP lvl.parent.blockSize_pos (dvd_alignDown _ _)
  · refine Eq.trans hx (AlignedBlock.div_eq_of_dvd hP ?_).symm
    exact Nat.mul_div_cancel _ hpos

theorem inSpace_of_parent_div_eq (ha : c.InSpace a) (h : SameTable lvl x a) : c.InSpace x :=
  ha.of_div_eq (AlignedBlock.div_eq_of_dvd (by cases lvl <;> decide) h)

/-- Every index of a table is the index of some address below the table. -/
theorem exists_index {k : ℕ} (hlvl : lvl ≠ .l1) (ha : c.InSpace a) (hk : k < maxPageTableEntries) :
    ∃ x, c.InSpace x ∧ SameTable lvl x a ∧ index lvl x = k := by
  have hx : SameTable lvl (alignDown a lvl.parent.blockSize + lvl.blockSize * k) a ∧
      index lvl (alignDown a lvl.parent.blockSize + lvl.blockSize * k) = k := by
    unfold SameTable index maxPageTableEntries at *
    cases lvl <;> simp only [Level.parent, Level.blockSize, alignDown] at * <;>
      first | omega | exact absurd rfl hlvl
  exact ⟨_, inSpace_of_parent_div_eq ha hx.1, hx⟩

/-- What the groups need to survive: each is left alone, or rewritten as a whole into a group. -/
theorem Groups.of_change {C : Level → ℕ → Prop} (hs : Shape c t) (hg : Groups c t)
    (hent : ∀ m x, c.InSpace x → ¬ C m x → t'.entryAt c m x = t.entryAt c m x)
    (hclosed : ∀ m x y, c.InSpace x → ¬ C m x → C m y →
      y / m.contiguousBlockSize = x / m.contiguousBlockSize →
        isBlock m (t.entryAt c m x) = true → isContiguous (t.entryAt c m x) = false)
    (hchanged : ∀ m x, c.InSpace x → C m x → isBlock m (t'.entryAt c m x) = true →
      isContiguous (t'.entryAt c m x) = true → GroupAt c t' m x) : Groups c t' := by
  intro m x hx hb hc
  by_cases hC : C m x
  · exact hchanged m x hx hC hb hc
  · rw [hent m x hx hC] at hb hc
    intro y hy
    have hm : m ≠ .l1 := by
      rintro rfl
      cases hs.entryOk .l1 x hx with
      | empty h => rw [h] at hb; simp at hb
      | block _ hl1 => rw [hl1 rfl] at hc; cases hc
      | table _ h => rw [isTable_eq_false_of_isBlock hb] at h; cases h
    have hyx : c.InSpace y :=
      inSpace_of_parent_div_eq hx (IsLeafSize.parent_div_eq (.inr rfl) hm hy)
    have hCy : ¬ C m y := by
      intro h
      rw [hclosed m x y hx hC h hy hb] at hc
      cases hc
    rw [hent m x hx hC, hent m y hyx hCy]
    exact hg m x hx hb hc y hy

/-- Blocks of one table rewritten as blocks. -/
structure BlockRewrite (c : Config) (t : PageTable) (lvl : Level) (a p : ℕ)
    (g : ℕ → PageTableEntry) (R : ℕ → Prop) : Prop where
  inSpace : c.InSpace a
  table : t.tableAt c lvl a = some p
  old : ∀ x, c.InSpace x → SameTable lvl x a → R x →
    isBlock lvl (t.entryAt c lvl x) = true
  new : ∀ x, c.InSpace x → SameTable lvl x a → R x →
    isBlock lvl (g (index lvl x)) = true
  rest : ∀ x, c.InSpace x → SameTable lvl x a → ¬ R x →
    g (index lvl x) = t.entryAt c lvl x

namespace BlockRewrite

variable {R : ℕ → Prop}

variable (hr : BlockRewrite c t lvl a p g R)
include hr

theorem entryAt_eq (hx : SameTable lvl x a) : t.entryAt c lvl x = t.table p (index lvl x) := by
  have htable : t.tableAt c lvl x = some p := (tableAt_congr hx).trans hr.table
  exact entryAt_of_tableAt htable

theorem keepsTables : KeepsTables c t lvl a g := by
  rintro rfl x hx hdiv
  rw [tableAt_eq (by decide), Level.parent]
  by_cases hR : R x
  · rw [tableOf_of_isBlock (hr.old x hx hdiv hR), tableOf_of_isBlock (hr.new x hx hdiv hR)]
  · rw [hr.rest x hx hdiv hR]

/-- The entries of the rewritten table and of the others. -/
theorem walk (hs : Shape c t) (hx : c.InSpace x) :
    (t.setTable p g).tableAt c m x = t.tableAt c m x ∧ (t.setTable p g).entryAt c m x =
        if m = lvl ∧ SameTable lvl x a then g (index lvl x)
        else t.entryAt c m x :=
  walk_setTable hs hr.inSpace hr.table hr.keepsTables hx

theorem entryAt_of_not (hs : Shape c t) (hx : c.InSpace x)
    (h : ¬ (m = lvl ∧ SameTable lvl x a ∧ R x)) :
    (t.setTable p g).entryAt c m x = t.entryAt c m x := by
  rw [(hr.walk hs hx).2]
  split_ifs with hin
  · obtain ⟨rfl, hdiv⟩ := hin
    exact hr.rest x hx hdiv fun hR => h ⟨rfl, hdiv, hR⟩
  · rfl

theorem shape (hs : Shape c t) : Shape c (t.setTable p g) := by
  apply hs.setTable hr.inSpace hr.table hr.keepsTables
  intro x hx hdiv
  by_cases hR : R x
  · exact .block (hr.new x hx hdiv hR) fun h => absurd h (ne_l1_of_tableAt hr.table)
  · rw [hr.rest x hx hdiv hR]
    exact hs.entryOk lvl x hx

/-- The same entries are in use as before. -/
theorem liveCount_eq : liveCount g = liveCount (t.table p) := by
  apply liveCount_congr
  intro k hk
  obtain ⟨x, hx, hdiv, rfl⟩ := exists_index (ne_l1_of_tableAt hr.table) hr.inSpace hk
  by_cases hR : R x
  · rw [isEmpty_eq_false_of_isBlock (hr.new x hx hdiv hR), ← hr.entryAt_eq hdiv,
      isEmpty_eq_false_of_isBlock (hr.old x hx hdiv hR)]
  · rw [hr.rest x hx hdiv hR, hr.entryAt_eq hdiv]

theorem books (hs : Shape c t) (hb : Books c t loose) : Books c (t.setTable p g) loose := by
  have h := hb.setTable hs hr.inSpace hr.table hr.keepsTables fun hheap =>
    (hb.refCount_eq hr.inSpace hr.table hheap).trans hr.liveCount_eq.symm
  rwa [Function.update_eq_self] at h

/-- The rewritten table is well formed if its groups are. -/
theorem wellFormed (hw : WellFormed c t) (hg : Groups c (t.setTable p g)) :
    WellFormed c (t.setTable p g) where
  toShape := hr.shape hw.toShape
  groups := hg
  books := hr.books hw.toShape hw.books

end BlockRewrite

/-! ## A new entry above a table -/

/-- The entry above the tables of level `lvl` around `a` is replaced by `e`. -/
structure SlotWrite (c : Config) (t : PageTable) (lvl : Level) (a : ℕ) (e : PageTableEntry) :
    Prop where
  ne_l1 : lvl ≠ .l1
  inSpace : c.InSpace a
  reached : ParentReached c t lvl a
  below : NoTablesBelow c t lvl a
  hangable : Hangable c t lvl e
  entryOk : EntryOk lvl.parent e
  contents : ∀ p, tableOf e = some p → ∀ k < maxPageTableEntries, EntryOk lvl (t.table p k)
  /-- The old entry is not part of a group, and the new one is not either. -/
  notGroup : isBlock lvl.parent (t.entryAt c lvl.parent a) = true →
    isContiguous (t.entryAt c lvl.parent a) = false
  notGroup_new : isBlock lvl.parent e = true → isContiguous e = false

namespace SlotWrite

variable (h : SlotWrite c t lvl a e)
include h

variable (hs : Shape c t)
include hs

/-- The walks after the write. -/
theorem walk (hx : c.InSpace x) : WalksBy c t (t.setParentEntry c lvl a e) lvl a e m x := by
  cases lvl with
  | l1 => exact absurd rfl h.ne_l1
  | l2 => exact walk_setL1Entry h.inSpace h.below h.hangable hx
  | l3 =>
    obtain ⟨q, hq⟩ := h.reached rfl
    rw [setParentEntry_l3 hq]
    exact walk_setL2Entry hs h.inSpace hq h.hangable hx

theorem entryAt_of_not (hx : c.InSpace x) (hne : ¬ SameTable lvl x a) :
    (t.setParentEntry c lvl a e).entryAt c m x = t.entryAt c m x := by
  rw [(h.walk hs hx).2, if_neg fun hin => hne hin.2, if_neg fun hin => hne hin.2]

theorem leafAt_of_not (hx : c.InSpace x) (hne : ¬ SameTable lvl x a) :
    (t.setParentEntry c lvl a e).leafAt c x = t.leafAt c x :=
  leafAt_congr fun _ => h.entryAt_of_not hs hx hne

theorem shape : Shape c (t.setParentEntry c lvl a e) := by
  apply hs.of_slot (fun m x hx => (h.walk hs hx).1)
  · exact fun q hq => (h.hangable q hq).1
  · intro m x hx
    rw [(h.walk hs hx).2]
    split_ifs with h1 h2
    · rw [h1.1]
      exact h.entryOk
    · rw [h2.1]
      cases hp : tableOf e with
      | none => exact .empty rfl
      | some p => exact h.contents p hp _ (index_lt _ _)
    · exact hs.entryOk m x hx

/-- The groups survive if those of a table that is hung are in order. -/
theorem groups (hg : Groups c t) (hnew : ∀ p, tableOf e = some p → ∀ x, c.InSpace x →
      SameTable lvl x a → isBlock lvl ((t.setParentEntry c lvl a e).entryAt c lvl x) = true →
          isContiguous ((t.setParentEntry c lvl a e).entryAt c lvl x) = true →
            GroupAt c (t.setParentEntry c lvl a e) lvl x) :
    Groups c (t.setParentEntry c lvl a e) := by
  have hpne : lvl.parent ≠ lvl := by
    have := h.ne_l1
    cases lvl <;> simp_all [Level.parent]
  apply hg.of_change hs (C := fun m x => (m = lvl.parent ∨ m = lvl) ∧ SameTable lvl x a)
  · intro m x hx hC
    rw [(h.walk hs hx).2, if_neg fun hin => hC ⟨.inl hin.1, hin.2⟩,
      if_neg fun hin => hC ⟨.inr hin.1, hin.2⟩]
  · rintro m x y hx hC ⟨hm, hy⟩ hyx hb
    obtain rfl | rfl := hm
    · by_contra hc
      rw [Bool.not_eq_false] at hc
      have hgroup := hg _ x hx hb hc y hyx
      rw [walk_congr hy] at hgroup
      rw [h.notGroup hgroup.1] at hgroup
      exact absurd hgroup.2.1 (by decide)
    · have hsize : IsLeafSize m m.contiguousBlockSize := .inr rfl
      exact absurd ⟨.inr rfl, (hsize.parent_div_eq h.ne_l1 hyx.symm).trans hy⟩ hC
  · rintro m x hx ⟨hm, hxa⟩ hb hc
    obtain rfl | rfl := hm
    · rw [(h.walk hs hx).2, if_pos ⟨rfl, hxa⟩] at hb hc
      rw [h.notGroup_new hb] at hc
      cases hc
    · cases hp : tableOf e with
      | none =>
        rw [(h.walk hs hx).2, if_neg fun hin => hpne hin.1.symm, if_pos ⟨rfl, hxa⟩, hp] at hb
        simp at hb
      | some p => exact hnew p hp x hx hxa hb hc

end SlotWrite

/-- An entry replaced by one that is in use if the old one was. -/
theorem liveCount_setParentEntry_same
    (hempty : isEmpty e = isEmpty (t.entryAt c lvl.parent a)) (q : ℕ) :
    liveCount ((t.setParentEntry c lvl a e).table q) = liveCount (t.table q) := by
  by_cases h : lvl = .l3 ∧ t.tableAt c .l2 a = some q
  · obtain ⟨rfl, hq⟩ := h
    have hupdate := @liveCount_update (t.table q) _ e (index_lt .l2 a)
    rw [hempty, Level.parent, entryAt_of_tableAt hq] at hupdate
    rw [setParentEntry_table, if_pos ⟨rfl, hq⟩]
    exact Nat.add_right_cancel hupdate
  · rw [setParentEntry_table, if_neg h]

theorem Books.spare_setParentEntry (hb : Books c t loose) (ha : c.InSpace a) {q : ℕ}
    (hq : q ∈ t.spares) :
    (t.setParentEntry c lvl a e).refCount q = t.refCount q ∧
      (t.setParentEntry c lvl a e).table q = t.table q := by
  rw [(setParentEntry_books lvl a e).1, setParentEntry_table,
    if_neg fun hc => (hb.blank q hq).notHangs (Hangs.intro ha hc.2)]
  exact ⟨rfl, rfl⟩

/-- The same walks have the same groups. -/
theorem Groups.congr (hs : Shape c t) (hg : Groups c t)
    (hent : ∀ m x, c.InSpace x → t'.entryAt c m x = t.entryAt c m x) : Groups c t' :=
  hg.of_change hs (C := fun _ _ => False) (fun m x hx _ => hent m x hx)
    (fun _ _ _ _ _ h => h.elim) (fun _ _ _ h => h.elim)

/-- A table that nothing points to any more is given back. -/
theorem discardTable_spec (hs : Shape c t) (hg : Groups c t)
    (hb : Books c t (if c.isInPageTableHeap p then some p else none))
    (hp : ¬ t.Hangs c p)
    (href : c.isInPageTableHeap p = true → t.refCount p = maxPageTableEntries) :
    ∃ t', t.discardTable c p = .ok t' ∧ WellFormed c t' ∧ ∀ m x, c.InSpace x →
      t'.tableAt c m x = t.tableAt c m x ∧ t'.entryAt c m x = t.entryAt c m x := by
  unfold discardTable
  cases hheap : c.isInPageTableHeap p with
  | false =>
    rw [hheap] at hb
    exact ⟨t, rfl, ⟨hs, hg, hb⟩, fun m x hx => ⟨rfl, rfl⟩⟩
  | true =>
    rw [hheap] at hb
    have hclose : t.closeTable p maxPageTableEntries =
        .ok ({ t with refCount := update t.refCount p 0 }, true) := by
      unfold closeTable
      rw [href hheap]
      rfl
    have hbooks := (hb.setTable_loose (fun _ => 0#64) 0).freePageTable (update_self ..) fun k => by
        change update t.table p (fun _ => 0#64) p k = 0#64
        rw [update_self]
    let t' := PageTable.freePageTable { t.setTable p (fun _ => 0#64) with
      refCount := update t.refCount p 0 } p
    have hwalk : ∀ m x, c.InSpace x →
        t'.tableAt c m x = t.tableAt c m x ∧ t'.entryAt c m x = t.entryAt c m x := by
      intro m x hx
      have h := walk_setTable_of_not_hangs (m := m) (g := fun _ => 0#64) hp hx
      rw [← h.1, ← h.2]
      exact walk_eq_of_tables rfl rfl
    refine ⟨t', by simp only [hclose]; rfl, ⟨?_, ?_, hbooks⟩, hwalk⟩
    · exact hs.of_walk (fun m x hx => (hwalk m x hx).1) fun m x hx => by
        rw [(hwalk m x hx).2]
        exact hs.entryOk m x hx
    · exact hg.congr hs fun m x hx => (hwalk m x hx).2

end PageTable

end Atmosphere.Kern.Arm64
