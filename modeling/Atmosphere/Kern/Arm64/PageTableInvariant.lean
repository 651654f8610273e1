import Atmosphere.Kern.Arm64.PageTableView

/-!
# Well-formed page tables

Three things make a page table well formed. Its shape: every entry is empty, a
block, or points to a table, and no two places point to the same table. Its
contiguous groups: an entry with the contiguous bit belongs to an aligned full
group that maps an aligned physical run with equal attributes. And its books: the
manager counts the entries of every table in its heap, and the pages that an
allocation could return are empty and in no use.

The rest of the module says what the two kinds of writes do to the walks: new
contents for a table, and a new entry that hangs a table below it or takes one away.
-/

namespace Atmosphere.Kern.Arm64

open PageTableEntry
open Function (update update_self update_of_ne)
open Finset

/-- What an entry of a level may be. L1 entries are never contiguous. -/
inductive EntryOk (lvl : Level) (e : PageTableEntry) : Prop
  | empty (h : e = 0#64)
  | block (h : isBlock lvl e = true) (hl1 : lvl = .l1 → isContiguous e = false)
  | table (hl3 : lvl ≠ .l3) (h : isTable e = true)

namespace EntryOk

variable {lvl : Level} {e : PageTableEntry}

/-- The abort checks for corrupted entries do not fire. -/
theorem known (h : EntryOk lvl e) : (isBlock lvl e || isEmpty e || isTable e) = true := by
  cases h with
  | empty h => subst h; simp
  | block h _ | table _ h => simp [h]

end EntryOk

/-- The number of entries of a table that are not empty. -/
def liveCount (contents : ℕ → PageTableEntry) : ℕ :=
  ((range maxPageTableEntries).filter fun k => isEmpty (contents k) = false).card

variable {f : ℕ → PageTableEntry}

theorem liveCount_congr {g : ℕ → PageTableEntry}
    (h : ∀ k < maxPageTableEntries, isEmpty (f k) = isEmpty (g k)) : liveCount f = liveCount g := by
  apply congrArg card
  apply filter_congr
  intro k hk
  rw [h k (mem_range.mp hk)]

theorem liveCount_eq_full (h : ∀ k < maxPageTableEntries, isEmpty (f k) = false) :
    liveCount f = maxPageTableEntries := by
  unfold liveCount
  rw [filter_true_of_mem fun k hk => h k (mem_range.mp hk), card_range]

/-- One entry written. -/
theorem liveCount_update {k : ℕ} {e : PageTableEntry} (hk : k < maxPageTableEntries) :
    liveCount (update f k e) + (if isEmpty (f k) then 0 else 1) =
      liveCount f + (if isEmpty e then 0 else 1) := by
  have hmem : k ∈ range maxPageTableEntries := mem_range.mpr hk
  have hrest : ∀ i ∈ (range maxPageTableEntries).erase k,
      (if isEmpty (update f k e i) = false then 1 else 0) =
        (if isEmpty (f i) = false then 1 else 0) := by
    intro i hi
    rw [update_of_ne (ne_of_mem_erase hi)]
  unfold liveCount
  rw [card_filter, card_filter, ← add_sum_erase _ _ hmem,
    ← add_sum_erase _ (fun i => if isEmpty (f i) = false then 1 else 0) hmem,
    sum_congr rfl hrest, update_self]
  have hused : ∀ e : PageTableEntry,
      (if isEmpty e = false then 1 else 0) = if isEmpty e then 0 else 1 := by
    intro e
    cases isEmpty e <;> rfl
  rw [hused, hused]
  omega

namespace PageTable

/-- The page holds a table that some walk goes through. -/
def Hangs (c : Config) (t : PageTable) (p : ℕ) : Prop :=
  ∃ lvl a, c.InSpace a ∧ t.tableAt c lvl a = some p

/-- The pages that an allocation could return. -/
def spares (t : PageTable) : List ℕ := t.pageList ++ t.supply.reduceOption

/-- Entries of known kinds, in tables that are each reached from one place. -/
structure Shape (c : Config) (t : PageTable) : Prop where
  entryOk : ∀ lvl a, c.InSpace a → EntryOk lvl (t.entryAt c lvl a)
  distinct : ∀ {lvl lvl' a b p}, c.InSpace a → c.InSpace b → t.tableAt c lvl a = some p →
    t.tableAt c lvl' b = some p → lvl = lvl' ∧ a / lvl.parent.blockSize = b / lvl.parent.blockSize

/-- The entries of the group around the address form a full contiguous group. It starts at a
multiple of its size, both in the address space and in physical memory. -/
def GroupAt (c : Config) (t : PageTable) (lvl : Level) (a : ℕ) : Prop :=
  ∀ b, b / lvl.contiguousBlockSize = a / lvl.contiguousBlockSize →
    isBlock lvl (t.entryAt c lvl b) = true ∧ isContiguous (t.entryAt c lvl b) = true ∧
      getEntryTemplateForMerge (t.entryAt c lvl b) = getEntryTemplateForMerge (t.entryAt c lvl a) ∧
        getBlock lvl (t.entryAt c lvl b) =
          alignDown (getBlock lvl (t.entryAt c lvl a)) lvl.contiguousBlockSize +
            alignDown (b % lvl.contiguousBlockSize) lvl.blockSize

/-- An entry with the contiguous bit belongs to a full group. -/
def Groups (c : Config) (t : PageTable) : Prop :=
  ∀ lvl a, c.InSpace a → isBlock lvl (t.entryAt c lvl a) = true →
    isContiguous (t.entryAt c lvl a) = true → GroupAt c t lvl a

/-- A page that can become a table: known to the manager and in no use. -/
structure Unused (c : Config) (t : PageTable) (p : ℕ) : Prop where
  address : IsTableAddress p
  inHeap : c.isInPageTableHeap p = true
  notHangs : ¬ t.Hangs c p

/-- An unused page that is also empty and has no references. -/
structure Blank (c : Config) (t : PageTable) (p : ℕ) : Prop extends Unused c t p where
  refCount : t.refCount p = 0
  contents : ∀ k, t.table p k = 0#64

/-- The books of the manager. A `loose` page has been allocated and is not yet, or no longer, in
the table. -/
structure Books (c : Config) (t : PageTable) (loose : Option ℕ) : Prop where
  refCount_eq : ∀ {lvl a p}, c.InSpace a → t.tableAt c lvl a = some p →
    c.isInPageTableHeap p = true → t.refCount p = liveCount (t.table p)
  spares_nodup : t.spares.Nodup
  blank : ∀ p ∈ t.spares, t.Blank c p
  loose_unused : ∀ p, loose = some p → p ∉ t.spares ∧ t.Unused c p

/-- A page table as the kernel keeps it between operations. -/
structure WellFormed (c : Config) (t : PageTable) : Prop extends Shape c t where
  groups : Groups c t
  books : Books c t none

variable {c : Config} {t : PageTable} {lvl m : Level} {a b x p : ℕ} {e : PageTableEntry}
  {g : ℕ → PageTableEntry} {loose : Option ℕ}

theorem Hangs.intro (ha : c.InSpace a) (h : t.tableAt c lvl a = some p) : t.Hangs c p :=
  ⟨lvl, a, ha, h⟩

/-! ## Walks after a write -/

variable {t' : PageTable} {q : ℕ} {o : Option ℕ}

/-- Only the tables matter to a walk. -/
theorem walk_eq_of_tables (hroot : t'.root = t.root) (htable : t'.table = t.table) :
    t'.tableAt c m x = t.tableAt c m x ∧ t'.entryAt c m x = t.entryAt c m x := by
  have h1 : t'.getL1Entry c x = t.getL1Entry c x := by
    unfold getL1Entry
    rw [hroot]
  have h2 : ∀ lvl p, t'.getEntryFromTable lvl p x = t.getEntryFromTable lvl p x := by
    intro lvl p
    unfold getEntryFromTable
    rw [htable]
  cases m <;> simp only [tableAt, entryAt, h1, h2, and_self]

theorem getEntryFromTable_setTable_of_ne (h : q ≠ p) :
    (t.setTable p g).getEntryFromTable lvl q a = t.getEntryFromTable lvl q a := by
  simp [getEntryFromTable, setTable, h]

/-- New contents show in the walks that go through the page. -/
theorem entryAt_setTable (hm : m ≠ .l1) (htab : (t.setTable p g).tableAt c m x = t.tableAt c m x) :
    (t.setTable p g).entryAt c m x =
      if t.tableAt c m x = some p then g (index m x) else t.entryAt c m x := by
  cases hq : t.tableAt c m x with
  | none => rw [entryAt_eq_zero hm (htab.trans hq), entryAt_eq_zero hm hq, if_neg (by simp)]
  | some q =>
    rw [entryAt_of_tableAt (htab.trans hq), entryAt_of_tableAt hq]
    by_cases hqp : q = p
    · rw [hqp]
      simp [getEntryFromTable, setTable]
    · rw [if_neg fun h => hqp (Option.some.inj h), getEntryFromTable_setTable_of_ne hqp]

/-- New contents for a page outside the table do not show. -/
theorem walk_setTable_of_not_hangs (hp : ¬ t.Hangs c p) (hx : c.InSpace x) :
    (t.setTable p g).tableAt c m x = t.tableAt c m x ∧
      (t.setTable p g).entryAt c m x = t.entryAt c m x := by
  have hne : ∀ k, t.tableAt c k x ≠ some p := fun k hk => hp (Hangs.intro hx hk)
  have ht2 : (t.setTable p g).tableAt c .l2 x = t.tableAt c .l2 x := rfl
  have he2 := (entryAt_setTable (by decide) ht2).trans (if_neg (hne .l2))
  have ht3 : (t.setTable p g).tableAt c .l3 x = t.tableAt c .l3 x := by
    rw [tableAt_eq (by decide), tableAt_eq (by decide), Level.parent, he2]
  cases m with
  | l1 => exact ⟨rfl, rfl⟩
  | l2 => exact ⟨ht2, he2⟩
  | l3 => exact ⟨ht3, (entryAt_setTable (by decide) ht3).trans (if_neg (hne .l3))⟩

/-- The new contents of an L2 table point to the same tables as before. -/
def KeepsTables (c : Config) (t : PageTable) (lvl : Level) (a : ℕ) (g : ℕ → PageTableEntry) :
    Prop :=
  lvl = .l2 → ∀ x, c.InSpace x → x / Level.l1.blockSize = a / Level.l1.blockSize →
    tableOf (g (index .l2 x)) = t.tableAt c .l3 x

/-- The walks to `x` and to `a` go through one table of the level. -/
abbrev SameTable (lvl : Level) (x a : ℕ) : Prop :=
  x / lvl.parent.blockSize = a / lvl.parent.blockSize

/-- A walk goes through `p` exactly below the place where it hangs. -/
theorem Shape.tableAt_eq_some_iff (hs : Shape c t) (ha : c.InSpace a)
    (hp : t.tableAt c lvl a = some p) (hx : c.InSpace x) :
    t.tableAt c m x = some p ↔ m = lvl ∧ SameTable lvl x a := by
  constructor
  · intro hq
    obtain ⟨rfl, hdiv⟩ := hs.distinct hx ha hq hp
    exact ⟨rfl, hdiv⟩
  · rintro ⟨rfl, hdiv⟩
    rw [tableAt_congr hdiv, hp]

/-- New contents for a table show in the walks through it. -/
theorem walk_setTable (hs : Shape c t) (ha : c.InSpace a) (hp : t.tableAt c lvl a = some p)
    (hkeep : KeepsTables c t lvl a g) (hx : c.InSpace x) :
    (t.setTable p g).tableAt c m x = t.tableAt c m x ∧ (t.setTable p g).entryAt c m x =
        if m = lvl ∧ SameTable lvl x a then g (index lvl x) else t.entryAt c m x := by
  have hentry : ∀ k, k ≠ .l1 → (t.setTable p g).tableAt c k x = t.tableAt c k x →
      (t.setTable p g).entryAt c k x =
        if k = lvl ∧ SameTable lvl x a then g (index lvl x) else t.entryAt c k x := by
    intro k hk hkt
    rw [entryAt_setTable hk hkt]
    exact ite_congr (propext (hs.tableAt_eq_some_iff ha hp hx)) (fun h => by rw [h.1]) fun _ => rfl
  have ht2 : (t.setTable p g).tableAt c .l2 x = t.tableAt c .l2 x := rfl
  have he2 := hentry .l2 (by decide) ht2
  have ht3 : (t.setTable p g).tableAt c .l3 x = t.tableAt c .l3 x := by
    rw [tableAt_eq (by decide), Level.parent, he2]
    split_ifs with h
    · obtain ⟨rfl, hdiv⟩ := h
      exact hkeep rfl x hx hdiv
    · rw [tableAt_eq (by decide), Level.parent]
  cases m with
  | l1 => exact ⟨rfl, by rw [if_neg fun h => ne_l1_of_tableAt hp h.1.symm]; rfl⟩
  | l2 => exact ⟨ht2, he2⟩
  | l3 => exact ⟨ht3, hentry .l3 (by decide) ht3⟩

/-- No table hangs below the tables of the level, around the address. -/
def NoTablesBelow (c : Config) (t : PageTable) (lvl : Level) (a : ℕ) : Prop :=
  lvl = .l2 → ∀ x, c.InSpace x → x / Level.l1.blockSize = a / Level.l1.blockSize →
    t.tableAt c .l3 x = none

/-- A table that can be hung: nothing walks through it yet, and it points to no table. -/
def Hangable (c : Config) (t : PageTable) (lvl : Level) (e : PageTableEntry) : Prop :=
  ∀ p, tableOf e = some p → ¬ t.Hangs c p ∧
    (lvl = .l2 → ∀ k < maxPageTableEntries, tableOf (t.table p k) = none)

theorem getL1Entry_setL1Entry (ha : c.InSpace a) (hx : c.InSpace x) :
    (t.setL1Entry c a e).getL1Entry c x =
      if x / Level.l1.blockSize = a / Level.l1.blockSize then e else t.getL1Entry c x := by
  change update t.root (l1Slot c a) e (l1Slot c x) = _
  split_ifs with h
  · rw [c.l1Slot_congr h, update_self]
  · rw [update_of_ne fun hslot => h (hx.div_eq_of_l1Slot_eq ha hslot)]
    rfl

/-- The walk to `x` meets the entry `e` above the tables of a level if it goes by `a`, and is
otherwise one of the table before. -/
def WalksBy (c : Config) (t t' : PageTable) (lvl : Level) (a : ℕ) (e : PageTableEntry) (m : Level)
    (x : ℕ) : Prop :=
  t'.tableAt c m x =
      (if m = lvl ∧ x / lvl.parent.blockSize = a / lvl.parent.blockSize then tableOf e
        else t.tableAt c m x) ∧
    t'.entryAt c m x =
      (if m = lvl.parent ∧ x / lvl.parent.blockSize = a / lvl.parent.blockSize then e
        else if m = lvl ∧ x / lvl.parent.blockSize = a / lvl.parent.blockSize then
          (tableOf e).elim 0#64 fun p => t.table p (index lvl x)
        else t.entryAt c m x)

/-- A new L1 entry shows in the walks below it. -/
theorem walk_setL1Entry (ha : c.InSpace a) (hold : NoTablesBelow c t .l2 a)
    (hnew : Hangable c t .l2 e) (hx : c.InSpace x) :
    WalksBy c t (t.setL1Entry c a e) .l2 a e m x := by
  unfold WalksBy
  simp only [Level.parent]
  have he1 := getL1Entry_setL1Entry (t := t) (e := e) ha hx
  have ht2 : (t.setL1Entry c a e).tableAt c .l2 x =
      if x / Level.l1.blockSize = a / Level.l1.blockSize then tableOf e
      else t.tableAt c .l2 x := by
    change tableOf _ = _
    rw [he1]
    split_ifs <;> rfl
  have he2 : (t.setL1Entry c a e).entryAt c .l2 x =
      if x / Level.l1.blockSize = a / Level.l1.blockSize then
        (tableOf e).elim 0#64 fun p => t.table p (index .l2 x)
      else t.entryAt c .l2 x := by
    simp only [entryAt, ht2]
    split_ifs <;> rfl
  have ht3 : (t.setL1Entry c a e).tableAt c .l3 x = t.tableAt c .l3 x := by
    rw [tableAt_eq (by decide), Level.parent, he2]
    split_ifs with h
    · rw [hold rfl x hx h]
      cases hp : tableOf e with
      | none => simp
      | some p => exact (hnew p hp).2 rfl _ (index_lt _ _)
    · rw [tableAt_eq (by decide), Level.parent]
  cases m with
  | l1 => exact ⟨rfl, by simpa [entryAt] using he1⟩
  | l2 => exact ⟨by simpa using ht2, by simpa using he2⟩
  | l3 =>
    refine ⟨by simpa using ht3, ?_⟩
    simp only [entryAt, ht3, reduceCtorEq, false_and]
    rfl

/-- A new L2 entry shows in the walks below it. -/
theorem walk_setL2Entry (hs : Shape c t) (ha : c.InSpace a) (hq : t.tableAt c .l2 a = some q)
    (hnew : Hangable c t .l3 e) (hx : c.InSpace x) :
    WalksBy c t (t.setEntryInTable .l2 q a e) .l3 a e m x := by
  unfold WalksBy
  simp only [Level.parent]
  have hpage : ∀ {k}, _ := fun {k} => hs.tableAt_eq_some_iff (m := k) ha hq hx
  have ht2 : (t.setEntryInTable .l2 q a e).tableAt c .l2 x = t.tableAt c .l2 x := rfl
  have he2 : (t.setEntryInTable .l2 q a e).entryAt c .l2 x =
      if x / Level.l2.blockSize = a / Level.l2.blockSize then e else t.entryAt c .l2 x := by
    unfold setEntryInTable
    rw [entryAt_setTable (by decide) rfl]
    by_cases hdiv : x / Level.l2.blockSize = a / Level.l2.blockSize
    · rw [if_pos (hpage.mpr ⟨rfl, AlignedBlock.div_eq_of_dvd (by decide) hdiv⟩), if_pos hdiv,
        index_congr hdiv, update_self]
    · split_ifs with hr
      · rw [update_of_ne fun hi => hdiv (div_eq_of_index_eq (by decide) (hpage.mp hr).2 hi),
          entryAt_of_tableAt hr]
        rfl
      · rfl
  have ht3 : (t.setEntryInTable .l2 q a e).tableAt c .l3 x =
      if x / Level.l2.blockSize = a / Level.l2.blockSize then tableOf e
      else t.tableAt c .l3 x := by
    rw [tableAt_eq (by decide), Level.parent, he2]
    split_ifs
    · rfl
    · rw [tableAt_eq (by decide), Level.parent]
  -- the L3 table of the walk is not the L2 table that was written
  have hne : ∀ {r}, (t.setEntryInTable .l2 q a e).tableAt c .l3 x = some r → r ≠ q := by
    rintro r hr rfl
    rw [ht3] at hr
    split_ifs at hr with hdiv
    · exact (hnew r hr).1 (Hangs.intro ha hq)
    · cases (hpage.mp hr).1
  cases m with
  | l1 => exact ⟨rfl, by simp only [reduceCtorEq, false_and]; rfl⟩
  | l2 => exact ⟨by simpa using ht2, by simpa using he2⟩
  | l3 =>
    refine ⟨by simpa using ht3, ?_⟩
    simp only [reduceCtorEq, false_and, if_false, true_and]
    cases hr : (t.setEntryInTable .l2 q a e).tableAt c .l3 x with
    | none =>
      rw [entryAt_eq_zero (by decide) hr]
      rw [ht3] at hr
      split_ifs at hr ⊢
      · rw [hr]
        rfl
      · rw [entryAt_eq_zero (by decide) hr]
    | some r =>
      rw [entryAt_of_tableAt hr]
      have hrq := hne hr
      rw [ht3] at hr
      unfold setEntryInTable
      rw [getEntryFromTable_setTable_of_ne hrq]
      split_ifs at hr ⊢ with hdiv
      · rw [hr]
        rfl
      · rw [entryAt_of_tableAt hr]

/-- A write to the entry above the tables of a level. -/
def setParentEntry (c : Config) (t : PageTable) (lvl : Level) (a : ℕ) (e : PageTableEntry) :
    PageTable :=
  match lvl with
  | .l3 => (t.tableAt c .l2 a).elim t fun p => t.setEntryInTable .l2 p a e
  | _ => t.setL1Entry c a e

/-- The entry above the tables of the level stands in the root table or in some other table. -/
def ParentReached (c : Config) (t : PageTable) (lvl : Level) (a : ℕ) : Prop :=
  lvl = .l3 → ∃ p, t.tableAt c .l2 a = some p

theorem setParentEntry_l3 (hq : t.tableAt c .l2 a = some q) :
    t.setParentEntry c .l3 a e = t.setEntryInTable .l2 q a e := by
  simp only [setParentEntry, hq, Option.elim]

/-- A write to an entry leaves the books alone. -/
theorem setParentEntry_books (lvl : Level) (a : ℕ) (e : PageTableEntry) :
    (t.setParentEntry c lvl a e).refCount = t.refCount ∧
      (t.setParentEntry c lvl a e).supply = t.supply ∧
        (t.setParentEntry c lvl a e).pageList = t.pageList := by
  cases lvl with
  | l1 | l2 => exact ⟨rfl, rfl, rfl⟩
  | l3 =>
    unfold setParentEntry
    cases t.tableAt c .l2 a <;> exact ⟨rfl, rfl, rfl⟩

/-- Only the table that holds the entry changes. -/
theorem setParentEntry_table (lvl : Level) (a : ℕ) (e : PageTableEntry) (q : ℕ) :
    (t.setParentEntry c lvl a e).table q = if lvl = .l3 ∧ t.tableAt c .l2 a = some q then
        update (t.table q) (index .l2 a) e
      else t.table q := by
  cases lvl with
  | l1 | l2 => simp [setParentEntry, setL1Entry]
  | l3 =>
    unfold setParentEntry
    cases ht : t.tableAt c .l2 a with
    | none => simp
    | some r =>
      by_cases hrq : r = q
      · subst hrq
        simp [setEntryInTable, setTable]
      · simp [setEntryInTable, setTable, hrq, Ne.symm hrq]

/-! ## Shape after a write -/

/-- The walks of the two page tables go through the same tables. -/
def SameTables (c : Config) (t t' : PageTable) : Prop :=
  ∀ m x, c.InSpace x → t'.tableAt c m x = t.tableAt c m x

/-- The page that hangs at the place of `a` is `o`, and the other tables are the same. -/
def SlotIs (c : Config) (t t' : PageTable) (lvl : Level) (a : ℕ) (o : Option ℕ) : Prop :=
  ∀ m x, c.InSpace x → t'.tableAt c m x = if m = lvl ∧ SameTable lvl x a then o else t.tableAt c m x

theorem Shape.of_walk (hs : Shape c t) (htab : SameTables c t t')
    (hent : ∀ m x, c.InSpace x → EntryOk m (t'.entryAt c m x)) : Shape c t' where
  entryOk := hent
  distinct := by
    intro k k' y z q hy hz h h'
    rw [htab _ _ hy] at h
    rw [htab _ _ hz] at h'
    exact hs.distinct hy hz h h'

theorem hangs_congr (htab : SameTables c t t') (p : ℕ) : t'.Hangs c p ↔ t.Hangs c p := by
  refine exists₂_congr fun m x => and_congr_right fun hx => ?_
  rw [htab m x hx]

/-- New contents of a table keep the shape if every new entry is of a known kind. -/
theorem Shape.setTable (hs : Shape c t) (ha : c.InSpace a) (hp : t.tableAt c lvl a = some p)
    (hkeep : KeepsTables c t lvl a g)
    (hg : ∀ x, c.InSpace x → SameTable lvl x a → EntryOk lvl (g (index lvl x))) :
    Shape c (t.setTable p g) := by
  apply hs.of_walk
  · intro m x hx
    exact (walk_setTable hs ha hp hkeep hx).1
  · intro m x hx
    rw [(walk_setTable hs ha hp hkeep hx).2]
    split_ifs with h
    · obtain ⟨rfl, hdiv⟩ := h
      exact hg x hx hdiv
    · exact hs.entryOk m x hx

/-- A table that hangs in a new place, or one place without its table, keeps tables apart. -/
theorem Shape.of_slot (hs : Shape c t) (htab : SlotIs c t t' lvl a o)
    (ho : ∀ q, o = some q → ¬ t.Hangs c q)
    (hent : ∀ m x, c.InSpace x → EntryOk m (t'.entryAt c m x)) : Shape c t' where
  entryOk := hent
  distinct := by
    intro k k' y z q hy hz h h'
    rw [htab _ _ hy] at h
    rw [htab _ _ hz] at h'
    split_ifs at h h' with h1 h2 h2
    · obtain ⟨rfl, hdiv⟩ := h1
      obtain ⟨rfl, hdiv'⟩ := h2
      exact ⟨rfl, hdiv.trans hdiv'.symm⟩
    · exact absurd (Hangs.intro hz h') (ho q h)
    · exact absurd (Hangs.intro hy h) (ho q h')
    · exact hs.distinct hy hz h h'

/-! ## The books after a write -/

section

variable (hb : Books c t loose)
include hb

theorem Books.not_mem_spares (h : t.Hangs c p) : p ∉ t.spares :=
  fun hmem => (hb.blank p hmem).notHangs h

/-- The books of a table whose walks are those of `t`. -/
theorem Books.of_walks {u : PageTable} {loose' : Option ℕ} (htab : SameTables c t u)
    (hcount : ∀ q, t.Hangs c q → t.refCount q = liveCount (t.table q) →
      c.isInPageTableHeap q = true → u.refCount q = liveCount (u.table q))
    (hnodup : u.spares.Nodup)
    (hblank : ∀ q ∈ u.spares, t.Unused c q ∧ u.refCount q = 0 ∧ ∀ k, u.table q k = 0#64)
    (hloose : ∀ q, loose' = some q → q ∉ u.spares ∧ t.Unused c q) : Books c u loose' := by
  have hhangs := hangs_congr htab
  have hunused : ∀ q, t.Unused c q → u.Unused c q := fun q h =>
    ⟨h.address, h.inHeap, mt (hhangs q).mp h.notHangs⟩
  refine ⟨?_, hnodup, ?_, ?_⟩
  · intro m x q hx hq hheap
    rw [htab m x hx] at hq
    exact hcount q (Hangs.intro hx hq) (hb.refCount_eq hx hq hheap) hheap
  · intro q hq
    obtain ⟨h, href, hcontents⟩ := hblank q hq
    exact ⟨hunused q h, href, hcontents⟩
  · intro q hq
    obtain ⟨hmem, h⟩ := hloose q hq
    exact ⟨hmem, hunused q h⟩

/-- A page whose spare pages are as before. -/
theorem Books.blank_of_same {u : PageTable} (hq : q ∈ t.spares)
    (href : u.refCount q = t.refCount q) (htable : u.table q = t.table q) :
    t.Unused c q ∧ u.refCount q = 0 ∧ ∀ k, u.table q k = 0#64 := by
  have h := hb.blank q hq
  exact ⟨h.toUnused, href.trans h.refCount, htable ▸ h.contents⟩

variable (hs : Shape c t) (ha : c.InSpace a) (hp : t.tableAt c lvl a = some p)
  (hkeep : KeepsTables c t lvl a g)
include hs ha hp hkeep

/-- New contents of a table, with its count brought up to date. -/
theorem Books.setTable {r : ℕ} (hr : c.isInPageTableHeap p = true → r = liveCount g) :
    Books c { t.setTable p g with refCount := update t.refCount p r } loose := by
  refine hb.of_walks (fun m x hx => ?_) (fun q _ hcount hheap => ?_) hb.spares_nodup
    (fun q hq => ?_) hb.loose_unused
  · rw [← (walk_setTable hs ha hp hkeep hx).1]
    exact (walk_eq_of_tables rfl rfl).1
  · by_cases hqp : q = p
    · subst hqp
      simp [PageTable.setTable, hr hheap]
    · simpa only [PageTable.setTable, update_of_ne hqp] using hcount
  · have hqp : q ≠ p := by
      rintro rfl
      exact hb.not_mem_spares (Hangs.intro ha hp) hq
    exact hb.blank_of_same hq (update_of_ne hqp _ _) (update_of_ne hqp _ _)

end

section Slots

variable {t' : PageTable}

/-- The pages are the same, and the counts are right. -/
structure SamePages (c : Config) (t t' : PageTable) : Prop where
  supply : t'.supply = t.supply
  pageList : t'.pageList = t.pageList
  refCount_eq : ∀ {m x q}, c.InSpace x → t'.tableAt c m x = some q →
    c.isInPageTableHeap q = true → t'.refCount q = liveCount (t'.table q)
  spare : ∀ q ∈ t.spares, t'.refCount q = t.refCount q ∧ t'.table q = t.table q

theorem SamePages.spares (h : SamePages c t t') : t'.spares = t.spares := by
  unfold PageTable.spares
  rw [h.supply, h.pageList]

/-- The spare pages are blank if none of them was hung into the table. -/
theorem SamePages.blank (h : SamePages c t t') (hb : Books c t loose)
    (hhangs : ∀ q ∈ t.spares, t'.Hangs c q → t.Hangs c q) :
    t'.spares.Nodup ∧ ∀ q ∈ t'.spares, t'.Blank c q := by
  rw [h.spares]
  refine ⟨hb.spares_nodup, fun q hq => ?_⟩
  obtain ⟨hq', href, hcontents⟩ := hb.blank_of_same hq (h.spare q hq).1 (h.spare q hq).2
  exact ⟨⟨hq'.address, hq'.inHeap, fun hc => hq'.notHangs (hhangs q hq hc)⟩, href, hcontents⟩

/-- A loose page has been hung into the table. -/
theorem Books.hook (hb : Books c t (some p)) (htab : SlotIs c t t' lvl a (some p))
    (hpages : SamePages c t t') : Books c t' none := by
  obtain ⟨hpmem, hpunused⟩ := hb.loose_unused p rfl
  have hhangs : ∀ q, t'.Hangs c q → t.Hangs c q ∨ q = p := by
    rintro q ⟨m, x, hx, h⟩
    rw [htab m x hx] at h
    split_ifs at h
    · exact .inr (Option.some.inj h).symm
    · exact .inl ⟨m, x, hx, h⟩
  obtain ⟨hnodup, hblank⟩ := hpages.blank hb fun q hq hc =>
    (hhangs q hc).resolve_right fun hqp => hpmem (hqp ▸ hq)
  exact ⟨hpages.refCount_eq, hnodup, hblank, nofun⟩

/-- A page has been taken out of the table; if it is in the heap it is loose now. -/
theorem Books.unhook (hb : Books c t none) (hs : Shape c t) (ha : c.InSpace a)
    (hold : t.tableAt c lvl a = some p) (htab : SlotIs c t t' lvl a none)
    (hpages : SamePages c t t') :
    Books c t' (if c.isInPageTableHeap p then some p else none) := by
  have hhangs : ∀ q, t'.Hangs c q → t.Hangs c q ∧ q ≠ p := by
    rintro q ⟨m, x, hx, h⟩
    rw [htab m x hx] at h
    split_ifs at h with hslot
    refine ⟨⟨m, x, hx, h⟩, ?_⟩
    rintro rfl
    exact hslot ((hs.tableAt_eq_some_iff ha hold hx).mp h)
  obtain ⟨hnodup, hblank⟩ := hpages.blank hb fun q _ hc => (hhangs q hc).1
  refine ⟨hpages.refCount_eq, hnodup, hblank, ?_⟩
  intro q hq
  split_ifs at hq with hheap
  cases hq
  rw [hpages.spares]
  refine ⟨hb.not_mem_spares (Hangs.intro ha hold), ?_, hheap, fun h => (hhangs p h).2 rfl⟩
  exact (isTable_of_tableAt hold).2 ▸ isBlockAddress_getBlock .l3 _

end Slots

/-- The books do not look at the order of the spare pages. -/
theorem Books.congr {u : PageTable} (hb : Books c t loose) (hroot : u.root = t.root)
    (htable : u.table = t.table) (href : u.refCount = t.refCount)
    (hspares : u.spares = t.spares) : Books c u loose := by
  refine hb.of_walks (fun m x _ => (walk_eq_of_tables hroot htable).1) (fun q _ hcount _ => ?_)
    (hspares ▸ hb.spares_nodup) (fun q hq => ?_) (fun q hq => ?_)
  · rw [href, htable]
    exact hcount
  · exact hb.blank_of_same (hspares ▸ hq) (by rw [href]) (by rw [htable])
  · rw [hspares]
    exact hb.loose_unused q hq

/-- A page has been taken from the spare ones. -/
theorem Books.take {u : PageTable} (hb : Books c t none) (hroot : u.root = t.root)
    (htable : u.table = t.table) (href : u.refCount = t.refCount)
    (hperm : t.spares.Perm (p :: u.spares)) :
    Books c u (some p) ∧ u.Blank c p := by
  have hblank : ∀ q ∈ p :: u.spares, _ := fun q hq =>
    hb.blank_of_same (hperm.mem_iff.mpr hq) (by rw [href]) (by rw [htable])
  obtain ⟨hpunused, hpref, hpcontents⟩ := hblank p (.head _)
  obtain ⟨hpmem, hnodup⟩ := List.nodup_cons.mp (hperm.nodup_iff.mp hb.spares_nodup)
  have hbooks : Books c u (some p) := by
    refine hb.of_walks (fun m x _ => (walk_eq_of_tables hroot htable).1)
      (fun q _ hcount _ => ?_) hnodup (fun q hq => hblank q (List.mem_cons_of_mem p hq))
      (fun q hq => ?_)
    · rw [href, htable]
      exact hcount
    · cases hq
      exact ⟨hpmem, hpunused⟩
  exact ⟨hbooks, (hbooks.loose_unused p rfl).2, hpref, hpcontents⟩

/-- Nothing depends on what a loose page holds. -/
theorem Books.setTable_loose (hb : Books c t (some p)) (g : ℕ → PageTableEntry) (r : ℕ) :
    Books c { t.setTable p g with refCount := update t.refCount p r } (some p) := by
  obtain ⟨hmem, hunused⟩ := hb.loose_unused p rfl
  refine hb.of_walks (fun m x hx => ?_) (fun q hq hcount _ => ?_) hb.spares_nodup
    (fun q hq => ?_) hb.loose_unused
  · rw [← (walk_setTable_of_not_hangs hunused.notHangs hx).1]
    exact (walk_eq_of_tables rfl rfl).1
  · have hqp : q ≠ p := by
      rintro rfl
      exact hunused.notHangs hq
    simpa only [PageTable.setTable, update_of_ne hqp] using hcount
  · have hqp : q ≠ p := by
      rintro rfl
      exact hmem hq
    exact hb.blank_of_same hq (update_of_ne hqp _ _) (update_of_ne hqp _ _)

/-- What an allocation returns and leaves. -/
theorem allocatePageTable_spec (hb : Books c t none) (reuseLl : Bool) {t' : PageTable}
    (h : t.allocatePageTable reuseLl = (t', o)) :
    t'.root = t.root ∧ t'.table = t.table ∧ Books c t' o ∧
      ∀ p, o = some p → t'.Blank c p := by
  unfold allocatePageTable at h
  split at h
  case h_1 page rest hsupply =>
    cases h
    have htake := hb.take (u := { t with supply := rest }) rfl rfl rfl (by
      unfold spares
      rw [hsupply]
      exact List.perm_middle)
    refine ⟨rfl, rfl, htake.1, ?_⟩
    intro p hp
    cases hp
    exact htake.2
  case h_2 hsupply =>
    -- the manager has no page: the first entry of the supply, if any, is spent
    have hdrop : t.supply.tail.reduceOption = t.supply.reduceOption := by
      cases hs : t.supply with
      | nil => rfl
      | cons head rest =>
        cases head with
        | none => rw [List.tail_cons, List.reduceOption_cons_of_none]
        | some page => exact absurd hs (hsupply page rest)
    have hb' : Books c { t with supply := t.supply.tail } none := by
      apply hb.congr (u := { t with supply := t.supply.tail }) rfl rfl rfl
      unfold spares
      rw [hdrop]
    simp only at h
    split at h
    case h_1 page rest hlist =>
      cases h
      have htake := hb'.take (u := { t with supply := t.supply.tail, pageList := rest }) rfl rfl
        rfl (by
          rw [hlist]
          exact List.Perm.refl _)
      refine ⟨rfl, rfl, htake.1, ?_⟩
      intro p hp
      cases hp
      exact htake.2
    case h_2 =>
      cases h
      refine ⟨rfl, rfl, hb', ?_⟩
      intro p hp
      cases hp

/-- A loose page without entries and references goes on the list of pages to free. -/
theorem Books.freePageTable (hb : Books c t (some p)) (href : t.refCount p = 0)
    (hcontents : ∀ k, t.table p k = 0#64) : Books c (t.freePageTable p) none := by
  obtain ⟨hmem, hunused⟩ := hb.loose_unused p rfl
  refine hb.of_walks (fun m x _ => (walk_eq_of_tables rfl rfl).1) (fun q _ hcount _ => hcount)
    (List.nodup_cons.mpr ⟨hmem, hb.spares_nodup⟩) (fun q hq => ?_) fun q hq => by cases hq
  obtain rfl | hq := List.mem_cons.mp hq
  · exact ⟨hunused, href, hcontents⟩
  · exact hb.blank_of_same hq rfl rfl

/-- A root table of blocks, as before the first table page is allocated. -/
theorem wellFormed_of_root
    (hroot : ∀ k, t.root k = 0#64 ∨ isBlock .l1 (t.root k) = true ∧ isContiguous (t.root k) = false)
    (hlist : t.pageList = []) (hnodup : t.supply.reduceOption.Nodup)
    (hsupply : ∀ p ∈ t.supply.reduceOption, IsTableAddress p ∧ c.isInPageTableHeap p = true ∧
      t.refCount p = 0 ∧ ∀ k, t.table p k = 0#64) : WellFormed c t := by
  have htab : ∀ lvl a, t.tableAt c lvl a = none := by
    have hl1 : ∀ a, tableOf (t.getL1Entry c a) = none := by
      intro a
      unfold getL1Entry
      obtain h | h := hroot (l1Slot c a)
      · rw [h, tableOf_zero]
      · exact tableOf_of_isBlock h.1
    intro lvl a
    cases lvl with
    | l1 => rfl
    | l2 => exact hl1 a
    | l3 => simp only [tableAt, hl1 a, Option.bind]
  have hent : ∀ lvl a, lvl ≠ .l1 → t.entryAt c lvl a = 0#64 := fun lvl a h =>
    entryAt_eq_zero h (htab lvl a)
  have hhangs : ∀ p, ¬ t.Hangs c p := by
    rintro p ⟨lvl, a, -, h⟩
    rw [htab] at h
    cases h
  refine ⟨⟨?_, ?_⟩, ?_, ⟨?_, ?_, ?_, fun p h => by cases h⟩⟩
  · intro lvl a _
    cases lvl with
    | l1 =>
      obtain h | h := hroot (l1Slot c a)
      · exact .empty h
      · exact .block h.1 fun _ => h.2
    | l2 | l3 => exact .empty (hent _ a (by decide))
  · intro lvl lvl' a b p _ _ h
    rw [htab] at h
    cases h
  · intro lvl a _ hb hc
    cases lvl with
    | l1 =>
      obtain h | h := hroot (l1Slot c a)
      · exact absurd hb (by simp [entryAt, getL1Entry, h])
      · exact absurd hc (by simp [entryAt, getL1Entry, h.2])
    | l2 | l3 => rw [hent _ a (by decide)] at hb; simp at hb
  · intro lvl a p _ h
    rw [htab] at h
    cases h
  · unfold spares
    rw [hlist]
    exact hnodup
  · intro p hp
    unfold spares at hp
    rw [hlist] at hp
    obtain ⟨haddr, hheap, href, hcontents⟩ := hsupply p hp
    exact ⟨⟨haddr, hheap, hhangs p⟩, href, hcontents⟩

end PageTable

end Atmosphere.Kern.Arm64
