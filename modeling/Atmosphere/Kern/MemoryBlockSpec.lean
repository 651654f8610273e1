import Atmosphere.Kern.MemoryBlockUpdate

/-!
# Updates of a well-formed tree

A well-formed tree is sorted and gap free over the address space, its blocks
are page aligned and not empty, and no two neighbours could be merged. The
three update functions run one pass over a range; this module says how such a
pass can end and derives the per-page meaning of each of them.

The pass has one way to go wrong that is not a count check. When the range
starts inside the first block of the tree and that block is passed over,
`CoalesceForUpdate` decrements the iterator of the first block.
-/

namespace Atmosphere.Kern.KMemoryBlockManager

open Tiling
open MemoryBlockLockFunction (call_eq_ok_iff)

variable {m m' : KMemoryBlockManager} {a e numPages : ℕ}
variable {alloc alloc' : KMemoryBlockManagerUpdateAllocator} {ps : List ℕ}
variable {skip : KMemoryBlock → Bool} {apply : KMemoryBlock → Bool → Bool → Run KMemoryBlock}

/-- Sorted, not empty, page aligned, gap free and coalesced. -/
structure WellFormed (m : KMemoryBlockManager) : Prop where
  tiles : blockShape.Tiles m.startAddress m.memoryBlockTree m.endAddress
  aligned : ∀ node ∈ m.memoryBlockTree, pageSize ∣ node.block.address
  coalesced : m.memoryBlockTree.IsChain fun p q => p.block.canMergeWith q.block = false

/-- The properties of the page at an address, if the tree covers it. -/
def propertiesAt (m : KMemoryBlockManager) (x : ℕ) : Option PageProperties :=
  blockShape.valAt m.memoryBlockTree x

/-- The merge-disable state at an address, as the left end of a block. -/
def leftMarkAt (m : KMemoryBlockManager) (x : ℕ) : LeftMark := blockShape.leftAt m.memoryBlockTree x

/-- The merge-disable state at an address, as the right end of a block. -/
def rightMarkAt (m : KMemoryBlockManager) (x : ℕ) : RightMark :=
  blockShape.rightAt m.memoryBlockTree x

/-- A block starts or the tree ends at `x`. -/
def IsBoundary (m : KMemoryBlockManager) (x : ℕ) : Prop :=
  blockShape.IsStart m.memoryBlockTree x ∨ x = m.endAddress

instance (m : KMemoryBlockManager) (x : ℕ) : Decidable (m.IsBoundary x) :=
  inferInstanceAs (Decidable (_ ∨ _))

theorem WellFormed.maximal (h : m.WellFormed) : blockShape.Maximal m.memoryBlockTree :=
  h.coalesced.imp fun p q hpq hm => by simp [(mergeable_iff p q).mp hm] at hpq

theorem wellFormed_of_maximal (ht : blockShape.Tiles m.startAddress m.memoryBlockTree m.endAddress)
    (hal : ∀ x, blockShape.IsStart m.memoryBlockTree x → pageSize ∣ x)
    (hmax : blockShape.Maximal m.memoryBlockTree) : m.WellFormed where
  tiles := ht
  aligned := fun node hnode => hal _ ⟨node, hnode, rfl⟩
  coalesced := hmax.imp fun p q hpq => by
    cases h : p.block.canMergeWith q.block with
    | false => rfl
    | true => exact absurd ((mergeable_iff p q).mpr h) hpq

/-- A page-aligned, non-empty range inside the tree. -/
structure IsRange (m : KMemoryBlockManager) (a numPages : ℕ) : Prop where
  aligned : pageSize ∣ a
  pos : 0 < numPages
  start_le : m.startAddress ≤ a
  le_end : a + numPages * pageSize ≤ m.endAddress

/-- The blocks that an update of `[a, e)` may have to split. -/
def blocksNeeded (m : KMemoryBlockManager) (a e : ℕ) : ℕ :=
  (if m.IsBoundary a then 0 else 1) + (if m.IsBoundary e then 0 else 1)

/-- The range starts strictly inside the first block, and that block is passed over. -/
def StartsInSkippedFirst (m : KMemoryBlockManager) (a : ℕ) (skip : KMemoryBlock → Bool) : Prop :=
  a ≠ m.startAddress ∧
    ∃ node ∈ m.memoryBlockTree.head?, a < node.block.getEndAddress ∧ skip node.block = true

/-- How an update of `[a, e)` can end. -/
inductive RangeOutcome (m : KMemoryBlockManager) (a e : ℕ)
    (alloc : KMemoryBlockManagerUpdateAllocator) (ps : List ℕ) (skip : KMemoryBlock → Bool)
    (apply : KMemoryBlock → Bool → Bool → Run KMemoryBlock) :
    Run (KMemoryBlockManager × KMemoryBlockManagerUpdateAllocator) → Prop
  /-- The block function stopped the kernel on a piece of the tree in the range. -/
  | failed {p : Panic} {node : KMemoryBlockNode} (ha : a ≤ node.block.address)
      (hlt : node.block.address < node.block.getEndAddress) (he : node.block.getEndAddress ≤ e)
      (hshows : blockShape.Shows m.memoryBlockTree node)
      (hfail : apply node.block (node.block.address == a) (node.block.getEndAddress == e) =
        .error p) : RangeOutcome m a e alloc ps skip apply (.error p)
  /-- The coalescing started before the first block. -/
  | nullIterator (hfirst : m.StartsInSkippedFirst a skip) :
      RangeOutcome m a e alloc ps skip apply (.error .nullDereference)
  /-- The tree was painted and coalesced. -/
  | done {m' : KMemoryBlockManager} {mid : List KMemoryBlockNode}
      {alloc' : KMemoryBlockManagerUpdateAllocator} {ps' : List ℕ}
      (hfirst : ¬ m.StartsInSkippedFirst a skip) (hwf : m'.WellFormed)
      (hstart : m'.startAddress = m.startAddress) (hend : m'.endAddress = m.endAddress)
      (hpaints : blockShape.Paints a e (fun node => skip node.block = true) (Replaces apply a e)
        m.memoryBlockTree mid)
      (hmerges : blockShape.Merges mid m'.memoryBlockTree) (hps' : alloc'.Holds ps')
      (hcount : ∀ x, (pointers m'.memoryBlockTree).count x +
          (ps' ++ alloc'.slabManager.pointers).count x =
        (pointers m.memoryBlockTree).count x + (ps ++ alloc.slabManager.pointers).count x) :
      RangeOutcome m a e alloc ps skip apply (.ok (m', alloc'))

/-- The first node of a tree covers `a`. -/
def FirstCovers (t : List KMemoryBlockNode) (a : ℕ) : Prop :=
  ∃ node ∈ t.head?, a < node.block.getEndAddress

/-- `CoalesceForUpdate` dereferences null exactly when the range starts strictly
inside the first node; otherwise it merges and leaves nothing to merge from the
start of the range to its end. -/
theorem coalesceForUpdate_cases (numPages : ℕ) {t : List KMemoryBlockNode} {st nd : ℕ}
    (ht : blockShape.Tiles st t nd) (ha : st ≤ a) (hn : a < nd) (hps : alloc.Holds ps) :
    (a ≠ st ∧ FirstCovers t a ∧
        coalesceForUpdate ⟨t, st, nd⟩ alloc a numPages = .error .nullDereference) ∨
      ∃ t' alloc' ps', (a = st ∨ ¬ FirstCovers t a) ∧
        coalesceForUpdate ⟨t, st, nd⟩ alloc a numPages = .ok (⟨t', st, nd⟩, alloc') ∧
        blockShape.Merges t t' ∧
        blockShape.MaximalOn (fun x => a ≤ x ∧ x ≤ a + numPages * pageSize) t' ∧
        alloc'.Holds ps' ∧
        ∀ x, (pointers t').count x + (ps' ++ alloc'.slabManager.pointers).count x =
          (pointers t).count x + (ps ++ alloc.slabManager.pointers).count x := by
  obtain ⟨before, node, after, hfind, rfl, hb, hnode, hlo, hhi⟩ := findIterator_spec ht ha hn
  simp only [coalesceForUpdate, hfind]
  by_cases hst : a = st
  · -- the block at the start is the first one
    have hnil : before = [] := by
      cases before with
      | nil => rfl
      | cons c before =>
        have h₁ := hb.2.2.le
        have h₂ := hb.2.1
        have h₃ := hb.1
        omega
    subst hnil
    obtain ⟨nodes, alloc', ps', heq, hmerges, hmax, hps', hcount⟩ :=
      coalesceLoop_spec hnode hps
    refine .inr ⟨nodes, alloc', ps', .inl hst, ?_, hmerges, ?_, hps', hcount⟩
    · rw [if_neg fun h => h hst, heq]
      rfl
    · exact hmax.imp fun p q h hQ => h hQ.2
  · rcases List.eq_nil_or_concat before with rfl | ⟨front, prev, rfl⟩
    · refine .inl ⟨hst, ⟨node, rfl, hhi⟩, ?_⟩
      simp [hst]
    · rw [List.concat_eq_append, List.append_assoc] at *
      have hsingle : [prev] ++ node :: after = prev :: node :: after := rfl
      rw [hsingle]
      obtain ⟨k, hfront, hprev⟩ := hb.of_append
      obtain ⟨hplo, hppos, hphi⟩ := hprev
      rw [Shape.tiles_nil] at hphi
      have htail : blockShape.Tiles k (prev :: node :: after) nd :=
        ⟨hplo, hppos, hphi.symm ▸ hnode⟩
      obtain ⟨nodes, alloc', ps', heq, hmerges, hmax, hps', hcount⟩ :=
        coalesceLoop_spec (e := a + numPages * pageSize) htail hps
      refine .inr ⟨front ++ nodes, alloc', ps', .inr ?_, ?_, hmerges.append_left front, ?_,
        hps', fun x => ?_⟩
      · -- the first node ends where the node at `a` starts, or before
        rintro ⟨c, hc, hac⟩
        cases front with
        | nil =>
          cases hc
          simp only [blockShape_hi] at hphi
          omega
        | cons d front =>
          cases hc
          have := hfront.2.2.le
          simp only [blockShape_lo, blockShape_hi] at this hplo hppos hphi
          omega
      · simp [hst, heq]
      · refine hfront.maximalOn_append (hmerges.tiles htail) (fun x hx => ?_)
          (hmax.imp fun p q h hQ => h hQ.2)
        omega
      · have := hcount x
        simp only [pointers_append, List.count_append] at this ⊢
        omega

variable (hwf : m.WellFormed) (hrange : m.IsRange a numPages) (hps : alloc.Holds ps)
  (hneed : m.blocksNeeded a (a + numPages * pageSize) ≤ ps.length)

include hwf hrange hps hneed in
/-- The pass over a range of a well-formed tree, with an allocator that holds a
block for each end of the range at which no block ends. -/
theorem updateRange_outcome (hr : Respects skip apply) :
    RangeOutcome m a (a + numPages * pageSize) alloc ps skip apply
      (m.updateRange alloc a numPages skip apply) := by
  obtain ⟨hdvd, hpos, hst, hnd⟩ := hrange
  obtain ⟨t, st, nd⟩ := m
  have hwf' := hwf
  obtain ⟨ht, hal, _⟩ := hwf
  dsimp only at ht hst hnd
  have hsize := Nat.mul_pos hpos pageSize_pos
  have hstart : ∀ x, blockShape.IsStart t x → pageSize ∣ x := by
    rintro x ⟨node, hnode, rfl⟩
    exact hal node hnode
  obtain ⟨before, node, after, hfind, happ, hb, hnode, hlo, hhi⟩ :=
    findIterator_spec ht hst (by omega : a < nd)
  have hsplit : ∀ x, blockShape.IsStart t x ↔
      blockShape.IsStart before x ∨ blockShape.IsStart (node :: after) x := fun x => by
    rw [happ, Shape.isStart_append]
  have hneed' : (if node.block.address = a then 0 else 1) +
      (if blockShape.IsStart (node :: after) (a + numPages * pageSize) ∨
        a + numPages * pageSize = nd then 0 else 1) ≤ ps.length := by
    have hleft : IsBoundary ⟨t, st, nd⟩ a ↔ node.block.address = a := by
      refine ⟨fun h => ?_, fun h => .inl ((hsplit a).mpr (.inr ⟨node, List.mem_cons_self, h⟩))⟩
      rcases h with h | h
      · rcases (hsplit a).mp h with h | h
        · have := (hb.isStart_bounds h).2
          omega
        · exact (hnode.eq_of_isStart_lt h hhi).symm
      · have : a = nd := h
        omega
    have hright : IsBoundary ⟨t, st, nd⟩ (a + numPages * pageSize) ↔
        blockShape.IsStart (node :: after) (a + numPages * pageSize) ∨
          a + numPages * pageSize = nd := by
      refine or_congr_left ((hsplit _).trans (or_iff_right fun h => ?_))
      have := (hb.isStart_bounds h).2
      omega
    simpa only [blocksNeeded, hleft, hright] using hneed
  have houtcome := updateLoop_outcome hr hnode
    (fun x hx => hstart x ((hsplit x).mpr (.inr hx))) hlo (by rintro c ⟨⟩; exact hhi) hdvd
    (.inl rfl) hpos rfl hnd hps hneed'
  simp only [updateRange, hfind, bind, Except.bind]
  cases hres : updateLoop skip apply a (a + numPages * pageSize) (node :: after) a numPages
    alloc with
  | error p =>
    rw [hres] at houtcome
    cases houtcome with
    | failed hm ha hlt he hshows hfail =>
      refine .failed ha hlt he ?_ hfail
      rw [happ]
      exact (Shape.shows_append_iff hb hlt hm).mpr hshows
  | ok res =>
    rw [hres] at houtcome
    cases houtcome with
    | @done it' alloc₁ ps₁ hpaints hps₁ hslab₁ hcount₁ =>
      have hpaints' : blockShape.Paints a (a + numPages * pageSize)
          (fun node => skip node.block = true) (Replaces apply a (a + numPages * pageSize)) t
          (before ++ it') := by
        rw [happ]
        exact hpaints.append_left fun c hc => Nat.le_trans (hb.bounds hc).2.2 hlo
      have htmid := hpaints'.tiles ht
      -- the first node of either tree covers `a` only if nothing precedes the range
      have hnil : ∀ u c, c ∈ (before ++ u).head? → a < c.block.getEndAddress → before = [] := by
        intro u c hc hac
        cases before with
        | nil => rfl
        | cons d before =>
          cases hc
          have := hb.2.2.le
          simp only [blockShape_hi] at this
          omega
      have hskipped : StartsInSkippedFirst ⟨t, st, nd⟩ a skip → FirstCovers (before ++ it') a := by
        rintro ⟨_, c, hc, hac, hskip⟩
        rw [happ] at hc
        have hbefore := hnil _ c hc hac
        subst hbefore
        cases hc
        obtain ⟨rest', rfl⟩ : ∃ rest', it' = node :: rest' := by
          rw [updateLoop] at hres
          split at hres
          · cases hres
            exact ⟨_, rfl⟩
          · simp only [bind, Except.bind] at hres
            split at hres <;> split at hres <;> cases hres
            all_goals exact ⟨_, rfl⟩
        exact ⟨node, rfl, hhi⟩
      rcases coalesceForUpdate_cases numPages htmid hst (by omega) hps₁ with
        ⟨hne, ⟨c, hc, hac⟩, heq⟩ | ⟨t', alloc', ps', hcond, heq, hmerges, hmax, hps', hcount⟩
      · dsimp only at heq ⊢
        rw [heq]
        refine .nullIterator ⟨hne, node, ?_, hhi, ?_⟩
        · rw [happ, hnil it' c hc hac]
          rfl
        · -- otherwise the first node would have been cut at `a`
          by_contra hskip
          have hstart' := hpaints'.isStart_left
            (fun b c h => by rw [hr.skip_congr _ _ h]) (by omega) (by simp [happ]) hlo hhi hskip
          cases hmid : before ++ it' with
          | nil => simp [hmid] at hc
          | cons d rest =>
            rw [hmid] at hc hstart' htmid
            cases hc
            exact hne (htmid.eq_of_isStart_lt hstart' hac)
      · dsimp only at heq ⊢
        rw [heq]
        refine .done ?_ ?_ rfl rfl hpaints' hmerges hps' fun x => ?_
        · intro h
          rcases hcond with hcond | hcond
          · exact h.1 hcond
          · exact hcond (hskipped h)
        · refine wellFormed_of_maximal (hmerges.tiles htmid) (fun x hx => ?_)
            (Shape.maximal_of_passes (by omega) ht hwf'.maximal hpaints' hmerges hmax)
          rcases hpaints'.isStart_bound (hmerges.isStart_sub htmid hx) with h | rfl | rfl
          · exact hstart x h
          · exact hdvd
          · exact (Nat.dvd_add_right hdvd).mpr (Nat.dvd_mul_left _ _)
        · have h₁ := hcount₁ x
          have h₂ := hcount x
          rw [hslab₁] at h₂
          simp only [happ, pointers_append, List.count_append] at h₁ h₂ ⊢
          omega

/-! ## The per-page meaning of the three functions -/

/-- `m'` is a well-formed tree over the same addresses as `m`, in which the pages
of `[a, e)` have the images under `f` of their properties and all other pages
are as they were. -/
structure MapsPages (m m' : KMemoryBlockManager) (a e : ℕ) (f : PageProperties → PageProperties) :
    Prop where
  wellFormed : m'.WellFormed
  startAddress : m'.startAddress = m.startAddress
  endAddress : m'.endAddress = m.endAddress
  pages : ∀ x, m'.propertiesAt x =
    if a ≤ x ∧ x < e then (m.propertiesAt x).map f else m.propertiesAt x

/-- The count checks of a lock function pass on the range `[a, e)`. -/
structure AdmitsLock (m : KMemoryBlockManager) (a e : ℕ) (f : MemoryBlockLockFunction) : Prop where
  page : ∀ x v, a ≤ x → x < e → m.propertiesAt x = some v → f.AdmitsPage v
  left : f.AdmitsLeft (m.leftMarkAt a)
  right : f.AdmitsRight (m.rightMarkAt e)

include hwf hrange hps hneed in
/-- A total block function cannot fail, so the only obstacle is the null iterator. -/
theorem updateRange_total_iff {img : KMemoryBlock → Bool → Bool → KMemoryBlock}
    {f : PageProperties → PageProperties} (hr : Respects skip fun b l r => .ok (img b l r))
    (hskip : ∀ b, skip b = true → f b.properties = b.properties)
    (himg : ∀ b l r, skip b = false → (img b l r).properties = f b.properties) :
    (∃ m' alloc', m.updateRange alloc a numPages skip (fun b l r => .ok (img b l r)) =
        .ok (m', alloc') ∧ MapsPages m m' a (a + numPages * pageSize) f) ↔
      ¬ m.StartsInSkippedFirst a skip := by
  have houtcome := updateRange_outcome hwf hrange hps hneed hr
  generalize hres : m.updateRange alloc a numPages skip (fun b l r => .ok (img b l r)) = res
    at houtcome
  cases houtcome with
  | failed _ _ _ _ hfail => cases hfail
  | nullIterator hfirst => simp [hfirst]
  | done hfirst hwf' hstart hend hpaints hmerges _ _ =>
    refine iff_of_true ⟨_, _, rfl, hwf', hstart, hend, fun x => ?_⟩ hfirst
    rw [propertiesAt, hmerges.valAt (hpaints.tiles hwf.tiles),
      hpaints.valAt (fun b hb => hskip _ hb) fun b b' hK h =>
        (congrArg KMemoryBlock.properties (Except.ok.inj h.2)).symm.trans
          (himg _ _ _ (Bool.eq_false_iff.mpr hK))]
    rfl

theorem respects_update (state : KMemoryState) (perm : KMemoryPermission) (attr : KMemoryAttribute)
    (setAttr clearAttr : KMemoryBlockDisableMergeAttribute) :
    Respects (fun b => b.hasProperties state perm attr)
      fun b left _ => .ok (b.update state perm attr left setAttr clearAttr) where
  skip_congr b c h := by simp only [KMemoryBlock.hasProperties, h]
  address := by rintro b l r c ⟨⟩; simp
  numPages := by rintro b l r c ⟨⟩; simp

theorem respects_updateIfMatch (testState state : KMemoryState)
    (testPerm perm : KMemoryPermission) (testAttr attr : KMemoryAttribute) :
    Respects (fun b => !(b.hasProperties testState testPerm testAttr &&
        !b.hasProperties state perm attr))
      fun b _ _ => .ok (b.update state perm attr false .none .none) where
  skip_congr b c h := by simp only [KMemoryBlock.hasProperties, h]
  address := by rintro b l r c ⟨⟩; simp
  numPages := by rintro b l r c ⟨⟩; simp

section updateLock

variable {f : MemoryBlockLockFunction} {perm : KMemoryPermission}

/-- A completed `UpdateLock` over `[a, e)`: every block of the range was replaced
by its image, cut at the ends of the range where necessary, and the result
was coalesced. -/
structure Locks (m : KMemoryBlockManager) (a e : ℕ) (f : MemoryBlockLockFunction)
    (perm : KMemoryPermission) (mid : List KMemoryBlockNode) (m' : KMemoryBlockManager) : Prop where
  wellFormed : m'.WellFormed
  startAddress : m'.startAddress = m.startAddress
  endAddress : m'.endAddress = m.endAddress
  paints : blockShape.Paints a e (fun _ => False)
    (Replaces (fun b left right => f.call b perm left right) a e) m.memoryBlockTree mid
  merges : blockShape.Merges mid m'.memoryBlockTree

theorem respects_lock (f : MemoryBlockLockFunction) (perm : KMemoryPermission) :
    Respects (fun _ => false) fun b left right => f.call b perm left right where
  skip_congr _ _ _ := rfl
  address b l r c h := by rw [(call_eq_ok_iff.mp h).2]; rfl
  numPages b l r c h := by rw [(call_eq_ok_iff.mp h).2]; rfl

theorem Locks.mapsPages {mid : List KMemoryBlockNode} (h : m.Locks a e f perm mid m')
    (hwf : m.WellFormed) : m.MapsPages m' a e (f.onPage perm) where
  wellFormed := h.wellFormed
  startAddress := h.startAddress
  endAddress := h.endAddress
  pages x := by
    rw [propertiesAt, h.merges.valAt (h.paints.tiles hwf.tiles),
      h.paints.valAt (fun _ hb => hb.elim) fun b b' _ hP => ?_]
    · rfl
    · rw [blockShape_val, (call_eq_ok_iff.mp hP.2).2]
      rfl

include hwf hrange hps hneed in
/-- `UpdateLock` completes exactly when the count checks of the lock function
pass on the range. -/
theorem updateLock_cases (f : MemoryBlockLockFunction) (perm : KMemoryPermission) :
    (¬ m.AdmitsLock a (a + numPages * pageSize) f ∧
        ∃ p, m.updateLock alloc a numPages f perm = .error p) ∨
      m.AdmitsLock a (a + numPages * pageSize) f ∧
        ∃ m' mid alloc' ps', m.updateLock alloc a numPages f perm = .ok (m', alloc') ∧
          m.Locks a (a + numPages * pageSize) f perm mid m' ∧ alloc'.Holds ps' ∧
          ∀ x, (pointers m'.memoryBlockTree).count x +
              (ps' ++ alloc'.slabManager.pointers).count x =
            (pointers m.memoryBlockTree).count x + (ps ++ alloc.slabManager.pointers).count x := by
  have houtcome := updateRange_outcome hwf hrange hps hneed (respects_lock f perm)
  change RangeOutcome m a (a + numPages * pageSize) alloc ps _ _
    (m.updateLock alloc a numPages f perm) at houtcome
  generalize hres : m.updateLock alloc a numPages f perm = res at houtcome
  have hsize := Nat.mul_pos hrange.pos pageSize_pos
  cases houtcome with
  | @failed p node ha hlt he hshows hfail =>
    refine .inl ⟨fun hadm => ?_, p, rfl⟩
    -- the piece on which the function failed shows what the tree shows there
    have hok : f.call node.block perm (node.block.address == a)
        (node.block.getEndAddress == a + numPages * pageSize) = .ok _ :=
      call_eq_ok_iff.mpr
        ⟨⟨hadm.page _ _ ha (by omega) (hshows.val _ le_rfl hlt), fun hl => ?_, fun hr => ?_⟩, rfl⟩
    · rw [hok] at hfail
      cases hfail
    · have := hadm.left
      rw [leftMarkAt, ← beq_iff_eq.mp hl] at this
      rwa [← blockShape_lo node, hshows.left] at this
    · have := hadm.right
      rw [rightMarkAt, ← beq_iff_eq.mp hr] at this
      rwa [← blockShape_hi node, hshows.right] at this
  | nullIterator hfirst =>
    obtain ⟨_, _, _, _, h⟩ := hfirst
    cases h
  | @done m' mid alloc' ps' _ hwf' hstart hend hpaints hmerges hps' hcount =>
    have hpaints' := hpaints.congr_keep (J := fun _ => False) (by simp)
    refine .inr ⟨?_, m', mid, alloc', ps', rfl, ⟨hwf', hstart, hend, hpaints', hmerges⟩, hps',
      hcount⟩
    have hle := hrange.le_end
    have hst := hrange.start_le
    -- every page of the range lies in a piece on which the function returned
    have hpiece : ∀ x, a ≤ x → x < a + numPages * pageSize → ∃ b c : KMemoryBlockNode,
        a ≤ b.block.address ∧ b.block.address ≤ x ∧ x < b.block.getEndAddress ∧
        b.block.getEndAddress ≤ a + numPages * pageSize ∧
        blockShape.Shows m.memoryBlockTree b ∧
        f.call b.block perm (b.block.address == a)
          (b.block.getEndAddress == a + numPages * pageSize) = .ok c.block := by
      intro x hax hxe
      obtain ⟨b, c, hP, _, h₁, h₂, h₃, h₄, h₅⟩ :=
        hpaints'.exists_painted hwf.tiles ⟨hax, hxe⟩ (by omega) (by omega)
      exact ⟨b, c, h₁, h₂, h₃, h₄, h₅, hP.2⟩
    refine ⟨fun x v hax hxe hv => ?_, ?_, ?_⟩
    · obtain ⟨b, c, h₁, h₂, h₃, _, hshows, hcall⟩ := hpiece x hax hxe
      rw [propertiesAt, hshows.val x h₂ h₃, Option.some_inj] at hv
      exact hv ▸ (call_eq_ok_iff.mp hcall).1.1
    · obtain ⟨b, c, h₁, h₂, h₃, _, hshows, hcall⟩ := hpiece a le_rfl (by omega)
      have hlo : b.block.address = a := by omega
      have hadm := (call_eq_ok_iff.mp hcall).1.2.1 (beq_iff_eq.mpr hlo)
      rwa [leftMarkAt, ← hlo, ← blockShape_lo b, hshows.left]
    · obtain ⟨b, c, h₁, h₂, h₃, h₄, hshows, hcall⟩ :=
        hpiece (a + numPages * pageSize - 1) (by omega) (by omega)
      have hhi : b.block.getEndAddress = a + numPages * pageSize := by omega
      have hadm := (call_eq_ok_iff.mp hcall).1.2.2 (beq_iff_eq.mpr hhi)
      rwa [rightMarkAt, ← hhi, ← blockShape_hi b, hshows.right]

end updateLock

/-- The three update functions on a well-formed tree. Each completes with the
specified per-page view exactly when the coalescing does not start before the
first block and, for `UpdateLock`, when the count checks of the lock function pass. -/
theorem updates_map_pages_iff (hwf : m.WellFormed) (hrange : m.IsRange a numPages)
    (hps : alloc.Holds ps) (hneed : m.blocksNeeded a (a + numPages * pageSize) ≤ ps.length)
    (state testState : KMemoryState) (perm testPerm lockPerm : KMemoryPermission)
    (attr testAttr : KMemoryAttribute) (hattr : attr &&& PageProperties.attributeIgnoreMask = 0)
    (setAttr clearAttr : KMemoryBlockDisableMergeAttribute) (lockFunc : MemoryBlockLockFunction) :
    ((∃ m' alloc', m.update alloc a numPages state perm attr setAttr clearAttr = .ok (m', alloc') ∧
        m.MapsPages m' a (a + numPages * pageSize) (PageProperties.update state perm attr)) ↔
      ¬ m.StartsInSkippedFirst a fun b => b.hasProperties state perm attr) ∧
    ((∃ m' alloc', m.updateIfMatch alloc a numPages testState testPerm testAttr state perm attr =
          .ok (m', alloc') ∧
        m.MapsPages m' a (a + numPages * pageSize)
          (PageProperties.updateIfMatch testState testPerm testAttr state perm attr)) ↔
      ¬ m.StartsInSkippedFirst a fun b => !(b.hasProperties testState testPerm testAttr &&
        !b.hasProperties state perm attr)) ∧
    ((∃ m' alloc', m.updateLock alloc a numPages lockFunc lockPerm = .ok (m', alloc') ∧
        m.MapsPages m' a (a + numPages * pageSize) (lockFunc.onPage lockPerm)) ↔
      m.AdmitsLock a (a + numPages * pageSize) lockFunc) := by
  have hupdate : ∀ v : PageProperties, v.hasProperties state perm attr = true →
      v.update state perm attr = v := fun v => PageProperties.update_of_hasProperties hattr
  refine ⟨?_, ?_, ?_⟩
  · exact updateRange_total_iff hwf hrange hps hneed (respects_update _ _ _ _ _)
      (fun b => hupdate b.properties) (fun b l r _ => by simp)
  · refine updateRange_total_iff hwf hrange hps hneed (respects_updateIfMatch _ _ _ _ _ _) ?_ ?_
    · -- a block that is passed over fails the test or has the new properties already
      intro b hb
      simp only [KMemoryBlock.hasProperties, Bool.not_eq_true', Bool.and_eq_false_iff,
        Bool.not_eq_false'] at hb
      rw [PageProperties.updateIfMatch]
      split
      · rename_i htest
        exact hupdate _ (hb.resolve_left (by simp [htest]))
      · rfl
    · intro b l r hb
      simp only [KMemoryBlock.hasProperties, Bool.not_eq_false', Bool.and_eq_true] at hb
      rw [KMemoryBlock.properties_update, PageProperties.updateIfMatch, if_pos hb.1]
  · rcases updateLock_cases hwf hrange hps hneed lockFunc lockPerm with
      ⟨hno, p, herr⟩ | ⟨hadm, m', mid, alloc', ps', hok, hlocks, _, _⟩
    · refine iff_of_false ?_ hno
      rintro ⟨m', alloc', hok, _⟩
      rw [herr] at hok
      cases hok
    · exact iff_of_true ⟨m', alloc', hok, hlocks.mapsPages hwf⟩ hadm

/-- An address space of four free pages. -/
def fourFreePages : KMemoryBlockManager where
  memoryBlockTree := [⟨1, .constantInitialize 0x1000 4 KMemoryState.free KMemoryPermission.none
    KMemoryAttribute.none⟩]
  startAddress := 0x1000
  endAddress := 0x5000

/-- A block whose storage has a stale merge count for IPC. -/
def staleBlock : KMemoryBlock :=
  { KMemoryBlock.constantInitialize 0 0 0 0 0 with ipcDisableMergeCount := 1#16 }

/-- An allocator that holds two blocks. -/
def twoBlockAllocator : KMemoryBlockManagerUpdateAllocator := ⟨[some 2, some 3], 0, ⟨[], []⟩⟩

theorem fourFreePages_wellFormed : fourFreePages.WellFormed where
  tiles := by decide
  aligned := by decide
  coalesced := List.isChain_singleton _

theorem twoBlockAllocator_holds : twoBlockAllocator.Holds [2, 3] := ⟨rfl, rfl⟩

theorem update_two_of_fourFreePages :
    ∃ m' alloc', fourFreePages.update twoBlockAllocator 0x2000 2 0x37ebd05
        KMemoryPermission.userReadWrite KMemoryAttribute.none .none .none = .ok (m', alloc') ∧
      fourFreePages.MapsPages m' 0x2000 (0x2000 + 2 * pageSize)
        (PageProperties.update 0x37ebd05 KMemoryPermission.userReadWrite KMemoryAttribute.none) :=
  (updates_map_pages_iff fourFreePages_wellFormed
    ⟨by decide, by decide, by decide, by decide⟩ twoBlockAllocator_holds (by decide) 0x37ebd05 0
    KMemoryPermission.userReadWrite 0 0 KMemoryAttribute.none 0 (by decide) .none .none
    .lockForIpc).1.mpr (by rintro ⟨_, node, ⟨⟩, _, h⟩; exact absurd h (by decide))

/-- Freeing a free page inside the first block: the block is passed over, and the
coalescing takes the predecessor of the first block. -/
theorem update_inside_first_block :
    fourFreePages.WellFormed ∧ fourFreePages.IsRange 0x2000 1 ∧ twoBlockAllocator.Holds [2, 3] ∧
      fourFreePages.update twoBlockAllocator 0x2000 1 KMemoryState.free KMemoryPermission.none
        KMemoryAttribute.none .none .none = .error .nullDereference :=
  ⟨fourFreePages_wellFormed, ⟨by decide, by decide, by decide, by decide⟩,
    twoBlockAllocator_holds, by rfl⟩

end Atmosphere.Kern.KMemoryBlockManager
