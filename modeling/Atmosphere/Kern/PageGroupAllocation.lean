import Atmosphere.Kern.MemoryManagerSpec

/-!
# Allocation of page groups

`AllocatePageGroupImpl` takes blocks from the heaps of a pool, from the largest size
that fits down to single pages. Its loops keep the pages of the group out of the free
set and in the pool. A failed call gives the pages back block by block; this reaches
all of them where no block of the group lies in two managers.
-/

namespace Atmosphere.Kern.KMemoryManager

open KPageHeap Impl
open Finset

variable {base managers managers' : List Impl} {F : Finset ℕ} {c : ℕ → BitVec 16}
  {t : ℕ → Bool} {pool : Pool} {n k i : ℕ} {m : Impl} {s : GroupState} {o : GroupOptions}

/-- A page of the pool. -/
def InPool (managers : List Impl) (pool : Pool) (x : ℕ) : Prop :=
  ∃ m ∈ managers, m.pool = pool ∧ m.Covers x

variable {x : ℕ} {G : Finset ℕ} {g : KPageGroup} {dir : Direction}

theorem InPool.managed (h : InPool base pool x) : Managed base x := by
  obtain ⟨m, hm, _, hx⟩ := h
  exact ⟨m, hm, hx⟩

/-- The page is free in the heap of its manager. -/
def FreeIn (managers : List Impl) (x : ℕ) : Prop :=
  ∃ m ∈ managers, m.Covers x ∧ ∃ k, ∃ a ∈ m.heap.freeBlocks k, x ∈ blockPages k a

theorem ShowsAll.freeIn_iff (h : ShowsAll managers F c t) :
    FreeIn managers x ↔ x ∈ F ∧ Managed managers x := by
  constructor
  · rintro ⟨m, hm, hcov, hfree⟩
    have hmem := ((h.shows_of_mem hm).pages.describes.union x).mpr hfree
    exact ⟨(mem_inter.mp hmem).1, m, hm, hcov⟩
  · rintro ⟨hF, m, hm, hcov⟩
    exact ⟨m, hm, hcov, ((h.shows_of_mem hm).pages.describes.union x).mp
      (mem_inter.mpr ⟨hF, mem_Ico.mpr hcov⟩)⟩

/-- No manager of the pool begins where another one ends with free pages on both sides. -/
def NoFreeSeam (managers : List Impl) (pool : Pool) : Prop :=
  ∀ m ∈ managers, ∀ m' ∈ managers, m.pool = pool → m'.pool = pool → m.last = m'.first →
    ¬ (FreeIn managers (m.last - 1) ∧ FreeIn managers m'.first)

/-- Every block of the group lies in one manager of the pool. -/
def Fits (managers : List Impl) (pool : Pool) (g : KPageGroup) : Prop :=
  ∀ b ∈ g, ∃ m ∈ managers, m.pool = pool ∧ m.first ≤ b.pageIndex ∧ 0 < b.numPages ∧
    b.pageIndex + b.numPages ≤ m.last

/-- The tracked pages after the pages of `G` were allocated: an allocation that is not for
the optimized process takes them out. -/
def untrack (unoptimized : Bool) (t : ℕ → Bool) (G : Finset ℕ) : ℕ → Bool :=
  if unoptimized then setTracked false t G else t

theorem untrack_empty (unoptimized : Bool) : untrack unoptimized t ∅ = t := by
  rw [untrack, setTracked_empty, ite_self]

theorem untrack_of_notMem {unoptimized : Bool} (hx : x ∉ G) : untrack unoptimized t G x = t x := by
  cases unoptimized with
  | false => rfl
  | true => rw [untrack, if_pos rfl, setTracked, if_neg hx]

theorem untrack_union (G G' : Finset ℕ) :
    setTracked false (untrack true t G) G' = untrack true t (G ∪ G') := by
  funext x
  simp only [untrack, setTracked, if_true, mem_union]
  by_cases hx : x ∈ G'
  · rw [if_pos hx, if_pos (.inr hx)]
  · rw [if_neg hx]
    simp only [hx, or_false]

/-- What the loops of `AllocatePageGroupImpl` keep, for a call on `base` for `n` pages
with the free pages `F` and the tracked pages `t`. -/
structure GroupInv (base : List Impl) (F : Finset ℕ) (c : ℕ → BitVec 16) (t : ℕ → Bool)
    (pool : Pool) (n : ℕ) (o : GroupOptions) (s : GroupState) : Prop where
  shows : ShowsAll s.managers (F \ s.group.pages) c (untrack o.unoptimized t s.group.pages)
  regions_eq : regions s.managers = regions base
  sub : s.group.pages ⊆ F
  inPool : ∀ x ∈ s.group.pages, InPool base pool x
  apart : s.group.Apart
  nonempty : ∀ b ∈ s.group, 0 < b.numPages
  numPages : s.group.getNumPages + s.numPages = n
  fits : NoFreeSeam base pool → Fits base pool s.group

/-- No block of size `k` is free in the manager `i`. -/
def NoBlock (managers : List Impl) (F : Finset ℕ) (k i : ℕ) : Prop :=
  ∀ m, managers[i]? = some m → ¬ ∃ p, pageLadder.size k ∣ p ∧
    Ico p (p + pageLadder.size k) ⊆ F ∩ Ico m.first m.last

theorem NoBlock.mono {F' : Finset ℕ} (h : NoBlock managers F k i) (hsub : F' ⊆ F) :
    NoBlock managers F' k i := by
  rintro m hm ⟨p, hp, hall⟩
  exact h m hm ⟨p, hp, hall.trans (inter_subset_inter_right hsub)⟩

/-- A manager has the region and the pool of the one it was. -/
theorem exists_base (h : regions managers = regions base) (hi : managers[i]? = some m) :
    ∃ m₀, base[i]? = some m₀ ∧ m₀.region = m.region := by
  have hget : (regions managers)[i]? = some m.region := by
    rw [regions, List.getElem?_map, hi, Option.map_some]
  rw [h, regions, List.getElem?_map, Option.map_eq_some_iff] at hget
  exact hget

theorem InPool.of_regions (h : InPool managers pool x) (hreg : regions managers = regions base) :
    InPool base pool x := by
  obtain ⟨m, hm, hpool, hx⟩ := h
  obtain ⟨i, hi⟩ := List.getElem?_of_mem hm
  obtain ⟨m₀, hm₀, hregion⟩ := exists_base hreg hi
  exact ⟨m₀, List.mem_of_getElem? hm₀, (pool_eq_of_region hregion).trans hpool,
    (covers_of_region hregion).mpr hx⟩

theorem InPool.unique {pool' : Pool} (h : InPool base pool x) (h' : InPool base pool' x)
    (hshows : ShowsAll base F c t) : pool' = pool := by
  obtain ⟨m, hm, rfl, hx⟩ := h
  obtain ⟨m', hm', rfl, hx'⟩ := h'
  rw [hshows.eq_of_covers hm hm' hx hx']

theorem getBlockNumPages_eq (k : ℕ) : getBlockNumPages k = pageLadder.size k := by
  rw [getBlockNumPages, getBlockSize_eq, Nat.mul_div_cancel _ pageSize_pos]

/-- A block that continues the last one is in the same manager, or it begins with the first page
of its manager, right behind the last page of the other one. -/
theorem Fits.addBlock {g' : KPageGroup} {infos : KBlockInfoManager} {p : ℕ}
    (hshow : ShowsAll base F c t) (hnot : NoFreeSeam base pool) (h : Fits base pool g)
    (hsub : g.pages ⊆ F) (hk : 0 < k) (hm : m ∈ base) (hpool : m.pool = pool)
    (hfirst : m.first ≤ p) (hlast : p + k ≤ m.last) (hp : p ∈ F)
    (hadd : KPageGroup.addBlock g infos (p * pageSize) k = .ok g') : Fits base pool g' := by
  refine KPageGroup.addBlock_forall hk h ⟨m, hm, hpool, hfirst, hk, hlast⟩ ?_ hadd
  rintro b hb ⟨m₁, hm₁, hpool₁, hfirst₁, hpos, hlast₁⟩ hend
  have hends : m₁.last ≠ m.first := by
    intro heq
    have hp' : p = m.first := by omega
    have hlastPage : m₁.last - 1 ∈ F :=
      hsub (KPageGroup.mem_pages.mpr ⟨b, hb, mem_Ico.mpr ⟨by omega, by omega⟩⟩)
    exact hnot m₁ hm₁ m hm hpool₁ hpool heq
      ⟨hshow.freeIn_iff.mpr ⟨hlastPage, m₁, hm₁, by omega, by omega⟩,
        hshow.freeIn_iff.mpr ⟨hp' ▸ hp, m, hm, le_rfl, by omega⟩⟩
  -- the last page of the block or the first new page is a page of both managers
  have heq : m₁ = m := by
    by_cases hp : p < m₁.last
    · exact hshow.eq_of_covers hm₁ hm ⟨by omega, hp⟩ ⟨hfirst, by omega⟩
    · exact hshow.eq_of_covers hm₁ hm (x := p - 1) ⟨by omega, by omega⟩ ⟨by omega, by omega⟩
  refine ⟨m₁, hm₁, hpool₁, hfirst₁, Nat.add_pos_left hpos k, ?_⟩
  change b.pageIndex + (b.numPages + k) ≤ m₁.last
  rw [heq]
  omega

/-- A block of free pages is taken from manager `i` and added to the group. -/
theorem GroupInv.addBlock (hbase : ShowsAll base F c t) (h : GroupInv base F c t pool n o s) {p : ℕ}
    (hpool : m.pool = pool) (hi : s.managers[i]? = some m) (hle : pageLadder.size k ≤ s.numPages)
    (hin : ∀ x, p ≤ x → x < p + pageLadder.size k → x ∈ F \ s.group.pages ∧ m.Covers x)
    {m' : Impl} (hregion : m'.region = m.region)
    (hshows : m'.Shows ((F \ s.group.pages) \ Ico p (p + pageLadder.size k)) c
      (untrack o.unoptimized t (s.group.pages ∪ Ico p (p + pageLadder.size k))))
    {group : KPageGroup}
    (hadd : s.group.addBlock o.infos (p * pageSize) (pageLadder.size k) = .ok group) :
    GroupInv base F c t pool n o
      { managers := s.managers.set i m'
        group := group
        numPages := s.numPages - pageLadder.size k } ∧ s.group.pages ⊆ group.pages := by
  have hsize := pageLadder.size_pos k
  have hcov : ∀ x ∈ Ico p (p + pageLadder.size k), x ∈ F \ s.group.pages ∧ m.Covers x :=
    fun x hx => hin x (mem_Ico.mp hx).1 (mem_Ico.mp hx).2
  obtain ⟨m₀, hm₀, hregion₀⟩ := exists_base h.regions_eq hi
  have hpool₀ : m₀.pool = pool := (pool_eq_of_region hregion₀).trans hpool
  have hdisj : Disjoint (Ico p (p + pageLadder.size k)) s.group.pages :=
    disjoint_left.mpr fun x hx => (mem_sdiff.mp (hcov x hx).1).2
  obtain ⟨hapart, hpages, hnum⟩ := KPageGroup.addBlock_spec hsize h.apart hdisj hadd
  refine ⟨?_, hpages ▸ subset_union_left⟩
  constructor
  · rw [hpages]
    have hsdiff : F \ (s.group.pages ∪ Ico p (p + pageLadder.size k)) =
        (F \ s.group.pages) \ Ico p (p + pageLadder.size k) := by
      rw [← sup_eq_union, ← sdiff_sdiff_left]
    rw [hsdiff]
    refine h.shows.set hi hshows hregion fun x hx => ?_
    have hout : x ∉ Ico p (p + pageLadder.size k) := fun hmem => hx (hcov x hmem).2
    refine ⟨?_, rfl, ?_⟩
    · rw [mem_sdiff]
      exact and_iff_left hout
    · by_cases hg : x ∈ s.group.pages
      · cases o.unoptimized with
        | false => rfl
        | true => simp only [untrack, setTracked, if_true, mem_union, hg, true_or]
      · rw [untrack_of_notMem hg, untrack_of_notMem (notMem_union.mpr ⟨hg, hout⟩)]
  · exact (regions_set hi hregion).trans h.regions_eq
  · rw [hpages]
    exact union_subset h.sub fun x hx => (mem_sdiff.mp (hcov x hx).1).1
  · intro x hx
    rw [hpages, mem_union] at hx
    obtain hx | hx := hx
    · exact h.inPool x hx
    · exact ⟨m₀, List.mem_of_getElem? hm₀, hpool₀, (covers_of_region hregion₀).mpr (hcov x hx).2⟩
  · exact hapart
  · exact KPageGroup.addBlock_forall hsize h.nonempty hsize
      (fun _ _ _ _ => Nat.add_pos_right _ hsize) hadd
  · change group.getNumPages + (s.numPages - pageLadder.size k) = n
    rw [← h.numPages]
    omega
  · intro hnot
    have hfirst := (hin p le_rfl (by omega)).2.1
    have hlast := (hin (p + pageLadder.size k - 1) (by omega) (by omega)).2.2
    refine (h.fits hnot).addBlock hbase hnot h.sub hsize (List.mem_of_getElem? hm₀) hpool₀ ?_ ?_
      (mem_sdiff.mp (hin p le_rfl (by omega)).1).1 hadd
    · rwa [first_eq_of_region hregion₀]
    · rw [last_eq_of_region hregion₀]
      omega

/-- A manager is replaced by one that shows the same. -/
theorem GroupInv.setManager (h : GroupInv base F c t pool n o s) {m' : Impl}
    (hi : s.managers[i]? = some m) (hregion : m'.region = m.region)
    (hshows : m'.Shows (F \ s.group.pages) c (untrack o.unoptimized t s.group.pages)) :
    GroupInv base F c t pool n o { s with managers := s.managers.set i m' } :=
  ⟨h.shows.set hi hshows hregion fun _ _ => ⟨Iff.rfl, rfl, rfl⟩,
    (regions_set hi hregion).trans h.regions_eq, h.sub, h.inPool, h.apart, h.nonempty, h.numPages,
    h.fits⟩

/-- What a loop of `AllocatePageGroupImpl` does for size `k` in the managers `indices`:
it stops with an error only where the block information ran out, and otherwise when
fewer pages are needed or no block is left. -/
structure LoopOutcome (base : List Impl) (F : Finset ℕ) (c : ℕ → BitVec 16) (t : ℕ → Bool)
    (pool : Pool) (n k : ℕ) (o : GroupOptions) (indices : List ℕ) (s : GroupState)
    (r : Except SvcResult Unit × GroupState) : Prop where
  inv : GroupInv base F c t pool n o r.2
  numPages_le : r.2.numPages ≤ s.numPages
  pages_sub : s.group.pages ⊆ r.2.group.pages
  error : ∀ e, r.1 = .error e → ∃ j < n, o.infos j = false
  done : r.1 = .ok () → r.2.numPages < pageLadder.size k ∨
    ∀ i ∈ indices, NoBlock base (F \ r.2.group.pages) k i

theorem LoopOutcome.unchanged {indices : List ℕ} (h : GroupInv base F c t pool n o s)
    (hdone : s.numPages < pageLadder.size k ∨ ∀ i ∈ indices, NoBlock base (F \ s.group.pages) k i) :
    LoopOutcome base F c t pool n k o indices s (.ok (), s) :=
  ⟨h, le_rfl, Subset.refl _, fun e he => by simp at he, fun _ => hdone⟩

section

variable (hbase : ShowsAll base F c t) (h : GroupInv base F c t pool n o s)
include hbase h

/-- The loop over blocks of one size from one manager. -/
theorem allocateBlocks_outcome (hk : k < 7) (hpool : ∀ m, base[i]? = some m → m.pool = pool)
    {fuel : ℕ} (hfuel : s.numPages ≤ fuel) :
    LoopOutcome base F c t pool n k o [i] s (allocateBlocks o k i fuel s) := by
  have hsize := pageLadder.size_pos k
  induction fuel generalizing s with
  | zero => exact .unchanged h (.inl (hfuel.trans_lt hsize))
  | succ fuel ih =>
    rw [allocateBlocks, getBlockNumPages_eq]
    by_cases hle : pageLadder.size k ≤ s.numPages
    · rw [if_pos hle]
      cases hi : s.managers[i]? with
      | none =>
        refine .unchanged h (.inr ?_)
        intro j hj m hm
        obtain rfl := List.mem_singleton.mp hj
        obtain ⟨m₁, hm₁, _⟩ := exists_base h.regions_eq.symm hm
        rw [hi] at hm₁
        cases hm₁
      | some m =>
        obtain ⟨m₀, hm₀, hregion₀⟩ := exists_base h.regions_eq hi
        have hmpool : m.pool = pool := (pool_eq_of_region hregion₀).symm.trans (hpool m₀ hm₀)
        obtain ⟨hnull, hnone, hshows⟩ | ⟨p, hp, hne, _, hin, hshows⟩ :=
          (h.shows.each hi).allocateBlock hk o.random
        · simp only [hnull]
          refine ⟨h.setManager hi rfl hshows, le_rfl, Subset.refl _,
            fun e he => by simp at he, fun _ => .inr ?_⟩
          intro j hj m₁ hm₁
          obtain rfl := List.mem_singleton.mp hj
          obtain rfl := Option.some.inj (hm₀.symm.trans hm₁)
          rwa [first_eq_of_region hregion₀, last_eq_of_region hregion₀]
        · rw [hp] at hne
          simp only [hp, if_neg hne]
          cases hadd : s.group.addBlock o.infos (p * pageSize) (pageLadder.size k) with
          | error e =>
            -- the block goes back to the heap it came from
            have hsub : Ico p (p + pageLadder.size k) ⊆ F \ s.group.pages :=
              fun x hx => (hin x (mem_Ico.mp hx).1 (mem_Ico.mp hx).2).1
            have hback := hshows.free fun x hx hx' =>
              ⟨(hin x hx hx').2, fun hmem =>
                (mem_sdiff.mp hmem).2 (mem_Ico.mpr ⟨hx, hx'⟩)⟩
            rw [sdiff_union_of_subset hsub] at hback
            refine ⟨h.setManager hi rfl hback, le_rfl, Subset.refl _,
              fun _ _ => ⟨s.group.length, ?_, ?_⟩, fun hok => by simp at hok⟩
            · have hblocks := KPageGroup.length_le_getNumPages h.nonempty
              have hsum := h.numPages
              omega
            · exact KPageGroup.infos_of_addBlock_error hsize hadd
          | ok group =>
            have hnext : ∀ m' : Impl, m'.region = m.region →
                m'.Shows ((F \ s.group.pages) \ Ico p (p + pageLadder.size k)) c
                  (untrack o.unoptimized t (s.group.pages ∪ Ico p (p + pageLadder.size k))) →
                LoopOutcome base F c t pool n k o [i] s (allocateBlocks o k i fuel
                  { managers := s.managers.set i m'
                    group := group
                    numPages := s.numPages - pageLadder.size k }) := by
              intro m' hregion hm'
              obtain ⟨hadded, hgrows⟩ := h.addBlock hbase hmpool hi hle hin hregion hm' hadd
              obtain ⟨hinv, hnum, hsub, herror, hdone⟩ := ih hadded (by change _ - _ ≤ _; omega)
              exact ⟨hinv, hnum.trans (Nat.sub_le _ _), hgrows.trans hsub, herror, hdone⟩
            by_cases hun : o.unoptimized = true
            · simp only [hun]
              refine hnext _ rfl ?_
              have htrack := hshows.track (n := pageLadder.size k) writes_clear
                (hin p le_rfl (by omega)).2.1
              rwa [hun, untrack_union, ← hun] at htrack
            · simp only [hun, Bool.false_eq_true]
              refine hnext _ rfl ?_
              rw [untrack, if_neg hun] at hshows ⊢
              exact hshows
    · rw [if_neg hle]
      exact .unchanged h (.inl (Nat.lt_of_not_le hle))

variable {indices : List ℕ} (hpool : ∀ i ∈ indices, ∀ m, base[i]? = some m → m.pool = pool)
include hpool

/-- The loop over the managers of the pool. -/
theorem allocateLevel_outcome (hk : k < 7) :
    LoopOutcome base F c t pool n k o indices s (allocateLevel o k indices s) := by
  induction indices generalizing s with
  | nil => exact .unchanged h (.inr fun i hi => absurd hi List.not_mem_nil)
  | cons i rest ih =>
    have hfirst := allocateBlocks_outcome hbase h hk (hpool i (.head _)) le_rfl
    rw [allocateLevel]
    generalize allocateBlocks o k i s.numPages s = r at hfirst ⊢
    obtain ⟨result, s₁⟩ := r
    obtain ⟨hinv, hnum, hsub, herror, hdone⟩ := hfirst
    cases result with
    | error e => exact ⟨hinv, hnum, hsub, herror, fun hok => by simp at hok⟩
    | ok _ =>
      obtain ⟨hinv', hnum', hsub', herror', hdone'⟩ := ih hinv
        fun j hj => hpool j (.tail _ hj)
      refine ⟨hinv', hnum'.trans hnum, hsub.trans hsub', herror', fun hok => ?_⟩
      obtain hlt | hnone := hdone rfl
      · exact .inl (hnum'.trans_lt hlt)
      · obtain hlt | hrest := hdone' hok
        · exact .inl hlt
        · refine .inr fun j hj => ?_
          obtain rfl | hj := List.mem_cons.mp hj
          · exact (hnone j (List.mem_singleton_self j)).mono (sdiff_subset_sdiff
              (Subset.refl F) hsub')
          · exact hrest j hj

/-- The loop over the sizes: without an error, all pages were allocated or the managers
have no free page left. -/
theorem allocateLevels_outcome (hk : k ≤ 7) (hdone : k = 0 → s.numPages < pageLadder.size 0 ∨
      ∀ i ∈ indices, NoBlock base (F \ s.group.pages) 0 i) :
    LoopOutcome base F c t pool n 0 o indices s (allocateLevels o indices k s) := by
  induction k generalizing s with
  | zero => exact .unchanged h (hdone rfl)
  | succ k ih =>
    rw [allocateLevels]
    by_cases hpos : s.numPages > 0
    · rw [if_pos hpos]
      have hlevel := allocateLevel_outcome hbase h hpool hk
      generalize allocateLevel o k indices s = r at hlevel ⊢
      obtain ⟨result, s₁⟩ := r
      obtain ⟨hinv, hnum, hsub, herror, hdone⟩ := hlevel
      cases result with
      | error e => exact ⟨hinv, hnum, hsub, herror, fun hok => by simp at hok⟩
      | ok _ =>
        obtain ⟨hinv', hnum', hsub', herror', hdone'⟩ := ih hinv (by omega)
          fun hzero => hzero ▸ hdone rfl
        exact ⟨hinv', hnum'.trans hnum, hsub.trans hsub', herror', hdone'⟩
    · rw [if_neg hpos]
      refine .unchanged h (.inl ?_)
      rw [pageLadder.size_zero]
      omega

end

/-! ## The pages of a pool -/

theorem mem_poolManagers :
    i ∈ poolManagers managers pool dir ↔ ∃ m, managers[i]? = some m ∧ m.pool = pool := by
  have hmem : i ∈ (List.range managers.length).filter
      (fun i => (managers[i]?.map Impl.pool) = some pool) ↔
      ∃ m, managers[i]? = some m ∧ m.pool = pool := by
    simp only [List.mem_filter, List.mem_range, decide_eq_true_eq, Option.map_eq_some_iff]
    refine and_iff_right_of_imp ?_
    rintro ⟨m, hm, _⟩
    exact (List.getElem?_eq_some_iff.mp hm).1
  cases dir with
  | fromFront => exact hmem
  | fromBack => exact List.mem_reverse.trans hmem

theorem sum_card_le {L : List (Finset ℕ)} (hdisj : L.Pairwise Disjoint) (hsub : ∀ t ∈ L, t ⊆ G) :
    (L.map card).sum ≤ G.card := by
  induction L generalizing G with
  | nil => exact Nat.zero_le _
  | cons t L ih =>
    obtain ⟨hhead, hrest⟩ := List.pairwise_cons.mp hdisj
    have hle := ih hrest fun t' ht' =>
      subset_sdiff.mpr ⟨hsub t' (.tail _ ht'), (hhead t' ht').symm⟩
    have ht : t ⊆ G := hsub t (.head _)
    rw [card_sdiff_of_subset ht] at hle
    have := card_le_card ht
    rw [List.map_cons, List.sum_cons]
    omega

/-- The free pages in the region of a manager. -/
theorem pairwise_disjoint (h : ShowsAll managers F c t) :
    (managers.map fun m => F ∩ Ico m.first m.last).Pairwise Disjoint := by
  rw [List.pairwise_map, List.pairwise_iff_getElem]
  intro i j hi hj hij
  rw [disjoint_left]
  intro x hx hx'
  have hlt := h.apart (List.getElem?_eq_getElem hi) (List.getElem?_eq_getElem hj)
    (mem_Ico.mp (mem_inter.mp hx).2) (mem_Ico.mp (mem_inter.mp hx').2)
  omega

/-- Where no page of the pool is free but those of `G`, the pool has at most the size
of `G` free. -/
theorem getFreeSize_le (h : ShowsAll base F c t)
    (hnone : ∀ i ∈ poolManagers base pool dir, NoBlock base (F \ G) 0 i) :
    getFreeSize base pool ≤ G.card * pageSize := by
  have hfree : ∀ m ∈ base.filter (fun m => m.pool = pool),
      m.heap.getNumFreePages * pageSize = (F ∩ Ico m.first m.last).card * pageSize := by
    intro m hm
    rw [(h.shows_of_mem (List.mem_of_mem_filter hm)).pages.describes.numFreePages]
  rw [getFreeSize, List.map_congr_left hfree]
  have hsum : ((base.filter fun m => m.pool = pool).map fun m =>
      (F ∩ Ico m.first m.last).card).sum ≤ G.card := by
    have hle := sum_card_le (G := G) (L := (base.filter fun m => m.pool = pool).map fun m =>
      F ∩ Ico m.first m.last) ?_ ?_
    · rwa [List.map_map] at hle
    · exact (pairwise_disjoint h).sublist (List.filter_sublist.map _)
    · intro t ht
      obtain ⟨m, hm, rfl⟩ := List.mem_map.mp ht
      obtain ⟨hm, hpool⟩ := List.mem_filter.mp hm
      obtain ⟨i, hi⟩ := List.getElem?_of_mem hm
      intro x hx
      by_contra hG
      refine hnone i (mem_poolManagers.mpr ⟨m, hi, by simpa using hpool⟩) m hi
        ⟨x, by rw [pageLadder.size_zero]; exact Nat.one_dvd x, ?_⟩
      rw [pageLadder.size_zero]
      intro y hy
      obtain rfl : y = x := by
        rw [mem_Ico] at hy
        omega
      obtain ⟨hxF, hxI⟩ := mem_inter.mp hx
      exact mem_inter.mpr ⟨mem_sdiff.mpr ⟨hxF, hG⟩, hxI⟩
  calc ((base.filter fun m => m.pool = pool).map fun m =>
        (F ∩ Ico m.first m.last).card * pageSize).sum
      = ((base.filter fun m => m.pool = pool).map fun m =>
        (F ∩ Ico m.first m.last).card).sum * pageSize := by rw [List.sum_map_mul_right]
    _ ≤ G.card * pageSize := Nat.mul_le_mul_right _ hsum

/-! ## The end of the call -/

/-- The blocks of a failed group go back, each to the manager of its first page. All pages
go back where every block lies in one manager. -/
theorem freeGroup_spec {F₀ : Finset ℕ} {t₀ : ℕ → Bool} (hbase : ShowsAll base F₀ c t₀)
    (pool : Pool) (h : ShowsAll managers F c t) (hreg : regions managers = regions base)
    (hapart : g.Apart) (hman : ∀ b ∈ g, 0 < b.numPages ∧ Managed base b.pageIndex)
    (hdisj : Disjoint F g.pages) :
    ∃ managers' F', freeGroup g managers = .ok managers' ∧ ShowsAll managers' F' c t ∧
      regions managers' = regions base ∧ F' ⊆ F ∪ g.pages ∧
      (Fits base pool g → F' = F ∪ g.pages) := by
  induction g generalizing F managers with
  | nil =>
    refine ⟨managers, F, rfl, h, hreg, ?_, fun _ => ?_⟩
    · exact subset_union_left
    · rw [KPageGroup.pages, union_empty]
  | cons b rest ih =>
    obtain ⟨hhead, hrest⟩ := List.pairwise_cons.mp hapart
    obtain ⟨hpos, m₀, hm₀, hcov₀⟩ := hman b (.head _)
    obtain ⟨i, hi₀⟩ := List.getElem?_of_mem hm₀
    obtain ⟨m, hi, hregion⟩ := exists_base hreg.symm hi₀
    have hcov : m.Covers b.pageIndex := (covers_of_region hregion).mpr hcov₀
    have hfirst := hcov.1
    obtain ⟨l, hl⟩ : ∃ l, l = min b.numPages (m.last - b.pageIndex) := ⟨_, rfl⟩
    have hin : ∀ x, b.pageIndex ≤ x → x < b.pageIndex + l → m.Covers x ∧ x ∉ F :=
      fun x hx hx' => ⟨⟨by omega, by omega⟩, fun hF => disjoint_left.mp hdisj hF
        (mem_union_left _ (mem_Ico.mpr ⟨hx, by omega⟩))⟩
    have hpart : Ico b.pageIndex (b.pageIndex + l) ⊆ b.pages :=
      Ico_subset_Ico_right (by omega)
    have hset := h.set hi ((h.each hi).free hin) rfl fun x hx => ⟨by
      rw [mem_union]
      exact or_iff_left fun hI => hx (hin x (mem_Ico.mp hI).1 (mem_Ico.mp hI).2).1,
      rfl, rfl⟩
    have hregs : regions (managers.set i (m.free (b.pageIndex * pageSize) l)) = regions base := by
      have hsame : (m.free (b.pageIndex * pageSize) l).region = m.region := rfl
      exact (regions_set hi hsame).trans hreg
    have hdisj' : Disjoint (F ∪ Ico b.pageIndex (b.pageIndex + l)) (KPageGroup.pages rest) := by
      rw [KPageGroup.pages, disjoint_union_right] at hdisj
      exact disjoint_union_left.mpr ⟨hdisj.2,
        (KPageGroup.disjoint_pages_iff.mpr hhead).mono_left hpart⟩
    obtain ⟨managers', F', hrun, hshows, hreg', hsub, hall⟩ := ih hset hregs hrest
      (fun b' hb' => hman b' (.tail _ hb')) hdisj'
    refine ⟨managers', F', ?_, hshows, hreg', ?_, fun hfits => ?_⟩
    · rw [freeGroup, KBlockInfo.getAddress, h.getManager_eq hi hcov]
      have hend := (h.each hi).getPageOffsetToEnd b.pageIndex
      rw [KPageHeap.getPageOffsetToEnd] at hend
      simp only [hi, hend, KBlockInfo.getNumPages, ← hl]
      exact hrun
    · refine hsub.trans ?_
      rw [KPageGroup.pages, ← union_assoc]
      exact union_subset_union_left (union_subset_union_right hpart)
    · have hb : Ico b.pageIndex (b.pageIndex + l) = b.pages := by
        obtain ⟨m₁, hm₁, _, hfirst₁, _, hlast₁⟩ := hfits b (.head _)
        obtain rfl := hbase.eq_of_covers hm₀ hm₁ hcov₀ ⟨hfirst₁, by omega⟩
        rw [← last_eq_of_region hregion] at hlast₁
        rw [KBlockInfo.pages, show l = b.numPages by omega]
      rw [hall fun b' hb' => hfits b' (.tail _ hb'), hb, KPageGroup.pages,
        union_assoc]

/-- The counts after the first references to a group were opened. -/
def openedCounts (c : ℕ → BitVec 16) (G : Finset ℕ) (x : ℕ) : BitVec 16 :=
  if x ∈ G then c x + 1 else c x

theorem openedCounts_nil : openedCounts c (KPageGroup.pages []) = c :=
  funext fun x => if_neg (notMem_empty x)

/-- `OpenFirst` of the blocks of a group of managed pages without references. -/
theorem openFirstGroup_spec (h : ShowsAll managers F c t) (hapart : g.Apart)
    (hzero : ∀ x ∈ g.pages, Managed managers x ∧ c x = 0) :
    ∃ managers', openFirstGroup g managers = .ok managers' ∧
      ShowsAll managers' F (openedCounts c g.pages) t ∧ regions managers' = regions managers := by
  induction g generalizing c managers with
  | nil =>
    refine ⟨managers, rfl, ?_, rfl⟩
    rwa [openedCounts_nil]
  | cons b rest ih =>
    obtain ⟨hhead, hrest⟩ := List.pairwise_cons.mp hapart
    have hdisj : Disjoint b.pages (KPageGroup.pages rest) :=
      KPageGroup.disjoint_pages_iff.mpr hhead
    obtain ⟨ms, hopen, hshows, hreg⟩ := h.openFirst
      fun x hx hx' => hzero x (mem_union_left _ (mem_Ico.mpr ⟨hx, hx'⟩))
    have hsame : ∀ x ∉ b.pages,
        changeCounts (· + 1) c b.pageIndex (b.pageIndex + b.numPages) x = c x :=
      fun x hx => changeCounts_outside fun hx' => hx (mem_Ico.mpr hx')
    obtain ⟨managers', hrun, hshows', hreg'⟩ := ih hshows hrest fun x hx => by
      rw [managed_of_regions hreg, hsame x (disjoint_right.mp hdisj hx)]
      exact hzero x (mem_union_right _ hx)
    refine ⟨managers', ?_, ?_, hreg'.trans hreg⟩
    · exact bind_eq_ok.mpr ⟨ms, hopen, hrun⟩
    · convert hshows' using 1
      funext x
      simp only [openedCounts, KPageGroup.pages, mem_union]
      by_cases hx : x ∈ b.pages
      · rw [if_pos (.inl hx), if_neg (disjoint_left.mp hdisj hx), changeCounts,
          if_pos (mem_Ico.mp hx)]
      · rw [hsame x hx]
        simp only [hx, false_or]

/-- When the failure path of a page-group allocation is sound: it frees all pages where no free
pages meet at the border of two managers, and is not taken where the pool has the pages and the
block information does not run out. -/
def GroupSafe (managers : List Impl) (infos : KBlockInfoManager) (n : ℕ) (pool : Pool) : Prop :=
  NoFreeSeam managers pool ∨ n * pageSize ≤ getFreeSize managers pool ∧ ∀ j < n, infos j = true

theorem lt_of_blockIndexBelow {j : ℕ} (h : blockIndexBelow n j = some i) : i < j := by
  induction j with
  | zero => simp [blockIndexBelow] at h
  | succ j ih =>
    rw [blockIndexBelow] at h
    split at h
    · obtain rfl := Option.some.inj h
      exact Nat.lt_succ_self _
    · exact Nat.lt_succ_of_lt (ih h)

/-- A call that fails in a safe state is one whose pages can all be given back. -/
theorem GroupSafe.noFreeSeam {result : Except SvcResult Unit} {e : SvcResult}
    (h : ShowsAll base F c t) (hsafe : GroupSafe base o.infos n pool)
    (hloops : LoopOutcome base F c t pool n 0 o (poolManagers base pool dir)
      { managers := base, group := [], numPages := n } (result, s))
    (hfail : groupResult result s = .error e) : NoFreeSeam base pool := by
  obtain hnot | ⟨henough, hinfos⟩ := hsafe
  · exact hnot
  · cases result with
    | error e' =>
      obtain ⟨j, hlt, hj⟩ := hloops.error e' rfl
      rw [hinfos j hlt] at hj
      cases hj
    | ok _ =>
      -- all free pages of the pool are in the group, which then has enough
      have hle : n * pageSize ≤ s.group.pages.card * pageSize := by
        obtain hlt | hnone := hloops.done rfl
        · have hzero : s.numPages = 0 := Nat.lt_one_iff.mp hlt
          simp [groupResult, hzero] at hfail
        · exact henough.trans (getFreeSize_le h hnone)
      have hle := Nat.le_of_mul_le_mul_right hle pageSize_pos
      have hinv : GroupInv base F c t pool n o s := hloops.inv
      rw [hinv.apart.card_pages, ← hinv.numPages] at hle
      have hzero : s.numPages = 0 := by omega
      simp [groupResult, hzero] at hfail

/-- `AllocatePageGroupImpl` gives a group of `n` free pages of the pool, or an error; in a
safe state an error changes no free page. -/
theorem allocatePageGroupImpl_spec (h : ShowsAll base F c t) (o : GroupOptions) (n : ℕ)
    (pool : Pool) (dir : Direction) :
    ∃ r managers', allocatePageGroupImpl base o n pool dir = .ok (r, managers') ∧
      regions managers' = regions base ∧
      ((∃ e F' G, r = .error e ∧ F' ⊆ F ∧ (GroupSafe base o.infos n pool → F' = F) ∧
          ShowsAll managers' F' c (untrack o.unoptimized t G)) ∨
        ∃ g : KPageGroup, r = .ok g ∧ g.Apart ∧ g.getNumPages = n ∧ g.pages ⊆ F ∧
          (∀ x ∈ g.pages, InPool base pool x) ∧
          ShowsAll managers' (F \ g.pages) c (untrack o.unoptimized t g.pages)) := by
  rw [allocatePageGroupImpl]
  cases hindex : getBlockIndex n with
  | none =>
    refine ⟨_, _, rfl, rfl, .inl ⟨_, F, ∅, rfl, Subset.refl F, fun _ => rfl, ?_⟩⟩
    rwa [untrack_empty]
  | some heapIndex =>
    have hlt : heapIndex < 7 := lt_of_blockIndexBelow hindex
    have hstart : GroupInv base F c t pool n o
        { managers := base, group := [], numPages := n } := by
      refine ⟨?_, rfl, empty_subset F, fun x hx => absurd hx (notMem_empty x),
        List.Pairwise.nil, fun b hb => absurd hb List.not_mem_nil, Nat.zero_add n,
        fun _ b hb => absurd hb List.not_mem_nil⟩
      change ShowsAll base (F \ ∅) c (untrack o.unoptimized t ∅)
      rwa [sdiff_empty, untrack_empty]
    have hloops := allocateLevels_outcome h hstart
      (fun i (hi : i ∈ poolManagers base pool dir) m hm => by
        obtain ⟨m', hm', hpool⟩ := mem_poolManagers.mp hi
        obtain rfl := Option.some.inj (hm.symm.trans hm')
        exact hpool) hlt fun hzero => absurd hzero (Nat.succ_ne_zero _)
    simp only
    generalize allocateLevels o (poolManagers base pool dir) (heapIndex + 1) _ = r at hloops ⊢
    obtain ⟨result, s⟩ := r
    have hinv : GroupInv base F c t pool n o s := hloops.inv
    rw [finishGroup]
    cases hres : groupResult result s with
    | ok g =>
      cases result with
      | error e => simp [groupResult] at hres
      | ok _ =>
        rw [groupResult] at hres
        split at hres
        · obtain rfl := Except.ok.inj hres
          refine ⟨_, _, rfl, hinv.regions_eq, .inr ⟨_, rfl, hinv.apart, ?_, hinv.sub,
            hinv.inPool, hinv.shows⟩⟩
          have := hinv.numPages
          omega
        · cases hres
    | error e =>
      obtain ⟨managers', F', hfree, hshows, hreg, hsub, hall⟩ := freeGroup_spec h pool
        hinv.shows hinv.regions_eq hinv.apart (fun b hb => ⟨hinv.nonempty b hb,
          (hinv.inPool _ (KPageGroup.mem_pages.mpr ⟨b, hb, mem_Ico.mpr
            ⟨le_rfl, Nat.lt_add_of_pos_right (hinv.nonempty b hb)⟩⟩)).managed⟩)
        sdiff_disjoint
      rw [sdiff_union_of_subset hinv.sub] at hsub hall
      exact ⟨_, managers', bind_eq_ok.mpr ⟨managers', hfree, rfl⟩, hreg, .inl ⟨e, F', _, rfl,
        hsub, fun hsafe => hall (hinv.fits (hsafe.noFreeSeam h hloops hres)), hshows⟩⟩

end Atmosphere.Kern.KMemoryManager
