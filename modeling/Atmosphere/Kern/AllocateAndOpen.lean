import Atmosphere.Kern.PageGroupAllocation

/-!
# Allocations with their first reference

`AllocateAndOpenContinuous`, `AllocateAndOpen` and `AllocateAndOpenForProcess` take free
pages, open the first reference to them and keep the bitmap of the optimized process:
pages for anyone else are taken out of it, pages for the optimized process are filled
if they are not in it.
-/

namespace Atmosphere.Kern.KMemoryManager

open KPageHeap Impl
open Finset

variable {base managers managers' : List Impl} {F : Finset ℕ} {c : ℕ → BitVec 16}
  {t : ℕ → Bool} {pool : Pool} {dir : Direction} {n k i : ℕ}

/-! ## Continuous allocation -/

theorem alignedBlockIndexFrom_spec {target j : ℕ} {shifts : List ℕ}
    (h : alignedBlockIndexFrom target j shifts = some k) :
    j ≤ k ∧ k < j + shifts.length ∧ ∀ shift, shifts[k - j]? = some shift →
      target ≤ 1 <<< shift / pageSize := by
  induction shifts generalizing j with
  | nil => simp [alignedBlockIndexFrom] at h
  | cons shift rest ih =>
    rw [alignedBlockIndexFrom] at h
    split at h
    · obtain rfl := Option.some.inj h
      rename_i hle
      refine ⟨le_rfl, by simp, fun shift' hshift => ?_⟩
      rw [Nat.sub_self] at hshift
      exact Option.some.inj hshift ▸ hle
    · obtain ⟨hle, hlt, hall⟩ := ih h
      refine ⟨by omega, by rw [List.length_cons]; omega, fun shift' hshift => hall shift' ?_⟩
      rwa [show k - j = (k - (j + 1)) + 1 by omega, List.getElem?_cons_succ] at hshift

/-- The index of `GetAlignedBlockIndex` is that of large enough blocks. -/
theorem getAlignedBlockIndex_spec {a : ℕ} (h : getAlignedBlockIndex n a = some k) :
    k < 7 ∧ max n a ≤ pageLadder.size k := by
  obtain ⟨_, hlt, hall⟩ := alignedBlockIndexFrom_spec h
  have hget : memoryBlockPageShifts[k - 0]? = some (shiftAt k) := by
    rw [Nat.sub_zero, shiftAt, List.getD_eq_getElem?_getD, List.getElem?_eq_getElem hlt,
      Option.getD_some]
  have hle := hall _ hget
  rw [Nat.one_shiftLeft, two_pow_shiftAt, Nat.mul_div_cancel _ pageSize_pos] at hle
  exact ⟨hlt, hle⟩

/-- The search for a manager with a free block. -/
theorem allocateFirst_spec (hk : k < 7) (indices : List ℕ) (h : ShowsAll managers F c t)
    (hvalid : ∀ i ∈ indices, ∃ m, managers[i]? = some m) :
    (∃ managers', allocateFirst k indices managers = (none, managers') ∧
        ShowsAll managers' F c t ∧ regions managers' = regions managers) ∨
      ∃ i m p managers', allocateFirst k indices managers = (some (i, p * pageSize), managers') ∧
        i ∈ indices ∧ managers'[i]? = some m ∧ p * pageSize ≠ 0 ∧ pageLadder.size k ∣ p ∧
        (∀ x, p ≤ x → x < p + pageLadder.size k → x ∈ F ∧ m.Covers x) ∧
        ShowsAll managers' (F \ Ico p (p + pageLadder.size k)) c t ∧
        regions managers' = regions managers := by
  induction indices generalizing managers with
  | nil => exact .inl ⟨managers, rfl, h, rfl⟩
  | cons i rest ih =>
    obtain ⟨m, hi⟩ := hvalid i (.head _)
    rw [allocateFirst, hi]
    have hregion : Impl.region { m with heap := (m.heap.allocateBlock k true).2 } = m.region := rfl
    obtain ⟨hnull, _, hshows⟩ | ⟨p, hp, hne, hdvd, hin, hshows⟩ :=
      (h.each hi).allocateBlock hk true
    · simp only [hnull, ne_eq, not_true_eq_false]
      have hset := h.set hi hshows hregion fun _ _ => ⟨Iff.rfl, rfl, rfl⟩
      have hreg := regions_set hi hregion
      obtain ⟨managers', hrun, hsh, hreg'⟩ |
          ⟨j, m', p, managers', hrun, hmem, hj, hne, hdvd, hin, hsh, hreg'⟩ :=
        ih hset fun j hj => by
          obtain ⟨m₁, hm₁⟩ := hvalid j (.tail _ hj)
          obtain ⟨m₂, hm₂, _⟩ := exists_base hreg.symm hm₁
          exact ⟨m₂, hm₂⟩
      · exact .inl ⟨managers', hrun, hsh, hreg'.trans hreg⟩
      · exact .inr ⟨j, m', p, managers', hrun, .tail _ hmem, hj, hne, hdvd, hin,
          hsh, hreg'.trans hreg⟩
    · rw [hp] at hne
      simp only [hp, ne_eq, hne, not_false_eq_true]
      refine .inr ⟨i, { m with heap := (m.heap.allocateBlock k true).2 }, p, _, rfl,
        .head _, ?_, hne, hdvd, hin, h.set hi hshows hregion fun x hx =>
          ⟨?_, rfl, rfl⟩, regions_set hi hregion⟩
      · rw [List.getElem?_set_self (List.getElem?_eq_some_iff.mp hi).1]
      · rw [mem_sdiff]
        exact and_iff_left fun hI => hx (hin x (mem_Ico.mp hI).1 (mem_Ico.mp hI).2).2

/-- The end of a continuous allocation in the manager that gave the block: the pages
after the first `n` are freed, and the first `n` get their first reference. -/
theorem openChosen {m : Impl} {p : ℕ} (h : m.Shows (F \ Ico p (p + k)) c t) (hn : n ≤ k)
    (hin : ∀ x, p ≤ x → x < p + k → x ∈ F ∧ m.Covers x) (hpos : 0 < n)
    (hzero : ∀ x, p ≤ x → x < p + n → c x = 0) (tracked : Bool) :
    ∃ m', ((if tracked then
          (if k > n then m.free (p * pageSize + n * pageSize) (k - n)
            else m).trackUnoptimizedAllocation (p * pageSize) n
        else if k > n then m.free (p * pageSize + n * pageSize) (k - n) else m).openFirst
          (p * pageSize) n) = .ok m' ∧ m'.region = m.region ∧
      m'.Shows (F \ Ico p (p + n)) (changeCounts (· + 1) c p (p + n))
        (untrack tracked t (Ico p (p + n))) := by
  have hrest : (if k > n then m.free (p * pageSize + n * pageSize) (k - n) else m).Shows
      (F \ Ico p (p + n)) c t := by
    by_cases hlt : k > n
    · rw [if_pos hlt, ← Nat.add_mul]
      have hsub : Ico p (p + k) ⊆ F := fun x hx =>
        (hin x (mem_Ico.mp hx).1 (mem_Ico.mp hx).2).1
      have hfree := h.free (p := p + n) (n := k - n) fun x hx hx' =>
        ⟨(hin x (by omega) (by omega)).2, fun hmem => (mem_sdiff.mp hmem).2
          (mem_Ico.mpr ⟨by omega, by omega⟩)⟩
      rwa [sdiff_union_rest hsub hn] at hfree
    · obtain rfl : k = n := by omega
      rwa [if_neg hlt]
  have hregion : (if k > n then m.free (p * pageSize + n * pageSize) (k - n) else m).region =
      m.region := by
    split <;> rfl
  generalize (if k > n then m.free (p * pageSize + n * pageSize) (k - n) else m) = m₁
    at hrest hregion ⊢
  have htrack : (if tracked then m₁.trackUnoptimizedAllocation (p * pageSize) n else m₁).Shows
      (F \ Ico p (p + n)) c (untrack tracked t (Ico p (p + n))) := by
    cases tracked with
    | true =>
      refine hrest.track writes_clear ?_
      rw [first_eq_of_region hregion]
      exact (hin p le_rfl (by omega)).2.1
    | false => exact hrest
  have hregion' : (if tracked then m₁.trackUnoptimizedAllocation (p * pageSize) n else m₁).region =
      m.region := by
    split <;> exact hregion
  generalize (if tracked then m₁.trackUnoptimizedAllocation (p * pageSize) n else m₁) = m₂
    at htrack hregion' ⊢
  have hcov : ∀ x, p ≤ x → x < p + n → m₂.Covers x := fun x hx hx' =>
    (covers_of_region hregion').mpr (hin x hx (by omega)).2
  have hopen := htrack.openWith_eq_ok (v := fun refCount => refCount == 1) hcov
    (hcov p le_rfl (by omega)).1
  obtain ⟨m', hm'⟩ := hopen.2 fun x hx hx' => by
    rw [hzero x hx hx']
    rfl
  obtain ⟨_, hshows, hreg⟩ := hopen.1 m' hm'
  exact ⟨m', hm', hreg.trans hregion', hshows⟩

variable {m : KMemoryManager} {block : KBlockInfo} {filled : List ℕ} {g : KPageGroup}
variable {anyNew : Bool}

/-- `AllocateAndOpenContinuous` gives null and changes no free page, or gives `n`
consecutive free pages from the start of a large enough block their first reference. It goes
out of bounds where no block is large enough. -/
theorem allocateAndOpenContinuous_spec (h : ShowsAll m.managers F c t)
    (hzero : ∀ x ∈ F, Managed m.managers x → c x = 0) (n a : ℕ) (pool : Pool) (dir : Direction) :
    (m.allocateAndOpenContinuous n a pool dir = .error .outOfBounds ∧
        pageLadder.size 6 < max n a ∧ n ≠ 0 ∧ poolManagers m.managers pool dir ≠ []) ∨
      ∃ addr managers', m.allocateAndOpenContinuous n a pool dir =
          .ok (addr, { m with managers := managers' }) ∧
        regions managers' = regions m.managers ∧
        ((addr = 0 ∧ ShowsAll managers' F c t) ∨ ∃ p, addr = p * pageSize ∧ addr ≠ 0 ∧
            (∃ k, getAlignedBlockIndex n a = some k ∧ pageLadder.size k ∣ p ∧
              ∃ m₀ ∈ m.managers, m₀.pool = pool ∧
                ∀ x, p ≤ x → x < p + pageLadder.size k → x ∈ F ∧ m₀.Covers x) ∧
            (∀ x, p ≤ x → x < p + n → x ∈ F ∧ InPool m.managers pool x) ∧
            ShowsAll managers' (F \ Ico p (p + n)) (changeCounts (· + 1) c p (p + n))
              (untrack (m.hasOptimizedProcess pool) t (Ico p (p + n)))) := by
  rw [allocateAndOpenContinuous]
  by_cases hn : n = 0
  · exact .inr ⟨0, m.managers, if_pos hn, rfl, .inl ⟨rfl, h⟩⟩
  · rw [if_neg hn]
    cases hindex : getAlignedBlockIndex n a with
    | none =>
      by_cases hempty : poolManagers m.managers pool dir = []
      · exact .inr ⟨0, m.managers, if_pos hempty, rfl, .inl ⟨rfl, h⟩⟩
      · refine .inl ⟨if_neg hempty, ?_, hn, hempty⟩
        simp only [getAlignedBlockIndex, memoryBlockPageShifts, alignedBlockIndexFrom] at hindex
        split_ifs at hindex with _ _ _ _ _ _ hlarge
        exact Nat.lt_of_not_le hlarge
    | some k =>
      obtain ⟨hk, hmax⟩ := getAlignedBlockIndex_spec hindex
      have hle := (max_le_iff.mp hmax).1
      right
      obtain ⟨managers', hrun, hsh, hreg⟩ |
          ⟨i, chosen, p, managers', hrun, hmem, hi, hne, hdvd, hin, hsh, hreg⟩ :=
        allocateFirst_spec hk (poolManagers m.managers pool dir) h fun i hi => by
          obtain ⟨m', hm', _⟩ := mem_poolManagers.mp hi
          exact ⟨m', hm'⟩
      · simp only [hrun]
        exact ⟨0, managers', rfl, hreg, .inl ⟨rfl, hsh⟩⟩
      · obtain ⟨m₀, hm₀, hpool⟩ := mem_poolManagers.mp hmem
        obtain ⟨m₁, hm₁, hregion₁⟩ := exists_base hreg hi
        obtain rfl := Option.some.inj (hm₀.symm.trans hm₁)
        have hm := List.mem_of_getElem? hm₀
        have hblock : ∀ x, p ≤ x → x < p + pageLadder.size k → x ∈ F ∧ m₀.Covers x :=
          fun x hx hx' => (hin x hx hx').imp_right (covers_of_region hregion₁).mpr
        have hman : ∀ x, p ≤ x → x < p + n → x ∈ F ∧ InPool m.managers pool x := fun x hx hx' =>
          (hblock x hx (by omega)).imp_right fun hcov => ⟨m₀, hm, hpool, hcov⟩
        obtain ⟨chosen', hopen, hregion, hshows⟩ := openChosen (hsh.each hi) hle hin
          (Nat.pos_of_ne_zero hn)
          (fun x hx hx' => hzero x (hman x hx hx').1 (hman x hx hx').2.managed)
          (m.hasOptimizedProcess pool)
        simp only [hrun, hi, getBlockNumPages_eq]
        refine ⟨p * pageSize, managers'.set i chosen',
          bind_eq_ok.mpr ⟨chosen', hopen, rfl⟩, (regions_set hi hregion).trans hreg,
          .inr ⟨p, rfl, hne, ⟨k, rfl, hdvd, m₀, hm, hpool, hblock⟩, hman,
            hsh.set hi hshows hregion fun x hx => ⟨?_, ?_, ?_⟩⟩⟩
        · have hout : ¬ (p ≤ x ∧ x < p + pageLadder.size k) := fun hx' =>
            hx (hin x hx'.1 hx'.2).2
          simp only [mem_sdiff, mem_Ico]
          refine and_congr_right fun _ => not_congr ?_
          omega
        · exact changeCounts_outside fun hx' => hx (hin x hx'.1 (by omega)).2
        · refine untrack_of_notMem fun hx' => ?_
          rw [mem_Ico] at hx'
          exact hx (hin x hx'.1 (by omega)).2

/-! ## Page groups with their first reference -/

/-- What a page-group allocation from the pages `F` with the counts `c` and the tracked
pages `t` may do. -/
inductive GroupOutcome (base : List Impl) (F : Finset ℕ) (c : ℕ → BitVec 16) (t : ℕ → Bool)
    (pool : Pool) (n : ℕ) (o : GroupOptions) : Except SvcResult KPageGroup → List Impl → Prop where
  | refused {e : SvcResult} {managers : List Impl} (F' G : Finset ℕ) (hsub : F' ⊆ F)
      (hsafe : GroupSafe base o.infos n pool → F' = F)
      (hshows : ShowsAll managers F' c (untrack o.unoptimized t G)) :
      GroupOutcome base F c t pool n o (.error e) managers
  | opened {g : KPageGroup} {managers : List Impl} (hapart : g.Apart) (hnum : g.getNumPages = n)
      (hin : ∀ x ∈ g.pages, x ∈ F ∧ InPool base pool x)
      (hshows : ShowsAll managers (F \ g.pages) (openedCounts c g.pages)
        (untrack o.unoptimized t g.pages)) :
      GroupOutcome base F c t pool n o (.ok g) managers

/-- A page group is allocated, and where that succeeds the first references are opened. -/
theorem allocateGroup_outcome (h : ShowsAll base F c t)
    (hzero : ∀ x ∈ F, Managed base x → c x = 0) (o : GroupOptions) (n : ℕ) (pool : Pool)
    (dir : Direction) :
    ∃ r managers₁ managers', allocatePageGroupImpl base o n pool dir = .ok (r, managers₁) ∧
      regions managers' = regions base ∧ GroupOutcome base F c t pool n o r managers' ∧
      match r with
      | .error _ => managers' = managers₁
      | .ok g => openFirstGroup g managers₁ = .ok managers' := by
  obtain ⟨r, managers₁, hrun, hreg, hcase⟩ := allocatePageGroupImpl_spec h o n pool dir
  obtain ⟨e, F', G, rfl, hsub, hsafe, hshows⟩ | ⟨g, rfl, hapart, hnum, hsub, hpool, hshows⟩ := hcase
  · exact ⟨_, managers₁, managers₁, hrun, hreg, .refused F' G hsub hsafe hshows, rfl⟩
  · obtain ⟨managers', hopen, hshows', hreg'⟩ := openFirstGroup_spec hshows hapart fun x hx =>
      ⟨(managed_of_regions hreg).mpr (hpool x hx).managed, hzero x (hsub hx) (hpool x hx).managed⟩
    exact ⟨_, managers₁, managers', hrun, hreg'.trans hreg,
      .opened hapart hnum (fun x hx => ⟨hsub hx, hpool x hx⟩) hshows', hopen⟩

/-- The options of `AllocateAndOpen`. -/
def openOptions (m : KMemoryManager) (infos : KBlockInfoManager) (pool : Pool) : GroupOptions where
  infos := infos
  unoptimized := m.hasOptimizedProcess pool
  random := true

theorem allocateAndOpen_outcome (h : ShowsAll m.managers F c t)
    (hzero : ∀ x ∈ F, Managed m.managers x → c x = 0) (infos : KBlockInfoManager) (n : ℕ)
    (pool : Pool) (dir : Direction) :
    ∃ r managers', m.allocateAndOpen infos n pool dir = .ok (r, { m with managers := managers' }) ∧
      regions managers' = regions m.managers ∧
      GroupOutcome m.managers F c t pool n (openOptions m infos pool) r managers' := by
  rw [allocateAndOpen]
  by_cases hn : n = 0
  · refine ⟨.ok [], m.managers, if_pos hn, rfl, .opened List.Pairwise.nil hn.symm
      (fun x hx => absurd hx (notMem_empty x)) ?_⟩
    rwa [openedCounts_nil, KPageGroup.pages, sdiff_empty, untrack_empty]
  · rw [if_neg hn]
    obtain ⟨r, managers₁, managers', hrun, hreg, hout, hend⟩ :=
      allocateGroup_outcome h hzero (openOptions m infos pool) n pool dir
    refine ⟨r, managers', bind_eq_ok.mpr ⟨_, hrun, ?_⟩, hreg, hout⟩
    cases r with
    | error e =>
      obtain rfl := hend
      rfl
    | ok g => exact bind_eq_ok.mpr ⟨managers', hend, rfl⟩

/-- The options of `AllocateAndOpenForProcess`. -/
def processOptions (m : KMemoryManager) (infos : KBlockInfoManager) (pool : Pool) (processId : ℕ) :
    GroupOptions where
  infos := infos
  unoptimized := m.hasOptimizedProcess pool && !(m.optimizedProcessIds pool == processId)
  random := false

theorem allocateForProcess_outcome (h : ShowsAll m.managers F c t)
    (hzero : ∀ x ∈ F, Managed m.managers x → c x = 0) (infos : KBlockInfoManager) (n : ℕ)
    (pool : Pool) (dir : Direction) (processId : ℕ) :
    ∃ (r : Except SvcResult KPageGroup) (managers' : List Impl),
      m.allocateForProcess infos n pool dir processId = .ok (r.map fun g =>
        (g, m.hasOptimizedProcess pool && (m.optimizedProcessIds pool == processId)),
          { m with managers := managers' }) ∧
      regions managers' = regions m.managers ∧
      GroupOutcome m.managers F c t pool n (processOptions m infos pool processId) r managers' := by
  obtain ⟨r, managers₁, managers', hrun, hreg, hout, hend⟩ :=
    allocateGroup_outcome h hzero (processOptions m infos pool processId) n pool dir
  refine ⟨r, managers', ?_, hreg, hout⟩
  cases r with
  | error e =>
    obtain rfl := hend
    exact bind_eq_ok.mpr ⟨_, hrun, rfl⟩
  | ok g => exact bind_eq_ok.mpr ⟨_, hrun, bind_eq_ok.mpr ⟨managers', hend, rfl⟩⟩

/-! ## Filling -/

/-- `ProcessOptimizedAllocation` fills every page that is not tracked, and says that it has one. -/
theorem processLoop_spec {m : Impl} {offset j : ℕ} (hj : offset ≤ j) (hlt : j < offset + n)
    (htr : m.isTracked j = false) : (m.processLoop n offset).1 = true ∧
      m.heap.heapAddress + j * pageSize ∈ (m.processLoop n offset).2 := by
  induction n generalizing offset with
  | zero => omega
  | succ n ih =>
    have hbit : m.optimizeMap (offset / 64) &&& (1#64 <<< (offset % 64)) = 0 ↔
        m.isTracked offset = false :=
      BitScan.and_one_shiftLeft_eq_zero (Nat.mod_lt _ (by decide))
    have hih := @ih (offset + 1)
    rw [processLoop]
    dsimp only
    by_cases hne : j = offset
    · subst hne
      rw [if_pos (hbit.mpr htr)]
      exact ⟨rfl, .head _⟩
    · obtain ⟨hnew, hmem⟩ := hih (by omega) (by omega)
      split_ifs
      · exact ⟨rfl, .tail _ hmem⟩
      · exact ⟨hnew, hmem⟩

/-- Two pages of one manager. -/
def SameManager (managers : List Impl) (x y : ℕ) : Prop := ∃ m ∈ managers, m.Covers x ∧ m.Covers y

theorem SameManager.mid {x y z : ℕ} (h : SameManager managers x z) (hxy : x ≤ y) (hyz : y ≤ z) :
    SameManager managers x y := by
  obtain ⟨m, hm, hx, hz⟩ := h
  exact ⟨m, hm, hx, hx.1.trans hxy, hyz.trans_lt hz.2⟩

/-- The loop over the parts of a block fills the pages that are not tracked, and says of the last
part whether it has one. -/
theorem processBlock_spec (h : ShowsAll managers F c t)
    (hok : processBlock block managers = .ok ((anyNew, filled), managers')) :
    managers' = managers ∧ ∀ x ∈ block.pages, t x = false → x * pageSize ∈ filled ∧
      (SameManager managers x (block.pageIndex + block.numPages - 1) → anyNew = true) := by
  have hrule := forParts_rule (e := block.pageIndex + block.numPages)
    (I := fun q (r : Bool × List ℕ) ms => block.pageIndex ≤ q ∧ ms = managers ∧
      ∀ x, block.pageIndex ≤ x → x < q →
        (q < block.pageIndex + block.numPages → ¬ SameManager managers x q) ∧
        (t x = false → x * pageSize ∈ r.2 ∧ (SameManager managers x (q - 1) → r.1 = true)))
    (fun hinv => ⟨F, c, t, hinv.2.1 ▸ h⟩) ?_ rfl
    ⟨le_rfl, rfl, fun x hx hx' => absurd hx' (by omega)⟩ hok
  · exact ⟨hrule.2.1, fun x hx => (hrule.2.2 x (mem_Ico.mp hx).1 (mem_Ico.mp hx).2).2⟩
  · rintro q ⟨_, done⟩ ms i m l s' m' ⟨hq, rfl, hdone⟩ hi hfirst hl hlast ⟨hle, hpart⟩ hbody
    obtain ⟨rfl, rfl⟩ := Prod.mk.inj (Except.ok.inj hbody)
    have hnew : ∀ x, q ≤ x → x < q + l → t x = false →
        (m.processOptimizedAllocation (q * pageSize) l).1 = true ∧
          x * pageSize ∈ (m.processOptimizedAllocation (q * pageSize) l).2 := by
      intro x hx hx' htr
      have hm := h.each hi
      have htracked := (hm.tracked x ⟨by omega, by omega⟩).trans htr
      have haddr : m.heap.heapAddress + (x - m.first) * pageSize = x * pageSize := by
        rw [hm.address, ← Nat.add_mul, Nat.add_sub_cancel' (by omega)]
      rw [processOptimizedAllocation, hm.getPageOffset, ← haddr]
      exact processLoop_spec (by omega) (by omega) htracked
    refine ⟨by omega, ?_, fun x hx hx' => ?_⟩
    · obtain ⟨hlt, rfl⟩ := List.getElem?_eq_some_iff.mp hi
      exact List.set_getElem_self hlt
    by_cases hxq : x < q
    · -- a manager with pages on both sides of `q` would have made one part of them
      have hnot := (hdone x hx hxq).1 (by omega)
      exact ⟨fun _ hsame => hnot (hsame.mid (by omega) (by omega)), fun htr =>
        ⟨List.mem_append_left _ ((hdone x hx hxq).2 htr).1,
          fun hsame => absurd (hsame.mid (by omega) (by omega)) hnot⟩⟩
    · refine ⟨?_, fun htr => ?_⟩
      · rintro hlt ⟨m₁, hm₁, hx₁, hend⟩
        obtain ⟨j, hj⟩ := List.getElem?_of_mem hm₁
        obtain rfl := h.apart hi hj ⟨by omega, by omega⟩ hx₁
        obtain rfl := Option.some.inj (hi.symm.trans hj)
        have := hend.2
        omega
      · obtain ⟨hany, hmem⟩ := hnew x (by omega) hx' htr
        exact ⟨List.mem_append_right _ hmem, fun _ => hany⟩

theorem trackParts_spec {p : ℕ} (h : ShowsAll managers F c t)
    (hok : mapParts (fun m a l => .ok (m.trackOptimizedAllocation a l)) managers (p * pageSize) n =
      .ok managers') :
    ShowsAll managers' F c (setTracked true t (Ico p (p + n))) ∧
      regions managers' = regions managers := by
  obtain ⟨⟨_, ms⟩, hrun, hret⟩ := bind_eq_ok.mp hok
  obtain rfl := Except.ok.inj hret
  refine (forParts_rule (I := fun q (_ : Unit) ms => p ≤ q ∧
    ShowsAll ms F c (setTracked true t (Ico p q)) ∧ regions ms = regions managers)
    (fun hinv => ⟨F, c, _, hinv.2.1⟩) ?_ rfl ⟨le_rfl, ?_, rfl⟩ hrun).2
  · rintro q _ ms i m l _ m' ⟨hpq, hsh, hreg⟩ hi hfirst _ hlast _ hbody
    obtain rfl := Except.ok.inj
      (mapParts_body_ok (f := fun m a l => .ok (m.trackOptimizedAllocation a l)).mp hbody)
    have hregion : (m.trackOptimizedAllocation (q * pageSize) l).region = m.region := rfl
    have hbits : ∀ x, setTracked true (setTracked true t (Ico p q)) (Ico q (q + l)) x =
        setTracked true t (Ico p (q + l)) x := by
      intro x
      simp only [setTracked, mem_Ico]
      by_cases hx : q ≤ x ∧ x < q + l
      · rw [if_pos hx, if_pos (by omega)]
      · rw [if_neg hx]
        exact if_congr (by omega) rfl rfl
    have htrack := ((hsh.each hi).track (fun _ _ _ => BitScan.getLsbD_set) hfirst).congr
      (fun _ _ => Iff.rfl) (fun _ _ => rfl) fun x _ => (hbits x).symm
    refine ⟨by omega, hsh.set hi htrack hregion fun x hx => ⟨Iff.rfl, rfl, ?_⟩,
      (regions_set hi hregion).trans hreg⟩
    rw [← hbits, setTracked, if_neg fun hx' => hx ?_]
    rw [mem_Ico] at hx'
    exact ⟨by omega, by omega⟩
  · rwa [Ico_self, setTracked_empty]

/-- A block with new pages is tracked as a whole. -/
theorem trackBlock_spec (h : ShowsAll managers F c t)
    (hok : trackBlock anyNew block managers = .ok managers') :
    ∃ t', ShowsAll managers' F c t' ∧ regions managers' = regions managers ∧
      (∀ x ∉ block.pages, t' x = t x) ∧ ∀ x ∈ block.pages, t' x = (anyNew || t x) := by
  cases anyNew with
  | true =>
    obtain ⟨hsh, hreg⟩ := trackParts_spec h hok
    exact ⟨_, hsh, hreg, fun x hx => if_neg hx, fun x hx => if_pos hx⟩
  | false =>
    obtain rfl := Except.ok.inj hok
    exact ⟨t, h, rfl, fun _ _ => rfl, fun _ _ => rfl⟩

/-- If the block has pages that are not tracked, the part in the manager of its last page has
one. -/
def EndsNew (managers : List Impl) (t : ℕ → Bool) (block : KBlockInfo) : Prop :=
  (∃ x ∈ block.pages, t x = false) → ∃ x ∈ block.pages, t x = false ∧
    SameManager managers x (block.pageIndex + block.numPages - 1)

theorem EndsNew.congr {t' : ℕ → Bool} (h : EndsNew managers t block)
    (hreg : regions managers' = regions managers) (ht : ∀ x ∈ block.pages, t' x = t x) :
    EndsNew managers' t' block := by
  rintro ⟨x, hx, hnew⟩
  obtain ⟨y, hy, hnew', m, hm, hcov⟩ := h ⟨x, hx, ht x hx ▸ hnew⟩
  obtain ⟨m', hm', hregion⟩ := mem_of_regions hreg.symm hm
  exact ⟨y, hy, (ht y hy).trans hnew', m', hm',
    hcov.imp (covers_of_region hregion).mpr (covers_of_region hregion).mpr⟩

/-- The tracking of a group: a page of the group that is not filled was tracked, and only
pages of the group become tracked. All of them are if no block hides its new pages. -/
theorem processGroup_spec (h : ShowsAll managers F c t)
    (hapart : g.Apart) (hok : processGroup g managers = .ok (filled, managers')) :
    ∃ t', ShowsAll managers' F c t' ∧ regions managers' = regions managers ∧
      (∀ x, t' x = true → t x = true ∨ x ∈ g.pages) ∧
      (∀ x ∈ g.pages, x * pageSize ∉ filled → t x = true) ∧ (∀ x, t x = true → t' x = true) ∧
      ((∀ b ∈ g, EndsNew managers t b) → ∀ x ∈ g.pages, t' x = true) := by
  induction g generalizing managers t filled with
  | nil =>
    obtain ⟨_, rfl⟩ := Prod.mk.inj (Except.ok.inj hok)
    exact ⟨t, h, rfl, fun x => .inl, fun x hx => absurd hx (notMem_empty x), fun _ => id,
      fun _ x hx => absurd hx (notMem_empty x)⟩
  | cons block rest ih =>
    obtain ⟨hhead, hrest⟩ := List.pairwise_cons.mp hapart
    have hdisj : Disjoint block.pages (KPageGroup.pages rest) :=
      KPageGroup.disjoint_pages_iff.mpr hhead
    rw [processGroup] at hok
    split at hok
    · rename_i hempty
      have hpages : block.pages = ∅ := by
        change block.numPages = 0 at hempty
        rw [KBlockInfo.pages, hempty, Nat.add_zero, Ico_self]
      obtain ⟨t', hshows, hreg, hsub, hkept, hmono, hall⟩ := ih h hrest hok
      rw [KPageGroup.pages, hpages, empty_union]
      exact ⟨t', hshows, hreg, hsub, hkept, hmono,
        fun hends => hall fun b hb => hends b (.tail _ hb)⟩
    · obtain ⟨⟨⟨anyNew, filled₁⟩, managers₁⟩, hblock, hthen⟩ := bind_eq_ok.mp hok
      obtain ⟨managers₂, htrack, hthen⟩ := bind_eq_ok.mp hthen
      obtain ⟨⟨filled₂, managers₃⟩, hgroup, hret⟩ := bind_eq_ok.mp hthen
      obtain ⟨rfl, rfl⟩ := Prod.mk.inj (Except.ok.inj hret)
      obtain ⟨rfl, hnew⟩ := processBlock_spec h hblock
      obtain ⟨t₂, hshows₂, hreg₂, hout, hin⟩ := trackBlock_spec h htrack
      obtain ⟨t', hshows, hreg, hsub, hkept, hmono, hall⟩ := ih hshows₂ hrest hgroup
      have hmono₂ : ∀ x, t x = true → t₂ x = true := by
        intro x htr
        by_cases hxb : x ∈ block.pages
        · rw [hin x hxb, htr, Bool.or_true]
        · rw [hout x hxb, htr]
      refine ⟨t', hshows, hreg.trans hreg₂, fun x hx => ?_, fun x hx hnot => ?_,
        fun x htr => hmono x (hmono₂ x htr), fun hends x hx => ?_⟩
      · by_cases hxb : x ∈ block.pages
        · exact .inr (mem_union_left _ hxb)
        · obtain htr | hin := hsub x hx
          · exact .inl (hout x hxb ▸ htr)
          · exact .inr (mem_union_right _ hin)
      · obtain hxb | hxr := mem_union.mp hx
        · by_contra htr
          exact hnot (List.mem_append_left _ (hnew x hxb (by simpa using htr)).1)
        · have htr := hkept x hxr fun hmem => hnot (List.mem_append_right _ hmem)
          rwa [hout x (disjoint_right.mp hdisj hxr)] at htr
      · obtain hxb | hxr := mem_union.mp hx
        · refine hmono x ?_
          rw [hin x hxb, Bool.or_eq_true, or_iff_not_imp_right, Bool.not_eq_true]
          intro htr
          obtain ⟨y, hy, hnewy, hsame⟩ := hends block (.head _) ⟨x, hxb, htr⟩
          exact (hnew y hy hnewy).2 hsame
        · exact hall (fun b hb => (hends b (.tail _ hb)).congr hreg₂ fun y hy =>
            hout y (disjoint_right.mp (hhead b hb) hy)) x hxr

/-- The filling of a group: for the optimized process the pages that are tracked are left as
they are, and otherwise none is. -/
theorem fillGroup_spec {m' : KMemoryManager} {optimized : Bool}
    (h : ShowsAll m.managers F c t) (hapart : g.Apart)
    (hok : m.fillGroup g optimized = .ok (filled, m')) :
    m'.optimizedProcessIds = m.optimizedProcessIds ∧
      m'.hasOptimizedProcess = m.hasOptimizedProcess ∧
      regions m'.managers = regions m.managers ∧
      ∃ t', ShowsAll m'.managers F c t' ∧
        (∀ x, t' x = true → t x = true ∨ optimized = true ∧ x ∈ g.pages) ∧
        (∀ x ∈ g.pages, x * pageSize ∉ filled → optimized = true ∧ t x = true) ∧
        (optimized = true → (∀ b ∈ g, EndsNew m.managers t b) → ∀ x ∈ g.pages, t' x = true) := by
  rw [fillGroup] at hok
  split at hok
  · rename_i hopt
    obtain ⟨⟨filled', managers⟩, hprocess, hret⟩ := bind_eq_ok.mp hok
    obtain ⟨rfl, rfl⟩ := Prod.mk.inj (Except.ok.inj hret)
    obtain ⟨t', hshows, hreg, hsub, hkept, _, hall⟩ := processGroup_spec h hapart hprocess
    exact ⟨rfl, rfl, hreg, t', hshows, fun x hx => (hsub x hx).imp_right fun hin => ⟨hopt, hin⟩,
      fun x hx hnot => ⟨hopt, hkept x hx hnot⟩, fun _ => hall⟩
  · rename_i hopt
    obtain ⟨rfl, rfl⟩ := Prod.mk.inj (Except.ok.inj hok)
    refine ⟨rfl, rfl, rfl, t, h, fun x => .inl, fun x hx hnot => absurd ?_ hnot,
      fun htrue => absurd htrue hopt⟩
    obtain ⟨b, hb, hxb⟩ := KPageGroup.mem_pages.mp hx
    obtain ⟨hlow, hhigh⟩ := mem_Ico.mp hxb
    refine List.mem_flatMap.mpr ⟨b, hb, List.mem_map.mpr ⟨x - b.pageIndex, ?_, ?_⟩⟩
    · rw [List.mem_range, KBlockInfo.getNumPages]
      omega
    · rw [KBlockInfo.getAddress, ← Nat.add_mul, Nat.add_sub_cancel' hlow]

end Atmosphere.Kern.KMemoryManager
