import Atmosphere.Kern.AllocateAndOpen

/-!
# Runs of the memory manager

Any sequence of allocations, `Open` and `Close`. A page is free exactly while it has
no references, and an allocation gives out only such pages. The exception is a failed
page-group allocation whose group has a block across the border of two managers.
-/

namespace Atmosphere.Kern.KMemoryManager

open KPageHeap Impl
open Finset

variable {base managers managers' : List Impl} {F : Finset ℕ} {c : ℕ → BitVec 16}
  {t : ℕ → Bool} {pool : Pool} {dir : Direction} {n : ℕ}

/-! ## Free pages and reference counts -/

/-- The reference count of a page, in the manager that `GetManager` finds. -/
def pageReferenceCount (managers : List Impl) (x : ℕ) : Option (BitVec 16) :=
  (getManager managers (x * pageSize)).bind fun i => managers[i]?.map fun m =>
    m.pageReferenceCounts (m.heap.getPageOffset (x * pageSize))

variable {x p processId : ℕ} {m m' : KMemoryManager} {infos : KBlockInfoManager} {g : KPageGroup}
variable {filled : List ℕ}

theorem ShowsAll.pageReferenceCount_eq (h : ShowsAll managers F c t) (hx : Managed managers x) :
    pageReferenceCount managers x = some (c x) := by
  obtain ⟨m, hm, hcov⟩ := hx
  obtain ⟨i, hi⟩ := List.getElem?_of_mem hm
  rw [pageReferenceCount, h.getManager_eq hi hcov, Option.bind_some, hi, Option.map_some,
    (h.each hi).getPageOffset, (h.each hi).counts x hcov]

/-- The managers show free pages and counts in which exactly the pages without
references are free. -/
def Balanced (managers : List Impl) : Prop :=
  ∃ F c t, ShowsAll managers F c t ∧ ∀ x, Managed managers x → (x ∈ F ↔ c x = 0)

theorem changeCounts_eq_openedCounts (p e : ℕ) :
    changeCounts (· + 1) c p e = openedCounts c (Ico p e) := by
  funext x
  simp only [changeCounts, openedCounts, mem_Ico]

/-- The pages were free and without references, and have one reference after. -/
def HandsOut (before after : List Impl) (G : Finset ℕ) : Prop :=
  ∀ x ∈ G, FreeIn before x ∧ pageReferenceCount before x = some 0 ∧
    ¬ FreeIn after x ∧ pageReferenceCount after x = some 1

section

variable (hshows : ShowsAll base F c t) (hbal : ∀ x, Managed base x → (x ∈ F ↔ c x = 0))
  (hreg : regions managers' = regions base)
include hshows hbal hreg

/-- Free pages without references are given out with one reference. -/
theorem take_spec {G : Finset ℕ} {t' : ℕ → Bool} (hG : ∀ x ∈ G, x ∈ F ∧ Managed base x)
    (h : ShowsAll managers' (F \ G) (openedCounts c G) t') :
    Balanced managers' ∧ HandsOut base managers' G := by
  refine ⟨⟨_, _, _, h, fun x hx => ?_⟩, fun x hx => ?_⟩
  · have hx := (managed_of_regions hreg).mp hx
    rw [mem_sdiff, openedCounts]
    by_cases hxG : x ∈ G
    · rw [if_pos hxG, (hbal x hx).mp (hG x hxG).1]
      exact iff_of_false (fun h => h.2 hxG) (by decide)
    · rw [if_neg hxG, ← hbal x hx]
      exact and_iff_left hxG
  · obtain ⟨hF, hman⟩ := hG x hx
    have hzero := (hbal x hman).mp hF
    refine ⟨hshows.freeIn_iff.mpr ⟨hF, hman⟩, ?_, ?_, ?_⟩
    · rw [hshows.pageReferenceCount_eq hman, hzero]
    · rw [h.freeIn_iff]
      exact fun hfree => (mem_sdiff.mp hfree.1).2 hx
    · rw [h.pageReferenceCount_eq ((managed_of_regions hreg).mpr hman), openedCounts, if_pos hx,
        hzero]
      rfl

theorem GroupOutcome.balanced {o : GroupOptions} {r : Except SvcResult KPageGroup}
    (h : GroupOutcome base F c t pool n o r managers') :
    (GroupSafe base o.infos n pool → Balanced managers') ∧
      ∀ g, r = .ok g → HandsOut base managers' g.pages := by
  cases h with
  | refused F' G _ hall hsh =>
    refine ⟨fun hsafe => ?_, nofun⟩
    obtain rfl := hall hsafe
    exact ⟨_, c, _, hsh, fun x hx => hbal x ((managed_of_regions hreg).mp hx)⟩
  | opened _ _ hin hsh =>
    obtain ⟨hbalanced, hout⟩ :=
      take_spec hshows hbal hreg (fun x hx => (hin x hx).imp_right InPool.managed) hsh
    refine ⟨fun _ => hbalanced, ?_⟩
    rintro _ ⟨⟩
    exact hout

end

/-- `Open` of a range. -/
theorem Balanced.openPages (h : Balanced managers)
    (hok : KMemoryManager.openPages managers (p * pageSize) n = .ok managers') :
    Balanced managers' := by
  obtain ⟨F, c, t, hshows, hbal⟩ := h
  obtain ⟨hvalid, hshows', hreg⟩ := hshows.openPages hok
  refine ⟨F, _, t, hshows', fun x hx => ?_⟩
  have hx := (managed_of_regions hreg).mp hx
  rw [changeCounts]
  by_cases hin : p ≤ x ∧ x < p + n
  · have hgt : (c x + 1).toNat > 1 := of_decide_eq_true (hvalid x hin.1 hin.2).2
    rw [if_pos hin, hbal x hx]
    refine iff_of_false (fun hzero => ?_) fun hzero => ?_
    · rw [hzero] at hgt
      exact absurd hgt (by decide)
    · rw [hzero] at hgt
      exact absurd hgt (by decide)
  · rw [if_neg hin, hbal x hx]

/-- `Close` of a range. -/
theorem Balanced.closePages (h : Balanced managers)
    (hok : KMemoryManager.closePages managers (p * pageSize) n = .ok managers') :
    Balanced managers' := by
  obtain ⟨F, c, t, hshows, hbal⟩ := h
  obtain ⟨hvalid, hshows', hreg⟩ := hshows.closePages (fun x hF hx => (hbal x hx).mp hF) hok
  refine ⟨_, _, t, hshows', fun x hx => ?_⟩
  have hx := (managed_of_regions hreg).mp hx
  rw [changeCounts, mem_union, mem_filter, mem_Ico, hbal x hx]
  by_cases hin : p ≤ x ∧ x < p + n
  · have hne := (hvalid x hin.1 hin.2).2
    rw [if_pos hin]
    simp only [hne, hin, and_self, true_and, false_or]
    exact ⟨fun hone => by rw [hone]; rfl, fun hzero => by bv_omega⟩
  · simp only [hin, false_and, or_false, if_false]

/-! ## Runs -/

/-- One call. A page-group allocation is made in a state in which its failure path is
sound. -/
inductive MemoryStep (m : KMemoryManager) : KMemoryManager → Prop where
  | allocateAndOpen {m' : KMemoryManager} {r : Except SvcResult KPageGroup}
      (infos : KBlockInfoManager) (n : ℕ) (pool : Pool) (dir : Direction)
      (hsafe : GroupSafe m.managers infos n pool)
      (hcall : m.allocateAndOpen infos n pool dir = .ok (r, m')) : MemoryStep m m'
  | allocateAndOpenForProcess {m' : KMemoryManager} {r : Except SvcResult (KPageGroup × List ℕ)}
      (infos : KBlockInfoManager) (n : ℕ) (pool : Pool) (dir : Direction) (processId : ℕ)
      (hsafe : GroupSafe m.managers infos n pool)
      (hcall : m.allocateAndOpenForProcess infos n pool dir processId = .ok (r, m')) :
      MemoryStep m m'
  | allocateAndOpenContinuous {m' : KMemoryManager} {addr : ℕ} (n a : ℕ) (pool : Pool)
      (dir : Direction) (hcall : m.allocateAndOpenContinuous n a pool dir = .ok (addr, m')) :
      MemoryStep m m'
  | openPages {managers' : List Impl} (p n : ℕ)
      (hcall : openPages m.managers (p * pageSize) n = .ok managers') :
      MemoryStep m { m with managers := managers' }
  | closePages {managers' : List Impl} (p n : ℕ)
      (hcall : closePages m.managers (p * pageSize) n = .ok managers') :
      MemoryStep m { m with managers := managers' }

inductive MemoryRun (start : KMemoryManager) : KMemoryManager → Prop where
  | start : MemoryRun start start
  | step {m m' : KMemoryManager} (hrun : MemoryRun start m) (hstep : MemoryStep m m') :
      MemoryRun start m'

theorem eq_ok_of_map {α β : Type} {f : α → β} {b : β} {r : Except SvcResult α}
    (h : r.map f = .ok b) : ∃ a, r = .ok a ∧ f a = b := by
  cases r with
  | error e => cases h
  | ok a => exact ⟨a, rfl, Except.ok.inj h⟩

/-- `AllocateAndOpenForProcess` is the locked part and the filling. -/
theorem allocateAndOpenForProcess_cases {r : Except SvcResult (KPageGroup × List ℕ)}
    (hcall : m.allocateAndOpenForProcess infos n pool dir processId = .ok (r, m')) :
    (∃ e, r = .error e ∧ m.allocateForProcess infos n pool dir processId = .ok (.error e, m')) ∨
      ∃ g filled optimized m₁, r = .ok (g, filled) ∧
        m.allocateForProcess infos n pool dir processId = .ok (.ok (g, optimized), m₁) ∧
        m₁.fillGroup g optimized = .ok (filled, m') := by
  obtain ⟨⟨result, m₁⟩, hlocked, hrest⟩ := bind_eq_ok.mp hcall
  cases result with
  | error e =>
    obtain ⟨rfl, rfl⟩ := Prod.mk.inj (Except.ok.inj hrest)
    exact .inl ⟨e, rfl, hlocked⟩
  | ok res =>
    obtain ⟨g, optimized⟩ := res
    obtain ⟨⟨filled, m₂⟩, hfill, hret⟩ := bind_eq_ok.mp hrest
    obtain ⟨rfl, rfl⟩ := Prod.mk.inj (Except.ok.inj hret)
    exact .inr ⟨g, filled, optimized, m₁, rfl, hlocked, hfill⟩

/-- A successful `AllocateAndOpenForProcess` opens the pages of the group and then fills them. -/
theorem allocateAndOpenForProcess_ok
    (hshows : ShowsAll m.managers F c t) (hzero : ∀ x ∈ F, Managed m.managers x → c x = 0)
    (hcall : m.allocateAndOpenForProcess infos n pool dir processId = .ok (.ok (g, filled), m')) :
    ∃ managers₁, regions managers₁ = regions m.managers ∧ g.Apart ∧ g.getNumPages = n ∧
      (∀ x ∈ g.pages, x ∈ F ∧ InPool m.managers pool x) ∧
      ShowsAll managers₁ (F \ g.pages) (openedCounts c g.pages)
        (untrack (processOptions m infos pool processId).unoptimized t g.pages) ∧
      fillGroup { m with managers := managers₁ } g
        (m.hasOptimizedProcess pool && (m.optimizedProcessIds pool == processId)) =
          .ok (filled, m') := by
  obtain ⟨r, managers₁, hrun, hreg, hout⟩ :=
    allocateForProcess_outcome hshows hzero infos n pool dir processId
  obtain ⟨e, he, _⟩ | ⟨g', filled', optimized, m₂, heq, hlocked, hfill⟩ :=
    allocateAndOpenForProcess_cases hcall
  · cases he
  · obtain ⟨rfl, rfl⟩ := Prod.mk.inj (Except.ok.inj heq)
    obtain ⟨hr, rfl⟩ := Prod.mk.inj (Except.ok.inj (hrun.symm.trans hlocked))
    obtain ⟨_, rfl, hpair⟩ := eq_ok_of_map hr
    obtain ⟨rfl, rfl⟩ := Prod.mk.inj hpair
    cases hout with
    | opened hapart hnum hin hsh => exact ⟨managers₁, hreg, hapart, hnum, hin, hsh, hfill⟩

section

variable (h : Balanced m.managers)
include h

theorem Balanced.allocateAndOpen {r : Except SvcResult KPageGroup}
    (hcall : m.allocateAndOpen infos n pool dir = .ok (r, m')) :
    (GroupSafe m.managers infos n pool → Balanced m'.managers) ∧
      ∀ g, r = .ok g → HandsOut m.managers m'.managers g.pages := by
  obtain ⟨F, c, t, hshows, hbal⟩ := h
  obtain ⟨r, managers₁, hrun, hreg, hout⟩ :=
    allocateAndOpen_outcome hshows (fun x hF hx => (hbal x hx).mp hF) infos n pool dir
  obtain ⟨rfl, rfl⟩ := Prod.mk.inj (Except.ok.inj (hrun.symm.trans hcall))
  exact hout.balanced hshows hbal hreg

theorem Balanced.allocateAndOpenForProcess {r : Except SvcResult (KPageGroup × List ℕ)}
    (hcall : m.allocateAndOpenForProcess infos n pool dir processId = .ok (r, m')) :
    (GroupSafe m.managers infos n pool → Balanced m'.managers) ∧
      ∀ g filled, r = .ok (g, filled) → HandsOut m.managers m'.managers g.pages := by
  obtain ⟨F, c, t, hshows, hbal⟩ := h
  have hzero : ∀ x ∈ F, Managed m.managers x → c x = 0 := fun x hF hx => (hbal x hx).mp hF
  obtain ⟨e, rfl, hlocked⟩ | ⟨g, filled, _, _, rfl, _, _⟩ := allocateAndOpenForProcess_cases hcall
  · obtain ⟨r, managers₁, hrun, hreg, hout⟩ :=
      allocateForProcess_outcome hshows hzero infos n pool dir processId
    obtain ⟨_, rfl⟩ := Prod.mk.inj (Except.ok.inj (hrun.symm.trans hlocked))
    exact ⟨(hout.balanced hshows hbal hreg).1, nofun⟩
  · obtain ⟨_, hreg, hapart, -, hin, hsh, hfill⟩ := allocateAndOpenForProcess_ok hshows hzero hcall
    obtain ⟨_, _, hreg₂, t₂, hsh₂, _⟩ := fillGroup_spec hsh hapart hfill
    obtain ⟨hbalanced, hout⟩ := take_spec hshows hbal (hreg₂.trans hreg)
      (fun x hx => (hin x hx).imp_right InPool.managed) hsh₂
    refine ⟨fun _ => hbalanced, ?_⟩
    rintro _ _ ⟨⟩
    exact hout

theorem Balanced.allocateAndOpenContinuous {a addr : ℕ}
    (hcall : m.allocateAndOpenContinuous n a pool dir = .ok (addr, m')) : Balanced m'.managers ∧
      (addr ≠ 0 →
        HandsOut m.managers m'.managers (Ico (addr / pageSize) (addr / pageSize + n))) := by
  obtain ⟨F, c, t, hshows, hbal⟩ := h
  obtain ⟨herr, _⟩ | ⟨addr', managers₁, hrun, hreg, hcase⟩ :=
    allocateAndOpenContinuous_spec hshows (fun x hF hx => (hbal x hx).mp hF) n a pool dir
  · rw [herr] at hcall
    cases hcall
  · obtain ⟨rfl, rfl⟩ := Prod.mk.inj (Except.ok.inj (hrun.symm.trans hcall))
    obtain ⟨hnull, hsh⟩ | ⟨p, rfl, _, _, hin, hsh⟩ := hcase
    · exact ⟨⟨F, c, t, hsh, fun x hx => hbal x ((managed_of_regions hreg).mp hx)⟩,
        fun hne => absurd hnull hne⟩
    · rw [changeCounts_eq_openedCounts] at hsh
      rw [Nat.mul_div_cancel _ pageSize_pos]
      exact (take_spec hshows hbal hreg (fun x hx => (hin x (mem_Ico.mp hx).1
        (mem_Ico.mp hx).2).imp_right InPool.managed) hsh).imp_right fun hout _ => hout

theorem Balanced.freeIn_iff (hx : Managed m.managers x) :
    FreeIn m.managers x ↔ pageReferenceCount m.managers x = some 0 := by
  obtain ⟨F, c, t, hshows, hbal⟩ := h
  rw [hshows.freeIn_iff, hshows.pageReferenceCount_eq hx, hbal x hx, Option.some.injEq]
  exact and_iff_left hx

end

theorem MemoryStep.balanced (hstep : MemoryStep m m') (h : Balanced m.managers) :
    Balanced m'.managers := by
  cases hstep with
  | allocateAndOpen infos n pool dir hsafe hcall => exact (h.allocateAndOpen hcall).1 hsafe
  | allocateAndOpenForProcess infos n pool dir processId hsafe hcall =>
    exact (h.allocateAndOpenForProcess hcall).1 hsafe
  | allocateAndOpenContinuous n a pool dir hcall => exact (h.allocateAndOpenContinuous hcall).1
  | openPages p n hcall => exact h.openPages hcall
  | closePages p n hcall => exact h.closePages hcall

theorem MemoryRun.balanced {start : KMemoryManager} (hrun : MemoryRun start m)
    (hstart : Balanced start.managers) : Balanced m.managers := by
  induction hrun with
  | start => exact hstart
  | step _ hstep ih => exact hstep.balanced ih

/-- `Close` frees the pages of its range whose count drops to zero, and no others. -/
theorem freeIn_closePages (h : Balanced managers)
    (hok : KMemoryManager.closePages managers (p * pageSize) n = .ok managers') (x : ℕ) :
    FreeIn managers' x ↔ FreeIn managers x ∨
      p ≤ x ∧ x < p + n ∧ pageReferenceCount managers' x = some 0 := by
  obtain ⟨F, c, t, hshows, hbal⟩ := h
  obtain ⟨hvalid, hshows', hreg⟩ := hshows.closePages (fun x hF hx => (hbal x hx).mp hF) hok
  rw [hshows'.freeIn_iff, hshows.freeIn_iff, managed_of_regions hreg, mem_union,
    mem_filter, mem_Ico, or_and_right]
  refine or_congr_right ?_
  constructor
  · rintro ⟨⟨⟨hp, hn⟩, hone⟩, hman⟩
    refine ⟨hp, hn, ?_⟩
    rw [hshows'.pageReferenceCount_eq ((managed_of_regions hreg).mpr hman), changeCounts,
      if_pos ⟨hp, hn⟩, hone]
    rfl
  · rintro ⟨hp, hn, hcount⟩
    obtain ⟨hman, _⟩ := hvalid x hp hn
    rw [hshows'.pageReferenceCount_eq ((managed_of_regions hreg).mpr hman), changeCounts,
      if_pos ⟨hp, hn⟩, Option.some.injEq] at hcount
    exact ⟨⟨⟨hp, hn⟩, by bv_omega⟩, hman⟩

/-- In every run whose page-group allocations are made in safe states, a page is free
exactly while it has no references, `Close` frees exactly the pages whose count drops
to zero, and an allocation hands out only pages without references. -/
theorem memoryRun_free_iff_no_references {start m : KMemoryManager}
    (hstart : Balanced start.managers) (hrun : MemoryRun start m) :
    (∀ x, Managed m.managers x → (FreeIn m.managers x ↔ pageReferenceCount m.managers x = some 0)) ∧
    (∀ p n managers', closePages m.managers (p * pageSize) n = .ok managers' → ∀ x,
      FreeIn managers' x ↔ FreeIn m.managers x ∨
        p ≤ x ∧ x < p + n ∧ pageReferenceCount managers' x = some 0) ∧
    (∀ infos n pool dir g m', m.allocateAndOpen infos n pool dir = .ok (.ok g, m') →
      HandsOut m.managers m'.managers g.pages) ∧
    (∀ infos n pool dir processId g filled m',
      m.allocateAndOpenForProcess infos n pool dir processId = .ok (.ok (g, filled), m') →
      HandsOut m.managers m'.managers g.pages) ∧
    ∀ n a pool dir addr m', m.allocateAndOpenContinuous n a pool dir = .ok (addr, m') → addr ≠ 0 →
      HandsOut m.managers m'.managers (Ico (addr / pageSize) (addr / pageSize + n)) := by
  have h := hrun.balanced hstart
  refine ⟨fun x hx => h.freeIn_iff hx, ?_, ?_, ?_, ?_⟩
  · exact fun p n managers' hok x => freeIn_closePages h hok x
  · exact fun infos n pool dir g m' hcall => (h.allocateAndOpen hcall).2 g rfl
  · exact fun infos n pool dir processId g filled m' hcall =>
      (h.allocateAndOpenForProcess hcall).2 g filled rfl
  · exact fun n a pool dir addr m' hcall hne => (h.allocateAndOpenContinuous hcall).2 hne

/-! ## New managers, and two of them next to each other -/

variable (rngs : ℕ → RandomBitGenerator)

/-- A manager as `KMemoryManager::Initialize` leaves it: all pages of its region are free. -/
def newManager (lo hi : ℕ) (pool : Pool) : Impl :=
  (initializeImpl rngs (lo * pageSize) ((hi - lo) * pageSize) pool).free (lo * pageSize) (hi - lo)

theorem newManager_first (lo hi : ℕ) (pool : Pool) :
    (newManager rngs lo hi pool).first = lo := Nat.mul_div_cancel lo pageSize_pos

theorem newManager_last {lo hi : ℕ} (hle : lo ≤ hi) (pool : Pool) :
    (newManager rngs lo hi pool).last = hi := by
  change (lo * pageSize + (hi - lo) * pageSize) / pageSize = hi
  rw [← Nat.add_mul, Nat.add_sub_cancel' hle, Nat.mul_div_cancel hi pageSize_pos]

theorem newManager_shows {lo hi : ℕ} (hlo : 0 < lo) (hle : lo ≤ hi) (pool : Pool) :
    (newManager rngs lo hi pool).Shows (Ico lo hi) (fun _ => 0) fun _ => false := by
  have hfirst : (initializeImpl rngs (lo * pageSize) ((hi - lo) * pageSize) pool).first = lo :=
    newManager_first rngs lo hi pool
  have hlast : (initializeImpl rngs (lo * pageSize) ((hi - lo) * pageSize) pool).last = hi :=
    newManager_last rngs hle pool
  have hnew : (initializeImpl rngs (lo * pageSize) ((hi - lo) * pageSize) pool).Shows ∅ (fun _ => 0)
      fun _ => false := by
    refine ⟨hfirst.symm ▸ hlo, ?_, ?_, ?_, ?_, fun _ _ => rfl, fun x _ => BitVec.getLsbD_zero⟩
    · rw [hfirst, hlast]
      exact hle
    · rw [hfirst]
      rfl
    · rw [hlast]
      change lo * pageSize + (hi - lo) * pageSize = hi * pageSize
      rw [← Nat.add_mul, Nat.add_sub_cancel' hle]
    · rw [hfirst, hlast]
      exact initializeHeap_holdsPages rngs hle
  have hfree := hnew.free (n := hi - lo) fun x hx hx' =>
    ⟨⟨by rw [hfirst]; exact hx, by rw [hlast]; omega⟩, notMem_empty x⟩
  rwa [empty_union, Nat.add_sub_cancel' hle] at hfree

/-- The application pool in two regions of one page that touch, as its regions do where
the middle of the memory lies in the pool. -/
def twoAdjacentManagers : KMemoryManager where
  managers := [newManager (fun _ _ => false) 1 2 .application,
    newManager (fun _ _ => false) 2 3 .application]
  optimizedProcessIds _ := 0
  hasOptimizedProcess _ := false

theorem twoAdjacentManagers_balanced : Balanced twoAdjacentManagers.managers := by
  have hcov : ∀ lo x,
      (newManager (fun _ _ => false) lo (lo + 1) .application).Covers x ↔ x = lo := by
    intro lo x
    rw [Covers, newManager_first, newManager_last _ (Nat.le_succ lo)]
    omega
  have hshows : ∀ lo, 0 < lo → lo < 3 →
      (newManager (fun _ _ => false) lo (lo + 1) .application).Shows (Ico 1 3) (fun _ => 0)
        fun _ => false :=
    fun lo hlo hlt => (newManager_shows _ hlo (Nat.le_succ lo) _).congr (fun x hx => by
      rw [(hcov lo x).mp hx, mem_Ico, mem_Ico]
      omega) (fun _ _ => rfl) fun _ _ => rfl
  have hget : ∀ {i m}, twoAdjacentManagers.managers[i]? = some m →
      i < 2 ∧ newManager (fun _ _ => false) (i + 1) (i + 1 + 1) .application = m := by
    intro i m hi
    rcases i with _ | _ | i
    · exact ⟨by decide, Option.some.inj hi⟩
    · exact ⟨by decide, Option.some.inj hi⟩
    · cases hi
  refine ⟨Ico 1 3, fun _ => 0, fun _ => false, ⟨?_, ?_⟩, ?_⟩
  · intro i m hi
    obtain ⟨hlt, rfl⟩ := hget hi
    exact hshows (i + 1) (by omega) (by omega)
  · intro i j m m' x hi hj hx hx'
    obtain ⟨-, rfl⟩ := hget hi
    obtain ⟨-, rfl⟩ := hget hj
    rw [hcov] at hx hx'
    omega
  · rintro x ⟨m, hm, hx⟩
    obtain ⟨i, hi⟩ := List.getElem?_of_mem hm
    obtain ⟨hlt, rfl⟩ := hget hi
    rw [hcov] at hx
    exact iff_of_true (mem_Ico.mpr (by omega)) rfl

/-- Both pages are allocated as one group and have one reference each. -/
theorem twoAdjacentManagers_allocated :
    ∃ r m', twoAdjacentManagers.allocateAndOpen (fun _ => true) 2 .application .fromFront =
        .ok (r, m') ∧
      ∀ x, Managed m'.managers x →
        (FreeIn m'.managers x ↔ pageReferenceCount m'.managers x = some 0) := by
  have hsafe : GroupSafe twoAdjacentManagers.managers (fun _ => true) 2 .application :=
    .inr ⟨by decide +kernel, fun _ _ => rfl⟩
  obtain ⟨F, c, t, hshows, hbal⟩ := twoAdjacentManagers_balanced
  obtain ⟨r, managers', hcall, _⟩ :=
    allocateAndOpen_outcome hshows (fun x hF hx => (hbal x hx).mp hF)
    (fun _ => true) 2 .application .fromFront
  exact ⟨r, _, hcall, (memoryRun_free_iff_no_references twoAdjacentManagers_balanced
    (.step .start (.allocateAndOpen _ 2 _ _ hsafe hcall))).1⟩

/-- Whether a call failed for lack of memory in a state with a property. -/
def outOfMemoryWith (property : List Impl → Prop) [DecidablePred property] :
    Run (Except SvcResult KPageGroup × KMemoryManager) → Bool
  | .ok (.error .outOfMemory, m) => decide (property m.managers)
  | _ => false

/-- Whether a page has no references and is in no free block. -/
def IsLost (x : ℕ) (managers : List Impl) : Prop :=
  pageReferenceCount managers x = some 0 ∧ ∀ m ∈ managers, m.heap.blocks.length = 7 ∧
    ∀ k < 7, ∀ a ∈ m.heap.freeBlocks k, x ∉ blockPages k a

instance (x : ℕ) : DecidablePred (IsLost x) := fun managers =>
  inferInstanceAs (Decidable (pageReferenceCount managers x = some 0 ∧
    ∀ m ∈ managers, m.heap.blocks.length = 7 ∧
      ∀ k < 7, ∀ a ∈ m.heap.freeBlocks k, x ∉ blockPages k a))

theorem not_freeIn_of_isLost (h : IsLost x managers) : ¬ FreeIn managers x := by
  rintro ⟨m, hm, _, k, a, ha, hx⟩
  obtain ⟨hlen, hnone⟩ := h.2 m hm
  by_cases hk : k < 7
  · exact hnone k hk a ha hx
  · rw [KPageHeap.freeBlocks, List.getElem?_eq_none (by omega)] at ha
    cases ha

/-- Three pages are asked for where the pool has two: the call fails, and the second page
is neither free nor referenced after it. -/
theorem failed_allocation_loses_page : Balanced twoAdjacentManagers.managers ∧
      ∃ m', twoAdjacentManagers.allocateAndOpen (fun _ => true) 3 .application .fromFront =
          .ok (.error .outOfMemory, m') ∧
        pageReferenceCount m'.managers 2 = some 0 ∧ ¬ FreeIn m'.managers 2 := by
  refine ⟨twoAdjacentManagers_balanced, ?_⟩
  have hcall : outOfMemoryWith (IsLost 2) (twoAdjacentManagers.allocateAndOpen (fun _ => true) 3
      .application .fromFront) = true := by decide +kernel
  generalize twoAdjacentManagers.allocateAndOpen (fun _ => true) 3 .application .fromFront = r
    at hcall ⊢
  match r, hcall with
  | .ok (.error .outOfMemory, m'), hlost =>
    have hlost : IsLost 2 m'.managers := of_decide_eq_true hlost
    exact ⟨m', rfl, hlost.1, not_freeIn_of_isLost hlost⟩

end Atmosphere.Kern.KMemoryManager
