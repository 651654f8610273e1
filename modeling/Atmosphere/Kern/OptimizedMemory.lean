import Atmosphere.Kern.MemoryManagerRun

/-!
# The pages of the optimized process

A pool can have an optimized process, which gets its own pages back without having them
filled; the bitmaps of the managers say which pages these are. In every run, a page that
is given to a process unfilled was last given to the same process, while it was the
optimized process of the pool as it is now, and holds data of nobody else.
-/

namespace Atmosphere.Kern.KMemoryManager

open Impl
open Function (update_apply update_of_ne)
open Finset

variable {F F' G : Finset ℕ} {c c' : ℕ → BitVec 16} {t t' : ℕ → Bool} {managers' : List Impl}
variable {unoptimized : Bool} {x : ℕ}

/-- Who a page is given to: a process, in a period of the pool, or a user of the memory
manager that fills its pages itself. -/
inductive Owner where
  | other
  | process (processId period : ℕ)

/-- A call of `AllocateAndOpenForProcess` that has released the lock of the pool and has
its pages still to fill. -/
structure ProcessCall where
  processId : ℕ
  pool : Pool
  group : KPageGroup
  optimized : Bool

/-- The memory manager with the calls in progress, and a record of what was done with the
pages: `period` counts the optimized processes that each pool has had, and `traces` are
the owners that may have left data in a page since it was last filled. -/
structure OptimizedState where
  manager : KMemoryManager
  calls : List ProcessCall
  period : Pool → ℕ
  lastOwner : ℕ → Option Owner
  traces : ℕ → Set Owner

namespace OptimizedState

variable {s : OptimizedState} (s : OptimizedState)

/-- The pages `G` are given to an owner, those at the addresses `filled` after they were
filled. -/
def give (G : Finset ℕ) (filled : List ℕ) (owner : Owner) : OptimizedState where
  manager := s.manager
  calls := s.calls
  period := s.period
  lastOwner x := if x ∈ G then some owner else s.lastOwner x
  traces x :=
    if x ∈ G then
      if x * pageSize ∈ filled then {owner} else insert owner (s.traces x)
    else s.traces x

/-- The locked part of `AllocateAndOpenForProcess` has returned. -/
def enter (processId : ℕ) (pool : Pool) :
    Except SvcResult (KPageGroup × Bool) → KMemoryManager → OptimizedState
  | .error _, m => { s with manager := m }
  | .ok (g, optimized), m =>
    { s with manager := m, calls := ⟨processId, pool, g, optimized⟩ :: s.calls }

/-- The page was last given to the owner and has only data of that owner. -/
def IsOwn (owner : Owner) (x : ℕ) : Prop :=
  s.lastOwner x = some owner ∧ s.traces x ⊆ {owner}

variable {s} in
/-- A page that is given unfilled has to be without the data of others. -/
theorem isOwn_give {G : Finset ℕ} {filled : List ℕ} {owner : Owner} {x : ℕ} (hx : x ∈ G)
    (htraces : x * pageSize ∉ filled → s.traces x ⊆ {owner}) :
    (s.give G filled owner).IsOwn owner x := by
  refine ⟨if_pos hx, ?_⟩
  dsimp only [give]
  rw [if_pos hx]
  split_ifs with hfilled
  · exact Set.Subset.refl _
  · exact Set.insert_subset (Set.mem_singleton _) (htraces hfilled)

/-- The process is the optimized process of the pool. -/
def IsOptimized (processId : ℕ) (pool : Pool) : Prop :=
  s.manager.hasOptimizedProcess pool = true ∧ s.manager.optimizedProcessIds pool = processId

/-- The owner that the optimized process of a pool is. -/
def optimizedOwner (pool : Pool) : Owner :=
  .process (s.manager.optimizedProcessIds pool) (s.period pool)

end OptimizedState

open OptimizedState

/-- The pages of an allocation; a failed one has none. -/
def groupPages : Except SvcResult KPageGroup → Finset ℕ
  | .error _ => ∅
  | .ok g => g.pages

/-- The pages of a continuous allocation. -/
def continuousPages (addr n : ℕ) : Finset ℕ :=
  if addr = 0 then ∅ else Ico (addr / pageSize) (addr / pageSize + n)

/-- One step of any of the callers. `AllocateAndOpenForProcess` is two steps, as it has no
lock while it fills its pages; only the call itself reads or sets the bits of its pages.
A process is finalized when none of its threads is in a call any more, and the pages of a
call are not closed before the call has returned them. -/
inductive OptimizedStep (s : OptimizedState) : OptimizedState → Prop where
  | initializeOptimizedMemory {m' : KMemoryManager} (processId : ℕ) (pool : Pool)
      (hcall : s.manager.initializeOptimizedMemory processId pool = (.ok (), m')) :
      OptimizedStep s
        { s with manager := m', period := Function.update s.period pool (s.period pool + 1) }
  | busy {e : SvcResult} {m' : KMemoryManager} (processId : ℕ) (pool : Pool)
      (hcall : s.manager.initializeOptimizedMemory processId pool = (.error e, m')) :
      OptimizedStep s { s with manager := m' }
  | finalizeOptimizedMemory (processId : ℕ) (pool : Pool)
      (hdone : ∀ call ∈ s.calls, call.processId ≠ processId) :
      OptimizedStep s { s with manager := s.manager.finalizeOptimizedMemory processId pool }
  | allocateForProcess {r : Except SvcResult (KPageGroup × Bool)} {m' : KMemoryManager}
      (infos : KBlockInfoManager) (n : ℕ) (pool : Pool) (dir : Direction) (processId : ℕ)
      (hcall : s.manager.allocateForProcess infos n pool dir processId = .ok (r, m')) :
      OptimizedStep s (s.enter processId pool r m')
  | fillGroup {filled : List ℕ} {m' : KMemoryManager} (before after : List ProcessCall)
      (call : ProcessCall) (hcalls : s.calls = before ++ call :: after)
      (hcall : s.manager.fillGroup call.group call.optimized = .ok (filled, m')) :
      OptimizedStep s
        { s.give call.group.pages filled (.process call.processId (s.period call.pool)) with
          manager := m', calls := before ++ after }
  | allocateAndOpen {r : Except SvcResult KPageGroup} {m' : KMemoryManager}
      (infos : KBlockInfoManager) (n : ℕ) (pool : Pool) (dir : Direction)
      (hcall : s.manager.allocateAndOpen infos n pool dir = .ok (r, m')) :
      OptimizedStep s (give { s with manager := m' } (groupPages r) [] .other)
  | allocateAndOpenContinuous {addr : ℕ} {m' : KMemoryManager} (n a : ℕ) (pool : Pool)
      (dir : Direction)
      (hcall : s.manager.allocateAndOpenContinuous n a pool dir = .ok (addr, m')) :
      OptimizedStep s (give { s with manager := m' } (continuousPages addr n) [] .other)
  | openPages {managers' : List Impl} (p n : ℕ)
      (hcall : openPages s.manager.managers (p * pageSize) n = .ok managers') :
      OptimizedStep s { s with manager := { s.manager with managers := managers' } }
  | closePages {managers' : List Impl} (p n : ℕ)
      (hreturned : ∀ call ∈ s.calls, Disjoint call.group.pages (Ico p (p + n)))
      (hcall : closePages s.manager.managers (p * pageSize) n = .ok managers') :
      OptimizedStep s { s with manager := { s.manager with managers := managers' } }

inductive OptimizedRun (start : OptimizedState) : OptimizedState → Prop where
  | start : OptimizedRun start start
  | step {s s' : OptimizedState} (hrun : OptimizedRun start s) (hstep : OptimizedStep s s') :
      OptimizedRun start s'

/-! ## The invariant -/

/-- What holds for a call in progress. -/
structure CallInv (s : OptimizedState) (F : Finset ℕ) (t : ℕ → Bool) (call : ProcessCall) :
    Prop where
  apart : call.group.Apart
  pages : ∀ x ∈ call.group.pages, x ∉ F ∧ InPool s.manager.managers call.pool x
  optimized : call.optimized = true → s.IsOptimized call.processId call.pool
  untracked : call.optimized = false → s.manager.hasOptimizedProcess call.pool = true →
    ∀ x ∈ call.group.pages, t x = false

/-- The tracked pages of a pool with an optimized process are that process's own. -/
structure TrackInv (s : OptimizedState) (F : Finset ℕ) (c : ℕ → BitVec 16) (t : ℕ → Bool) :
    Prop where
  shows : ShowsAll s.manager.managers F c t
  zero : ∀ x ∈ F, Managed s.manager.managers x → c x = 0
  own : ∀ pool x, s.manager.hasOptimizedProcess pool = true → InPool s.manager.managers pool x →
    t x = true → s.IsOwn (s.optimizedOwner pool) x
  calls : ∀ call ∈ s.calls, CallInv s F t call
  disjoint : s.calls.Pairwise fun a b => Disjoint a.group.pages b.group.pages

theorem tracked_of_untrack (h : untrack unoptimized t G x = true) :
    t x = true := by
  rw [untrack, ite_apply] at h
  unfold setTracked at h
  split_ifs at h <;> exact h

theorem untrack_of_mem (hx : x ∈ G) : untrack true t G x = false := if_pos hx

/-- `InitializeOptimizedMemory` clears the bits of the pages of the pool. -/
theorem ShowsAll.initializeOptimizedMemory {managers : List Impl} (h : ShowsAll managers F c t)
    (pool : Pool) :
    ∃ t', ShowsAll (managers.map fun m => if m.pool = pool then m.initializeOptimizedMemory else m)
        F c t' ∧
      regions (managers.map fun m => if m.pool = pool then m.initializeOptimizedMemory else m) =
        regions managers ∧
      (∀ x, InPool managers pool x → t' x = false) ∧ ∀ x, t' x = true → t x = true := by
  classical
  have hregion : ∀ m : Impl, (if m.pool = pool then m.initializeOptimizedMemory else m).region =
      m.region := fun m => by split <;> rfl
  refine ⟨fun x => t x && !decide (InPool managers pool x), ⟨?_, ?_⟩, ?_, ?_, ?_⟩
  · intro i m' hi
    rw [List.getElem?_map, Option.map_eq_some_iff] at hi
    obtain ⟨m, hi, rfl⟩ := hi
    have hm := h.each hi
    have hmem := List.mem_of_getElem? hi
    by_cases hpool : m.pool = pool
    · rw [if_pos hpool]
      refine ⟨hm.pos, hm.le, hm.address, hm.endAddress, hm.pages, hm.counts, fun x hx => ?_⟩
      rw [decide_eq_true ⟨m, hmem, hpool, hx⟩, Bool.not_true, Bool.and_false]
      exact BitVec.getLsbD_zero
    · rw [if_neg hpool]
      refine hm.congr (fun _ _ => Iff.rfl) (fun _ _ => rfl) fun x hx => ?_
      have hnot : ¬ InPool managers pool x := fun hin =>
        hpool (hin.unique ⟨m, hmem, rfl, hx⟩ h)
      rw [decide_eq_false hnot, Bool.not_false, Bool.and_true]
  · intro i j m m' x hi hj hx hx'
    rw [List.getElem?_map, Option.map_eq_some_iff] at hi hj
    obtain ⟨m₁, hi, rfl⟩ := hi
    obtain ⟨m₂, hj, rfl⟩ := hj
    exact h.apart hi hj ((covers_of_region (hregion m₁)).mp hx)
      ((covers_of_region (hregion m₂)).mp hx')
  · rw [regions, List.map_map]
    exact List.map_congr_left fun m _ => hregion m
  · intro x hin
    dsimp only
    rw [decide_eq_true hin, Bool.not_true, Bool.and_false]
  · exact fun x htr => (Bool.and_eq_true_iff.mp htr).1

namespace TrackInv

variable {s : OptimizedState}

section

variable (h : TrackInv s F c t) (hreg : regions managers' = regions s.manager.managers)
  (hshows : ShowsAll managers' F' c' t')
  (hzero : ∀ x ∈ F', Managed s.manager.managers x → c' x = 0)
include h hreg hshows hzero

/-- The managers change. A page becomes tracked only if it is the optimized process's own
and in none of the calls that are left. -/
theorem update {calls' : List ProcessCall} (hcalls : calls'.Sublist s.calls)
    (hown : ∀ pool x, s.manager.hasOptimizedProcess pool = true →
      InPool s.manager.managers pool x → t' x = true →
      t x = true ∨ s.IsOwn (s.optimizedOwner pool) x)
    (hkept : ∀ call ∈ calls', ∀ x ∈ call.group.pages, x ∉ F' ∧ (t' x = true → t x = true)) :
    TrackInv { s with manager := { s.manager with managers := managers' }, calls := calls' }
      F' c' t' := by
  refine ⟨hshows, fun x hx hman => hzero x hx ((managed_of_regions hreg).mp hman), ?_, ?_,
    h.disjoint.sublist hcalls⟩
  · intro pool x hhas hin htr
    have hin := hin.of_regions hreg
    exact (hown pool x hhas hin htr).elim (h.own pool x hhas hin) id
  · intro call hcall
    have hinv := h.calls call (hcalls.subset hcall)
    refine ⟨hinv.apart, fun x hx => ⟨(hkept call hcall x hx).1, ?_⟩, hinv.optimized, ?_⟩
    · exact (hinv.pages x hx).2.of_regions hreg.symm
    · intro hopt hhas x hx
      have htr := hinv.untracked hopt hhas x hx
      exact Bool.eq_false_iff.mpr (mt (hkept call hcall x hx).2 (Bool.eq_false_iff.mp htr))

/-- The managers change without a new tracked page, and no page of a call becomes free. -/
theorem quiet (ht : ∀ x, t' x = true → t x = true)
    (hF : ∀ x ∈ F', x ∈ F ∨ ∀ call ∈ s.calls, x ∉ call.group.pages) :
    TrackInv { s with manager := { s.manager with managers := managers' } } F' c' t' := by
  refine h.update hreg hshows hzero (List.Sublist.refl _) (fun _ x _ _ htr => .inl (ht x htr))
    fun call hcall x hx => ⟨fun hx' => ?_, ht x⟩
  exact (hF x hx').elim ((h.calls call hcall).pages x hx).1 fun hnot => hnot call hcall hx

end

variable {filled : List ℕ} {call : ProcessCall} {m' : KMemoryManager} {pool : Pool} {n : ℕ}
  {dir : Direction}

variable (h : TrackInv s F c t) {infos : KBlockInfoManager} {processId : ℕ}
include h

/-- Pages are given to an owner. Those that are tracked must be given to the optimized
process. -/
theorem give {owner : Owner} (hG : ∀ pool x, x ∈ G → s.manager.hasOptimizedProcess pool = true →
      InPool s.manager.managers pool x → t x = true → owner = s.optimizedOwner pool) :
    TrackInv (s.give G filled owner) F c t := by
  refine ⟨h.shows, h.zero, fun pool x hhas hin htr => ?_,
    fun call hcall => { h.calls call hcall with }, h.disjoint⟩
  · obtain ⟨hlast, htraces⟩ := h.own pool x hhas hin htr
    by_cases hx : x ∈ G
    · obtain rfl := hG pool x hx hhas hin htr
      exact isOwn_give hx fun _ => htraces
    · refine ⟨(if_neg hx).trans hlast, ?_⟩
      dsimp only [OptimizedState.give]
      rw [if_neg hx]
      exact htraces

/-- A call has taken free pages and is in progress. -/
theorem addCall (hcall : CallInv s F t call)
    (hdisj : ∀ other ∈ s.calls, Disjoint call.group.pages other.group.pages) :
    TrackInv { s with calls := call :: s.calls } F c t := by
  refine ⟨h.shows, h.zero, h.own, fun other hother => ?_,
    List.pairwise_cons.mpr ⟨hdisj, h.disjoint⟩⟩
  obtain rfl | hother := List.mem_cons.mp hother
  · exact { hcall with }
  · exact { h.calls other hother with }

/-! ## The steps -/

theorem initializeOptimizedMemory
    (hcall : s.manager.initializeOptimizedMemory processId pool = (.ok (), m')) :
    ∃ t', TrackInv { s with
      manager := m', period := Function.update s.period pool (s.period pool + 1) } F c t' := by
  rw [KMemoryManager.initializeOptimizedMemory] at hcall
  split at hcall
  · cases hcall
  · rename_i hnone
    obtain rfl := (Prod.mk.inj hcall).2
    obtain ⟨t', hshows, hreg, hclear, hsub⟩ := h.shows.initializeOptimizedMemory pool
    refine ⟨t', hshows, fun x hx hman => h.zero x hx ((managed_of_regions hreg).mp hman), ?_, ?_,
      h.disjoint⟩
    · intro pool' x hhas hin htr
      have hin := hin.of_regions hreg
      by_cases hpool : pool' = pool
      · rw [hclear x (hpool ▸ hin)] at htr
        cases htr
      · have hhas : s.manager.hasOptimizedProcess pool' = true :=
          (update_of_ne hpool _ _).symm.trans hhas
        have howner := h.own pool' x hhas hin (hsub x htr)
        simp only [optimizedOwner, update_of_ne hpool]
        exact howner
    · intro call hmem
      obtain ⟨hapart, hpages, hopt, hun⟩ := h.calls call hmem
      refine ⟨hapart, fun x hx => ⟨(hpages x hx).1, (hpages x hx).2.of_regions hreg.symm⟩, ?_, ?_⟩
      · intro htrue
        obtain ⟨hhas, hid⟩ := hopt htrue
        have hpool : call.pool ≠ pool := fun heq => hnone (heq ▸ hhas)
        exact ⟨(update_of_ne hpool _ _).trans hhas, (update_of_ne hpool _ _).trans hid⟩
      · intro hfalse hhas x hx
        refine Bool.eq_false_iff.mpr fun htr => ?_
        by_cases hpool : call.pool = pool
        · exact Bool.eq_false_iff.mp (hclear x (hpool ▸ (hpages x hx).2)) htr
        · have hhas : s.manager.hasOptimizedProcess call.pool = true :=
            (update_of_ne hpool _ _).symm.trans hhas
          exact Bool.eq_false_iff.mp (hun hfalse hhas x hx) (hsub x htr)

theorem finalizeOptimizedMemory (processId : ℕ) (pool : Pool)
    (hdone : ∀ call ∈ s.calls, call.processId ≠ processId) :
    TrackInv { s with manager := s.manager.finalizeOptimizedMemory processId pool } F c t := by
  rw [KMemoryManager.finalizeOptimizedMemory]
  split
  · rename_i hcur
    obtain ⟨_, hid⟩ := (Bool.and_eq_true_iff.mp hcur).imp_right eq_of_beq
    -- a pool that still has an optimized process is another one
    have hstill : ∀ pool', Function.update s.manager.hasOptimizedProcess pool false pool' = true →
        s.manager.hasOptimizedProcess pool' = true := by
      intro pool' hhas
      rw [update_apply] at hhas
      split_ifs at hhas
      exact hhas
    refine ⟨h.shows, h.zero, fun pool' x hhas => h.own pool' x (hstill pool' hhas), ?_, h.disjoint⟩
    intro call hmem
    obtain ⟨hapart, hpages, hopt, hun⟩ := h.calls call hmem
    refine ⟨hapart, hpages, fun htrue => ?_, fun hfalse hhas => hun hfalse (hstill _ hhas)⟩
    obtain ⟨hhas, hcallId⟩ := hopt htrue
    have hpool : call.pool ≠ pool := fun heq =>
      hdone call hmem (hcallId.symm.trans (heq ▸ hid))
    exact ⟨(update_of_ne hpool _ _).trans hhas, hcallId⟩
  · exact h

section

variable (hreg : regions managers' = regions s.manager.managers)
include hreg

/-- An allocation takes the pages `G` from the free ones. -/
theorem take (hshows : ShowsAll managers' (F \ G) (openedCounts c G) (untrack unoptimized t G)) :
    TrackInv { s with manager := { s.manager with managers := managers' } } (F \ G)
      (openedCounts c G) (untrack unoptimized t G) := by
  refine h.quiet hreg hshows (fun x hx hman => ?_) (fun _ => tracked_of_untrack)
    fun x hx => .inl (mem_sdiff.mp hx).1
  obtain ⟨hF, hG⟩ := mem_sdiff.mp hx
  exact (if_neg hG).trans (h.zero x hF hman)

/-- A failed page-group allocation. -/
theorem refuse (hsub : F' ⊆ F) (hshows : ShowsAll managers' F' c (untrack unoptimized t G)) :
    TrackInv { s with manager := { s.manager with managers := managers' } } F' c
      (untrack unoptimized t G) :=
  h.quiet hreg hshows (fun x hx => h.zero x (hsub hx)) (fun _ => tracked_of_untrack)
    fun _ hx => .inl (hsub hx)

/-- Pages of a pool that were taken out of its bitmap are given to anyone. -/
theorem takeAndGive (hG : ∀ x ∈ G, InPool s.manager.managers pool x)
    (hshows : ShowsAll managers' (F \ G) (openedCounts c G)
      (untrack (s.manager.hasOptimizedProcess pool) t G)) (filled : List ℕ) (owner : Owner) :
    TrackInv (OptimizedState.give { s with manager := { s.manager with managers := managers' } } G
      filled owner) (F \ G) (openedCounts c G)
      (untrack (s.manager.hasOptimizedProcess pool) t G) := by
  refine (h.take hreg hshows).give fun pool' x hx hhas hin htr => ?_
  have hpool : pool' = pool := (hG x hx).unique (hin.of_regions hreg) h.shows
  have hhas : s.manager.hasOptimizedProcess pool = true := hpool ▸ hhas
  rw [hhas, untrack_of_mem hx] at htr
  cases htr

end

theorem allocateForProcess {r : Except SvcResult (KPageGroup × Bool)}
    (hcall : s.manager.allocateForProcess infos n pool dir processId = .ok (r, m')) :
    ∃ F' c' t', TrackInv (s.enter processId pool r m') F' c' t' := by
  obtain ⟨r₀, managers', hrun, hreg, hout⟩ :=
    allocateForProcess_outcome h.shows h.zero infos n pool dir processId
  obtain ⟨rfl, rfl⟩ := Prod.mk.inj (Except.ok.inj (hrun.symm.trans hcall))
  cases hout with
  | refused F' G hsub _ hshows => exact ⟨F', c, _, h.refuse hreg hsub hshows⟩
  | @opened g _ hapart _ hin hshows =>
    refine ⟨_, _, _, (h.take hreg hshows).addCall ⟨hapart, fun x hx => ⟨?_, ?_⟩, ?_, ?_⟩ ?_⟩
    · exact fun hF => (mem_sdiff.mp hF).2 hx
    · exact (hin x hx).2.of_regions hreg.symm
    · exact fun hopt => (Bool.and_eq_true_iff.mp hopt).imp_right eq_of_beq
    · intro hopt hhas x hx
      have hhas : s.manager.hasOptimizedProcess pool = true := hhas
      have hother : (s.manager.optimizedProcessIds pool == processId) = false := by
        simpa only [hhas, Bool.true_and] using hopt
      rw [processOptions]
      simp only [hhas, hother, Bool.not_false, Bool.and_self]
      exact untrack_of_mem hx
    · exact fun other hother => disjoint_left.mpr fun x hx hx' =>
        ((h.calls other hother).pages x hx').1 (hin x hx).1

theorem allocateAndOpen {r : Except SvcResult KPageGroup}
    (hcall : s.manager.allocateAndOpen infos n pool dir = .ok (r, m')) :
    ∃ F' c' t', TrackInv (OptimizedState.give { s with manager := m' } (groupPages r) [] .other)
      F' c' t' := by
  obtain ⟨r₀, managers', hrun, hreg, hout⟩ :=
    allocateAndOpen_outcome h.shows h.zero infos n pool dir
  obtain ⟨rfl, rfl⟩ := Prod.mk.inj (Except.ok.inj (hrun.symm.trans hcall))
  cases hout with
  | refused F' G hsub _ hshows =>
    exact ⟨F', c, _, (h.refuse hreg hsub hshows).give fun _ x hx =>
      absurd hx (notMem_empty x)⟩
  | opened _ _ hin hshows =>
    exact ⟨_, _, _, h.takeAndGive hreg (fun x hx => (hin x hx).2) hshows [] .other⟩

theorem allocateAndOpenContinuous {addr : ℕ} {a : ℕ}
    (hcall : s.manager.allocateAndOpenContinuous n a pool dir = .ok (addr, m')) :
    ∃ F' c' t', TrackInv (OptimizedState.give { s with manager := m' } (continuousPages addr n) []
      .other) F' c' t' := by
  obtain ⟨herr, _⟩ | ⟨addr₀, managers', hrun, hreg, hcase⟩ :=
    allocateAndOpenContinuous_spec h.shows h.zero n a pool dir
  · rw [herr] at hcall
    cases hcall
  · obtain ⟨rfl, rfl⟩ := Prod.mk.inj (Except.ok.inj (hrun.symm.trans hcall))
    obtain ⟨hnull, hshows⟩ | ⟨p, rfl, hne, _, hin, hshows⟩ := hcase
    · rw [continuousPages, if_pos hnull]
      have hquiet := h.quiet hreg hshows h.zero (fun _ => id) fun _ => .inl
      exact ⟨F, c, t, hquiet.give fun _ x hx => absurd hx (notMem_empty x)⟩
    · rw [changeCounts_eq_openedCounts] at hshows
      rw [continuousPages, if_neg hne, Nat.mul_div_cancel _ pageSize_pos]
      exact ⟨_, _, _, h.takeAndGive hreg (fun x hx =>
        (hin x (mem_Ico.mp hx).1 (mem_Ico.mp hx).2).2) hshows [] .other⟩

/-- A page that a call leaves unfilled is its process's own. -/
theorem unfilled_isOwn (hmem : call ∈ s.calls)
    (hfill : s.manager.fillGroup call.group call.optimized = .ok (filled, m'))
    (hx : x ∈ call.group.pages) (hnot : x * pageSize ∉ filled) :
    s.IsOptimized call.processId call.pool ∧
      s.IsOwn (.process call.processId (s.period call.pool)) x := by
  have hinv := h.calls call hmem
  obtain ⟨_, _, _, _, _, _, hkept, _⟩ := fillGroup_spec h.shows hinv.apart hfill
  obtain ⟨hopt, htr⟩ := hkept x hx hnot
  obtain ⟨hhas, hid⟩ := hinv.optimized hopt
  have howner : s.optimizedOwner call.pool = .process call.processId (s.period call.pool) :=
    congrArg (Owner.process · _) hid
  exact ⟨⟨hhas, hid⟩, howner ▸ h.own call.pool x hhas (hinv.pages x hx).2 htr⟩

theorem fillGroup {before after : List ProcessCall} (hcalls : s.calls = before ++ call :: after)
    (hcall : s.manager.fillGroup call.group call.optimized = .ok (filled, m')) : ∃ t', TrackInv
      { s.give call.group.pages filled (.process call.processId (s.period call.pool))
        with manager := m', calls := before ++ after } F c t' := by
  have hmem : call ∈ s.calls := hcalls ▸ List.mem_append_right _ (.head _)
  have hinv := h.calls call hmem
  obtain ⟨hids, hhas, hreg, t', hshows, hsub, _⟩ := fillGroup_spec h.shows hinv.apart hcall
  obtain ⟨managers', ids, has⟩ := m'
  obtain rfl : ids = s.manager.optimizedProcessIds := hids
  obtain rfl : has = s.manager.hasOptimizedProcess := hhas
  -- the pages of the call that are tracked are given to the optimized process
  have hgive : TrackInv (s.give call.group.pages filled
      (.process call.processId (s.period call.pool))) F c t := by
    refine h.give fun pool x hx hpoolHas hin htr => ?_
    obtain rfl := (hinv.pages x hx).2.unique hin h.shows
    cases hopt : call.optimized with
    | true =>
      obtain ⟨_, hid⟩ := hinv.optimized hopt
      rw [optimizedOwner, hid]
    | false =>
      rw [hinv.untracked hopt hpoolHas x hx] at htr
      cases htr
  have hother : ∀ other ∈ before ++ after, Disjoint call.group.pages other.group.pages := by
    have hdisj := h.disjoint
    rw [hcalls, List.pairwise_append, List.pairwise_cons] at hdisj
    intro other hmem'
    obtain hbefore | hafter := List.mem_append.mp hmem'
    · exact (hdisj.2.2 other hbefore call (.head _)).symm
    · exact hdisj.2.1.1 other hafter
  have hsublist : (before ++ after).Sublist s.calls :=
    hcalls ▸ (List.Sublist.refl before).append (List.sublist_cons_self call after)
  refine ⟨t', hgive.update hreg hshows h.zero hsublist (fun pool x hpoolHas hin htr => ?_) ?_⟩
  · refine (hsub x htr).imp_right ?_
    rintro ⟨hopt, hx⟩
    obtain rfl := (hinv.pages x hx).2.unique hin h.shows
    obtain ⟨_, hid⟩ := hinv.optimized hopt
    have howner : (s.give call.group.pages filled (.process call.processId (s.period call.pool))
        ).optimizedOwner call.pool = .process call.processId (s.period call.pool) :=
      congrArg (Owner.process · _) hid
    rw [howner]
    exact isOwn_give hx fun hnot => (h.unfilled_isOwn hmem hcall hx hnot).2.2
  · intro other hmem' x hx
    refine ⟨((h.calls other (hsublist.subset hmem')).pages x hx).1, fun htr => ?_⟩
    exact (hsub x htr).resolve_right fun hin => disjoint_left.mp (hother other hmem') hin.2 hx

theorem openPages {p : ℕ}
    (hcall : KMemoryManager.openPages s.manager.managers (p * pageSize) n = .ok managers') :
    TrackInv { s with manager := { s.manager with managers := managers' } } F
      (changeCounts (· + 1) c p (p + n)) t := by
  obtain ⟨hvalid, hshows, hreg⟩ := h.shows.openPages hcall
  refine h.quiet hreg hshows (fun x hx hman => ?_) (fun _ => id) fun _ => .inl
  have hzero := h.zero x hx hman
  by_cases hin : p ≤ x ∧ x < p + n
  · have hgt : (c x + 1).toNat > 1 := of_decide_eq_true (hvalid x hin.1 hin.2).2
    rw [hzero] at hgt
    exact absurd hgt (by decide)
  · rw [changeCounts_outside hin, hzero]

theorem closePages {p : ℕ} (hreturned : ∀ call ∈ s.calls, Disjoint call.group.pages (Ico p (p + n)))
    (hcall : KMemoryManager.closePages s.manager.managers (p * pageSize) n = .ok managers') :
    ∃ F' c', TrackInv { s with manager := { s.manager with managers := managers' } } F' c' t := by
  obtain ⟨hvalid, hshows, hreg⟩ := h.shows.closePages h.zero hcall
  refine ⟨_, _, h.quiet hreg hshows (fun x hx hman => ?_) (fun _ => id) fun x hx => ?_⟩
  · obtain hF | hone := mem_union.mp hx
    · have hzero := h.zero x hF hman
      by_cases hin : p ≤ x ∧ x < p + n
      · exact absurd hzero (hvalid x hin.1 hin.2).2
      · rw [changeCounts_outside hin, hzero]
    · obtain ⟨hin, hone⟩ := mem_filter.mp hone
      rw [changeCounts, if_pos (mem_Ico.mp hin), hone]
      rfl
  · exact (mem_union.mp hx).imp_right fun hone call hmem hin =>
      disjoint_left.mp (hreturned call hmem) hin (mem_filter.mp hone).1

end TrackInv

/-! ## Runs -/

/-- The state holds the invariant for some free pages, counts and tracked pages. -/
def Tracks (s : OptimizedState) : Prop := ∃ F c t, TrackInv s F c t

theorem OptimizedStep.tracks {s s' : OptimizedState} (hstep : OptimizedStep s s') (h : Tracks s) :
    Tracks s' := by
  obtain ⟨F, c, t, h⟩ := h
  cases hstep with
  | initializeOptimizedMemory processId pool hcall =>
    exact ⟨F, c, h.initializeOptimizedMemory hcall⟩
  | busy processId pool hcall =>
    rw [KMemoryManager.initializeOptimizedMemory] at hcall
    split at hcall
    · obtain rfl := (Prod.mk.inj hcall).2
      exact ⟨F, c, t, h⟩
    · cases hcall
  | finalizeOptimizedMemory processId pool hdone =>
    exact ⟨F, c, t, h.finalizeOptimizedMemory processId pool hdone⟩
  | allocateForProcess infos n pool dir processId hcall => exact h.allocateForProcess hcall
  | fillGroup before after call hcalls hcall => exact ⟨F, c, h.fillGroup hcalls hcall⟩
  | allocateAndOpen infos n pool dir hcall => exact h.allocateAndOpen hcall
  | allocateAndOpenContinuous n a pool dir hcall => exact h.allocateAndOpenContinuous hcall
  | openPages p n hcall => exact ⟨F, _, t, h.openPages hcall⟩
  | closePages p n hreturned hcall =>
    obtain ⟨F', c', h'⟩ := h.closePages hreturned hcall
    exact ⟨F', c', t, h'⟩

/-- No pool has an optimized process yet, and free pages have no references. -/
structure Starts (s : OptimizedState) : Prop where
  calls : s.calls = []
  none : ∀ pool, s.manager.hasOptimizedProcess pool = false
  shows : ∃ F c t, ShowsAll s.manager.managers F c t ∧
    ∀ x ∈ F, Managed s.manager.managers x → c x = 0

theorem Starts.tracks {s : OptimizedState} (h : Starts s) : Tracks s := by
  obtain ⟨F, c, t, hshows, hzero⟩ := h.shows
  refine ⟨F, c, t, hshows, hzero, fun pool x hhas => ?_, ?_, ?_⟩
  · rw [h.none pool] at hhas
    cases hhas
  · rw [h.calls]
    exact fun call hmem => absurd hmem List.not_mem_nil
  · rw [h.calls]
    exact List.Pairwise.nil

theorem OptimizedRun.tracks {start s : OptimizedState} (hrun : OptimizedRun start s)
    (hstart : Starts start) : Tracks s := by
  induction hrun with
  | start => exact hstart.tracks
  | step _ hstep ih => exact hstep.tracks ih

/-- In every run, a page that a process gets unfilled was last given to the same process in
the present period of the pool, and has data of nobody else. The first part is for a call
whose filling comes after steps of others, the second for a call without a break. -/
theorem optimizedRun_unfilled_is_own {start s : OptimizedState} (hstart : Starts start)
    (hrun : OptimizedRun start s) :
    (∀ call ∈ s.calls, ∀ filled m',
      s.manager.fillGroup call.group call.optimized = .ok (filled, m') →
      ∀ x ∈ call.group.pages, x * pageSize ∉ filled → s.IsOptimized call.processId call.pool ∧
          s.IsOwn (.process call.processId (s.period call.pool)) x) ∧
    ∀ infos n pool dir processId g filled m',
      s.manager.allocateAndOpenForProcess infos n pool dir processId = .ok (.ok (g, filled), m') →
      ∀ x ∈ g.pages, x * pageSize ∉ filled →
        s.IsOptimized processId pool ∧ s.IsOwn (.process processId (s.period pool)) x := by
  constructor
  · intro call hmem filled m' hfill x hx hnot
    obtain ⟨F, c, t, h⟩ := hrun.tracks hstart
    exact h.unfilled_isOwn hmem hfill hx hnot
  · intro infos n pool dir processId g filled m' hcall x hx hnot
    obtain ⟨e, he, _⟩ | ⟨g', filled', optimized, m₁, heq, hlocked, hfill⟩ :=
      allocateAndOpenForProcess_cases hcall
    · cases he
    · obtain ⟨rfl, rfl⟩ := Prod.mk.inj (Except.ok.inj heq)
      obtain ⟨F, c, t, h⟩ := hrun.tracks hstart
      obtain ⟨F', c', t', h'⟩ := h.allocateForProcess hlocked
      have hown := h'.unfilled_isOwn (.head _) hfill hx hnot
      obtain ⟨r₀, managers', hrun', _, _⟩ :=
        allocateForProcess_outcome h.shows h.zero infos n pool dir processId
      obtain ⟨_, rfl⟩ := Prod.mk.inj (Except.ok.inj (hrun'.symm.trans hlocked))
      exact hown

/-- Two pages without an owner. -/
def twoPages : OptimizedState where
  manager := twoAdjacentManagers
  calls := []
  period _ := 0
  lastOwner _ := none
  traces _ := Set.univ

/-- Process 7 becomes the optimized one, gets a page, frees it and gets a page again. -/
def allocateTwice : Run (Except SvcResult (KPageGroup × List ℕ)) := do
  let m := (twoAdjacentManagers.initializeOptimizedMemory 7 .application).2
  let (r, m) ← m.allocateForProcess (fun _ => true) 1 .application .fromFront 7
  match r with
  | .error e => return .error e
  | .ok (g, optimized) =>
    let (_, m) ← m.fillGroup g optimized
    let managers ← closePages m.managers (1 * pageSize) 1
    let (r, _) ← allocateAndOpenForProcess { m with managers := managers } (fun _ => true) 1
      .application .fromFront 7
    return r

theorem allocateTwice_unfilled : ∃ s g filled m', OptimizedRun twoPages s ∧
      s.manager.allocateAndOpenForProcess (fun _ => true) 1 .application .fromFront 7 =
        .ok (.ok (g, filled), m') ∧
      1 ∈ g.pages ∧ filled = [] ∧ s.IsOwn (.process 7 (s.period .application)) 1 := by
  have hstart : Starts twoPages := by
    obtain ⟨F, c, t, hshows, hbal⟩ := twoAdjacentManagers_balanced
    exact ⟨rfl, fun _ => rfl, F, c, t, hshows, fun x hF hx => (hbal x hx).mp hF⟩
  have htwice : allocateTwice = .ok (.ok ([⟨1, 1⟩], [])) := by decide +kernel
  obtain ⟨⟨r, m₁⟩, hfirst, hrest⟩ := bind_eq_ok.mp htwice
  have hrun₁ := (show OptimizedRun twoPages twoPages from .start).step
    (.initializeOptimizedMemory 7 .application rfl)
  cases r with
  | error e => cases hrest
  | ok r =>
    obtain ⟨g, optimized⟩ := r
    obtain ⟨⟨filled₁, m₂⟩, hfill, hrest⟩ := bind_eq_ok.mp hrest
    obtain ⟨managers, hclose, hrest⟩ := bind_eq_ok.mp hrest
    obtain ⟨⟨r', m'⟩, hcall, hret⟩ := bind_eq_ok.mp hrest
    obtain rfl := Except.ok.inj hret
    have hrun₂ := hrun₁.step
      (.allocateForProcess (fun _ => true) 1 .application .fromFront 7 hfirst)
    have hrun₃ := hrun₂.step (.fillGroup [] [] ⟨7, .application, g, optimized⟩ rfl hfill)
    have hrun₄ := hrun₃.step (.closePages 1 1 (fun _ hmem => absurd hmem List.not_mem_nil) hclose)
    have hpage : 1 ∈ KPageGroup.pages [⟨1, 1⟩] := by decide
    exact ⟨_, _, _, _, hrun₄, hcall, hpage, rfl, ((optimizedRun_unfilled_is_own hstart hrun₄).2
      _ _ _ _ _ _ _ _ hcall 1 hpage List.not_mem_nil).2⟩

end Atmosphere.Kern.KMemoryManager
