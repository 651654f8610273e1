import Atmosphere.Kern.SchedulerSpec

/-!
# The choice for all cores

Both loops of `KScheduler::UpdateHighestPriorityThreadsImpl` together.
-/

namespace Atmosphere.Kern

open BitScan

variable {α π : Type} {threads : ThreadTable α π} {s : SchedulerState α} {core : ℕ} {t : α}

/-- The process of the thread has a different thread pinned on the core, and the thread is
not one that is preferred to it. -/
def ThreadTable.Blocked (threads : ThreadTable α π) (t : α) (core : ℕ) : Prop :=
  ∃ parent pinned, threads.owner t = some parent ∧
    threads.pinnedThread parent core = some pinned ∧ pinned ≠ t ∧
    threads.numKernelWaiters t = 0 ∧ threads.exceptionThread parent ≠ some t

variable [DecidableEq α]

theorem ThreadTable.chooseTop_of_not_blocked (h : ¬ threads.Blocked t core) :
    threads.chooseTop core t = some t := by
  unfold chooseTop
  cases howner : threads.owner t with
  | none => rfl
  | some parent =>
    cases hpinned : threads.pinnedThread parent core with
    | none => simp only [hpinned]
    | some pinned =>
      simp only [hpinned]
      rw [ite_eq_right_iff]
      intro hne
      rw [if_neg fun hpreferred => h ⟨parent, pinned, howner, hpinned, hne, hpreferred⟩]

/-- The front is taken unless it is blocked; then the pinned thread is. -/
theorem ThreadTable.chooseTop_eq_some {top : α} (h : threads.chooseTop core top = some t) :
    (t = top ∧ ¬ threads.Blocked top core) ∨
      ∃ parent, threads.pinnedThread parent core = some t ∧ t ∈ threads.queued := by
  by_cases hblocked : threads.Blocked top core
  · obtain ⟨parent, pinned, howner, hpinned, hne, hwaiters, hexception⟩ := hblocked
    simp only [chooseTop, howner, hpinned, if_pos hne, if_pos (And.intro hwaiters hexception)] at h
    obtain ⟨hrunnable, h⟩ := Option.ite_none_right_eq_some.mp h
    obtain rfl := Option.some.inj h
    exact .inr ⟨parent, hpinned, hrunnable⟩
  · rw [chooseTop_of_not_blocked hblocked] at h
    exact .inl ⟨(Option.some.inj h).symm, hblocked⟩

/-- The choice of the first loop. -/
def firstChoice (threads : ThreadTable α π) (s : SchedulerState α) (core : ℕ) : Option α :=
  (s.queue.getScheduledFront core).bind (threads.chooseTop core)

theorem foldl_chooseTop (cores : List ℕ) (u : Update α) :
    (cores.foldl (Update.chooseTop threads) u).queue = u.queue ∧
      (cores.foldl (Update.chooseTop threads) u).info = u.info ∧
      ∀ c, (cores.foldl (Update.chooseTop threads) u).topThreads c =
          (if c ∈ cores then firstChoice threads u.toSchedulerState c else u.topThreads c) ∧
        (cores.foldl (Update.chooseTop threads) u).highestPriorityThread c =
          if c ∈ cores then firstChoice threads u.toSchedulerState c
          else u.highestPriorityThread c := by
  induction cores generalizing u with
  | nil => simp
  | cons core cores ih =>
    obtain ⟨hqueue, hinfo, hchoice⟩ := ih (u.chooseTop threads core)
    rw [List.foldl_cons]
    have hsame : firstChoice threads (u.chooseTop threads core).toSchedulerState =
        firstChoice threads u.toSchedulerState := by
      funext c
      rw [firstChoice, Update.chooseTop, Update.setTop_queue]
      rfl
    refine ⟨?_, ?_, fun c => ?_⟩
    · rw [hqueue, Update.chooseTop, Update.setTop_queue]
    · rw [hinfo, Update.chooseTop, Update.setTop_info]
    · rw [(hchoice c).1, (hchoice c).2, hsame, Update.chooseTop]
      by_cases hc : c ∈ cores
      · simp [hc]
      · by_cases hcc : c = core
        · simp [hcc, firstChoice]
        · simp [hc, hcc]

/-- The choice of the first loop is a runnable thread of the core. -/
theorem firstChoice_spec (h : s.QueueInv threads) (hpinned : threads.PinnedBound s.info)
    (hchoice : firstChoice threads s core = some t) :
    t ∈ threads.queued ∧ (s.info t).activeCore = some core := by
  obtain ⟨front, hfront, htop⟩ := Option.bind_eq_some_iff.mp hchoice
  obtain ⟨rfl, _⟩ | ⟨parent, hpin, hrunnable⟩ := ThreadTable.chooseTop_eq_some htop
  · obtain ⟨L, hplaced⟩ := h.placed
    have hhead : (L.inOrder .scheduled core).head? = some t := hplaced.getFront_eq.symm.trans hfront
    obtain ⟨hmem, -, _, hactive⟩ := hplaced.mem_inOrder.mp (List.mem_of_mem_head? hhead)
    exact ⟨hmem, hactive⟩
  · exact ⟨hrunnable, (hpinned parent core t hpin).2.1⟩

theorem chooseTops_queue : (chooseTops threads s).queue = s.queue := (foldl_chooseTop _ _).1

theorem chooseTops_info : (chooseTops threads s).info = s.info := (foldl_chooseTop _ _).2.1

theorem chooseTops_topThreads (core : ℕ) : (chooseTops threads s).topThreads core =
    if core < numCores then firstChoice threads s core else none := by
  simp only [chooseTops, ((foldl_chooseTop _ _).2.2 core).1, List.mem_range]

theorem chooseTops_inv (h : s.QueueInv threads) (hpinned : threads.PinnedBound s.info) :
    (chooseTops threads s).Inv threads := by
  refine ⟨⟨?_, ?_⟩, fun c x hx => ?_, fun core hcore => ?_⟩
  · rw [chooseTops_queue, chooseTops_info]
    exact h.placed
  · rw [chooseTops_info]
    exact h.valid
  · rw [chooseTops_topThreads] at hx
    rw [chooseTops_info]
    split_ifs at hx
    exact firstChoice_spec h hpinned hx
  · have hmem : core ∈ List.range numCores := List.mem_range.mpr hcore
    rw [chooseTops, ((foldl_chooseTop _ _).2.2 core).1, ((foldl_chooseTop _ _).2.2 core).2,
      if_pos hmem, if_pos hmem]

omit [DecidableEq α] in
/-- The idle cores are those without a scheduled thread. -/
theorem mem_bits_idleCores :
    core ∈ bits (idleCores s) ↔ core < numCores ∧ s.queue.getScheduledFront core = none := by
  rw [idleCores, mem_bits_foldl fun k hk => ?_]
  · simp [mem_bits]
  · exact Nat.lt_of_lt_of_le (List.mem_range.mp hk) (by decide)

/-- The second loop is over the idle cores. -/
theorem updateHighestPriorityThreadsImpl_eq : updateHighestPriorityThreadsImpl threads s =
      Update.fillIdleCores (bits (idleCores s)) (chooseTops threads s) := by
  rw [updateHighestPriorityThreadsImpl, forBits_eq_foldl (length_bits_le _), Update.fillIdleCores,
    List.foldlM_eq_foldl]
  rfl

/-- The update picks for each core a runnable thread that may run on it, or none, and never one
thread for two cores; it keeps the queue and stays inside its arrays. A core on which no thread
is scheduled is left without one only if, when its turn comes, the threads suggested for it
cannot be moved. -/
theorem updateHighestPriorityThreadsImpl_spec (h : s.QueueInv threads)
    (hpinned : threads.PinnedBound s.info) :
    ∃ u, updateHighestPriorityThreadsImpl threads s = .ok u ∧ u.toSchedulerState.QueueInv threads ∧
      (∀ core < numCores, ∀ t, u.highestPriorityThread core = some t →
        t ∈ threads.queued ∧ (u.info t).getAffinity core = true) ∧
      (∀ core < numCores, ∀ core' < numCores, ∀ t, u.highestPriorityThread core = some t →
        u.highestPriorityThread core' = some t → core = core') ∧
      ∀ core < numCores, s.queue.getScheduledFront core = none →
        u.highestPriorityThread core = none →
        ∃ before after v L, bits (idleCores s) = before ++ core :: after ∧
          Update.fillIdleCores before (chooseTops threads s) = .ok v ∧
          v.queue.Placed threads.queued v.info L ∧ v.LeftIdle (L.inOrder .suggested core) := by
  have hinv := chooseTops_inv h hpinned
  have hlt : ∀ core ∈ bits (idleCores s), core < numCores := fun core hcore =>
    (mem_bits_idleCores.mp hcore).1
  obtain ⟨u, hu, hu', _⟩ := Update.fillIdleCores_spec hinv hlt
  refine ⟨u, updateHighestPriorityThreadsImpl_eq.trans hu, hu'.toQueueInv,
    fun core hcore t ht => ?_,
    fun core hcore core' hcore' t ht ht' => ?_, fun core hcore hfront hnone => ?_⟩
  · obtain ⟨hmem, hactive⟩ := hu'.top core t (hu'.chosen core hcore ▸ ht)
    exact ⟨hmem, (hu'.valid t hmem).active core hactive⟩
  · have hactive := (hu'.top core t (hu'.chosen core hcore ▸ ht)).2
    rw [(hu'.top core' t (hu'.chosen core' hcore' ▸ ht')).2] at hactive
    exact (Option.some.inj hactive).symm
  · obtain ⟨before, after, hsplit⟩ := List.append_of_mem (mem_bits_idleCores.mpr ⟨hcore, hfront⟩)
    rw [hsplit] at hlt
    obtain ⟨v, hv, hvinv, _⟩ := Update.fillIdleCores_spec hinv fun c hc =>
      hlt c (List.mem_append_left _ hc)
    obtain ⟨L, hplaced⟩ := hvinv.placed
    obtain ⟨v', hfill, hturn⟩ := Update.fillIdleCore_spec hvinv hplaced hcore
    obtain ⟨u', hrest, _, hsome⟩ := Update.fillIdleCores_spec (hvinv.turn hplaced hturn) fun c hc =>
      hlt c (List.mem_append_right _ (.tail _ hc))
    refine ⟨before, after, v, L, hsplit, hv, hplaced, hturn.leftIdle ?_⟩
    have hlast : u' = u := by
      rw [hsplit, Update.fillIdleCores_split hv hfill, hrest] at hu
      exact Except.ok.inj hu
    by_contra hne
    have := hsome core (Option.isSome_iff_ne_none.mpr hne)
    rw [hlast, ← hu'.chosen core hcore, hnone] at this
    cases this

/-! ## Threads that are not moved -/

/-- A state in which some threads were queued one after the other. -/
def queuedState (info : α → QueueMember) (l : List α) : SchedulerState α where
  queue := l.foldl (fun q a => q.pushBack a (info a)) (.empty fun _ _ => .empty)
  info := info
  highestPriorityThread _ := none
  needsScheduling _ := false

theorem queuedState_inv {info : α → QueueMember} {l : List α} (hnodup : l.Nodup)
    (hqueued : ∀ a, threads.runnable a = decide (a ∈ l)) (hvalid : ∀ a, (info a).Valid numCores) :
    (queuedState info l).QueueInv threads := by
  refine ⟨?_, fun a _ => hvalid a⟩
  obtain ⟨L, hplaced⟩ :=
    (KPriorityQueue.empty_placed (fun _ _ => .empty) info).foldl_pushBack hnodup
    fun a _ hmem => hmem
  have hset : (∅ : Set α) ∪ {a | a ∈ l} = threads.queued := by
    ext a
    simp [ThreadTable.queued, hqueued]
  exact ⟨L, hset ▸ hplaced⟩

/-- Threads of which one waits behind a thread of critical priority on core 1, and one behind
another thread on core 2; both may run on core 0. -/
def criticalInfo : Fin 4 → QueueMember
  | 0 => { priority := 1, activeCore := some 1, affinityMask := 0b010 }
  | 1 => { priority := 10, activeCore := some 1, affinityMask := 0b011 }
  | 2 => { priority := 15, activeCore := some 2, affinityMask := 0b100 }
  | 3 => { priority := 20, activeCore := some 2, affinityMask := 0b101 }

def kernelThreads : ThreadTable (Fin 4) Unit where
  owner _ := none
  numKernelWaiters _ := 0
  runnable _ := true
  pinnedThread _ _ := none
  exceptionThread _ := none

theorem critical_inv : (queuedState criticalInfo [0, 1, 2, 3]).QueueInv kernelThreads :=
  queuedState_inv (by decide) (by decide) fun a =>
    QueueMember.valid_of_bits (by revert a; decide +kernel) (by revert a; decide +kernel)

theorem kernelThreads_pinnedBound : kernelThreads.PinnedBound criticalInfo :=
  fun _ _ _ hpinned => nomatch hpinned

/-- A thread of a process on core 0 that is blocked by the pinned thread of the process, which
waits; and a thread behind another one on core 1 that may run on core 0. -/
def pinnedInfo : Fin 4 → QueueMember
  | 0 => { priority := 10, activeCore := some 0, affinityMask := 0b01 }
  | 1 => { priority := 5, activeCore := some 0, affinityMask := 0b01 }
  | 2 => { priority := 15, activeCore := some 1, affinityMask := 0b10 }
  | 3 => { priority := 20, activeCore := some 1, affinityMask := 0b11 }

def pinnedThreads : ThreadTable (Fin 4) Unit where
  owner t := if t.val < 2 then some () else none
  numKernelWaiters _ := 0
  runnable t := decide (t ≠ 1)
  pinnedThread _ core := if core = 0 then some 1 else none
  exceptionThread _ := none

theorem pinned_inv : (queuedState pinnedInfo [0, 2, 3]).QueueInv pinnedThreads :=
  queuedState_inv (by decide) (by decide) fun a =>
    QueueMember.valid_of_bits (by revert a; decide +kernel) (by revert a; decide +kernel)

theorem pinnedThreads_pinnedBound : pinnedThreads.PinnedBound pinnedInfo := by
  intro parent core pinned hpinned
  obtain ⟨rfl, hpinned⟩ := Option.ite_none_right_eq_some.mp hpinned
  obtain rfl := Option.some.inj hpinned
  refine ⟨rfl, rfl, fun other hother => ?_⟩
  simpa [QueueMember.getAffinity, pinnedInfo] using hother

/-- Core 0 is left without a thread although one is suggested for it that waits behind a thread
whose priority is not critical: after an earlier suggestion behind a critical thread the search
stops, and a core that is blocked by a pinned thread is not searched for at all. -/
theorem movable_thread_is_left : ((queuedState criticalInfo [0, 1, 2, 3]).QueueInv kernelThreads ∧
      kernelThreads.PinnedBound criticalInfo ∧
      ((updateHighestPriorityThreadsImpl kernelThreads (queuedState criticalInfo [0, 1, 2, 3])).map
        fun u => (u.highestPriorityThread 0, (u.info 3).getAffinity 0, (u.info 3).activeCore,
          u.highestPriorityThread 2, (u.info 2).priority)) =
        .ok (none, true, some 2, some 2, 15)) ∧
    (queuedState pinnedInfo [0, 2, 3]).QueueInv pinnedThreads ∧
      pinnedThreads.PinnedBound pinnedInfo ∧
      ((updateHighestPriorityThreadsImpl pinnedThreads (queuedState pinnedInfo [0, 2, 3])).map
        fun u => (u.highestPriorityThread 0, (u.info 3).getAffinity 0, (u.info 3).activeCore,
          u.highestPriorityThread 1, (u.info 2).priority)) =
        .ok (none, true, some 1, some 2, 15) :=
  ⟨⟨critical_inv, kernelThreads_pinnedBound, by decide +kernel⟩, pinned_inv,
    pinnedThreads_pinnedBound, by decide +kernel⟩

/-- The theorem at the first of these states. -/
theorem critical_spec :
    ∃ u, updateHighestPriorityThreadsImpl kernelThreads (queuedState criticalInfo [0, 1, 2, 3]) =
        .ok u ∧
      u.toSchedulerState.QueueInv kernelThreads ∧
      (∀ core < numCores, ∀ t, u.highestPriorityThread core = some t →
        t ∈ kernelThreads.queued ∧ (u.info t).getAffinity core = true) := by
  obtain ⟨u, hu, hqueue, hallowed, _⟩ :=
    updateHighestPriorityThreadsImpl_spec critical_inv kernelThreads_pinnedBound
  exact ⟨u, hu, hqueue, hallowed⟩

end Atmosphere.Kern
