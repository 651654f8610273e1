import Atmosphere.Kern.SchedulerChoice

/-!
# Pinned threads keep other threads of their process away

The first loop never takes a thread that is blocked by a pinned thread of its process. The
second loop does not look at the pinned threads, so it keeps them apart only where no blocked
thread can come to a core.
-/

namespace Atmosphere.Kern

open BitScan
open Function (update update_apply update_self update_of_ne)

variable {α π : Type} {threads : ThreadTable α π} {s : SchedulerState α} {core : ℕ} {t : α}

/-- The core has no scheduled thread before the update. -/
def SchedulerState.Idle (s : SchedulerState α) (core : ℕ) : Prop :=
  core < numCores ∧ s.queue.getScheduledFront core = none

/-- The core takes the thread and has no other one, so that it cannot give the thread away. -/
structure SchedulerState.Held (threads : ThreadTable α π) (s : SchedulerState α) (t : α)
    (core : ℕ) : Prop where
  active : (s.info t).activeCore = some core
  free : ¬ threads.Blocked t core
  only : ∀ x ∈ threads.queued, (s.info x).priority ≤ lowestPriority →
    (s.info x).activeCore = some core → x = t

/-- No thread that is suggested for an idle core and can leave its own is blocked there, and where
the front of a core may go to an idle core, no thread behind it is blocked. -/
structure PinningSafe (threads : ThreadTable α π) (s : SchedulerState α) : Prop where
  suggested : ∀ core, s.Idle core → ∀ t ∈ threads.queued, (s.info t).priority ≤ lowestPriority →
    (s.info t).getAffinity core = true → (∀ own, ¬ s.Held threads t own) →
    ¬ threads.Blocked t core
  behind : ∀ core front idle, s.queue.getScheduledFront core = some front →
    ¬ threads.Blocked front core → s.Idle idle → (s.info front).getAffinity idle = true →
    ∀ t ∈ threads.queued, (s.info t).priority ≤ lowestPriority →
      (s.info t).activeCore = some core → t ≠ front → ¬ threads.Blocked t core

/-- The front of the core went to an idle one. -/
def Update.Released (threads : ThreadTable α π) (s : SchedulerState α) (u : Update α) (core : ℕ) :
    Prop :=
  ∃ front idle, s.queue.getScheduledFront core = some front ∧ ¬ threads.Blocked front core ∧
    s.Idle idle ∧ (s.info front).getAffinity idle = true ∧
    (u.info front).activeCore ≠ some core

variable [DecidableEq α]

/-- What the second loop keeps; `cores` are those whose turn is still to come. -/
structure PinInv (threads : ThreadTable α π) (s : SchedulerState α) (cores : List ℕ)
    (u : Update α) : Prop where
  info : ∀ t, u.info t = { s.info t with activeCore := (u.info t).activeCore }
  fresh : ∀ core ∈ cores, s.Idle core ∧ u.topThreads core = none
  apart : ∀ core t, u.topThreads core = some t → ¬ threads.Blocked t core
  active : ∀ t, (u.info t).activeCore = (s.info t).activeCore ∨
    ∃ core, s.Idle core ∧ (u.info t).activeCore = some core ∧ u.topThreads core = some t
  held : ∀ t ∈ threads.queued, (s.info t).priority ≤ lowestPriority →
    ∀ core, s.Held threads t core → (u.info t).activeCore = some core →
      u.topThreads core = some t
  origin : ∀ core t, u.topThreads core = some t →
    firstChoice threads s core = some t ∨ s.Idle core ∨ u.Released threads s core

section

variable (hpinned : threads.PinnedBound s.info) (hchoice : firstChoice threads s core = some t)
include hpinned hchoice

/-- The first loop takes no blocked thread. -/
theorem not_blocked_of_firstChoice : ¬ threads.Blocked t core := by
  obtain ⟨front, _, htop⟩ := Option.bind_eq_some_iff.mp hchoice
  obtain ⟨rfl, hfree⟩ | ⟨parent, hpin, _⟩ := ThreadTable.chooseTop_eq_some htop
  · exact hfree
  · rintro ⟨parent', pinned, howner, hpin', hne, _⟩
    have heq : parent = parent' :=
      Option.some.inj ((hpinned parent core t hpin).1.symm.trans howner)
    rw [← heq, hpin] at hpin'
    exact hne (Option.some.inj hpin').symm

/-- A thread that may also run on another core is not pinned, so it was the front. -/
theorem front_of_firstChoice {other : ℕ} (haffinity : (s.info t).getAffinity other = true)
    (hne : other ≠ core) : s.queue.getScheduledFront core = some t ∧ ¬ threads.Blocked t core := by
  obtain ⟨front, hfront, htop⟩ := Option.bind_eq_some_iff.mp hchoice
  obtain ⟨rfl, hfree⟩ | ⟨parent, hpin, _⟩ := ThreadTable.chooseTop_eq_some htop
  · exact ⟨hfront, hfree⟩
  · exact absurd ((hpinned parent core t hpin).2.2 other haffinity) hne

end

omit [DecidableEq α] in
/-- A core on which a thread is scheduled has a first one. -/
theorem SchedulerState.QueueInv.exists_front (hqueue : s.QueueInv threads)
    (ht : t ∈ threads.queued) (hp : (s.info t).priority ≤ lowestPriority)
    (hactive : (s.info t).activeCore = some core) :
    ∃ front ∈ threads.queued, s.queue.getScheduledFront core = some front ∧
      (s.info front).priority ≤ lowestPriority ∧ (s.info front).activeCore = some core := by
  obtain ⟨L, hplaced⟩ := hqueue.placed
  have hmem : t ∈ L.inOrder .scheduled core := hplaced.mem_inOrder.mpr ⟨ht, rfl, hp, hactive⟩
  obtain ⟨front, hfront⟩ := Option.isSome_iff_exists.mp
    (List.isSome_head?.mpr (List.ne_nil_of_mem hmem))
  obtain ⟨hqueued, -, hinfo⟩ := hplaced.mem_inOrder.mp (List.mem_of_mem_head? hfront)
  exact ⟨front, hqueued, hplaced.getFront_eq.trans hfront, hinfo⟩

/-- The first loop takes a thread that its core holds. -/
theorem SchedulerState.Held.firstChoice (hqueue : s.QueueInv threads) (ht : t ∈ threads.queued)
    (hp : (s.info t).priority ≤ lowestPriority) (h : s.Held threads t core) :
    core < numCores ∧ firstChoice threads s core = some t := by
  have hvalid := hqueue.valid t ht
  refine ⟨hvalid.affinity core (hvalid.active core h.active), ?_⟩
  obtain ⟨front, hqueued, hfront, hp', hactive⟩ := hqueue.exists_front ht hp h.active
  rw [Kern.firstChoice, hfront, h.only front hqueued hp' hactive, Option.bind_some,
    ThreadTable.chooseTop_of_not_blocked h.free]

namespace PinInv

variable {u w : Update α} {cores : List ℕ}

theorem priority_eq (h : PinInv threads s cores u) (t : α) :
    (u.info t).priority = (s.info t).priority := by rw [h.info t]

theorem getAffinity_eq (h : PinInv threads s cores u) (t : α) :
    (u.info t).getAffinity = (s.info t).getAffinity := by
  rw [h.info t]
  rfl

theorem chooseTops (hqueue : s.QueueInv threads) (hpinned : threads.PinnedBound s.info)
    (hcores : ∀ core ∈ cores, s.Idle core) : PinInv threads s cores (chooseTops threads s) where
  info t := by rw [chooseTops_info]
  fresh core hcore := by
    refine ⟨hcores core hcore, ?_⟩
    rw [chooseTops_topThreads, firstChoice, (hcores core hcore).2]
    simp
  apart core t ht := by
    rw [chooseTops_topThreads] at ht
    split_ifs at ht
    exact not_blocked_of_firstChoice hpinned ht
  active t := by
    rw [chooseTops_info]
    exact .inl rfl
  held t ht hp core h _ := by
    obtain ⟨hlt, hchoice⟩ := h.firstChoice hqueue ht hp
    rw [chooseTops_topThreads, if_pos hlt, hchoice]
  origin core t ht := by
    rw [chooseTops_topThreads] at ht
    split_ifs at ht
    exact .inl ht

/-- The front of a core stays away once it has gone to an idle one. -/
theorem released_moveTo {c : ℕ} (hidle : s.Idle core) (hw : w.info = u.info)
    (h : u.Released threads s c) : (w.moveTo t core).Released threads s c := by
  obtain ⟨front, idle, hfront, hfree, hidle', haffinity, haway⟩ := h
  refine ⟨front, idle, hfront, hfree, hidle', haffinity, ?_⟩
  rw [Update.active_moveTo, hw]
  split_ifs
  · intro heq
    rw [← Option.some.inj heq, hidle.2] at hfront
    cases hfront
  · exact haway

section

variable (h : PinInv threads s (core :: cores) u)
include h

/-- A thread is moved to the idle core. If it was on top of its core, another one has taken its
place. -/
theorem moveTo (hqueue : s.QueueInv threads) (hcores : core ∉ cores)
    (hfree : ¬ threads.Blocked t core) (hw : w.info = u.info)
    (hkept : ∀ c, w.topThreads c = u.topThreads c ∨ u.topThreads c = some t ∧
      ∀ x, w.topThreads c = some x →
        ¬ threads.Blocked x c ∧ (w.moveTo t core).Released threads s c) :
    PinInv threads s cores (w.moveTo t core) := by
  obtain ⟨hidle, hnone⟩ := h.fresh core (.head _)
  refine ⟨fun x => ?_, fun c hc => ?_, fun c x hx => ?_, fun x => ?_,
    fun x hx hp c hheld hactive => ?_, fun c x hx => ?_⟩
  · rw [Update.moveTo_info, hw, update_apply]
    split_ifs with hxt
    · rw [hxt, h.info t]
    · exact h.info x
  · obtain ⟨hidle', hnone'⟩ := h.fresh c (.tail _ hc)
    rw [Update.moveTo_topThreads, update_of_ne (ne_of_mem_of_not_mem hc hcores)]
    obtain heq | ⟨htop, _⟩ := hkept c
    · exact ⟨hidle', heq.trans hnone'⟩
    · rw [hnone'] at htop
      cases htop
  · rw [Update.moveTo_topThreads] at hx
    by_cases hcc : c = core
    · rw [hcc, update_self, Option.some.injEq] at hx
      rw [hcc, ← hx]
      exact hfree
    · rw [update_of_ne hcc] at hx
      obtain heq | ⟨_, hnext⟩ := hkept c
      · exact h.apart c x (heq ▸ hx)
      · exact (hnext x hx).1
  · rw [Update.active_moveTo, Update.moveTo_topThreads, hw]
    by_cases hxt : x = t
    · exact .inr ⟨core, hidle, if_pos hxt, by rw [hxt, update_self]⟩
    · rw [if_neg hxt]
      refine (h.active x).imp_right fun ⟨c, hidle, hc, htop⟩ => ⟨c, hidle, hc, ?_⟩
      have hcc : c ≠ core := by
        rintro rfl
        rw [hnone] at htop
        cases htop
      rw [update_of_ne hcc]
      obtain heq | ⟨htop', _⟩ := hkept c
      · exact heq.trans htop
      · exact absurd (Option.some.inj (htop.symm.trans htop')) hxt
  · have hcc : c ≠ core := by
      rintro rfl
      obtain ⟨front, -, hfront, -⟩ := hqueue.exists_front hx hp hheld.active
      rw [hidle.2] at hfront
      cases hfront
    rw [Update.active_moveTo, hw] at hactive
    rw [Update.moveTo_topThreads, update_of_ne hcc]
    split_ifs at hactive with hxt
    · exact absurd (Option.some.inj hactive).symm hcc
    · have htop := h.held x hx hp c hheld hactive
      obtain heq | ⟨htop', _⟩ := hkept c
      · exact heq.trans htop
      · exact absurd (Option.some.inj (htop.symm.trans htop')) hxt
  · by_cases hcc : c = core
    · exact .inr (.inl (hcc ▸ hidle))
    · rw [Update.moveTo_topThreads, update_of_ne hcc] at hx
      obtain heq | ⟨_, hnext⟩ := hkept c
      · exact (h.origin c x (heq ▸ hx)).imp_right (Or.imp_right (released_moveTo hidle hw))
      · exact .inr (.inr (hnext x hx).2)

/-- A core that can give its top thread to an idle core has given its front already, or the top
thread is the front. -/
theorem released_of_onTop (hpinned : threads.PinnedBound s.info)
    (hw : w.info = u.info) (htop : u.OnTop t) (haffinity : (u.info t).getAffinity core = true)
    (hne : u.coreOf t ≠ core) (hbusy : ¬ s.Idle (u.coreOf t)) :
    (w.moveTo t core).Released threads s (u.coreOf t) := by
  obtain ⟨hidle, _⟩ := h.fresh core (.head _)
  obtain hchoice | hidle' | hreleased := h.origin _ t htop.top
  · rw [h.getAffinity_eq] at haffinity
    obtain ⟨hfront, hfree⟩ := front_of_firstChoice hpinned hchoice haffinity hne.symm
    refine ⟨t, core, hfront, hfree, hidle, haffinity, ?_⟩
    rw [Update.active_moveTo, if_pos rfl]
    exact fun heq => hne (Option.some.inj heq).symm
  · exact absurd hidle' hbusy
  · exact released_moveTo hidle hw hreleased

end

variable (hqueue : s.QueueInv threads) (hpinned : threads.PinnedBound s.info) {u' : Update α}
  (hsafe : PinningSafe threads s)
include hqueue hpinned hsafe

theorem turn (h : PinInv threads s (core :: cores) u) (hcores : core ∉ cores) {L : Lists α}
    (hplaced : u.queue.Placed threads.queued u.info L)
    (hturn : u.Turn core (L.inOrder .suggested core) u') : PinInv threads s cores u' := by
  obtain ⟨hidle, _⟩ := h.fresh core (.head _)
  have hsame : PinInv threads s cores u :=
    { h with fresh := fun c hc => h.fresh c (.tail _ hc) }
  have hsuggested : ∀ x ∈ L.inOrder .suggested core, (∀ own, ¬ s.Held threads x own) →
      ¬ threads.Blocked x core := by
    intro x hx
    obtain ⟨hmem, -, hp, haffinity, _⟩ := hplaced.mem_inOrder.mp hx
    rw [h.priority_eq] at hp
    rw [h.getAffinity_eq] at haffinity
    exact hsafe.suggested core hidle x hmem hp haffinity
  cases hturn with
  | stuck | blocked => exact hsame
  | @moved t hfirst =>
    obtain ⟨ht, -, hp, _⟩ := hplaced.mem_inOrder.mp hfirst.mem
    -- A thread that its core holds is on top of it.
    have hleaves : ∀ own, ¬ s.Held threads t own := by
      intro own hheld
      obtain heq | ⟨c, -, hc, htop⟩ := h.active t
      · have hactive := heq.trans hheld.active
        exact hfirst.notTop
          ⟨own, hactive, h.held t ht (h.priority_eq t ▸ hp) own hheld hactive⟩
      · exact hfirst.notTop ⟨c, hc, htop⟩
    exact h.moveTo hqueue hcores (hsuggested t hfirst.mem hleaves) rfl fun _ => .inl rfl
  | @given t next hall hmem hnext =>
    have htop := hall t hmem
    obtain ⟨ht, -, hp, haffinity, hne⟩ := hplaced.mem_inOrder.mp hmem
    obtain ⟨hqueued, hp', hactive, hdiff⟩ := Update.next_spec hplaced ht hp htop.active hnext
    have hcore : u.coreOf t ≠ core := fun heq => hne (heq ▸ htop.active)
    -- The next thread was scheduled on the core from the start.
    have hold : (s.info next).activeCore = some (u.coreOf t) := by
      obtain heq | ⟨c, -, hc, htop'⟩ := h.active next
      · exact heq ▸ hactive
      · rw [hactive, Option.some.injEq] at hc
        rw [← hc, htop.top] at htop'
        exact absurd (Option.some.inj htop').symm hdiff
    have hbusy : ¬ s.Idle (u.coreOf t) := by
      rintro ⟨_, hnone⟩
      obtain ⟨front, -, hfront, -⟩ :=
        hqueue.exists_front hqueued (h.priority_eq next ▸ hp') hold
      rw [hnone] at hfront
      cases hfront
    have hinfo : (u.setTop (u.coreOf t) (some next)).info = u.info := Update.setTop_info
    have hreleased := h.released_of_onTop hpinned hinfo htop haffinity hcore hbusy
    -- It is another thread of the core, which does not hold the top one then.
    have hleaves : ∀ own, ¬ s.Held threads t own := by
      intro own hheld
      obtain heq | ⟨c, hidle', hc, -⟩ := h.active t
      · rw [htop.active, hheld.active] at heq
        rw [← Option.some.inj heq] at hheld
        exact hdiff (hheld.only next hqueued (h.priority_eq next ▸ hp') hold)
      · rw [htop.active] at hc
        exact hbusy (Option.some.inj hc ▸ hidle')
    rw [Update.giveTop_eq htop]
    refine h.moveTo hqueue hcores (hsuggested t hmem hleaves) hinfo fun c => ?_
    rw [Update.setTop_topThreads]
    by_cases hct : c = u.coreOf t
    · rw [hct, update_self]
      refine .inr ⟨htop.top, fun x hx => Option.some.inj hx ▸ ⟨?_, hreleased⟩⟩
      obtain ⟨front, idle, hfront, hfree, hidle', haffinity', haway⟩ := hreleased
      refine hsafe.behind _ front idle hfront hfree hidle' haffinity' next hqueued
        (h.priority_eq next ▸ hp') hold ?_
      rintro rfl
      rw [Update.active_moveTo, hinfo, if_neg hdiff] at haway
      exact haway hactive
    · exact .inl (update_of_ne hct ..)

theorem fillIdleCores (hinv : u.Inv threads) (h : PinInv threads s cores u) (hnodup : cores.Nodup)
    (hrun : Update.fillIdleCores cores u = .ok u') : PinInv threads s [] u' := by
  induction cores generalizing u with
  | nil =>
    obtain rfl := Except.ok.inj hrun
    exact h
  | cons core cores ih =>
    obtain ⟨hcores, hnodup⟩ := List.nodup_cons.mp hnodup
    obtain ⟨L, hplaced⟩ := hinv.placed
    obtain ⟨v, hfill, hturn⟩ := Update.fillIdleCore_spec hinv hplaced
      (h.fresh core (.head _)).1.1
    rw [← List.nil_append (core :: cores), Update.fillIdleCores_split rfl hfill] at hrun
    exact ih (hinv.turn hplaced hturn) (h.turn hqueue hpinned hsafe hcores hplaced hturn) hnodup
      hrun

end PinInv

/-- No idle core gets a thread as the state is, with the first choices on top of their cores. -/
def NothingMoves (threads : ThreadTable α π) (s : SchedulerState α) : Prop :=
  ∀ core, s.Idle core → ∀ L, s.queue.Placed threads.queued s.info L →
    ∀ u : Update α, u.queue = s.queue → u.info = s.info →
      (∀ c, u.topThreads c = if c < numCores then firstChoice threads s c else none) →
        u.LeftIdle (L.inOrder .suggested core)

theorem fillIdleCores_of_nothingMoves (hqueue : s.QueueInv threads)
    (hpinned : threads.PinnedBound s.info) (hquiet : NothingMoves threads s) {cores : List ℕ}
    (hcores : ∀ core ∈ cores, s.Idle core) :
    Update.fillIdleCores cores (chooseTops threads s) = .ok (chooseTops threads s) := by
  obtain ⟨L, hplaced⟩ := hqueue.placed
  have hplaced' : (chooseTops threads s).queue.Placed threads.queued (chooseTops threads s).info
      L := by
    rw [chooseTops_queue, chooseTops_info]
    exact hplaced
  induction cores with
  | nil => rfl
  | cons core cores ih =>
    have hidle := hcores core (.head _)
    obtain ⟨u, hfill, hturn⟩ := Update.fillIdleCore_spec (chooseTops_inv hqueue hpinned) hplaced'
      hidle.1
    rw [hturn.eq_of_leftIdle (hquiet core hidle L hplaced _ chooseTops_queue chooseTops_info
      chooseTops_topThreads)] at hfill
    rw [← List.nil_append (core :: cores), Update.fillIdleCores_split rfl hfill]
    exact ih fun c hc => hcores c (.tail _ hc)

/-- Where nothing moves or no blocked thread can come to a core, a thread that is chosen on a core
with a different pinned thread of its process has kernel waiters or is the exception thread. -/
theorem updateHighestPriorityThreadsImpl_apart (hqueue : s.QueueInv threads)
    (hpinned : threads.PinnedBound s.info)
    (hsafe : NothingMoves threads s ∨ PinningSafe threads s) :
    ∃ u, updateHighestPriorityThreadsImpl threads s = .ok u ∧
      ∀ core < numCores, ∀ t, u.highestPriorityThread core = some t →
        ∀ parent pinned, threads.owner t = some parent →
          threads.pinnedThread parent core = some pinned → pinned ≠ t →
          threads.numKernelWaiters t ≠ 0 ∨ threads.exceptionThread parent = some t := by
  have hinv := chooseTops_inv hqueue hpinned
  have hidle : ∀ core ∈ bits (idleCores s), s.Idle core := fun core hcore =>
    mem_bits_idleCores.mp hcore
  obtain ⟨u, hu, hu', _⟩ := Update.fillIdleCores_spec hinv fun core hcore => (hidle core hcore).1
  have hpin : ∀ core t, u.topThreads core = some t → ¬ threads.Blocked t core := by
    have hstart := PinInv.chooseTops hqueue hpinned hidle
    obtain hquiet | hsafe := hsafe
    · rw [fillIdleCores_of_nothingMoves hqueue hpinned hquiet hidle] at hu
      obtain rfl := Except.ok.inj hu
      exact hstart.apart
    · exact (hstart.fillIdleCores hqueue hpinned hsafe hinv (nodup_bits _) hu).apart
  refine ⟨u, updateHighestPriorityThreadsImpl_eq.trans hu, ?_⟩
  intro core hcore t ht parent pinned howner hpinned' hne
  by_contra hnot
  rw [not_or, not_not] at hnot
  exact hpin core t (hu'.chosen core hcore ▸ ht)
    ⟨parent, pinned, howner, hpinned', hne, hnot.1, hnot.2⟩

/-! ## A thread that comes to the core of a waiting pinned thread -/

/-- Thread 1 is pinned on core 0 and waits. Threads 2 and 3 are queued on core 1, and the last
one may or may not be of the same process. -/
def waitingPinned (sameProcess : Bool) : ThreadTable (Fin 4) Unit where
  owner t := if t = 1 ∨ t = 3 ∧ sameProcess = true then some () else none
  numKernelWaiters _ := 0
  runnable t := decide (t ∈ [2, 3])
  pinnedThread _ core := if core = 0 then some 1 else none
  exceptionThread _ := none

theorem waitingPinned_inv (sameProcess : Bool) :
    (queuedState pinnedInfo [2, 3]).QueueInv (waitingPinned sameProcess) :=
  queuedState_inv (by decide) (fun _ => rfl) fun a =>
    QueueMember.valid_of_bits (by revert a; decide +kernel) (by revert a; decide +kernel)

theorem waitingPinned_pinnedBound (sameProcess : Bool) :
    (waitingPinned sameProcess).PinnedBound pinnedInfo := by
  intro parent core pinned hpinned
  obtain ⟨rfl, hpinned⟩ := Option.ite_none_right_eq_some.mp hpinned
  obtain rfl := Option.some.inj hpinned
  refine ⟨by simp [waitingPinned], rfl, fun other hother => ?_⟩
  simpa [QueueMember.getAffinity, pinnedInfo] using hother

/-- The second loop moves a thread to core 0 although another thread of its process is pinned
there; the thread has no kernel waiters and is not the exception thread. -/
theorem blocked_thread_is_moved : (queuedState pinnedInfo [2, 3]).QueueInv (waitingPinned true) ∧
      (waitingPinned true).PinnedBound pinnedInfo ∧
      ((updateHighestPriorityThreadsImpl (waitingPinned true) (queuedState pinnedInfo [2, 3])).map
        fun u => u.highestPriorityThread 0) = .ok (some 3) ∧
      (waitingPinned true).owner 3 = some () ∧
      (waitingPinned true).pinnedThread () 0 = some 1 ∧
      (waitingPinned true).numKernelWaiters 3 = 0 ∧
      (waitingPinned true).exceptionThread () = none :=
  ⟨waitingPinned_inv true, waitingPinned_pinnedBound true, by decide +kernel, rfl, rfl, rfl, rfl⟩

theorem waitingPinned_safe : PinningSafe (waitingPinned false) (queuedState pinnedInfo [2, 3]) := by
  have howner : ∀ t, (waitingPinned false).runnable t = true →
      (waitingPinned false).owner t = none := by decide
  have hfree : ∀ t ∈ (waitingPinned false).queued, ∀ core,
      ¬ (waitingPinned false).Blocked t core := by
    rintro t ht core ⟨parent, _, hparent, _⟩
    rw [howner t ht] at hparent
    cases hparent
  exact ⟨fun core _ t ht _ _ _ => hfree t ht core,
    fun core _ _ _ _ _ _ t ht _ _ _ => hfree t ht core⟩

/-- A thread of another process may be moved there. -/
theorem waitingPinned_apart :
    ∃ u, updateHighestPriorityThreadsImpl (waitingPinned false) (queuedState pinnedInfo [2, 3]) =
        .ok u ∧
      ∀ core < numCores, ∀ t, u.highestPriorityThread core = some t →
        ∀ parent pinned, (waitingPinned false).owner t = some parent →
          (waitingPinned false).pinnedThread parent core = some pinned → pinned ≠ t →
          (waitingPinned false).numKernelWaiters t ≠ 0 ∨
            (waitingPinned false).exceptionThread parent = some t :=
  updateHighestPriorityThreadsImpl_apart (waitingPinned_inv false) (waitingPinned_pinnedBound false)
    (.inr waitingPinned_safe)

end Atmosphere.Kern
