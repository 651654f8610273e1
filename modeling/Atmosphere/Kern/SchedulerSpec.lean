import Atmosphere.Kern.PriorityQueuePlacement
import Atmosphere.Kern.Scheduler

/-!
# What the scheduler chooses

The threads that are chosen are runnable and active on the core they are chosen for, so no
thread is chosen twice. Each turn of the second loop ends in one of four ways.
-/

namespace Atmosphere.Kern

open Function (update update_apply update_self update_of_ne)

variable {α π : Type}

/-- The threads that the queue holds. -/
def ThreadTable.queued (threads : ThreadTable α π) : Set α := {t | threads.runnable t = true}

/-- The queue holds the runnable threads where they belong. -/
structure SchedulerState.QueueInv (threads : ThreadTable α π) (s : SchedulerState α) : Prop where
  placed : ∃ L, s.queue.Placed threads.queued s.info L
  valid : ∀ t ∈ threads.queued, (s.info t).Valid numCores

/-- A pinned thread is one of its process and is active on its core, which is the only one it
may run on, as `KThread::Pin` leaves it. -/
def ThreadTable.PinnedBound (threads : ThreadTable α π) (info : α → QueueMember) : Prop :=
  ∀ parent core pinned, threads.pinnedThread parent core = some pinned →
    threads.owner pinned = some parent ∧ (info pinned).activeCore = some core ∧
      ∀ other, (info pinned).getAffinity other = true → other = core

namespace Update

variable {threads : ThreadTable α π} {u : Update α} {core : ℕ} {t : α}

/-- The thread is chosen for the core it is active on. -/
def OnTop (u : Update α) (t : α) : Prop :=
  ∃ core, (u.info t).activeCore = some core ∧ u.topThreads core = some t

/-- The active core of a thread that has one. -/
def coreOf (u : Update α) (t : α) : ℕ := (u.info t).activeCore.getD 0

theorem OnTop.active (h : u.OnTop t) : (u.info t).activeCore = some (u.coreOf t) := by
  obtain ⟨core, hactive, _⟩ := h
  rw [coreOf, hactive, Option.getD_some]

theorem OnTop.top (h : u.OnTop t) : u.topThreads (u.coreOf t) = some t := by
  obtain ⟨core, hactive, htop⟩ := h
  rw [coreOf, hactive]
  exact htop

/-- What holds between the turns of the second loop. -/
structure Inv (threads : ThreadTable α π) (u : Update α) : Prop
    extends u.toSchedulerState.QueueInv threads where
  top : ∀ core t, u.topThreads core = some t →
    t ∈ threads.queued ∧ (u.info t).activeCore = some core
  chosen : ∀ core < numCores, u.highestPriorityThread core = u.topThreads core

theorem Inv.top_lt (h : u.Inv threads) (htop : u.topThreads core = some t) : core < numCores := by
  obtain ⟨hmem, hactive⟩ := h.top core t htop
  exact (h.valid t hmem).affinity core ((h.valid t hmem).active core hactive)

theorem Inv.readTop (h : u.Inv threads) (ht : t ∈ threads.queued)
    (hactive : (u.info t).activeCore = some core) : u.readTop core = .ok (u.topThreads core) :=
  if_pos ((h.valid t ht).affinity core ((h.valid t ht).active core hactive))

variable [DecidableEq α]

/-! ### Fields after an update -/

variable {thread : Option α} {L : Lists α} {u' : Update α} {next : α}
variable {suggested l : List α}

@[simp] theorem setTop_queue : (u.setTop core thread).queue = u.queue := by
  rw [setTop]
  split <;> rfl

@[simp] theorem setTop_info : (u.setTop core thread).info = u.info := by
  rw [setTop]
  split <;> rfl

@[simp] theorem setTop_topThreads :
    (u.setTop core thread).topThreads = update u.topThreads core thread := by
  rw [setTop]
  split <;> rfl

@[simp] theorem setTop_highestPriorityThread : (u.setTop core thread).highestPriorityThread =
      update u.highestPriorityThread core thread := by
  rw [setTop]
  split
  · rfl
  · rename_i heq
    have heq : u.highestPriorityThread core = thread := not_not.mp heq
    rw [← heq, Function.update_eq_self]

/-- The choice is written to both places. -/
theorem chosen_setTop {c : ℕ} (h : u.highestPriorityThread c = u.topThreads c) :
    (u.setTop core thread).highestPriorityThread c = (u.setTop core thread).topThreads c := by
  rw [setTop_highestPriorityThread, setTop_topThreads, update_apply, update_apply, h]

/-! ### The search over the suggested threads -/

/-- The thread becomes active on the core and is chosen for it. -/
def moveTo (u : Update α) (t : α) (core : ℕ) : Update α :=
  (u.changeCore t (u.info t).activeCore core).setTop core (some t)

/-- The first suggested thread that is not on top of its core. -/
structure FirstMovable (u : Update α) (suggested : List α) (t : α) : Prop where
  notTop : ¬ u.OnTop t
  first : ∃ before after, suggested = before ++ t :: after ∧ ∀ x ∈ before, u.OnTop x

/-- The core of the thread has a top thread that may not be disturbed. -/
def BehindCritical (u : Update α) (t : α) : Prop :=
  ∃ core top, (u.info t).activeCore = some core ∧ u.topThreads core = some top ∧
    (u.info top).priority < highestCoreMigrationAllowedPriority

/-- How the search ends. -/
inductive SearchEnd (u : Update α) (core : ℕ) (suggested : List α) : Search α → Prop
  | exhausted (hall : ∀ x ∈ suggested, u.OnTop x) :
      SearchEnd u core suggested ⟨u, true, suggested.map u.coreOf⟩
  | blocked {t candidates} (hfirst : u.FirstMovable suggested t) (hcritical : u.BehindCritical t) :
      SearchEnd u core suggested ⟨u, false, candidates⟩
  | moved {t candidates} (hfirst : u.FirstMovable suggested t) (hfree : ¬ u.BehindCritical t) :
      SearchEnd u core suggested ⟨u.moveTo t core, false, candidates⟩

omit [DecidableEq α] in
theorem FirstMovable.mem (h : u.FirstMovable suggested t) : t ∈ suggested := by
  obtain ⟨before, after, horder, -⟩ := h.first
  simp [horder]

omit [DecidableEq α] in
theorem FirstMovable.unique (h : u.FirstMovable suggested t) (h' : u.FirstMovable suggested next) :
    t = next := by
  classical
  have hfind : ∀ {x}, u.FirstMovable suggested x → suggested.find? (¬ u.OnTop ·) = some x :=
    fun h => List.find?_eq_some_iff_append.mpr ⟨by simpa using h.notTop, by simpa using h.first⟩
  exact Option.some.inj ((hfind h).symm.trans (hfind h'))

omit [DecidableEq α] in
/-- Threads on top of their cores are at most as many as the other cores. -/
theorem Inv.length_lt (h : u.Inv threads) (hcore : core < numCores) (hnodup : l.Nodup)
    (htop : ∀ x ∈ l, u.OnTop x) (hother : ∀ x ∈ l, (u.info x).activeCore ≠ some core) :
    l.length < numCores := by
  have hinj : (l.map u.coreOf).Nodup := hnodup.map_on fun x hx y hy heq => by
    have hx' := (htop x hx).top
    rw [heq, (htop y hy).top] at hx'
    exact (Option.some.inj hx').symm
  have hsub : l.map u.coreOf ⊆ (List.range numCores).erase core := by
    intro c hc
    obtain ⟨x, hx, rfl⟩ := List.mem_map.mp hc
    rw [List.nodup_range.mem_erase_iff, List.mem_range]
    exact ⟨fun heq => hother x hx (heq ▸ (htop x hx).active), h.top_lt (htop x hx).top⟩
  have hle := (List.subperm_of_subset hinj hsub).length_le
  rw [List.length_map, List.length_erase_of_mem (List.mem_range.mpr hcore),
    List.length_range] at hle
  omega

/-- The array of candidates is never full, and the search ends as described. -/
theorem migrateSuggested_spec (h : u.Inv threads) (hplaced : u.queue.Placed threads.queued u.info L)
    (hcore : core < numCores) {before rest : List α} {room : ℕ}
    (horder : L.inOrder .suggested core = before ++ rest) (hbefore : ∀ x ∈ before, u.OnTop x)
    (hroom : room + before.length = numCores) :
    ∃ search, migrateSuggested core room rest.head? (before.map u.coreOf) u = .ok search ∧
      SearchEnd u core (L.inOrder .suggested core) search := by
  induction rest generalizing before room with
  | nil =>
    rw [List.append_nil] at horder
    rw [← horder] at hbefore ⊢
    exact ⟨_, by rw [List.head?_nil, migrateSuggested], .exhausted hbefore⟩
  | cons t rest ih =>
    have hmem : ∀ x ∈ before ++ t :: rest, x ∈ threads.queued ∧
        (u.info x).activeCore ≠ some core := fun x hx => by
      obtain ⟨hqueued, -, -, -, hne⟩ := hplaced.mem_inOrder.mp (horder ▸ hx)
      exact ⟨hqueued, hne⟩
    have ht : t ∈ threads.queued := (hmem t (by simp)).1
    have hfirst : ¬ u.OnTop t → u.FirstMovable (L.inOrder .suggested core) t := fun hnot =>
      ⟨hnot, before, rest, horder, hbefore⟩
    rw [List.head?_cons]
    cases hactive : (u.info t).activeCore with
    | none =>
      refine ⟨⟨u.moveTo t core, false, before.map u.coreOf⟩, ?_, .moved (hfirst ?_) ?_⟩
      · unfold migrateSuggested
        rw [moveTo, hactive]
      · rintro ⟨c, hc, _⟩
        rw [hactive] at hc
        cases hc
      · rintro ⟨c, _, hc, _⟩
        rw [hactive] at hc
        cases hc
    | some c =>
      have hread := h.readTop ht hactive
      by_cases htop : u.topThreads c = some t
      · have honTop : ∀ x ∈ before ++ [t], u.OnTop x :=
          List.forall_mem_append.mpr ⟨hbefore, List.forall_mem_singleton.mpr ⟨c, hactive, htop⟩⟩
        have horder' : L.inOrder .suggested core = (before ++ [t]) ++ rest := by
          rw [horder, List.append_assoc, List.singleton_append]
        have hlen : (before ++ [t]).length < numCores :=
          h.length_lt hcore (horder' ▸ hplaced.nodup_inOrder).of_append_left honTop fun x hx =>
            (hmem x (by simpa using List.mem_append_left rest hx)).2
        rw [List.length_append] at hlen
        obtain ⟨room, rfl⟩ : ∃ k, room = k + 1 := ⟨room - 1, by omega⟩
        have hroom' : room + (before ++ [t]).length = numCores := by
          rw [List.length_append, List.length_singleton]
          omega
        obtain ⟨search, heq, hend⟩ := ih horder' honTop hroom'
        refine ⟨search, ?_, hend⟩
        unfold migrateSuggested
        simp only [hactive, hread, htop, bind, Except.bind, ne_eq, not_true_eq_false, if_false]
        rw [List.map_append, List.map_singleton, ← hplaced.getNext_eq horder] at heq
        have hcoreOf : u.coreOf t = c := by rw [coreOf, hactive, Option.getD_some]
        rw [hcoreOf] at heq
        exact heq
      · have hnot : ¬ u.OnTop t := by
          rintro ⟨c', hc', htop'⟩
          rw [hactive] at hc'
          exact htop (Option.some.inj hc' ▸ htop')
        unfold migrateSuggested
        simp only [hactive, hread, bind, Except.bind, ne_eq, htop, not_false_eq_true, if_true]
        by_cases hcritical : (u.topThreads c).any fun top =>
            (u.info top).priority < highestCoreMigrationAllowedPriority
        · rw [if_pos hcritical]
          refine ⟨_, rfl, .blocked (hfirst hnot) ?_⟩
          obtain ⟨top, hc, hlt⟩ := (Option.any_eq_true _ _).mp hcritical
          exact ⟨c, top, hactive, hc, of_decide_eq_true hlt⟩
        · rw [if_neg hcritical, ← hactive]
          refine ⟨_, rfl, .moved (hfirst hnot) ?_⟩
          rintro ⟨c', top, hc', htop', hlt⟩
          rw [hactive] at hc'
          rw [← Option.some.inj hc'] at htop'
          exact hcritical ((Option.any_eq_true _ _).mpr ⟨top, htop', decide_eq_true hlt⟩)

/-! ### The turn of an idle core -/

/-- The thread after the top thread of a core takes its place. -/
def giveTop (u : Update α) (t next : α) (core : ℕ) : Update α :=
  ((u.setTop (u.coreOf t) (some next)).changeCore t (some (u.coreOf t)) core).setTop core (some t)

/-- A core has no thread behind its top thread. -/
def Last (u : Update α) (t : α) : Prop :=
  u.queue.getScheduledNext (u.coreOf t) t (u.info t) = none

/-- How the turn of an idle core ends. -/
inductive Turn (u : Update α) (core : ℕ) (suggested : List α) : Update α → Prop
  | stuck (hall : ∀ x ∈ suggested, u.OnTop x ∧ u.Last x) : Turn u core suggested u
  | blocked {t : α} (hfirst : u.FirstMovable suggested t) (hcritical : u.BehindCritical t) :
      Turn u core suggested u
  | moved {t : α} (hfirst : u.FirstMovable suggested t) (hfree : ¬ u.BehindCritical t) :
      Turn u core suggested (u.moveTo t core)
  | given {t next : α} (hall : ∀ x ∈ suggested, u.OnTop x) (hmem : t ∈ suggested)
      (hnext : u.queue.getScheduledNext (u.coreOf t) t (u.info t) = some next) :
      Turn u core suggested (u.giveTop t next core)

theorem migrateTop_spec (core : ℕ) (h : u.Inv threads) (htop : ∀ x ∈ l, u.OnTop x) :
    ∃ u', migrateTop core (l.map u.coreOf) u = .ok u' ∧
      ((u' = u ∧ ∀ x ∈ l, u.Last x) ∨ ∃ t ∈ l, ∃ next,
        u.queue.getScheduledNext (u.coreOf t) t (u.info t) = some next ∧
          u' = u.giveTop t next core) := by
  induction l with
  | nil => exact ⟨u, rfl, .inl ⟨rfl, by simp⟩⟩
  | cons t l ih =>
    have ht := htop t (.head _)
    have hread : u.readTop (u.coreOf t) = .ok (some t) := by
      rw [h.readTop (h.top _ t ht.top).1 ht.active, ht.top]
    rw [List.map_cons, migrateTop]
    simp only [hread, bind, Except.bind]
    cases hnext : u.queue.getScheduledNext (u.coreOf t) t (u.info t) with
    | some next =>
      exact ⟨_, rfl, .inr ⟨t, .head _, next, hnext, rfl⟩⟩
    | none =>
      obtain ⟨u', heq, hend⟩ := ih fun x hx => htop x (.tail _ hx)
      refine ⟨u', heq, hend.imp (.imp_right fun hlast =>
        List.forall_mem_cons.mpr ⟨hnext, hlast⟩) ?_⟩
      rintro ⟨t', ht', hgiven⟩
      exact ⟨t', .tail _ ht', hgiven⟩

theorem fillIdleCore_spec (h : u.Inv threads) (hplaced : u.queue.Placed threads.queued u.info L)
    (hcore : core < numCores) :
    ∃ u', fillIdleCore core u = .ok u' ∧ Turn u core (L.inOrder .suggested core) u' := by
  obtain ⟨search, hsearch, hend⟩ : ∃ search,
      migrateSuggested core numCores (L.inOrder .suggested core).head? [] u = .ok search ∧
        SearchEnd u core (L.inOrder .suggested core) search :=
    migrateSuggested_spec h hplaced hcore (List.nil_append _).symm (by simp) rfl
  have hfront : u.queue.getSuggestedFront core = (L.inOrder .suggested core).head? :=
    hplaced.getFront_eq
  rw [fillIdleCore, hfront, hsearch]
  cases hend with
  | exhausted hall =>
    obtain ⟨u', heq, hend⟩ := migrateTop_spec core h hall
    refine ⟨u', heq, ?_⟩
    obtain ⟨rfl, hlast⟩ | ⟨t, ht, next, hnext, rfl⟩ := hend
    · exact .stuck fun x hx => ⟨hall x hx, hlast x hx⟩
    · exact .given hall ht hnext
  | blocked hfirst hcritical => exact ⟨u, rfl, .blocked hfirst hcritical⟩
  | moved hfirst hfree => exact ⟨_, rfl, .moved hfirst hfree⟩

/-! ### What a turn keeps -/

theorem queueInv_changeCore (h : u.toSchedulerState.QueueInv threads) (ht : t ∈ threads.queued)
    (haffinity : (u.info t).getAffinity core = true) (hne : (u.info t).activeCore ≠ some core) :
    (u.changeCore t (u.info t).activeCore core).toSchedulerState.QueueInv threads := by
  have hmoved : ∀ c, some core = some c → (u.info t).getAffinity c = true := fun c hc =>
    Option.some.inj hc ▸ haffinity
  obtain ⟨L, hplaced⟩ := h.placed
  refine ⟨hplaced.changeCore ht rfl (h.valid t ht).active hmoved hne, ?_⟩
  exact (Function.forall_update_iff u.info fun x i => x ∈ threads.queued → i.Valid numCores).mpr
    ⟨fun _ => ⟨(h.valid t ht).affinity, hmoved⟩, fun x _ => h.valid x⟩

@[simp] theorem moveTo_topThreads :
    (u.moveTo t core).topThreads = update u.topThreads core (some t) := setTop_topThreads

@[simp] theorem moveTo_info :
    (u.moveTo t core).info = update u.info t { u.info t with activeCore := some core } :=
  setTop_info

/-- The active core after a move. -/
theorem active_moveTo {x : α} : ((u.moveTo t core).info x).activeCore =
      if x = t then some core else (u.info x).activeCore := by
  rw [moveTo_info, update_apply]
  split_ifs <;> rfl

/-- The next thread is chosen first. -/
theorem giveTop_eq (h : u.OnTop t) :
    u.giveTop t next core = (u.setTop (u.coreOf t) (some next)).moveTo t core := by
  rw [giveTop, moveTo, setTop_info, h.active]

theorem Inv.setTop (h : u.Inv threads) (ht : t ∈ threads.queued)
    (hactive : (u.info t).activeCore = some core) : (u.setTop core (some t)).Inv threads := by
  refine ⟨⟨by simpa using h.placed, by simpa using h.valid⟩, fun c x hx => ?_,
    fun c hc => chosen_setTop (h.chosen c hc)⟩
  rw [setTop_topThreads] at hx
  rw [setTop_info]
  by_cases hcc : c = core
  · rw [hcc, update_self, Option.some.injEq] at hx
    rw [hcc, ← hx]
    exact ⟨ht, hactive⟩
  · rw [update_of_ne hcc] at hx
    exact h.top c x hx

theorem Inv.moveTo (h : u.Inv threads) (ht : t ∈ threads.queued)
    (haffinity : (u.info t).getAffinity core = true) (hne : (u.info t).activeCore ≠ some core)
    (hnot : ¬ u.OnTop t) : (u.moveTo t core).Inv threads := by
  have hqueue := queueInv_changeCore h.toQueueInv ht haffinity hne
  refine ⟨⟨?_, ?_⟩, fun c x hx => ?_, fun c hc => chosen_setTop (h.chosen c hc)⟩
  · simpa [Update.moveTo] using hqueue.placed
  · simpa [Update.moveTo] using hqueue.valid
  · rw [moveTo_topThreads] at hx
    rw [active_moveTo]
    by_cases hcc : c = core
    · subst hcc
      rw [update_self, Option.some.injEq] at hx
      subst hx
      exact ⟨ht, if_pos rfl⟩
    · rw [update_of_ne hcc] at hx
      have hxt : x ≠ t := fun heq => hnot (heq ▸ ⟨_, (h.top _ _ hx).2, hx⟩)
      rw [if_neg hxt]
      exact h.top c x hx

theorem Inv.giveTop (h : u.Inv threads) (htop : u.OnTop t)
    (haffinity : (u.info t).getAffinity core = true) (hne : (u.info t).activeCore ≠ some core)
    (hnext : next ∈ threads.queued) (hactive : (u.info next).activeCore = some (u.coreOf t))
    (hdiff : next ≠ t) : (u.giveTop t next core).Inv threads := by
  have ht := (h.top _ t htop.top).1
  rw [giveTop_eq htop]
  refine (h.setTop hnext hactive).moveTo ht (by simpa using haffinity) (by simpa using hne) ?_
  rintro ⟨c, hc, htop'⟩
  rw [setTop_info, htop.active] at hc
  rw [← Option.some.inj hc, setTop_topThreads, update_self] at htop'
  exact hdiff (Option.some.inj htop')

omit [DecidableEq α] in
/-- The thread behind the top thread of a core. -/
theorem next_spec (hplaced : u.queue.Placed threads.queued u.info L)
    (ht : t ∈ threads.queued) (hp : (u.info t).priority ≤ lowestPriority)
    (hactive : (u.info t).activeCore = some core)
    (hnext : u.queue.getScheduledNext core t (u.info t) = some next) :
    next ∈ threads.queued ∧ (u.info next).priority ≤ lowestPriority ∧
      (u.info next).activeCore = some core ∧ next ≠ t := by
  have ht' : t ∈ L.inOrder .scheduled core := hplaced.mem_inOrder.mpr ⟨ht, rfl, hp, hactive⟩
  obtain ⟨l₁, l₂, horder⟩ := List.append_of_mem ht'
  have hhead : l₂.head? = some next := (hplaced.getNext_eq horder).symm.trans hnext
  have hmem : next ∈ l₂ := List.mem_of_mem_head? hhead
  have hmem' : next ∈ L.inOrder .scheduled core := by simp [horder, hmem]
  have hnodup : (L.inOrder .scheduled core).Nodup := hplaced.nodup_inOrder
  rw [horder, List.nodup_append, List.nodup_cons] at hnodup
  obtain ⟨hqueued, -, hp', hactive'⟩ := hplaced.mem_inOrder.mp hmem'
  exact ⟨hqueued, hp', hactive', ne_of_mem_of_not_mem hmem hnodup.2.1.1⟩

theorem Inv.turn (h : u.Inv threads) (hplaced : u.queue.Placed threads.queued u.info L)
    (hturn : Turn u core (L.inOrder .suggested core) u') : u'.Inv threads := by
  cases hturn with
  | stuck | blocked => exact h
  | @moved t hfirst =>
    obtain ⟨ht, -, _, haffinity, hne⟩ := hplaced.mem_inOrder.mp hfirst.mem
    exact h.moveTo ht haffinity hne hfirst.notTop
  | given hall hmem hnext =>
    have htop := hall _ hmem
    obtain ⟨ht, -, hp, haffinity, hne⟩ := hplaced.mem_inOrder.mp hmem
    obtain ⟨hqueued, _, hactive, hdiff⟩ := next_spec hplaced ht hp htop.active hnext
    exact h.giveTop htop haffinity hne hqueued hactive hdiff

/-- A core that has a thread keeps one. -/
theorem Turn.top_isSome (h : Turn u core suggested u') {c : ℕ}
    (hc : (u.topThreads c).isSome = true) : (u'.topThreads c).isSome = true := by
  have hset : ∀ {v : Update α} {core x}, (v.topThreads c).isSome = true →
      (update v.topThreads core (some x) c).isSome = true := by
    intro v core x hc
    rw [update_apply]
    split_ifs
    · rfl
    · exact hc
  cases h with
  | stuck | blocked => exact hc
  | moved =>
    rw [moveTo_topThreads]
    exact hset hc
  | given hall hmem _ =>
    rw [giveTop_eq (hall _ hmem), moveTo_topThreads]
    refine hset ?_
    rw [setTop_topThreads]
    exact hset hc

/-- Why a core is left without a thread: all threads that are suggested for it are on top of
their cores and have none behind them, or the first one that is not on top waits behind a
thread of critical priority. -/
def LeftIdle (u : Update α) (suggested : List α) : Prop :=
  (∀ x ∈ suggested, u.OnTop x ∧ u.Last x) ∨
    ∃ t, u.FirstMovable suggested t ∧ u.BehindCritical t

theorem Turn.leftIdle (h : Turn u core suggested u')
    (hnone : u'.topThreads core = none) : u.LeftIdle suggested := by
  cases h with
  | stuck hall => exact .inl hall
  | blocked hfirst hcritical => exact .inr ⟨_, hfirst, hcritical⟩
  | moved => simp at hnone
  | given => simp [Update.giveTop] at hnone

theorem Turn.eq_of_leftIdle (h : Turn u core suggested u') (hleft : u.LeftIdle suggested) :
    u' = u := by
  cases h with
  | stuck | blocked => rfl
  | moved hfirst hfree =>
    obtain hall | ⟨t, hfirst', hcritical⟩ := hleft
    · exact absurd (hall _ hfirst.mem).1 hfirst.notTop
    · exact absurd (hfirst'.unique hfirst ▸ hcritical) hfree
  | given hall hmem hnext =>
    obtain hlast | ⟨t, hfirst, -⟩ := hleft
    · cases hnext.symm.trans (hlast _ hmem).2
    · exact absurd (hall t hfirst.mem) hfirst.notTop

/-! ### All idle cores -/

/-- The turns of some idle cores. -/
def fillIdleCores (cores : List ℕ) (u : Update α) : Run (Update α) :=
  cores.foldlM (fun u core => fillIdleCore core u) u

/-- The turn of one core between those of the others. -/
theorem fillIdleCores_split {before after : List ℕ} {v v' : Update α}
    (hbefore : fillIdleCores before u = .ok v) (hfill : fillIdleCore core v = .ok v') :
    fillIdleCores (before ++ core :: after) u = fillIdleCores after v' := by
  rw [fillIdleCores] at hbefore
  rw [fillIdleCores, List.foldlM_append, hbefore]
  change fillIdleCores (core :: after) v = _
  rw [fillIdleCores, List.foldlM_cons, hfill]
  rfl

theorem fillIdleCores_spec (h : u.Inv threads) {cores : List ℕ}
    (hcores : ∀ core ∈ cores, core < numCores) :
    ∃ u', fillIdleCores cores u = .ok u' ∧ u'.Inv threads ∧
      ∀ c, (u.topThreads c).isSome = true → (u'.topThreads c).isSome = true := by
  induction cores generalizing u with
  | nil => exact ⟨u, rfl, h, fun _ hc => hc⟩
  | cons core cores ih =>
    obtain ⟨L, hplaced⟩ := h.placed
    obtain ⟨v, hfill, hturn⟩ := fillIdleCore_spec h hplaced (hcores core (.head _))
    obtain ⟨u', hrest, hinv, hsome⟩ := ih (h.turn hplaced hturn) fun c hc =>
      hcores c (.tail _ hc)
    refine ⟨u', ?_, hinv, fun c hc => hsome c (hturn.top_isSome hc)⟩
    rw [fillIdleCores, List.foldlM_cons, hfill]
    exact hrest

end Update

end Atmosphere.Kern
