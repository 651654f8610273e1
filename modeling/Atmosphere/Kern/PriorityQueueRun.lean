import Atmosphere.Kern.PriorityQueuePlacement

/-!
# Runs of the priority queue

The queue together with its members and what they tell it. Every time a member gets a new
place in its scheduled list the state notes when, and whether it was put in front. The
front of a core is then determined by the priorities and those notes alone.
-/

namespace Atmosphere.Kern

open Function (update update_apply update_self update_of_ne)

variable {α : Type*}

/-- A queue with its members. -/
structure QueueState (α : Type*) where
  queue : KPriorityQueue α
  info : α → QueueMember
  members : Set α
  clock : ℕ
  queuedAt : α → ℕ
  atFront : α → Bool

namespace QueueState

/-- Who is taken first of two members of one list: those that were put in front, the last one
first, and then the others in the order in which they came. -/
def Before (s : QueueState α) (a b : α) : Prop :=
  match s.atFront a, s.atFront b with
  | true, true => s.queuedAt b < s.queuedAt a
  | true, false => True
  | false, true => False
  | false, false => s.queuedAt a < s.queuedAt b

/-- The member is first on the core. -/
structure IsFront (s : QueueState α) (core : ℕ) (a : α) : Prop where
  mem : a ∈ s.members
  active : (s.info a).activeCore = some core
  queued : (s.info a).priority ≤ lowestPriority
  best : ∀ b ∈ s.members, b ≠ a → (s.info b).activeCore = some core →
    (s.info a).priority < (s.info b).priority ∨
      (s.info a).priority = (s.info b).priority ∧ s.Before a b

variable [DecidableEq α] (s : QueueState α) (a : α)

/-- A member gets a new place now. -/
def stamp (front : Bool) : QueueState α :=
  { s with
    clock := s.clock + 1
    queuedAt := update s.queuedAt a s.clock
    atFront := update s.atFront a front }

/-- A member has new attributes. -/
def setInfo (m : QueueMember) : QueueState α :=
  { s with info := update s.info a m }

def pushBack : QueueState α :=
  { s.stamp a false with
    queue := s.queue.pushBack a (s.info a)
    members := insert a s.members }

def pushFront : QueueState α :=
  { s.stamp a true with
    queue := s.queue.pushFrontAt (s.info a).priority a (s.info a)
    members := insert a s.members }

def remove : QueueState α :=
  { s with
    queue := s.queue.remove a (s.info a)
    members := s.members \ {a} }

def moveToScheduledBack (core : ℕ) : QueueState α :=
  { s.stamp a false with queue := s.queue.moveToScheduledBack a (s.info a).priority core }

def changePriority (priority : ℕ) (isRunning : Bool) : QueueState α :=
  let m := { s.info a with priority := priority }
  { (s.stamp a isRunning).setInfo a m with
    queue := s.queue.changePriority (s.info a).priority isRunning a m }

def changeAffinityMask (numCores : ℕ) (s : QueueState α) (a : α) (activeCore : Option ℕ)
    (affinityMask : BitVec 64) : QueueState α :=
  let m := { s.info a with activeCore := activeCore, affinityMask := affinityMask }
  { (s.stamp a false).setInfo a m with
    queue := s.queue.changeAffinityMask numCores (s.info a) a m }

/-- The place of the member changes only if the core does. -/
def changeCore (s : QueueState α) (a : α) (activeCore : Option ℕ) (toFront : Bool) : QueueState α :=
  let m := { s.info a with activeCore := activeCore }
  let s' := if (s.info a).activeCore ≠ activeCore then s.stamp a toFront else s
  { s'.setInfo a m with queue := s.queue.changeCore (s.info a).activeCore a m toFront }

end QueueState

/-- The operations, with the true previous attributes of the member. A thread that is not in
the queue changes its attributes freely. -/
inductive QueueStep [DecidableEq α] (numCores : ℕ) : QueueState α → QueueState α → Prop
  | pushBack {s a} (hnew : a ∉ s.members) (hvalid : (s.info a).Valid numCores) :
      QueueStep numCores s (s.pushBack a)
  | pushFront {s a} (hnew : a ∉ s.members) (hvalid : (s.info a).Valid numCores) :
      QueueStep numCores s (s.pushFront a)
  | remove {s a} (hmem : a ∈ s.members) : QueueStep numCores s (s.remove a)
  | moveToScheduledBack {s a core} (hmem : a ∈ s.members)
      (hactive : (s.info a).activeCore = some core) :
      QueueStep numCores s (s.moveToScheduledBack a core)
  | changePriority {s a} (hmem : a ∈ s.members) (priority : ℕ) (isRunning : Bool) :
      QueueStep numCores s (s.changePriority a priority isRunning)
  | changeAffinityMask {s a activeCore affinityMask} (hmem : a ∈ s.members)
      (hvalid : { s.info a with activeCore := activeCore, affinityMask := affinityMask }.Valid
        numCores) :
      QueueStep numCores s (s.changeAffinityMask numCores a activeCore affinityMask)
  | changeCore {s a activeCore} (hmem : a ∈ s.members)
      (hvalid : { s.info a with activeCore := activeCore }.Valid numCores) (toFront : Bool) :
      QueueStep numCores s (s.changeCore a activeCore toFront)
  | setInfo {s a} (hout : a ∉ s.members) (m : QueueMember) : QueueStep numCores s (s.setInfo a m)

/-- The states that are reached from an empty queue. -/
inductive QueueRun [DecidableEq α] (numCores : ℕ) : QueueState α → Prop
  | start (entries : α → ℕ → IntrusiveList.Entry α) (info : α → QueueMember) (clock : ℕ)
      (queuedAt : α → ℕ) (atFront : α → Bool) :
      QueueRun numCores ⟨.empty entries, info, ∅, clock, queuedAt, atFront⟩
  | step {s s'} (h : QueueRun numCores s) (hstep : QueueStep numCores s s') : QueueRun numCores s'

/-- What holds in every state. -/
structure QueueInv (numCores : ℕ) (s : QueueState α) : Prop where
  ordered : s.queue.Ordered s.members s.info s.Before
  valid : ∀ a ∈ s.members, (s.info a).Valid numCores
  stamped : ∀ a ∈ s.members, s.queuedAt a < s.clock

namespace QueueInv

variable [DecidableEq α] {numCores : ℕ} {s : QueueState α} {a b b' : α} {front : Bool}

theorem stamp_before (hb : b ≠ a) (hb' : b' ≠ a) (h : s.Before b b') :
    (s.stamp a front).Before b b' := by
  simpa [QueueState.Before, QueueState.stamp, hb, hb'] using h

theorem stamp_front (hb : b ≠ a) (hlt : s.queuedAt b < s.clock) : (s.stamp a true).Before a b := by
  cases hfront : s.atFront b <;> simp [QueueState.Before, QueueState.stamp, hb, hfront, hlt]

theorem stamp_back (hb : b ≠ a) (hlt : s.queuedAt b < s.clock) : (s.stamp a false).Before b a := by
  cases hfront : s.atFront b <;> simp [QueueState.Before, QueueState.stamp, hb, hfront, hlt]

theorem stamp_stamped (h : QueueInv numCores s) {members : Set α}
    (hmem : ∀ b ∈ members, b ≠ a → b ∈ s.members) :
    ∀ b ∈ members, update s.queuedAt a s.clock b < s.clock + 1 := by
  intro b hb
  rw [update_apply]
  split_ifs with hba
  · exact Nat.lt_succ_self _
  · exact Nat.lt_succ_of_lt (h.stamped b (hmem b hb hba))

theorem valid_of_ne (h : QueueInv numCores s) {m : QueueMember} (hvalid : m.Valid numCores)
    (hb : b ∈ s.members) : (update s.info a m b).Valid numCores := by
  rw [update_apply]
  split_ifs
  · exact hvalid
  · exact h.valid b hb

/-- The order of the other members stays when one gets a new place. -/
theorem ordered_stamp (h : QueueInv numCores s) (ha : a ∉ s.members) (front : Bool) :
    s.queue.Ordered s.members s.info (s.stamp a front).Before :=
  h.ordered.congr (fun _ _ => rfl) fun _ hb _ hb' =>
    stamp_before (ne_of_mem_of_not_mem hb ha) (ne_of_mem_of_not_mem hb' ha)

/-- A member that leaves the queue and may come back with other attributes. -/
theorem ordered_removed {q : KPriorityQueue α}
    (hq : q.Ordered (s.members \ {a}) s.info s.Before) (front : Bool) (m : QueueMember) :
    q.Ordered (s.members \ {a}) (update s.info a m) (s.stamp a front).Before :=
  hq.congr (fun _ hb => update_of_ne hb.2 _ _) fun _ hb _ hb' =>
    stamp_before hb.2 hb'.2

section

variable (h : QueueInv numCores s)
include h

theorem pushBack (hnew : a ∉ s.members) (hvalid : (s.info a).Valid numCores) :
    QueueInv numCores (s.pushBack a) where
  ordered := (h.ordered_stamp hnew false).pushBackAt hnew fun b hb =>
    stamp_back (ne_of_mem_of_not_mem hb hnew) (h.stamped b hb)
  valid := Set.forall_mem_insert.mpr ⟨hvalid, h.valid⟩
  stamped := h.stamp_stamped fun _ hb hne => hb.resolve_left hne

theorem pushFront (hnew : a ∉ s.members) (hvalid : (s.info a).Valid numCores) :
    QueueInv numCores (s.pushFront a) where
  ordered := (h.ordered_stamp hnew true).pushFrontAt hnew fun b hb =>
    stamp_front (ne_of_mem_of_not_mem hb hnew) (h.stamped b hb)
  valid := Set.forall_mem_insert.mpr ⟨hvalid, h.valid⟩
  stamped := h.stamp_stamped fun _ hb hne => hb.resolve_left hne

section

variable (hmem : a ∈ s.members) {activeCore : Option ℕ}
include hmem

theorem remove : QueueInv numCores (s.remove a) where
  ordered := h.ordered.removeAt hmem
  valid b hb := h.valid b hb.1
  stamped b hb := h.stamped b hb.1

theorem moveToScheduledBack {core : ℕ} (hactive : (s.info a).activeCore = some core) :
    QueueInv numCores (s.moveToScheduledBack a core) where
  ordered := h.ordered.moveToScheduledBack hmem hactive
    (fun _ _ hb _ _ hb' => stamp_before hb hb') fun b hb hne => stamp_back hne (h.stamped b hb)
  valid := h.valid
  stamped := h.stamp_stamped fun _ hb _ => hb

theorem changePriority (priority : ℕ) (isRunning : Bool) :
    QueueInv numCores (s.changePriority a priority isRunning) where
  ordered := by
    let m := { s.info a with priority := priority }
    have hremoved := ordered_removed (h.ordered.removeAt hmem) isRunning m
    rw [← KPriorityQueue.removeAt_withPriority (p := priority)] at hremoved
    have hinfo : update s.info a m a = m := update_self ..
    have hnot : a ∉ s.members \ {a} := fun hc => hc.2 rfl
    have hback := Set.insert_sdiff_self_of_mem hmem
    cases isRunning with
    | true =>
      have hnew := hremoved.pushFrontAt hnot fun b hb => stamp_front hb.2 (h.stamped b hb.1)
      rw [hback, hinfo, ← KPriorityQueue.changePriority_running] at hnew
      exact hnew
    | false =>
      have hnew := hremoved.pushBackAt hnot fun b hb => stamp_back hb.2 (h.stamped b hb.1)
      rw [hback, hinfo, ← KPriorityQueue.changePriority_waiting] at hnew
      exact hnew
  valid b hb := h.valid_of_ne ⟨(h.valid a hmem).affinity, (h.valid a hmem).active⟩ hb
  stamped := h.stamp_stamped fun _ hb _ => hb

theorem changeAffinityMask {affinityMask : BitVec 64}
    (hvalid : { s.info a with activeCore := activeCore, affinityMask := affinityMask }.Valid
      numCores) :
    QueueInv numCores (s.changeAffinityMask numCores a activeCore affinityMask) where
  ordered := by
    let m := { s.info a with activeCore := activeCore, affinityMask := affinityMask }
    have hremoved := ordered_removed
      (h.ordered.removeCores hmem (h.valid a hmem).hasCores_range) false m
    have hinfo : update s.info a m a = m := update_self ..
    have hnot : a ∉ s.members \ {a} := fun hc => hc.2 rfl
    have hcores : (update s.info a m a).HasCores
        ((List.range numCores).filter m.getAffinity) := hinfo.symm ▸ hvalid.hasCores_range
    have hnew := hremoved.pushBackCores hnot hcores fun b hb =>
      stamp_back hb.2 (h.stamped b hb.1)
    rw [Set.insert_sdiff_self_of_mem hmem, hinfo, List.foldl_filter, List.foldl_filter] at hnew
    exact hnew
  valid b hb := h.valid_of_ne hvalid hb
  stamped := h.stamp_stamped fun _ hb _ => hb

theorem changeCore
    (hvalid : { s.info a with activeCore := activeCore }.Valid numCores) (toFront : Bool) :
    QueueInv numCores (s.changeCore a activeCore toFront) := by
  by_cases hne : (s.info a).activeCore = activeCore
  · have hinfo : { s.info a with activeCore := activeCore } = s.info a := by rw [← hne]
    have hsame : s.changeCore a activeCore toFront = s := by
      simp [QueueState.changeCore, QueueState.setInfo, KPriorityQueue.changeCore, hinfo, hne]
    rw [hsame]
    exact h
  · rw [QueueState.changeCore, if_pos hne]
    refine ⟨?_, fun b hb => h.valid_of_ne hvalid hb, h.stamp_stamped fun _ hb _ => hb⟩
    refine h.ordered.changeCore hmem rfl (h.valid a hmem).active hvalid.active hne
      (fun _ _ hb _ _ hb' => stamp_before hb hb') fun b hb hba => ?_
    cases toFront with
    | true => exact stamp_front hba (h.stamped b hb)
    | false => exact stamp_back hba (h.stamped b hb)

end

theorem setInfo (hout : a ∉ s.members) (m : QueueMember) : QueueInv numCores (s.setInfo a m) := by
  have hinfo : ∀ b ∈ s.members, update s.info a m b = s.info b := fun b hb =>
    update_of_ne (ne_of_mem_of_not_mem hb hout) _ _
  refine ⟨h.ordered.congr hinfo fun _ _ _ _ hb => hb, fun b hb => ?_, h.stamped⟩
  rw [show (s.setInfo a m).info b = s.info b from hinfo b hb]
  exact h.valid b hb

theorem step {s' : QueueState α} (hstep : QueueStep numCores s s') : QueueInv numCores s' := by
  cases hstep with
  | pushBack hnew hvalid => exact h.pushBack hnew hvalid
  | pushFront hnew hvalid => exact h.pushFront hnew hvalid
  | remove hmem => exact h.remove hmem
  | moveToScheduledBack hmem hactive => exact h.moveToScheduledBack hmem hactive
  | changePriority hmem priority isRunning => exact h.changePriority hmem priority isRunning
  | changeAffinityMask hmem hvalid => exact h.changeAffinityMask hmem hvalid
  | changeCore hmem hvalid toFront => exact h.changeCore hmem hvalid toFront
  | setInfo hout m => exact h.setInfo hout m

end

theorem run (h : QueueRun numCores s) : QueueInv numCores s := by
  induction h with
  | start entries info clock queuedAt atFront =>
    exact ⟨⟨_, KPriorityQueue.empty_placed entries info, fun _ _ => List.Pairwise.nil⟩,
      fun _ hb => absurd hb (Set.notMem_empty _), fun _ hb => absurd hb (Set.notMem_empty _)⟩
  | step _ hstep ih => exact ih.step hstep

end QueueInv

/-- The head of the first list that has a member is first on its core. -/
theorem QueueState.isFront_of_getScheduledFront {s : QueueState α} {L : Lists α} {core : ℕ} {a : α}
    (hplaced : s.queue.Placed s.members s.info L) (hsorted : L.Sorted s.Before)
    (hfront : s.queue.getScheduledFront core = some a) : s.IsFront core a := by
  obtain ⟨p, l, a', hfront', hlist, hfirst⟩ | ⟨hnone, _⟩ :=
    hplaced.getFront .scheduled core
  · have heq : a' = a := Option.some.inj (hfront'.symm.trans hfront)
    subst heq
    have hmem : a' ∈ L .scheduled p core := hlist ▸ .head _
    obtain ⟨hmember, rfl, hp, hactive⟩ := hplaced.mem_iff.mp hmem
    refine ⟨hmember, hactive, hp, fun b hb hne hcore => ?_⟩
    by_cases hlow : (s.info b).priority ≤ lowestPriority
    · have hmemb : b ∈ L .scheduled (s.info b).priority core :=
        hplaced.mem_iff.mpr ⟨hb, rfl, hlow, hcore⟩
      obtain hlt | heq | hgt := Nat.lt_trichotomy (s.info a').priority (s.info b).priority
      · exact .inl hlt
      · refine .inr ⟨heq, ?_⟩
        rw [← heq, hlist] at hmemb
        have hsorted' := hsorted (s.info a').priority core
        rw [hlist] at hsorted'
        exact List.rel_of_pairwise_cons hsorted' ((List.mem_cons.mp hmemb).resolve_left hne)
      · rw [hfirst _ hgt] at hmemb
        cases hmemb
    · exact .inl (by omega)
  · rw [KPriorityQueue.getScheduledFront, hnone] at hfront
    cases hfront

/-- In every run each member is linked once in the scheduled list of its core and once in the
suggested list of every other core of its mask, at its priority, if that is one of the queue;
the links and the sets of priorities are those of the lists; and the front of a core is the
member of best priority that was put in front last, or else waits longest. -/
theorem queueRun_placed_and_front [DecidableEq α] {numCores : ℕ} {s : QueueState α}
    (h : QueueRun numCores s) :
    ∃ L, s.queue.Placed s.members s.info L ∧ (∀ kind priority core, (L kind priority core).Nodup) ∧
      ∀ core, (∀ a, s.queue.getScheduledFront core = some a → s.IsFront core a) ∧
        (s.queue.getScheduledFront core = none → ∀ b ∈ s.members,
          (s.info b).activeCore = some core → lowestPriority < (s.info b).priority) := by
  obtain ⟨⟨L, hplaced, hsorted⟩, _, _⟩ := QueueInv.run h
  refine ⟨L, hplaced, fun _ _ _ => hplaced.nodup, fun core => ⟨fun a hfront =>
    QueueState.isFront_of_getScheduledFront hplaced hsorted hfront, fun hnone b hb hactive => ?_⟩⟩
  by_contra hlow
  have hmem : b ∈ L .scheduled (s.info b).priority core :=
    hplaced.mem_iff.mpr ⟨hb, rfl, Nat.le_of_not_lt hlow, hactive⟩
  obtain ⟨p, l, a, hfront, _⟩ | ⟨_, hempty⟩ :=
    hplaced.getFront .scheduled core
  · rw [KPriorityQueue.getScheduledFront, hfront] at hnone
    cases hnone
  · rw [hempty] at hmem
    cases hmem

/-! ## A running thread stays in front -/

/-- An empty queue and threads that may run on the first core only. -/
def startOnFirstCore (priority : Bool → ℕ) : QueueState Bool where
  queue := .empty fun _ _ => .empty
  info a := { priority := priority a, activeCore := some 0, affinityMask := 1 }
  members := ∅
  clock := 0
  queuedAt _ := 0
  atFront _ := false

theorem valid_firstCore (priority : ℕ) :
    QueueMember.Valid 4 { priority := priority, activeCore := some 0, affinityMask := 1 } := by
  constructor
  · intro core hcore
    have hzero : core = 0 := by simpa [QueueMember.getAffinity] using hcore
    omega
  · rintro core hactive
    rw [← Option.some.inj hactive]
    simp [QueueMember.getAffinity]

/-- Two threads are queued, and the running one then gets the priority of the other. -/
def overtaken : QueueState Bool :=
  (((startOnFirstCore fun a => if a then 20 else 10).pushBack false).pushBack true).changePriority
    true 10 true

theorem overtaken_run : QueueRun 4 overtaken := by
  refine .step (.step (.step (.start _ _ _ _ _) (.pushBack (by simp) (valid_firstCore _)))
    (.pushBack ?_ (valid_firstCore _))) (.changePriority (Or.inl rfl) 10 true)
  rintro (h | h)
  · cases h
  · exact h

/-- The front is not always the member that waited longest, and a member with the priority of
the idle threads is in no list. -/
theorem front_came_later : (QueueRun 4 overtaken ∧
      false ∈ overtaken.members ∧ true ∈ overtaken.members ∧
      (∀ a, (overtaken.info a).activeCore = some 0 ∧ (overtaken.info a).priority = 10) ∧
      overtaken.queuedAt false < overtaken.queuedAt true ∧
      overtaken.queue.getScheduledFront 0 = some true) ∧
    ∃ s : QueueState Bool, QueueRun 4 s ∧ true ∈ s.members ∧ (s.info true).activeCore = some 0 ∧
      s.queue.getScheduledFront 0 = none := by
  refine ⟨⟨overtaken_run, .inr (.inl rfl), .inl rfl, by decide, by decide,
    by decide +kernel⟩, (startOnFirstCore fun _ => 64).pushBack true, ?_, .inl rfl, rfl,
    by decide +kernel⟩
  exact .step (.start _ _ _ _ _) (.pushBack (by simp) (valid_firstCore _))

theorem overtaken_placed_and_front :
    ∃ L, overtaken.queue.Placed overtaken.members overtaken.info L ∧
      (∀ kind priority core, (L kind priority core).Nodup) ∧
      ∀ core, (∀ a, overtaken.queue.getScheduledFront core = some a → overtaken.IsFront core a) ∧
        (overtaken.queue.getScheduledFront core = none → ∀ b ∈ overtaken.members,
          (overtaken.info b).activeCore = some core →
            lowestPriority < (overtaken.info b).priority) :=
  queueRun_placed_and_front overtaken_run

end Atmosphere.Kern
