import Atmosphere.Kern.PriorityQueueSpec

/-!
# The place of every member

A member is in the scheduled list of its active core and in the suggested lists of the
other cores of its affinity mask, at its priority. Every operation keeps that, and says
what it does to the order of the scheduled lists.
-/

namespace Atmosphere.Kern

open BitScan

/-- The affinity mask has cores of the machine only, and the active core is one of them. -/
structure QueueMember.Valid (numCores : ℕ) (m : QueueMember) : Prop where
  affinity : ∀ core, m.getAffinity core = true → core < numCores
  active : ∀ core, m.activeCore = some core → m.getAffinity core = true

/-- The lists that a member belongs to. -/
def QueueMember.Wants (m : QueueMember) (kind : QueueKind) (priority core : ℕ) : Prop :=
  priority = m.priority ∧ priority ≤ lowestPriority ∧ match kind with
    | .scheduled => m.activeCore = some core
    | .suggested => m.getAffinity core = true ∧ m.activeCore ≠ some core

/-- The cores of a member, in some order. -/
def QueueMember.HasCores (m : QueueMember) (cores : List ℕ) : Prop :=
  cores.Nodup ∧ ∀ core, core ∈ cores ↔ m.activeCore = some core ∨ m.getAffinity core = true

namespace QueueMember

variable {m : QueueMember} {cores : List ℕ} {kind : QueueKind} {priority core numCores : ℕ}

theorem valid_of_bits (haffinity : ∀ core ∈ bits m.affinityMask, core < numCores)
    (hactive : ∀ core ∈ m.activeCore, m.getAffinity core = true) : m.Valid numCores :=
  ⟨fun core hcore => haffinity core (mem_bits.mpr hcore), hactive⟩

theorem hasCores_coresOf (m : QueueMember) : m.HasCores (KPriorityQueue.coresOf m) :=
  ⟨KPriorityQueue.nodup_coresOf m, fun _ => KPriorityQueue.mem_coresOf⟩

theorem Valid.hasCores_range (h : m.Valid numCores) :
    m.HasCores ((List.range numCores).filter m.getAffinity) := by
  refine ⟨List.nodup_range.filter _, fun core => ?_⟩
  rw [List.mem_filter, List.mem_range]
  constructor
  · exact fun hc => .inr hc.2
  · rintro (hactive | haff)
    · exact ⟨h.affinity core (h.active core hactive), h.active core hactive⟩
    · exact ⟨h.affinity core haff, haff⟩

theorem HasCores.wants_iff (h : m.HasCores cores) :
    (core ∈ cores ∧ kind = KPriorityQueue.kindOn m.activeCore core ∧ priority = m.priority ∧
      m.priority ≤ lowestPriority) ↔ m.Wants kind priority core := by
  rw [h.2 core, KPriorityQueue.kindOn]
  unfold Wants
  by_cases hactive : m.activeCore = some core
  · rw [if_pos hactive]
    cases kind with
    | scheduled =>
      simp only [hactive, true_or, true_and, and_true]
      exact and_congr_right fun hp => by rw [hp]
    | suggested => simp [hactive]
  · rw [if_neg hactive]
    cases kind with
    | scheduled => simp [hactive]
    | suggested =>
      simp only [hactive, false_or, true_and, ne_eq, not_false_eq_true, and_true]
      exact ⟨fun hc => ⟨hc.2.1, hc.2.1 ▸ hc.2.2, hc.1⟩, fun hc => ⟨hc.2.2, hc.1, hc.1 ▸ hc.2.1⟩⟩

end QueueMember

/-- The scheduled lists are in an order. -/
def Lists.Sorted {α : Type*} (before : α → α → Prop) (L : Lists α) : Prop :=
  ∀ priority core, (L .scheduled priority core).Pairwise before

namespace Lists

variable {α : Type*} {L : Lists α} {before : α → α → Prop} {kind : QueueKind} {a : α}
  {kindOf : ℕ → QueueKind} {cores : List ℕ} {priority core : ℕ} {f : List α → List α}

variable (h : L.Sorted before)
include h

theorem Sorted.modify (hf : kind = .scheduled → (f (L .scheduled priority core)).Pairwise before) :
    (L.modify kind priority core f).Sorted before := by
  intro p c
  rw [Lists.modify]
  split_ifs with hc
  · rw [← hc.1] at hf
    rw [hc.2.1, hc.2.2.1]
    exact hf rfl
  · exact h p c

theorem Sorted.modifyAll (hf : ∀ p c, (f (L .scheduled p c)).Pairwise before) :
    (L.modifyAll kindOf cores priority f).Sorted before := by
  intro p c
  rw [Lists.modifyAll]
  split_ifs
  · exact hf p c
  · exact h p c

theorem Sorted.append (hlast : ∀ p c, ∀ b ∈ L .scheduled p c, before b a) (p c : ℕ) :
    (L .scheduled p c ++ [a]).Pairwise before := by
  refine List.pairwise_append.mpr ⟨h p c, List.pairwise_singleton _ _, fun b hb a' ha' => ?_⟩
  rw [List.mem_singleton.mp ha']
  exact hlast p c b hb

theorem Sorted.cons (hfirst : ∀ p c, ∀ b ∈ L .scheduled p c, before a b) (p c : ℕ) :
    (a :: L .scheduled p c).Pairwise before :=
  List.pairwise_cons.mpr ⟨hfirst p c, h p c⟩

theorem Sorted.erase [DecidableEq α] (p c : ℕ) : ((L .scheduled p c).erase a).Pairwise before :=
  (h p c).sublist List.erase_sublist

/-- Only the members of the lists are compared. -/
theorem Sorted.imp_mem {before' : α → α → Prop}
    (himp : ∀ p c, ∀ b ∈ L .scheduled p c, ∀ b' ∈ L .scheduled p c, before b b' → before' b b') :
    L.Sorted before' := fun p c =>
  (h p c).imp_of_mem fun hb hb' => himp p c _ hb _ hb'

end Lists

namespace KPriorityQueue

variable {α : Type*} {q : KPriorityQueue α} {members : Set α} {info : α → QueueMember}
  {L : Lists α} {a : α} {cores : List ℕ}

theorem wants_insert {b : α} {kind : QueueKind} {priority core : ℕ} :
    (b ∈ members ∧ (info b).Wants kind priority core ∨ b = a ∧ (info a).Wants kind priority core) ↔
    b ∈ insert a members ∧ (info b).Wants kind priority core := by
  rw [Set.mem_insert_iff, or_and_right, or_comm]
  exact or_congr_left (and_congr_right fun heq => by rw [heq])

/-- The queue has the lists, and its members are where they belong. -/
structure Placed (q : KPriorityQueue α) (members : Set α) (info : α → QueueMember)
    (L : Lists α) : Prop extends Represents q L where
  mem_iff : ∀ {a kind priority core},
    a ∈ L kind priority core ↔ a ∈ members ∧ (info a).Wants kind priority core

theorem empty_placed (entries : α → ℕ → IntrusiveList.Entry α) (info : α → QueueMember) :
    Placed (empty entries) ∅ info fun _ _ _ => [] :=
  { empty_represents entries with mem_iff := by simp }

namespace Placed

variable (h : Placed q members info L)
include h

theorem congr {info' : α → QueueMember} (hinfo : ∀ b ∈ members, info' b = info b) :
    Placed q members info' L :=
  { h with
    mem_iff := fun {b kind priority core} => by
      rw [h.mem_iff]
      exact and_congr_right fun hb => by rw [hinfo b hb] }

theorem notMem (ha : a ∉ members) (kind : QueueKind) (priority core : ℕ) :
    a ∉ L kind priority core := fun hmem => ha (h.mem_iff.mp hmem).1

variable {core : ℕ}

theorem mem_inOrder : a ∈ L.inOrder kind core ↔
    a ∈ members ∧ (info a).Wants kind (info a).priority core := by
  rw [Lists.inOrder, Lists.mem_inOrderFrom]
  constructor
  · rintro ⟨p, _, _, ha⟩
    obtain ⟨hmem, rfl, hwants⟩ := h.mem_iff.mp ha
    exact ⟨hmem, rfl, hwants⟩
  · rintro ⟨hmem, hwants⟩
    exact ⟨_, Nat.zero_le _, hwants.2.1, h.mem_iff.mpr ⟨hmem, hwants⟩⟩

/-- The member after one of a core. -/
theorem getNext_eq {kind : QueueKind} {l₁ l₂ : List α}
    (horder : L.inOrder kind core = l₁ ++ a :: l₂) :
    q.getNext kind core a (info a).priority = l₂.head? := by
  have ha : a ∈ L.inOrder kind core := by simp [horder]
  obtain ⟨p, _, _, ha⟩ := Lists.mem_inOrderFrom.mp ha
  have hp : p = (info a).priority := (h.mem_iff.mp ha).2.1
  exact h.toRepresents.getNext_eq horder (hp ▸ ha)

variable [DecidableEq α]

/-- A member is taken from all its lists. -/
theorem remove (ha : a ∈ members) (hcores : (info a).HasCores cores) :
    Placed (cores.foldl (fun q core =>
        q.implRemove (kindOn (info a).activeCore core) (info a).priority core a) q)
      (members \ {a}) info
      (L.modifyAll (kindOn (info a).activeCore) cores (info a).priority (·.erase a)) := by
  refine ⟨h.toRepresents.foldl_modify hcores.1 fun core hcore h' hsame =>
    h'.implRemove fun hp => ?_, fun {b kind priority core} => ?_⟩
  · rw [hsame]
    exact h.mem_iff.mpr ⟨ha, hcores.wants_iff.mp ⟨hcore, rfl, rfl, hp⟩⟩
  · rw [Lists.mem_modifyAll_erase h.nodup, h.mem_iff, hcores.wants_iff]
    constructor
    · rintro ⟨⟨hb, hwants⟩, hnot⟩
      refine ⟨⟨hb, fun heq => hnot ⟨heq, heq ▸ hwants⟩⟩, hwants⟩
    · rintro ⟨⟨hb, hne⟩, hwants⟩
      exact ⟨⟨hb, hwants⟩, fun hc => hne hc.1⟩

/-- A new member goes to the back of all its lists. -/
theorem pushBack (ha : a ∉ members) (hcores : (info a).HasCores cores) :
    Placed (cores.foldl (fun q core =>
        q.implPushBack (kindOn (info a).activeCore core) (info a).priority core a) q)
      (insert a members) info
      (L.modifyAll (kindOn (info a).activeCore) cores (info a).priority (· ++ [a])) := by
  refine { h.toRepresents.foldl_implPushBack hcores.1 fun core _ kind p =>
    h.notMem ha kind p core with
    mem_iff := fun {b kind priority core} => ?_ }
  rw [Lists.mem_modifyAll_append, h.mem_iff, hcores.wants_iff]
  exact wants_insert

end Placed

/-! ## The order of the scheduled lists -/

/-- The members are where they belong, and each scheduled list is in the order. -/
def Ordered (q : KPriorityQueue α) (members : Set α) (info : α → QueueMember)
    (before : α → α → Prop) : Prop :=
  ∃ L, Placed q members info L ∧ L.Sorted before

namespace Ordered

variable {before before' : α → α → Prop}

theorem congr (h : Ordered q members info before) {info' : α → QueueMember}
    (hinfo : ∀ b ∈ members, info' b = info b)
    (hbefore : ∀ b ∈ members, ∀ b' ∈ members, before b b' → before' b b') :
    Ordered q members info' before' := by
  obtain ⟨L, hplaced, hsorted⟩ := h
  refine ⟨L, hplaced.congr hinfo, hsorted.imp_mem fun p c b hb b' hb' => ?_⟩
  exact hbefore b (hplaced.mem_iff.mp hb).1 b' (hplaced.mem_iff.mp hb').1

variable [DecidableEq α] {toFront : Bool}

section

variable (h : Ordered q members info before)
include h

theorem removeCores (ha : a ∈ members) (hcores : (info a).HasCores cores) : Ordered
      (cores.foldl (fun q core =>
        q.implRemove (kindOn (info a).activeCore core) (info a).priority core a) q)
      (members \ {a}) info before := by
  obtain ⟨L, hplaced, hsorted⟩ := h
  exact ⟨_, hplaced.remove ha hcores, hsorted.modifyAll hsorted.erase⟩

theorem pushBackCores (ha : a ∉ members) (hcores : (info a).HasCores cores)
    (hlast : ∀ b ∈ members, before b a) :
    Ordered (cores.foldl (fun q core =>
        q.implPushBack (kindOn (info a).activeCore core) (info a).priority core a) q)
      (insert a members) info before := by
  obtain ⟨L, hplaced, hsorted⟩ := h
  refine ⟨_, hplaced.pushBack ha hcores, hsorted.modifyAll (hsorted.append fun p c b hb => ?_)⟩
  exact hlast b (hplaced.mem_iff.mp hb).1

theorem removeAt (ha : a ∈ members) :
    Ordered (q.removeAt (info a).priority a (info a)) (members \ {a}) info before := by
  rw [removeAt_eq]
  exact h.removeCores ha (QueueMember.hasCores_coresOf _)

theorem pushBackAt (ha : a ∉ members) (hlast : ∀ b ∈ members, before b a) :
    Ordered (q.pushBackAt (info a).priority a (info a)) (insert a members) info before := by
  rw [pushBackAt_eq]
  exact h.pushBackCores ha (QueueMember.hasCores_coresOf _) hlast

/-- A new member goes to the front of its scheduled list. -/
theorem pushFrontAt (ha : a ∉ members) (hfirst : ∀ b ∈ members, before a b) :
    Ordered (q.pushFrontAt (info a).priority a (info a)) (insert a members) info before := by
  obtain ⟨L, hplaced, hsorted⟩ := h
  have hcores := QueueMember.hasCores_coresOf (info a)
  rw [pushFrontAt_eq]
  cases hactive : (info a).activeCore with
  | none =>
    -- Without an active core there is no list to be in front of.
    have hlists : coresOf (info a) = bits (otherCores (info a)) := by
      rw [coresOf, hactive, Option.toList_none, List.nil_append]
    rw [hlists] at hcores
    have hnew := hplaced.pushBack ha hcores
    rw [hactive] at hnew
    refine ⟨_, hnew, fun p c => ?_⟩
    rw [Lists.modifyAll, if_neg fun hc => ?_]
    · exact hsorted p c
    · exact QueueKind.noConfusion hc.2.1
  | some active =>
    have hlists : coresOf (info a) = active :: bits (otherCores (info a)) := by
      rw [coresOf, hactive]
      rfl
    rw [hlists] at hcores
    obtain ⟨hnot, hnodup⟩ := List.nodup_cons.mp hcores.1
    have hfront : Represents (q.implPushFront .scheduled (info a).priority active a)
        (L.modify .scheduled (info a).priority active (a :: ·)) :=
      hplaced.implPushFront fun kind p => hplaced.notMem ha kind p active
    have hwants : ∀ kind p core, (info a).Wants kind p core ↔
        (kind = .scheduled ∧ p = (info a).priority ∧ core = active ∧
          (info a).priority ≤ lowestPriority) ∨
        (core ∈ bits (otherCores (info a)) ∧ kind = kindOn (some active) core ∧
          p = (info a).priority ∧ (info a).priority ≤ lowestPriority) := by
      intro kind p core
      rw [← hcores.wants_iff, hactive]
      by_cases hcore : core = active
      · simp [hcore, hnot, kindOn]
      · simp [hcore]
    refine ⟨_, { hfront.foldl_implPushBack hnodup fun core hcore kind p => ?_ with
      mem_iff := fun {b kind p core} => ?_ }, fun p core => ?_⟩
    · have hne : core ≠ active := ne_of_mem_of_not_mem hcore hnot
      rw [Lists.modify, if_neg fun hc => hne hc.2.2.1]
      exact hplaced.notMem ha kind p core
    · rw [Lists.mem_modifyAll_append, Lists.mem_modify_insert (a := a) (by simp [or_comm]),
        hplaced.mem_iff, or_assoc, ← and_or_left, ← hwants]
      exact wants_insert
    · rw [Lists.modifyAll, if_neg fun hc => ?_]
      · exact hsorted.modify (fun _ => hsorted.cons (fun p c b hb =>
          hfirst b (hplaced.mem_iff.mp hb).1) _ _) p core
      · have hne : core ≠ active := ne_of_mem_of_not_mem hc.1 hnot
        have hkind := hc.2.1
        rw [kindOn, if_neg fun heq => hne (Option.some.inj heq).symm] at hkind
        cases hkind

/-- A member goes to the back of its scheduled list. -/
theorem moveToScheduledBack (ha : a ∈ members) {core : ℕ}
    (hactive : (info a).activeCore = some core)
    (hbefore : ∀ b ∈ members, b ≠ a → ∀ b' ∈ members, b' ≠ a → before b b' → before' b b')
    (hlast : ∀ b ∈ members, b ≠ a → before' b a) :
    Ordered (q.moveToScheduledBack a (info a).priority core) members info before' := by
  obtain ⟨L, hplaced, hsorted⟩ := h
  have hmem : (info a).priority ≤ lowestPriority → a ∈ L .scheduled (info a).priority core :=
    fun hp => hplaced.mem_iff.mpr ⟨ha, rfl, hp, hactive⟩
  refine ⟨_, { hplaced.implMoveToBack hmem with mem_iff := fun {b kind p c} => ?_ }, fun p c => ?_⟩
  · rw [← hplaced.mem_iff, Lists.modify]
    split_ifs with hc
    · obtain ⟨rfl, rfl, rfl, hp⟩ := hc
      by_cases hba : b = a
      · simp [hba, hmem hp]
      · simp [hba, List.mem_erase_of_ne hba]
    · rfl
  · rw [Lists.modify]
    split_ifs with hc
    · have hnodup : (L .scheduled p c).Nodup := hplaced.nodup
      refine List.pairwise_append.mpr ⟨?_, List.pairwise_singleton _ _, fun b hb a' ha' => ?_⟩
      · refine ((hsorted p c).sublist List.erase_sublist).imp_of_mem fun hb hb' => ?_
        rw [hnodup.mem_erase_iff] at hb hb'
        exact hbefore _ (hplaced.mem_iff.mp hb.2).1 hb.1 _ (hplaced.mem_iff.mp hb'.2).1 hb'.1
      · rw [hnodup.mem_erase_iff] at hb
        rw [List.mem_singleton.mp ha']
        exact hlast b (hplaced.mem_iff.mp hb.2).1 hb.1
    · have hnot : a ∉ L .scheduled p c := fun hmem' => by
        obtain ⟨_, rfl, hp, hcore⟩ := hplaced.mem_iff.mp hmem'
        rw [hactive] at hcore
        exact hc ⟨rfl, rfl, (Option.some.inj hcore).symm, hp⟩
      exact (hsorted p c).imp_of_mem fun hb hb' =>
        hbefore _ (hplaced.mem_iff.mp hb).1 (ne_of_mem_of_not_mem hb hnot)
          _ (hplaced.mem_iff.mp hb').1 (ne_of_mem_of_not_mem hb' hnot)

end

/-- The first part of `ChangeCore`: the member leaves its scheduled list. -/
theorem leaveScheduled (h : Placed q members info L) (hsorted : L.Sorted before)
    (ha : a ∈ members) : ∃ L', Represents (match (info a).activeCore with
        | some core => q.implRemove .scheduled (info a).priority core a
        | none => q) L' ∧
      (∀ b kind p c, b ∈ L' kind p c ↔ b ∈ L kind p c ∧ ¬ (b = a ∧ kind = .scheduled)) ∧
      L'.Sorted before := by
  cases hactive : (info a).activeCore with
  | none =>
    refine ⟨L, h.toRepresents, fun b kind p c => ?_, hsorted⟩
    refine (and_iff_left_of_imp fun hb hc => ?_).symm
    obtain ⟨rfl, rfl⟩ := hc
    have hcore := (h.mem_iff.mp hb).2.2.2
    rw [hactive] at hcore
    cases hcore
  | some core =>
    refine ⟨_, h.implRemove fun hp => h.mem_iff.mpr ⟨ha, rfl, hp, hactive⟩, ?_,
      hsorted.modify fun _ => hsorted.erase _ _⟩
    intro b kind p c
    rw [Lists.mem_modify_erase h.nodup]
    refine and_congr_right fun hb => not_congr ⟨fun hc => ⟨hc.1, hc.2.1⟩, fun hc => ?_⟩
    obtain ⟨rfl, rfl⟩ := hc
    obtain ⟨_, rfl, hp, hcore⟩ := h.mem_iff.mp hb
    rw [hactive] at hcore
    exact ⟨rfl, rfl, rfl, (Option.some.inj hcore).symm, hp⟩

/-- The second part: the suggestion for the new core becomes its place there. -/
theorem enterScheduled (h : Represents q L) (hsorted : L.Sorted before) {priority : ℕ}
    {newCore : Option ℕ} (hat : ∀ kind p c, a ∈ L kind p c → kind = .suggested ∧ p = priority)
    (hsuggested : ∀ c, newCore = some c → priority ≤ lowestPriority → a ∈ L .suggested priority c)
    (hplace : ∀ p c, ∀ b ∈ L .scheduled p c, if toFront then before a b else before b a) :
    ∃ L', Represents (match newCore with
        | some core =>
          let q := q.implRemove .suggested priority core a
          if toFront then q.implPushFront .scheduled priority core a
          else q.implPushBack .scheduled priority core a
        | none => q) L' ∧
      (∀ b kind p c, b ∈ L' kind p c ↔ (b ∈ L kind p c ∧ ¬ (b = a ∧ newCore = some c)) ∨
        (b = a ∧ newCore = some c ∧ kind = .scheduled ∧ p = priority ∧ priority ≤ lowestPriority)) ∧
      L'.Sorted before := by
  cases newCore with
  | none => exact ⟨L, h, by simp, hsorted⟩
  | some core =>
    have hremoved := h.implRemove (hsuggested core rfl)
    have hmem : ∀ b kind p c, b ∈ L.modify .suggested priority core (·.erase a) kind p c ↔
          b ∈ L kind p c ∧ ¬ (b = a ∧ some core = some c) := by
      intro b kind p c
      rw [Lists.mem_modify_erase h.nodup]
      refine and_congr_right fun hb => not_congr ?_
      constructor
      · rintro ⟨rfl, _, _, rfl, _⟩
        exact ⟨rfl, rfl⟩
      · rintro ⟨rfl, hc⟩
        obtain ⟨rfl, rfl⟩ := hat kind p c hb
        refine ⟨rfl, rfl, rfl, (Option.some.inj hc).symm, Nat.le_of_not_lt fun hlow => ?_⟩
        rw [h.unqueued _ _ _ hlow] at hb
        cases hb
    have hfree : ∀ kind p, a ∉ L.modify .suggested priority core (·.erase a) kind p core :=
      fun kind p hb => ((hmem a kind p core).mp hb).2 ⟨rfl, rfl⟩
    have hsorted' : (L.modify .suggested priority core (·.erase a)).Sorted before := by
      exact hsorted
    have hcomm : ∀ (kind : QueueKind) (p c : ℕ) (b : α), (b = a ∧ kind = .scheduled ∧
        p = priority ∧ c = core ∧ priority ≤ lowestPriority) ↔ (b = a ∧ some core = some c ∧
        kind = .scheduled ∧ p = priority ∧ priority ≤ lowestPriority) := by
      intro kind p c b
      rw [Option.some.injEq]
      tauto
    cases toFront with
    | true =>
      refine ⟨_, hremoved.implPushFront hfree, fun b kind p c => ?_,
        hsorted'.modify fun _ => hsorted'.cons (fun p c b hb => ?_) _ _⟩
      · rw [Lists.mem_modify_insert (a := a) (by simp [or_comm]), hmem, hcomm]
      · exact hplace p c b hb
    | false =>
      refine ⟨_, hremoved.implPushBack hfree, fun b kind p c => ?_,
        hsorted'.modify fun _ => hsorted'.append (fun p c b hb => ?_) _ _⟩
      · rw [Lists.mem_modify_insert (a := a) (by simp), hmem, hcomm]
      · exact hplace p c b hb

/-- The third part: the previous core becomes a suggestion. -/
theorem suggestPrevious (h : Represents q L) (hsorted : L.Sorted before) (priority : ℕ)
    {prevCore : Option ℕ} (hfree : ∀ c, prevCore = some c → ∀ kind p, a ∉ L kind p c) :
    ∃ L', Represents (match prevCore with
        | some core => q.implPushBack .suggested priority core a
        | none => q) L' ∧
      (∀ b kind p c, b ∈ L' kind p c ↔ b ∈ L kind p c ∨
        (b = a ∧ prevCore = some c ∧ kind = .suggested ∧ p = priority ∧
          priority ≤ lowestPriority)) ∧
      L'.Sorted before := by
  cases prevCore with
  | none => exact ⟨L, h, by simp, hsorted⟩
  | some core =>
    refine ⟨_, h.implPushBack (hfree core rfl), fun b kind p c => ?_,
      hsorted.modify QueueKind.noConfusion⟩
    rw [Lists.mem_modify_insert (a := a) (by simp), Option.some.injEq]
    tauto

/-- A member moves from its core to another one of its mask. -/
theorem changeCore (h : Ordered q members info before) (ha : a ∈ members) {m : QueueMember}
    (hm : m = { info a with activeCore := m.activeCore })
    (hprev : ∀ core, (info a).activeCore = some core → (info a).getAffinity core = true)
    (hnew : ∀ core, m.activeCore = some core → (info a).getAffinity core = true)
    (hne : (info a).activeCore ≠ m.activeCore)
    (hbefore : ∀ b ∈ members, b ≠ a → ∀ b' ∈ members, b' ≠ a → before b b' → before' b b')
    (hplace : ∀ b ∈ members, b ≠ a → if toFront then before' a b else before' b a) :
    Ordered (q.changeCore (info a).activeCore a m toFront) members
      (Function.update info a m) before' := by
  obtain ⟨L, hplaced, hsorted⟩ := h
  have hpriority : m.priority = (info a).priority := by rw [hm]
  have haffinity : m.getAffinity = (info a).getAffinity := by rw [hm]; rfl
  unfold KPriorityQueue.changeCore
  rw [if_pos hne, hpriority]
  obtain ⟨L₁, hrep₁, hmem₁, hsorted₁⟩ := leaveScheduled hplaced hsorted ha
  have hothers : ∀ p c, ∀ b ∈ L₁ .scheduled p c, b ∈ members ∧ b ≠ a := fun p c b hb =>
    have hb' := (hmem₁ b _ p c).mp hb
    ⟨(hplaced.mem_iff.mp hb'.1).1, fun heq => hb'.2 ⟨heq, rfl⟩⟩
  have hsorted₁' : L₁.Sorted before' := hsorted₁.imp_mem fun p c b hb b' hb' =>
    hbefore b (hothers p c b hb).1 (hothers p c b hb).2 b' (hothers p c b' hb').1
      (hothers p c b' hb').2
  have hat : ∀ kind p c, a ∈ L₁ kind p c ↔ kind = .suggested ∧ (info a).Wants kind p c := by
    intro kind p c
    rw [hmem₁, hplaced.mem_iff]
    cases kind with
    | scheduled => simp
    | suggested => simp [ha]
  obtain ⟨L₂, hrep₂, hmem₂, hsorted₂⟩ := enterScheduled hrep₁ hsorted₁'
    (fun kind p c hmem => ⟨((hat kind p c).mp hmem).1, ((hat kind p c).mp hmem).2.1⟩)
    (fun c hc hp => (hat _ _ c).mpr ⟨rfl, rfl, hp, hnew c hc, fun heq => hne (heq.trans hc.symm)⟩)
    fun p c b hb => hplace b (hothers p c b hb).1 (hothers p c b hb).2
  have hfree : ∀ c, (info a).activeCore = some c → ∀ kind p, a ∉ L₂ kind p c := by
    intro c hc kind p hmem
    rw [hmem₂, hat] at hmem
    obtain ⟨⟨rfl, _, _, _, hother⟩, _⟩ | ⟨_, hcore, _⟩ := hmem
    · exact hother hc
    · exact hne (hc.trans hcore.symm)
  obtain ⟨L₃, hrep₃, hmem₃, hsorted₃⟩ :=
    suggestPrevious hrep₂ hsorted₂ (info a).priority hfree
  refine ⟨L₃, { hrep₃ with mem_iff := fun {b kind p c} => ?_ }, hsorted₃⟩
  rw [hmem₃, hmem₂]
  by_cases hb : b = a
  · subst hb
    rw [hat, Function.update_self]
    simp only [true_and, ha]
    cases kind with
    | scheduled =>
      simp only [QueueMember.Wants, hpriority, reduceCtorEq, false_and, true_and, and_false,
        false_or, or_false]
      grind
    | suggested =>
      simp only [QueueMember.Wants, hpriority, haffinity, reduceCtorEq, true_and, and_false,
        false_and, or_false]
      have hold := hprev c
      have hleft : (info b).activeCore = some c → ¬ m.activeCore = some c := fun hcore heq =>
        hne (hcore.trans heq.symm)
      grind
  · rw [hmem₁, Function.update_of_ne hb, ← hplaced.mem_iff]
    simp [hb]

end Ordered

/-- Threads that are queued one after the other. -/
theorem Placed.foldl_pushBack [DecidableEq α] (h : Placed q members info L) {l : List α}
    (hnodup : l.Nodup) (hnew : ∀ a ∈ l, a ∉ members) :
    ∃ L', Placed (l.foldl (fun q a => q.pushBack a (info a)) q) (members ∪ {a | a ∈ l}) info
      L' := by
  induction l generalizing q members L with
  | nil => exact ⟨L, by simpa using h⟩
  | cons a l ih =>
    obtain ⟨hnot, hnodup⟩ := List.nodup_cons.mp hnodup
    have hpushed := h.pushBack (hnew a (.head _))
      (QueueMember.hasCores_coresOf (info a))
    rw [← pushBackAt_eq] at hpushed
    obtain ⟨L', hrest⟩ := ih hpushed hnodup fun b hb hmem => by
      obtain rfl | hmem := hmem
      · exact hnot hb
      · exact hnew b (.tail _ hb) hmem
    refine ⟨L', ?_⟩
    have hset : insert a members ∪ {b | b ∈ l} = members ∪ {b | b ∈ a :: l} := by
      ext b
      simp only [Set.mem_union, Set.mem_insert_iff, Set.mem_ofPred_eq, List.mem_cons]
      tauto
    rw [← hset]
    exact hrest

/-- `ChangeCore` without the order of the lists. -/
theorem Placed.changeCore [DecidableEq α] (h : Placed q members info L) (ha : a ∈ members)
    {m : QueueMember} {toFront : Bool} (hm : m = { info a with activeCore := m.activeCore })
    (hprev : ∀ core, (info a).activeCore = some core → (info a).getAffinity core = true)
    (hnew : ∀ core, m.activeCore = some core → (info a).getAffinity core = true)
    (hne : (info a).activeCore ≠ m.activeCore) :
    ∃ L', Placed (q.changeCore (info a).activeCore a m toFront) members
      (Function.update info a m) L' := by
  have hany : Ordered q members info fun _ _ => True := ⟨L, h, fun _ _ => List.pairwise_of_forall
    fun _ _ => trivial⟩
  have hmoved : Ordered (q.changeCore (info a).activeCore a m toFront) members
      (Function.update info a m) fun _ _ => True :=
    hany.changeCore ha hm hprev hnew hne (fun _ _ _ _ _ _ _ => trivial) fun _ _ _ => by
      cases toFront <;> trivial
  obtain ⟨L', hplaced, _⟩ := hmoved
  exact ⟨L', hplaced⟩

end KPriorityQueue

end Atmosphere.Kern
