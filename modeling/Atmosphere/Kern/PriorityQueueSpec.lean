import Atmosphere.Kern.PriorityQueue

/-!
# The lists of a priority queue

The links of a queue show one list for each kind, priority and core. Every operation
is described by what it does to the lists.
-/

namespace Atmosphere.Kern

open IntrusiveList BitScan

/-! ## Bit sets -/

namespace BitSet64

variable {s : BitSet64} {i j : ℕ}

theorem getMsbD_getBitMask (hi : i < 64) (hj : j < 64) :
    (getBitMask i).getMsbD j = decide (j = i) := by
  rw [getBitMask, BitVec.getMsbD_eq_getLsbD]
  by_cases hji : j = i
  · subst hji
    simp [hj]
    omega
  · by_cases hlt : 63 - j < 63 - i
    · simp [hj, hji, hlt]
    · have hne : 63 - j - (63 - i) ≠ 0 := by omega
      simp [hj, hji, hlt, hne]

theorem getMsbD_clearBit (hi : i < 64) (hj : j < 64) :
    (clearBit s i).getMsbD j = (s.getMsbD j && !decide (j = i)) := by
  rw [clearBit, BitVec.getMsbD_and, BitVec.getMsbD_not, getMsbD_getBitMask hi hj,
    decide_eq_true hj, Bool.true_and]

/-- The bits after `n` are those below its mask. -/
theorem getMsbD_pred_getBitMask {n : ℕ} (hn : n < 64) (hj : j < 64) :
    (getBitMask n - 1).getMsbD j = decide (n < j) := by
  have hmask : getBitMask n - 1 = BitVec.ofNat 64 (2 ^ (63 - n) - 1) := by
    apply BitVec.eq_of_toNat_eq
    have hlt : 2 ^ (63 - n) < 2 ^ 64 := Nat.pow_lt_pow_right (by decide) (by omega)
    have hpos : 0 < 2 ^ (63 - n) := Nat.two_pow_pos _
    have hnat : (getBitMask n).toNat = 2 ^ (63 - n) := by
      rw [getBitMask, BitVec.toNat_shiftLeft, Nat.shiftLeft_eq]
      change 1 * 2 ^ (63 - n) % 2 ^ 64 = 2 ^ (63 - n)
      rw [Nat.one_mul, Nat.mod_eq_of_lt hlt]
    rw [BitVec.toNat_sub_of_le, hnat, BitVec.toNat_ofNat, Nat.mod_eq_of_lt (by omega)]
    · rfl
    · rw [BitVec.le_def, hnat]
      exact hpos
  rw [hmask, BitVec.getMsbD_eq_getLsbD, BitVec.getLsbD_ofNat, Nat.testBit_two_pow_sub_one]
  simp only [hj, decide_true, Bool.true_and]
  rw [decide_eq_true (show 64 - 1 - j < 64 by omega)]
  exact decide_eq_decide.mpr (by omega)

end BitSet64

/-! ## Lists -/

/-- The members of each list. -/
abbrev Lists (α : Type*) := QueueKind → ℕ → ℕ → List α

namespace Lists

variable {α : Type*}

/-- Replaces one list. -/
def set (L : Lists α) (kind : QueueKind) (priority core : ℕ) (l : List α) : Lists α :=
  fun kind' priority' core' =>
    if kind' = kind ∧ priority' = priority ∧ core' = core then l else L kind' priority' core'

variable {L : Lists α} {kind kind' : QueueKind} {priority priority' core core' : ℕ} {l : List α}

@[simp] theorem set_same : L.set kind priority core l kind priority core = l :=
  if_pos ⟨rfl, rfl, rfl⟩

theorem set_of_ne (h : ¬ (kind' = kind ∧ priority' = priority ∧ core' = core)) :
    L.set kind priority core l kind' priority' core' = L kind' priority' core' := if_neg h

/-- Changes one list; there is none for the priority of the idle threads. -/
def modify (L : Lists α) (kind : QueueKind) (priority core : ℕ) (f : List α → List α) : Lists α :=
  fun kind' priority' core' =>
    if kind' = kind ∧ priority' = priority ∧ core' = core ∧ priority ≤ lowestPriority then
      f (L kind' priority' core')
    else L kind' priority' core'

/-- Changes the lists of one priority on several cores. -/
def modifyAll (L : Lists α) (kindOf : ℕ → QueueKind) (cores : List ℕ) (priority : ℕ)
    (f : List α → List α) : Lists α :=
  fun kind' priority' core' =>
    if core' ∈ cores ∧ kind' = kindOf core' ∧ priority' = priority ∧ priority ≤ lowestPriority then
      f (L kind' priority' core')
    else L kind' priority' core'

theorem modifyAll_cons {kindOf : ℕ → QueueKind} {f : List α → List α} {cores : List ℕ}
    (hcore : core ∉ cores) :
    L.modifyAll kindOf (core :: cores) priority f =
      (L.modify (kindOf core) priority core f).modifyAll kindOf cores priority f := by
  funext kind' priority' core'
  simp only [modifyAll, modify, List.mem_cons]
  by_cases hsame : core' = core
  · subst hsame
    simp only [true_or, true_and, hcore, false_and, if_false]
  · simp only [hsame, false_or, false_and, and_false, if_false]

variable {a b : α} {kindOf : ℕ → QueueKind} {cores : List ℕ}

/-- A list gets a member, at one of its ends. -/
theorem mem_modify_insert {f : List α → List α} (hf : ∀ l, b ∈ f l ↔ b ∈ l ∨ b = a) :
    b ∈ L.modify kind priority core f kind' priority' core' ↔ b ∈ L kind' priority' core' ∨
      b = a ∧ kind' = kind ∧ priority' = priority ∧ core' = core ∧ priority ≤ lowestPriority := by
  rw [modify]
  split_ifs with h
  · simp [h, hf]
  · simp [h]

theorem mem_modifyAll_append :
    b ∈ L.modifyAll kindOf cores priority (· ++ [a]) kind' priority' core' ↔
      b ∈ L kind' priority' core' ∨ b = a ∧ core' ∈ cores ∧ kind' = kindOf core' ∧
        priority' = priority ∧ priority ≤ lowestPriority := by
  rw [modifyAll]
  split_ifs with h <;> simp [h]

variable [DecidableEq α]

theorem mem_modify_erase (hnodup : (L kind' priority' core').Nodup) :
    b ∈ L.modify kind priority core (·.erase a) kind' priority' core' ↔
      b ∈ L kind' priority' core' ∧ ¬ (b = a ∧ kind' = kind ∧ priority' = priority ∧
        core' = core ∧ priority ≤ lowestPriority) := by
  rw [modify]
  split_ifs with h
  · rw [hnodup.mem_erase_iff]
    simp [h, and_comm]
  · simp [h]

theorem mem_modifyAll_erase (hnodup : (L kind' priority' core').Nodup) :
    b ∈ L.modifyAll kindOf cores priority (·.erase a) kind' priority' core' ↔
      b ∈ L kind' priority' core' ∧ ¬ (b = a ∧ core' ∈ cores ∧ kind' = kindOf core' ∧
        priority' = priority ∧ priority ≤ lowestPriority) := by
  rw [modifyAll]
  split_ifs with h
  · rw [hnodup.mem_erase_iff]
    simp [h, and_comm]
  · simp [h]

end Lists

namespace KPriorityQueue

variable {α : Type*} {q : KPriorityQueue α} {L : Lists α} {kind kind' : QueueKind}
  {priority priority' core core' : ℕ} {a : α}

/-- The links of the queue are those of the lists, and on one core a member is in one list
only. -/
structure Linked (q : KPriorityQueue α) (L : Lists α) : Prop where
  isList : ∀ kind priority core, priority ≤ lowestPriority →
    IsList (q.links kind priority core) (L kind priority core)
  apart : ∀ {kind kind' priority priority' core a}, a ∈ L kind priority core →
    a ∈ L kind' priority' core → kind = kind' ∧ priority = priority'
  unqueued : ∀ kind priority core, lowestPriority < priority → L kind priority core = []

/-- A priority is available on a core exactly when its list has a member. -/
def Available (q : KPriorityQueue α) (L : Lists α) : Prop :=
  ∀ kind core priority, priority ≤ lowestPriority →
    (((q.impl kind).availablePriorities core).getMsbD priority = true ↔ L kind priority core ≠ [])

/-- The queue has the given lists. -/
structure Represents (q : KPriorityQueue α) (L : Lists α) : Prop extends Linked q L where
  available : Available q L

theorem Represents.nodup (h : Represents q L) : (L kind priority core).Nodup := by
  by_cases hp : priority ≤ lowestPriority
  · exact (h.isList kind priority core hp).nodup
  · rw [h.unqueued kind priority core (by omega)]
    exact List.nodup_nil

theorem Represents.le_of_mem (h : Represents q L) (ha : a ∈ L kind priority core) :
    priority ≤ lowestPriority := by
  by_contra hlow
  rw [h.unqueued kind priority core (by omega)] at ha
  cases ha

theorem empty_represents (entries : α → ℕ → Entry α) :
    Represents (empty entries) fun _ _ _ => [] := by
  refine ⟨⟨fun _ _ _ _ => IsList.empty, fun h => absurd h List.not_mem_nil, fun _ _ _ _ => rfl⟩, ?_⟩
  intro kind core priority _
  rw [empty]
  simp

/-! ### Fields after an update -/

variable {c : Links α} {s : BitSet64} {l : List α} {m : QueueMember}

theorem links_setLinks_same : (q.setLinks kind priority core c).links kind priority core = c := by
  simp [links, setLinks]

theorem links_setLinks_root (h : ¬ (kind' = kind ∧ priority' = priority ∧ core' = core)) :
    ((q.setLinks kind priority core c).links kind' priority' core').root =
      (q.links kind' priority' core').root := by
  by_cases hk : kind' = kind
  · subst hk
    have hne : ¬ (priority' = priority ∧ core' = core) := fun hc => h ⟨rfl, hc⟩
    simp [links, setLinks, hne]
  · simp [links, setLinks, hk]

theorem available_setLinks :
    ((q.setLinks kind priority core c).impl kind').availablePriorities core' =
      (q.impl kind').availablePriorities core' := by
  by_cases hk : kind' = kind
  · subst hk
    simp [setLinks]
  · simp [setLinks, hk]

theorem available_setAvailable :
    ((q.setAvailable kind core s).impl kind').availablePriorities core' =
      if kind' = kind ∧ core' = core then s else (q.impl kind').availablePriorities core' := by
  by_cases hk : kind' = kind
  · subst hk
    simp [setAvailable]
  · simp [setAvailable, hk]

/-! ### One list is replaced -/

/-- A list is replaced by one that may have a new member, which no list of the core had. -/
theorem Linked.setLinks (h : Linked q L) (hp : priority ≤ lowestPriority) (hl : IsList c l)
    (hframe : ∀ b, b ∉ L kind priority core → b ∉ l → c.entry b = q.entries b core)
    (hnew : ∀ b ∈ l, b ∈ L kind priority core ∨ ∀ kind' priority', b ∉ L kind' priority' core) :
    Linked (q.setLinks kind priority core c) (L.set kind priority core l) := by
  have hout : ∀ {kind' priority'}, ¬ (kind' = kind ∧ priority' = priority) →
      ∀ b ∈ L kind' priority' core, b ∉ L kind priority core ∧ b ∉ l := by
    intro kind' priority' hne b hb
    have hnot : b ∉ L kind priority core := fun hb' => hne (h.apart hb hb')
    exact ⟨hnot, fun hbl => (hnew b hbl).elim hnot fun hfree => hfree kind' priority' hb⟩
  refine ⟨fun kind' priority' core' hp' => ?_, fun {kind₁ kind₂ p₁ p₂ core' b} h₁ h₂ => ?_,
    fun kind' priority' core' hlow => ?_⟩
  · by_cases hsame : kind' = kind ∧ priority' = priority ∧ core' = core
    · obtain ⟨rfl, rfl, rfl⟩ := hsame
      rw [links_setLinks_same, Lists.set_same]
      exact hl
    · rw [Lists.set_of_ne hsame]
      refine (h.isList kind' priority' core' hp').congr (links_setLinks_root hsame) fun b hb => ?_
      change (if core' = core then c.entry b else _) = _
      split
      · rename_i hcore
        subst hcore
        obtain ⟨hnot, hbl⟩ := hout (fun hc => hsame ⟨hc.1, hc.2, rfl⟩) b hb
        exact hframe b hnot hbl
      · rfl
  · by_cases hcore : core' = core
    · subst hcore
      have hset : ∀ {kind' p}, b ∈ L.set kind priority core' l kind' p core' →
          (kind' = kind ∧ p = priority) ∧ b ∈ l ∨ b ∈ L kind' p core' ∧ b ∉ l := by
        intro kind' p hb
        by_cases hs : kind' = kind ∧ p = priority
        · obtain ⟨rfl, rfl⟩ := hs
          exact .inl ⟨⟨rfl, rfl⟩, by rwa [Lists.set_same] at hb⟩
        · rw [Lists.set_of_ne fun hc => hs ⟨hc.1, hc.2.1⟩] at hb
          exact .inr ⟨hb, (hout hs b hb).2⟩
      obtain ⟨⟨rfl, rfl⟩, hb⟩ | ⟨hb, hnot⟩ := hset h₁ <;>
        obtain ⟨⟨rfl, rfl⟩, hb'⟩ | ⟨hb', hnot'⟩ := hset h₂
      · exact ⟨rfl, rfl⟩
      · exact absurd hb hnot'
      · exact absurd hb' hnot
      · exact h.apart hb hb'
    · rw [Lists.set_of_ne (fun hc => hcore hc.2.2)] at h₁ h₂
      exact h.apart h₁ h₂
  · rw [Lists.set_of_ne (fun hc => by omega)]
    exact h.unqueued kind' priority' core' hlow

theorem Linked.setAvailable (h : Linked q L) : Linked (q.setAvailable kind core s) L := by
  refine ⟨fun kind' priority' core' hp => ?_, h.apart, h.unqueued⟩
  have hlist := h.isList kind' priority' core' hp
  by_cases hk : kind' = kind
  · subst hk
    simpa [links, KPriorityQueue.setAvailable] using hlist
  · simpa [links, KPriorityQueue.setAvailable, hk] using hlist

section

variable (h : Represents q L)
  (hlinked : Linked (q.setLinks kind priority core c) (L.set kind priority core l))
include h hlinked

/-- A list is replaced and the bits of its core are written. -/
theorem Represents.writeBit
    (hbits : ∀ j ≤ lowestPriority, (s.getMsbD j = true ↔ if j = priority then l ≠ []
      else ((q.impl kind).availablePriorities core).getMsbD j = true)) :
    Represents ((q.setLinks kind priority core c).setAvailable kind core s)
      (L.set kind priority core l) := by
  refine ⟨hlinked.setAvailable, fun kind' core' j hj => ?_⟩
  rw [available_setAvailable, available_setLinks]
  by_cases hkc : kind' = kind ∧ core' = core
  · obtain ⟨rfl, rfl⟩ := hkc
    rw [if_pos ⟨rfl, rfl⟩, hbits j hj]
    by_cases hjp : j = priority
    · rw [if_pos hjp, hjp, Lists.set_same]
    · rw [if_neg hjp, Lists.set_of_ne fun hc => hjp hc.2.1]
      exact h.available kind' core' j hj
  · rw [if_neg hkc, Lists.set_of_ne fun hc => hkc ⟨hc.1, hc.2.2⟩]
    exact h.available kind' core' j hj

/-- A list is replaced by one that has members too. -/
theorem Represents.keepBit (hold : L kind priority core ≠ []) (hne : l ≠ []) :
    Represents (q.setLinks kind priority core c) (L.set kind priority core l) := by
  refine ⟨hlinked, fun kind' core' j hj => ?_⟩
  rw [available_setLinks, h.available kind' core' j hj]
  by_cases hsame : kind' = kind ∧ j = priority ∧ core' = core
  · obtain ⟨rfl, rfl, rfl⟩ := hsame
    rw [Lists.set_same]
    exact iff_of_true hold hne
  · rw [Lists.set_of_ne hsame]

end

/-! ### The operations on one list -/

/-- There is nothing to do for the priority of the idle threads. -/
theorem Represents.onList (h : Represents q L) {q' : KPriorityQueue α} {f : List α → List α}
    (hq : priority ≤ lowestPriority →
      Represents q' (L.set kind priority core (f (L kind priority core)))) :
    Represents (if priority ≤ lowestPriority then q' else q) (L.modify kind priority core f) := by
  split_ifs with hp
  · convert hq hp using 1
    funext kind' priority' core'
    by_cases hsame : kind' = kind ∧ priority' = priority ∧ core' = core
    · obtain ⟨rfl, rfl, rfl⟩ := hsame
      rw [Lists.set_same, Lists.modify, if_pos ⟨rfl, rfl, rfl, hp⟩]
    · rw [Lists.set_of_ne hsame]
      exact if_neg fun hc => hsame ⟨hc.1, hc.2.1, hc.2.2.1⟩
  · convert h using 1
    funext kind' priority' core'
    exact if_neg fun hc => hp hc.2.2.2

/-- A list gets a member and its bit is set if it had none. -/
theorem Represents.insert (h : Represents q L) (hp : priority ≤ lowestPriority) {wasEmpty : Bool}
    (hempty : wasEmpty = true ↔ L kind priority core = [])
    (hlinked : Linked (q.setLinks kind priority core c) (L.set kind priority core l))
    (hne : l ≠ []) : Represents
      (if wasEmpty then (q.setLinks kind priority core c).setAvailable kind core
        ((((q.setLinks kind priority core c).impl kind).availablePriorities core).setBit priority)
      else q.setLinks kind priority core c) (L.set kind priority core l) := by
  cases wasEmpty with
  | true =>
    refine h.writeBit hlinked fun j hj => ?_
    rw [available_setLinks, BitSet64.setBit, BitVec.getMsbD_or,
      BitSet64.getMsbD_getBitMask (Nat.lt_succ_of_le hp) (Nat.lt_succ_of_le hj)]
    by_cases hjp : j = priority
    · simp [hjp, hne]
    · simp [hjp]
  | false => exact h.keepBit hlinked (fun hnil => Bool.noConfusion (hempty.mpr hnil)) hne

variable [DecidableEq α]

/-- A member that no list of the core has goes to the end of a list. -/
theorem Represents.implPushBack (h : Represents q L) (hfree : ∀ kind' p, a ∉ L kind' p core) :
    Represents (q.implPushBack kind priority core a) (L.modify kind priority core (· ++ [a])) := by
  refine h.onList fun hp => ?_
  have hlist := h.isList kind priority core hp
  refine h.insert hp ?_ (h.setLinks hp (hlist.pushBack (hfree kind priority)) ?_ ?_) (by simp)
  · rw [Option.isNone_iff_eq_none, hlist.back,
      List.getLast?_eq_none_iff]
  · intro b hb hbl
    exact hlist.pushBack_entry hb fun heq => hbl (by simp [heq])
  · intro b hb
    refine (List.mem_append.mp hb).imp_right fun hba => ?_
    rw [List.mem_singleton.mp hba]
    exact hfree

/-- A member that no list of the core has goes to the front of a list. -/
theorem Represents.implPushFront (h : Represents q L) (hfree : ∀ kind' p, a ∉ L kind' p core) :
    Represents (q.implPushFront kind priority core a) (L.modify kind priority core (a :: ·)) := by
  refine h.onList fun hp => ?_
  have hlist := h.isList kind priority core hp
  refine h.insert hp ?_ (h.setLinks hp (hlist.pushFront (hfree kind priority)) ?_ ?_) (by simp)
  · rw [Option.isNone_iff_eq_none, hlist.root_next_eq_none]
  · intro b hb hbl
    exact hlist.pushFront_entry hb fun heq => hbl (by simp [heq])
  · intro b hb
    refine (List.mem_cons.mp hb).symm.imp_right fun hba => ?_
    rw [hba]
    exact hfree

section

variable (h : Represents q L) (hmem : priority ≤ lowestPriority → a ∈ L kind priority core)
include h hmem

/-- A member of a list leaves it. -/
theorem Represents.implRemove : Represents (q.implRemove kind priority core a)
      (L.modify kind priority core (·.erase a)) := by
  refine h.onList fun hp => ?_
  have hlist := h.isList kind priority core hp
  have hremoved := hlist.remove (hmem hp)
  have hlinked : Linked (q.setLinks kind priority core ((q.links kind priority core).remove a))
      (L.set kind priority core ((L kind priority core).erase a)) :=
    h.setLinks hp hremoved (fun b hb _ => hlist.remove_entry (hmem hp) hb)
      fun b hb => .inl (List.mem_of_mem_erase hb)
  have hempty : (((q.links kind priority core).remove a).root.next.isNone = true) ↔
      (L kind priority core).erase a = [] := by
    rw [Option.isNone_iff_eq_none, hremoved.root_next_eq_none]
  dsimp only
  split_ifs with hnone
  · refine h.writeBit hlinked fun j hj => ?_
    rw [available_setLinks, BitSet64.getMsbD_clearBit (Nat.lt_succ_of_le hp) (Nat.lt_succ_of_le hj)]
    by_cases hjp : j = priority
    · simp [hjp, hempty.mp hnone]
    · simp [hjp]
  · exact h.keepBit hlinked (List.ne_nil_of_mem (hmem hp)) fun hnil => hnone (hempty.mpr hnil)

/-- A member of a list goes to its end. -/
theorem Represents.implMoveToBack : Represents (q.implMoveToBack kind priority core a)
      (L.modify kind priority core (·.erase a ++ [a])) := by
  refine h.onList fun hp => ?_
  have hlist := h.isList kind priority core hp
  have hremoved := hlist.remove (hmem hp)
  have hnot : a ∉ (L kind priority core).erase a := hlist.nodup.not_mem_erase
  refine h.keepBit (h.setLinks hp (hremoved.pushBack hnot) ?_ ?_) (List.ne_nil_of_mem (hmem hp))
    (by simp)
  · intro b hb hbl
    have hba : b ≠ a := fun heq => hbl (by simp [heq])
    rw [hremoved.pushBack_entry (fun hmem' => hb (List.mem_of_mem_erase hmem')) hba,
      hlist.remove_entry (hmem hp) hb]
    rfl
  · intro b hb
    refine .inl ((List.mem_append.mp hb).elim List.mem_of_mem_erase fun hba => ?_)
    exact List.mem_singleton.mp hba ▸ hmem hp

end

/-! ### The operations on several cores -/

variable {kindOf : ℕ → QueueKind} {cores : List ℕ}

omit [DecidableEq α] in
/-- One list of each core changes. -/
theorem Represents.foldl_modify {op : KPriorityQueue α → ℕ → KPriorityQueue α}
    {f : List α → List α} (h : Represents q L) (hnodup : cores.Nodup)
    (hop : ∀ {q' L'}, ∀ core ∈ cores, Represents q' L' →
      (∀ kind p, L' kind p core = L kind p core) →
      Represents (op q' core) (L'.modify (kindOf core) priority core f)) :
    Represents (cores.foldl op q) (L.modifyAll kindOf cores priority f) := by
  induction cores generalizing q L with
  | nil =>
    exact h
  | cons core cores ih =>
    obtain ⟨hnot, hnodup⟩ := List.nodup_cons.mp hnodup
    rw [Lists.modifyAll_cons hnot]
    refine ih (hop core (.head _) h fun _ _ => rfl) hnodup fun c hc h' hsame => ?_
    have hne : c ≠ core := ne_of_mem_of_not_mem hc hnot
    refine hop c (.tail _ hc) h' fun kind p => ?_
    rw [hsame, Lists.modify, if_neg fun hc' => hne hc'.2.2.1]

theorem Represents.foldl_implPushBack (h : Represents q L) (hnodup : cores.Nodup)
    (hfree : ∀ core ∈ cores, ∀ kind p, a ∉ L kind p core) :
    Represents (cores.foldl (fun q core => q.implPushBack (kindOf core) priority core a) q)
      (L.modifyAll kindOf cores priority (· ++ [a])) := by
  refine h.foldl_modify hnodup fun core hcore h' hsame => h'.implPushBack fun kind p => ?_
  rw [hsame]
  exact hfree core hcore kind p

/-- The cores for which a member is queued. -/
def coresOf (m : QueueMember) : List ℕ := m.activeCore.toList ++ bits (otherCores m)

theorem mem_coresOf : core ∈ coresOf m ↔ m.activeCore = some core ∨ m.getAffinity core = true := by
  rw [coresOf, List.mem_append, Option.mem_toList, mem_bits, otherCores, QueueMember.getAffinity]
  cases hactive : m.activeCore with
  | none => simp
  | some active =>
    rw [getLsbD_clearBit]
    by_cases hcore : core = active <;> simp [hcore]

theorem nodup_coresOf (m : QueueMember) : (coresOf m).Nodup := by
  rw [coresOf, otherCores]
  cases hactive : m.activeCore with
  | none => exact nodup_bits _
  | some active =>
    refine List.nodup_cons.mpr ⟨fun hmem => ?_, nodup_bits _⟩
    have hbit := mem_bits.mp hmem
    simp [getLsbD_clearBit] at hbit

omit [DecidableEq α] in
/-- The loop over the cores without the active one. -/
theorem forBits_otherCores (f : QueueKind → ℕ → KPriorityQueue α → KPriorityQueue α) :
    forBits (f .suggested) 64 (otherCores m) q =
      (bits (otherCores m)).foldl (fun q core => f (kindOn m.activeCore core) core q) q := by
  rw [forBits_eq_foldl (length_bits_le _)]
  refine List.foldl_ext _ _ _ fun q core hcore => ?_
  have hne : m.activeCore ≠ some core := by
    intro hactive
    rw [mem_bits, otherCores, hactive] at hcore
    simp [getLsbD_clearBit] at hcore
  rw [kindOn, if_neg hne]

omit [DecidableEq α] in
/-- The active core comes first. -/
theorem forBits_coresOf (f : QueueKind → ℕ → KPriorityQueue α → KPriorityQueue α) :
    forBits (f .suggested) 64 (otherCores m) (match m.activeCore with
      | some core => f .scheduled core q
      | none => q) = (coresOf m).foldl (fun q core => f (kindOn m.activeCore core) core q) q := by
  rw [forBits_otherCores f, coresOf]
  cases hactive : m.activeCore with
  | none => rfl
  | some active => simp [kindOn]

theorem pushBackAt_eq : q.pushBackAt priority a m = (coresOf m).foldl
      (fun q core => q.implPushBack (kindOn m.activeCore core) priority core a) q :=
  forBits_coresOf fun kind core q => q.implPushBack kind priority core a

theorem removeAt_eq : q.removeAt priority a m = (coresOf m).foldl
      (fun q core => q.implRemove (kindOn m.activeCore core) priority core a) q :=
  forBits_coresOf fun kind core q => q.implRemove kind priority core a

/-- The lists to leave do not depend on the priority that the member has by then. -/
theorem removeAt_withPriority {p : ℕ} :
    q.removeAt priority a { m with priority := p } = q.removeAt priority a m := rfl

theorem changePriority_running :
    q.changePriority priority true a m = (q.removeAt priority a m).pushFrontAt m.priority a m := by
  rw [changePriority, if_pos rfl]

theorem changePriority_waiting :
    q.changePriority priority false a m = (q.removeAt priority a m).pushBackAt m.priority a m := by
  rw [changePriority, if_neg Bool.false_ne_true]

/-- `PushFront` puts the member in front of one list only. -/
theorem pushFrontAt_eq : q.pushFrontAt priority a m = (bits (otherCores m)).foldl
      (fun q core => q.implPushBack (kindOn m.activeCore core) priority core a)
      (match m.activeCore with
      | some core => q.implPushFront .scheduled priority core a
      | none => q) := by
  rewrite [pushFrontAt, forBits_otherCores fun kind core q => q.implPushBack kind priority core a]
  rfl

/-! ### The fronts -/

omit [DecidableEq α]

variable (h : Represents q L)
include h

/-- The first priority of a set is the first list with a member. -/
theorem Represents.first_available {n : ℕ}
    (hset : ∀ j ≤ lowestPriority, s.getMsbD j = true ↔ n ≤ j ∧ L kind j core ≠ []) :
    (∃ l a, s.countLeadingZero ≤ lowestPriority ∧ n ≤ s.countLeadingZero ∧
      L kind s.countLeadingZero core = a :: l ∧
      ((q.impl kind).queues s.countLeadingZero core).next = some a ∧
      ∀ j, n ≤ j → j < s.countLeadingZero → L kind j core = []) ∨
    (lowestPriority < s.countLeadingZero ∧ ∀ j, n ≤ j → L kind j core = []) := by
  have hempty : ∀ j ≤ lowestPriority, n ≤ j → s.getMsbD j = false → L kind j core = [] := by
    intro j hj hn hbit
    by_contra hne
    rw [(hset j hj).mpr ⟨hn, hne⟩] at hbit
    cases hbit
  obtain ⟨hlt, hbit, hmin⟩ | ⟨hall, hnone⟩ := first_spec s.getMsbD 64
  · refine .inl ?_
    have hp : s.countLeadingZero ≤ lowestPriority := Nat.le_of_lt_succ hlt
    obtain ⟨hn, hne⟩ := (hset _ hp).mp hbit
    obtain ⟨a, l, hl⟩ := List.exists_cons_of_ne_nil hne
    have hfront := (h.isList kind s.countLeadingZero core hp).front
    rw [hl] at hfront
    exact ⟨l, a, hp, hn, hl, hfront, fun j hn hj => hempty j (by omega) hn (hmin j hj)⟩
  · refine .inr ⟨?_, fun j hn => ?_⟩
    · change s.countLeadingZero = 64 at hall
      rw [hall]
      decide
    · by_cases hj : j ≤ lowestPriority
      · exact hempty j hj hn (hnone j (Nat.lt_succ_of_le hj))
      · exact h.unqueued kind j core (by omega)

/-- The front of a core is the head of its first list with a member. -/
theorem Represents.getFront (kind : QueueKind) (core : ℕ) :
    (∃ p l a, q.getFront kind core = some a ∧ L kind p core = a :: l ∧
      ∀ j < p, L kind j core = []) ∨
    (q.getFront kind core = none ∧ ∀ p, L kind p core = []) := by
  have hset : ∀ j ≤ lowestPriority, ((q.impl kind).availablePriorities core).getMsbD j = true ↔
      0 ≤ j ∧ L kind j core ≠ [] := fun j hj =>
    (h.available kind core j hj).trans (by simp)
  rw [KPriorityQueue.getFront]
  obtain ⟨l, a, hp, _, hl, hnext, hmin⟩ | ⟨hp, hnone⟩ := h.first_available hset
  · rw [if_pos hp, hnext]
    exact .inl ⟨_, l, a, rfl, hl, fun j hj => hmin j (Nat.zero_le _) hj⟩
  · rw [if_neg (by omega)]
    exact .inr ⟨rfl, fun j => hnone j (Nat.zero_le _)⟩

/-- The next member is the next one of its list, or the head of the next list. -/
theorem Represents.getNext {l₁ l₂ : List α} (hl : L kind priority core = l₁ ++ a :: l₂) :
    (∃ l b, l₂ = b :: l ∧ q.getNext kind core a priority = some b) ∨
    (l₂ = [] ∧ ∃ p l b, priority < p ∧ L kind p core = b :: l ∧
      q.getNext kind core a priority = some b ∧ ∀ j, priority < j → j < p → L kind j core = []) ∨
    (l₂ = [] ∧ q.getNext kind core a priority = none ∧ ∀ j, priority < j → L kind j core = []) := by
  have ha : a ∈ L kind priority core := by simp [hl]
  have hp : priority ≤ lowestPriority := h.le_of_mem ha
  have hentry : (q.entries a core).next = l₂.head? := by
    have hlist := h.isList kind priority core hp
    rw [hl] at hlist
    exact congrArg Entry.next hlist.entry_eq
  rw [KPriorityQueue.getNext, hentry]
  cases l₂ with
  | cons b l => exact .inl ⟨l, b, rfl, rfl⟩
  | nil =>
    refine .inr ?_
    simp only [List.head?_nil, true_and]
    by_cases hlast : priority + 1 < 64
    · have hset : ∀ j ≤ lowestPriority, ((((q.impl kind).availablePriorities core) &&&
            (BitSet64.getBitMask priority - 1) : BitSet64)).getMsbD j = true ↔
          priority + 1 ≤ j ∧ L kind j core ≠ [] := by
        intro j hj
        rw [BitVec.getMsbD_and, BitSet64.getMsbD_pred_getBitMask (by omega)
          (Nat.lt_succ_of_le hj), Bool.and_eq_true, h.available kind core j hj, decide_eq_true_eq,
          and_comm]
        rfl
      rw [BitSet64.getNextSet, if_pos hlast]
      obtain ⟨l, b, hp', hn, hl', hnext, hmin⟩ | ⟨hp', hnone⟩ := h.first_available hset
      · refine .inl ⟨_, l, b, hn, hl', ?_, hmin⟩
        exact (if_pos hp').trans hnext
      · exact .inr ⟨if_neg (Nat.not_le.mpr hp'), hnone⟩
    · rw [BitSet64.getNextSet, if_neg hlast]
      exact .inr ⟨rfl, fun j hj => h.unqueued kind j core (by rw [lowestPriority]; omega)⟩

end KPriorityQueue

/-! ## The order of a core -/

namespace Lists

variable {α : Type*} {L : Lists α} {kind : QueueKind} {core n p : ℕ} {a : α}

/-- The members on a core from a priority on, best priority first. -/
def inOrderFrom (L : Lists α) (kind : QueueKind) (core n : ℕ) : List α :=
  (List.range' n (lowestPriority + 1 - n)).flatMap fun priority => L kind priority core

/-- The members on a core, best priority first. -/
def inOrder (L : Lists α) (kind : QueueKind) (core : ℕ) : List α := L.inOrderFrom kind core 0

theorem mem_inOrderFrom :
    a ∈ L.inOrderFrom kind core n ↔ ∃ p, n ≤ p ∧ p ≤ lowestPriority ∧ a ∈ L kind p core := by
  simp only [inOrderFrom, List.mem_flatMap, List.mem_range'_1, ← and_assoc]
  exact exists_congr fun p => and_congr_left fun _ => by omega

theorem inOrderFrom_eq (hn : n ≤ lowestPriority) :
    L.inOrderFrom kind core n = L kind n core ++ L.inOrderFrom kind core (n + 1) := by
  have hlen : lowestPriority + 1 - n = lowestPriority + 1 - (n + 1) + 1 := by omega
  rw [inOrderFrom, hlen]
  rfl

theorem inOrderFrom_of_lt (hn : lowestPriority < n) : L.inOrderFrom kind core n = [] := by
  have hlen : lowestPriority + 1 - n = 0 := by omega
  rw [inOrderFrom, hlen]
  rfl

theorem inOrderFrom_eq_nil (h : ∀ p, n ≤ p → L kind p core = []) :
    L.inOrderFrom kind core n = [] := by
  rw [List.eq_nil_iff_forall_not_mem]
  intro a ha
  obtain ⟨p, hp, _, ha⟩ := mem_inOrderFrom.mp ha
  rw [h p hp] at ha
  cases ha

/-- Lists without members can be skipped. -/
theorem inOrderFrom_of_empty (hp : p ≤ lowestPriority) (hnp : n ≤ p)
    (hempty : ∀ j, n ≤ j → j < p → L kind j core = []) :
    L.inOrderFrom kind core n = L.inOrderFrom kind core p := by
  induction p, hnp using Nat.le_induction with
  | base => rfl
  | succ p hnp ih =>
    rw [ih (by omega) fun j hj hjp => hempty j hj (by omega), inOrderFrom_eq (by omega),
      hempty p hnp (by omega), List.nil_append]

/-- The members before those of a priority. -/
theorem exists_inOrder_eq (L : Lists α) (kind : QueueKind) (core p : ℕ) :
    ∃ l, L.inOrder kind core = l ++ L.inOrderFrom kind core p := by
  induction p with
  | zero => exact ⟨[], rfl⟩
  | succ p ih =>
    obtain ⟨l, hl⟩ := ih
    by_cases hp : p ≤ lowestPriority
    · refine ⟨l ++ L kind p core, ?_⟩
      rw [hl, inOrderFrom_eq hp, List.append_assoc]
    · refine ⟨l, ?_⟩
      rw [hl, inOrderFrom_of_lt (by omega), inOrderFrom_of_lt (by omega)]

end Lists

namespace KPriorityQueue

variable {α : Type*} {q : KPriorityQueue α} {L : Lists α} {kind : QueueKind} {priority core : ℕ}
  {a : α}

variable (h : Represents q L)
include h

theorem Represents.nodup_inOrder : (L.inOrder kind core).Nodup := by
  refine List.nodup_flatMap.mpr ⟨fun p _ => h.nodup, ?_⟩
  refine (List.nodup_range').imp fun hne => ?_
  exact fun a ha ha' => hne (h.apart ha ha').2

theorem Represents.getFront_eq : q.getFront kind core = (L.inOrder kind core).head? := by
  obtain ⟨p, l, a, hfront, hl, hempty⟩ | ⟨hfront, hempty⟩ := h.getFront kind core
  · have hp : p ≤ lowestPriority := h.le_of_mem (hl ▸ List.mem_cons_self ..)
    rw [hfront, Lists.inOrder, Lists.inOrderFrom_of_empty hp (Nat.zero_le p) fun j _ hj =>
      hempty j hj, Lists.inOrderFrom_eq hp, hl]
    rfl
  · rw [hfront, Lists.inOrder, Lists.inOrderFrom_eq_nil fun p _ => hempty p]
    rfl

theorem Represents.getNext_eq {l₁ l₂ : List α} (horder : L.inOrder kind core = l₁ ++ a :: l₂)
    (ha : a ∈ L kind priority core) : q.getNext kind core a priority = l₂.head? := by
  have hp : priority ≤ lowestPriority := h.le_of_mem ha
  obtain ⟨m₁, m₂, hlist⟩ := List.append_of_mem ha
  obtain ⟨l, hl⟩ := L.exists_inOrder_eq kind core priority
  have hnodup : (L.inOrder kind core).Nodup := h.nodup_inOrder
  have hrest : l₂ = m₂ ++ L.inOrderFrom kind core (priority + 1) := by
    rw [Lists.inOrderFrom_eq hp, hlist, List.append_assoc,
      ← List.append_assoc, horder] at hl
    rw [horder, List.nodup_append, List.nodup_cons] at hnodup
    have hnot : a ∉ l₁ := fun hmem => hnodup.2.2 a hmem a (.head _) rfl
    exact ((List.append_cons_inj_of_notMem hnot hnodup.2.1.1).mp hl).2.2
  rw [hrest]
  obtain ⟨l', b, hb, hnext⟩ | ⟨hnil, p, l', b, hlt, hb, hnext, hempty⟩ | ⟨hnil, hnext, hempty⟩ :=
    h.getNext hlist
  · rw [hnext, hb]
    rfl
  · have hp' : p ≤ lowestPriority := h.le_of_mem (hb ▸ List.mem_cons_self ..)
    rw [hnext, hnil, Lists.inOrderFrom_of_empty hp' hlt fun j h₁ h₂ =>
      hempty j h₁ h₂, Lists.inOrderFrom_eq hp', hb]
    rfl
  · rw [hnext, hnil, Lists.inOrderFrom_eq_nil hempty]
    rfl

end KPriorityQueue

end Atmosphere.Kern
