import Atmosphere.Kern.PriorityInheritance

/-!
# Waiter lists and the priorities they give

The waiter lists are described apart from the priorities: a list operation keeps the lists
in order, and `RestorePriority` repairs one wrong priority after the other.
-/

namespace Atmosphere.Kern

open Finset

section InsertBefore

variable {α : Type} {later : α → Bool} {a : α} {l : List α}

theorem perm_insertBefore : (insertBefore later a l).Perm (a :: l) := by
  induction l with
  | nil => exact List.Perm.refl _
  | cons x l ih =>
    rw [insertBefore]
    split
    · exact List.Perm.refl _
    · exact (ih.cons x).trans (List.Perm.swap a x l)

theorem mem_insertBefore {b : α} : b ∈ insertBefore later a l ↔ b = a ∨ b ∈ l := by
  rw [perm_insertBefore.mem_iff, List.mem_cons]

/-- The new element goes behind those that are not later. -/
theorem pairwise_insertBefore {r : α → α → Prop} (hl : l.Pairwise r)
    (hlater : ∀ x ∈ l, later x = true → r a x) (hnot : ∀ x ∈ l, later x = false → r x a)
    (hmono : ∀ x ∈ l, ∀ y ∈ l, r x y → later x = true → later y = true) :
    (insertBefore later a l).Pairwise r := by
  induction l with
  | nil => exact List.pairwise_singleton _ _
  | cons x l ih =>
    obtain ⟨hx, hl⟩ := List.pairwise_cons.mp hl
    have hsub : ∀ {y}, y ∈ l → y ∈ x :: l := List.mem_cons_of_mem x
    rw [insertBefore]
    split
    · rename_i hlx
      refine List.pairwise_cons.mpr ⟨fun y hy => hlater y hy ?_, List.pairwise_cons.mpr ⟨hx, hl⟩⟩
      obtain rfl | hy := List.mem_cons.mp hy
      · exact hlx
      · exact hmono x (.head _) y (hsub hy) (hx y hy) hlx
    · rename_i hlx
      refine List.pairwise_cons.mpr ⟨fun y hy => ?_, ih hl (fun y hy => hlater y (hsub hy))
        (fun y hy => hnot y (hsub hy)) fun y hy z hz => hmono y (hsub hy) z (hsub hz)⟩
      obtain rfl | hy := mem_insertBefore.mp hy
      · exact hnot x (.head _) (Bool.not_eq_true _ ▸ hlx)
      · exact hx y hy

theorem sublist_insertBefore {m : List α} (hm : m.Sublist l)
    (hl : l.Pairwise fun x y => later x = true → later y = true)
    (hnot : ∀ x ∈ m, later x = false) : (m ++ [a]).Sublist (insertBefore later a l) := by
  induction hm with
  | slnil => exact List.Sublist.refl _
  | @cons m l y hm ih =>
    obtain ⟨hy, hl⟩ := List.pairwise_cons.mp hl
    rw [insertBefore]
    split_ifs with hlater
    · cases m with
      | nil => simp
      | cons x m => cases (hnot x (.head _)).symm.trans (hy x (hm.mem (.head _)) hlater)
    · exact (ih hl hnot).cons y
  | @cons_cons m l y hm ih =>
    rw [insertBefore, if_neg (by simp [hnot y (.head _)])]
    exact (ih (List.pairwise_cons.mp hl).2 fun x hx => hnot x (.tail _ hx)).cons_cons y

end InsertBefore

namespace Threads

variable {α : Type} {s s' : Threads α} {owner thread t : α} {v c : ℤ}

/-- The order of a waiter list: by priority, and then by the order in which the threads were
inserted. -/
def Before (s : Threads α) (a b : α) : Prop :=
  (s.thread a).priority < (s.thread b).priority ∨
    (s.thread a).priority = (s.thread b).priority ∧ (s.thread a).arrival < (s.thread b).arrival

/-- The thread waits for an address of the kernel. -/
def isKernelWaiter (s : Threads α) (t : α) : Bool := isKernelAddressKey (s.thread t).addressKey

/-- The waiter lists are in order and agree with the owners and the counts. -/
structure Waiting (s : Threads α) : Prop where
  mem_iff : ∀ t owner, t ∈ (s.thread owner).waiterList ↔ (s.thread t).lockOwner = some owner
  sorted : ∀ owner, (s.thread owner).waiterList.Pairwise s.Before
  arrived : ∀ t, (s.thread t).lockOwner.isSome = true → (s.thread t).arrival < s.clock
  count : ∀ owner, (s.thread owner).numKernelWaiters =
    ((s.thread owner).waiterList.countP s.isKernelWaiter : ℤ)
  apart : ∀ t, (s.thread t).lockOwner ≠ some t

theorem Waiting.nodup (h : s.Waiting) (owner : α) : (s.thread owner).waiterList.Nodup := by
  refine (h.sorted owner).imp ?_
  rintro a b hab rfl
  exact hab.elim (lt_irrefl _) fun h => lt_irrefl _ h.2

theorem Waiting.sorted_le (h : s.Waiting) (owner : α) : (s.thread owner).waiterList.Pairwise
    fun a b => (s.thread a).priority ≤ (s.thread b).priority :=
  (h.sorted owner).imp fun hab => hab.elim le_of_lt fun heq => heq.1.le

/-- Nothing but the waiter lists and what belongs to them is different. -/
structure OnlyWaiting (s s' : Threads α) : Prop where
  tree : s'.tree = s.tree
  thread : ∀ t, s'.thread t = { s.thread t with
      lockOwner := (s'.thread t).lockOwner
      waiterList := (s'.thread t).waiterList
      numKernelWaiters := (s'.thread t).numKernelWaiters
      arrival := (s'.thread t).arrival }

theorem OnlyWaiting.refl (s : Threads α) : OnlyWaiting s s := ⟨rfl, fun _ => rfl⟩

section

variable (h : OnlyWaiting s s')
include h

theorem OnlyWaiting.trans {s'' : Threads α} (h' : OnlyWaiting s' s'') : OnlyWaiting s s'' := by
  refine ⟨h'.tree.trans h.tree, fun t => ?_⟩
  rw [h'.thread t, h.thread t]

theorem OnlyWaiting.priority (t : α) :
    (s'.thread t).priority = (s.thread t).priority := by rw [h.thread t]

theorem OnlyWaiting.basePriority (t : α) :
    (s'.thread t).basePriority = (s.thread t).basePriority := by rw [h.thread t]

theorem OnlyWaiting.addressKey (t : α) :
    (s'.thread t).addressKey = (s.thread t).addressKey := by rw [h.thread t]

theorem isKernelWaiter_of_onlyWaiting : s'.isKernelWaiter = s.isKernelWaiter := by
  funext t
  rw [isKernelWaiter, isKernelWaiter, h.addressKey]

end

/-- Kernel waiters are counted by their owners. -/
def Counted (s : Threads α) : Prop := ∀ t owner, (s.thread t).lockOwner = some owner →
  s.isKernelWaiter t = true → 0 < (s.thread owner).numKernelWaiters

theorem Waiting.counted (h : s.Waiting) : s.Counted := by
  intro t owner hmem hkernel
  rw [h.count owner]
  exact_mod_cast List.countP_pos_iff.mpr ⟨t, (h.mem_iff t owner).mpr hmem, hkernel⟩

theorem Waiting.count_nonneg (h : s.Waiting) (owner : α) :
    0 ≤ (s.thread owner).numKernelWaiters := by
  rw [h.count owner]
  exact Int.natCast_nonneg _

/-- The lists depend on some fields of the threads that wait only. -/
theorem Waiting.congr (h : s.Waiting) (hclock : s'.clock = s.clock)
    (hlist : ∀ x, (s'.thread x).lockOwner = (s.thread x).lockOwner ∧
      (s'.thread x).waiterList = (s.thread x).waiterList ∧
      (s'.thread x).numKernelWaiters = (s.thread x).numKernelWaiters)
    (hsame : ∀ x, (s.thread x).lockOwner.isSome = true →
      (s'.thread x).priority = (s.thread x).priority ∧
      (s'.thread x).arrival = (s.thread x).arrival ∧
      (s'.thread x).addressKey = (s.thread x).addressKey) : s'.Waiting := by
  have hwaits : ∀ o, ∀ x ∈ (s.thread o).waiterList, (s.thread x).lockOwner.isSome = true :=
    fun o x hx => by rw [(h.mem_iff x o).mp hx, Option.isSome_some]
  refine ⟨fun x o => ?_, fun o => ?_, fun x hx => ?_, fun o => ?_, fun x => ?_⟩
  · rw [(hlist o).2.1, (hlist x).1, h.mem_iff]
  · rw [(hlist o).2.1]
    refine (h.sorted o).imp_of_mem fun {a b} ha hb hab => ?_
    obtain ⟨ha, ha', _⟩ := hsame a (hwaits o a ha)
    obtain ⟨hb, hb', _⟩ := hsame b (hwaits o b hb)
    rw [Before, ha, ha', hb, hb']
    exact hab
  · rw [(hlist x).1] at hx
    rw [(hsame x hx).2.1, hclock]
    exact h.arrived x hx
  · rw [(hlist o).2.1, (hlist o).2.2, h.count o]
    refine congrArg Nat.cast (List.countP_congr fun x hx => ?_)
    rw [isKernelWaiter, isKernelWaiter, (hsame x (hwaits o x hx)).2.2]
  · rw [(hlist x).1]
    exact h.apart x

/-! ### The priority of a thread -/

theorem le_foldr_min {b : ℤ} {l : List ℤ} : c ≤ l.foldr min b ↔ c ≤ b ∧ ∀ x ∈ l, c ≤ x := by
  induction l with
  | nil => simp
  | cons x l ih =>
    rw [List.foldr_cons, le_min_iff, ih, List.forall_mem_cons]
    exact and_left_comm

/-- The minimum of the base priority and the priorities of the waiters. -/
def inherited (s : Threads α) (t : α) : ℤ :=
  ((s.thread t).waiterList.map fun w => (s.thread w).priority).foldr min (s.thread t).basePriority

/-- The thread runs with the priority it inherits. -/
def Inherits (s : Threads α) (t : α) : Prop := (s.thread t).priority = s.inherited t

theorem le_inherited_iff : c ≤ s.inherited t ↔
    c ≤ (s.thread t).basePriority ∧ ∀ w ∈ (s.thread t).waiterList, c ≤ (s.thread w).priority := by
  rw [inherited, le_foldr_min, List.forall_mem_map]

/-- The first waiter has the best priority. -/
theorem Waiting.restoredPriority_eq (h : s.Waiting) (t : α) :
    s.restoredPriority t = s.inherited t := by
  refine eq_of_forall_le_iff fun c => ?_
  rw [le_inherited_iff]
  unfold restoredPriority
  cases hlist : (s.thread t).waiterList with
  | nil => simp
  | cons w l =>
    have hsorted := h.sorted_le t
    rw [hlist] at hsorted
    simp only [le_min_iff, List.forall_mem_cons]
    refine and_congr_right fun _ => ⟨fun hw => ⟨hw, fun x hx => hw.trans ?_⟩, fun hc => hc.1⟩
    exact List.rel_of_pairwise_cons hsorted hx

theorem Waiting.le_inherited_iff (h : s.Waiting) : c ≤ s.inherited t ↔
    c ≤ (s.thread t).basePriority ∧
      ∀ w, (s.thread w).lockOwner = some t → c ≤ (s.thread w).priority := by
  rw [Threads.le_inherited_iff]
  simp only [h.mem_iff]

/-- The inherited priority depends on the base priority and the waiters only. -/
theorem inherited_congr (h : s.Waiting) (h' : s'.Waiting)
    (hbase : (s'.thread t).basePriority = (s.thread t).basePriority)
    (howner : ∀ w, (s'.thread w).lockOwner = some t ↔ (s.thread w).lockOwner = some t)
    (hpriority : ∀ w, (s.thread w).lockOwner = some t →
      (s'.thread w).priority = (s.thread w).priority) : s'.inherited t = s.inherited t := by
  refine eq_of_forall_le_iff fun c => ?_
  rw [h'.le_inherited_iff, h.le_inherited_iff, hbase]
  refine and_congr_right fun _ => forall_congr' fun w => ?_
  rw [howner w]
  exact imp_congr_right fun hw => by rw [hpriority w hw]

/-- The tree holds the threads that say so. -/
structure TreeOk (s : Threads α) : Prop where
  nodup : s.tree.Nodup
  mem_iff : ∀ t, t ∈ s.tree ↔ (s.thread t).condvarTree = true

theorem TreeOk.congr (h : s.TreeOk) (htree : s'.tree = s.tree)
    (hflag : ∀ t, (s'.thread t).condvarTree = (s.thread t).condvarTree) : s'.TreeOk :=
  ⟨htree ▸ h.nodup, fun t => by rw [htree, hflag, h.mem_iff]⟩

/-- The tree has the same threads. -/
theorem TreeOk.perm (h : s.TreeOk) (h' : s'.TreeOk)
    (hflag : ∀ t, (s'.thread t).condvarTree = (s.thread t).condvarTree) : s'.tree.Perm s.tree :=
  (List.perm_ext_iff_of_nodup h'.nodup h.nodup).mpr fun t => by
    rw [h'.mem_iff, h.mem_iff, hflag]

theorem OnlyWaiting.treeOk (h : OnlyWaiting s s') (hs : s.TreeOk) : s'.TreeOk :=
  hs.congr h.tree fun t => by rw [h.thread t]

/-- Nothing but priorities and the places in the lists is different. -/
structure Restored (s s' : Threads α) : Prop where
  thread : ∀ t, s'.thread t = { s.thread t with
      priority := (s'.thread t).priority
      waiterList := (s'.thread t).waiterList
      numKernelWaiters := (s'.thread t).numKernelWaiters
      arrival := (s'.thread t).arrival }
  tree : s.TreeOk → s'.TreeOk

namespace Restored

theorem refl (s : Threads α) : Restored s s := ⟨fun _ => rfl, fun h => h⟩

theorem trans {s'' : Threads α} (h : Restored s s') (h' : Restored s' s'') : Restored s s'' := by
  refine ⟨fun t => ?_, fun htree => h'.tree (h.tree htree)⟩
  rw [h'.thread t, h.thread t]

theorem lockOwner (h : Restored s s') (t : α) :
    (s'.thread t).lockOwner = (s.thread t).lockOwner := by rw [h.thread t]

/-- The lists have the same threads. -/
theorem perm (h : Restored s s') (hs : s.Waiting) (hs' : s'.Waiting) (owner : α) :
    (s'.thread owner).waiterList.Perm (s.thread owner).waiterList :=
  (List.perm_ext_iff_of_nodup (hs'.nodup owner) (hs.nodup owner)).mpr fun t => by
    rw [hs.mem_iff, hs'.mem_iff, h.lockOwner]

theorem basePriority (h : Restored s s') (t : α) :
    (s'.thread t).basePriority = (s.thread t).basePriority := by rw [h.thread t]

end Restored

variable [DecidableEq α]

theorem thread_modify (f : KThread α → KThread α) (x : α) :
    (s.modify t f).thread x = if x = t then f (s.thread x) else s.thread x := by
  refine (Function.update_apply ..).trans ?_
  split_ifs with hx
  · rw [hx]
  · rfl

/-! ### Adding a waiter -/

/-- The state after `AddWaiterImpl`. -/
def added (s : Threads α) (owner thread : α) : Threads α where
  thread t := { s.thread t with
    lockOwner := if t = thread then some owner else (s.thread t).lockOwner
    waiterList :=
      if t = owner then
        insertBefore (fun y => decide ((s.thread y).priority > (s.thread thread).priority)) thread
          (s.thread t).waiterList
      else (s.thread t).waiterList
    numKernelWaiters := (s.thread t).numKernelWaiters +
      if t = owner ∧ s.isKernelWaiter thread = true then 1 else 0
    arrival := if t = thread then s.clock else (s.thread t).arrival }
  tree := s.tree
  clock := s.clock + 1

theorem addWaiterImpl_eq
    (hcount : s.isKernelWaiter thread = true → 0 ≤ (s.thread owner).numKernelWaiters) :
    s.addWaiterImpl owner thread = .ok (s.added owner thread) := by
  unfold addWaiterImpl added
  unfold isKernelWaiter at *
  by_cases hkernel : isKernelAddressKey (s.thread thread).addressKey = true
  · simp only [hkernel, if_true, ge_iff_le, hcount hkernel, and_true]
    refine congrArg Except.ok (Threads.ext (funext fun t => ?_) rfl rfl)
    simp only [thread_modify]
    split_ifs <;> simp_all [modify]
  · simp only [hkernel]
    refine congrArg Except.ok (Threads.ext (funext fun t => ?_) rfl rfl)
    simp only [thread_modify]
    split_ifs <;> simp_all [modify]

theorem onlyWaiting_added : OnlyWaiting s (s.added owner thread) := ⟨rfl, fun _ => rfl⟩

theorem lockOwner_added (t : α) : ((s.added owner thread).thread t).lockOwner =
    if t = thread then some owner else (s.thread t).lockOwner := rfl

theorem waiterList_added (o : α) : ((s.added owner thread).thread o).waiterList =
    if o = owner then
      insertBefore (fun y => decide ((s.thread y).priority > (s.thread thread).priority)) thread
        (s.thread o).waiterList
    else (s.thread o).waiterList := rfl

theorem arrival_added (t : α) : ((s.added owner thread).thread t).arrival =
    if t = thread then s.clock else (s.thread t).arrival := rfl

theorem Waiting.added (h : s.Waiting) (hnone : (s.thread thread).lockOwner = none)
    (hne : thread ≠ owner) : (s.added owner thread).Waiting := by
  have honly : OnlyWaiting s (s.added owner thread) := onlyWaiting_added
  have hnot : ∀ o, thread ∉ (s.thread o).waiterList := fun o hmem => by
    rw [h.mem_iff, hnone] at hmem
    cases hmem
  have hbefore : ∀ o, ∀ a ∈ (s.thread o).waiterList, ∀ b ∈ (s.thread o).waiterList,
      s.Before a b → (s.added owner thread).Before a b := by
    intro o a ha b hb hab
    rw [Before, arrival_added, arrival_added,
      if_neg (ne_of_mem_of_not_mem ha (hnot o)), if_neg (ne_of_mem_of_not_mem hb (hnot o))]
    exact hab
  refine ⟨fun t o => ?_, fun o => ?_, fun t ht => ?_, fun o => ?_, fun t => ?_⟩
  · rw [waiterList_added, lockOwner_added]
    by_cases ht : t = thread
    · subst ht
      by_cases ho : o = owner
      · simp [ho, mem_insertBefore]
      · simp [ho, hnot o, Ne.symm ho]
    · by_cases ho : o = owner
      · rw [if_pos ho, if_neg ht, mem_insertBefore, ← h.mem_iff]
        simp [ht]
      · rw [if_neg ho, if_neg ht]
        exact h.mem_iff t o
  · have hold := (h.sorted o).imp_of_mem fun ha hb => hbefore o _ ha _ hb
    rw [waiterList_added]
    by_cases ho : o = owner
    · rw [if_pos ho]
      refine pairwise_insertBefore hold (fun x hx hlater => ?_) (fun x hx hnl => ?_)
        fun x hx y hy hxy hlater => ?_
      · have hlt := of_decide_eq_true hlater
        exact .inl hlt
      · have hle := le_of_not_gt (of_decide_eq_false hnl)
        have hx' : (s.thread x).lockOwner.isSome = true := by
          rw [(h.mem_iff x o).mp hx, Option.isSome_some]
        rw [Before, arrival_added, arrival_added, if_pos rfl,
          if_neg (ne_of_mem_of_not_mem hx (hnot o))]
        exact hle.lt_or_eq.imp_right fun heq => ⟨heq, h.arrived x hx'⟩
      · have hlt := of_decide_eq_true hlater
        refine decide_eq_true (hlt.trans_le ?_)
        exact hxy.elim le_of_lt fun heq => heq.1.le
    · rw [if_neg ho]
      exact hold
  · rw [lockOwner_added] at ht
    rw [arrival_added]
    by_cases htt : t = thread
    · rw [if_pos htt]
      exact Nat.lt_succ_self _
    · rw [if_neg htt] at ht ⊢
      exact Nat.lt_succ_of_lt (h.arrived t ht)
  · rw [isKernelWaiter_of_onlyWaiting honly]
    dsimp only [Threads.added]
    rw [h.count o]
    by_cases ho : o = owner
    · rw [if_pos ho, perm_insertBefore.countP_eq, List.countP_cons]
      simp only [ho, true_and]
      split_ifs <;> rfl
    · simp [ho]
  · rw [lockOwner_added]
    by_cases ht : t = thread
    · rw [if_pos ht, ht]
      exact fun heq => hne (Option.some.inj heq).symm
    · rw [if_neg ht]
      exact h.apart t

/-! ### Removing a waiter -/

/-- The state after a waiter was erased from the list and from the count. -/
def erased (s : Threads α) (owner thread : α) : Threads α :=
  s.modify owner fun o =>
    { o with
      waiterList := o.waiterList.erase thread
      numKernelWaiters := o.numKernelWaiters - if s.isKernelWaiter thread then 1 else 0 }

/-- The state after `RemoveWaiterImpl`. -/
def removed (s : Threads α) (owner thread : α) : Threads α :=
  (s.erased owner thread).setLockOwner thread none

section

variable (hcount : s.isKernelWaiter thread = true → 0 < (s.thread owner).numKernelWaiters)
include hcount

theorem uncountWaiter_eq : ∃ s₁, s.uncountWaiter owner thread = .ok s₁ ∧
      s₁.eraseWaiter owner thread = s.erased owner thread := by
  unfold uncountWaiter
  split_ifs with hkernel hpos
  · exact ⟨_, rfl, by simp [eraseWaiter, erased, modify, isKernelWaiter, hkernel]⟩
  · exact absurd (hcount hkernel) hpos
  · exact ⟨_, rfl, by simp [eraseWaiter, erased, isKernelWaiter, hkernel]⟩

theorem removeWaiterImpl_eq : s.removeWaiterImpl owner thread = .ok (s.removed owner thread) := by
  obtain ⟨s₁, huncount, herase⟩ := uncountWaiter_eq hcount
  rw [removeWaiterImpl, huncount]
  exact congrArg (fun s => Except.ok (s.setLockOwner thread none)) herase

end

theorem thread_removed (t : α) : (s.removed owner thread).thread t = { s.thread t with
    lockOwner := if t = thread then none else (s.thread t).lockOwner
    waiterList :=
      if t = owner then (s.thread t).waiterList.erase thread else (s.thread t).waiterList
    numKernelWaiters := (s.thread t).numKernelWaiters -
      if t = owner ∧ s.isKernelWaiter thread = true then 1 else 0 } := by
  rw [removed, setLockOwner, erased, thread_modify, thread_modify]
  by_cases ho : t = owner
  · simp only [ho, true_and]
    split_ifs <;> rfl
  · simp only [ho, false_and, if_false, Int.sub_zero]
    split_ifs <;> rfl

theorem onlyWaiting_removed : OnlyWaiting s (s.removed owner thread) :=
  ⟨rfl, fun t => by rw [thread_removed]⟩

theorem lockOwner_removed (t : α) : ((s.removed owner thread).thread t).lockOwner =
    if t = thread then none else (s.thread t).lockOwner := by rw [thread_removed]

theorem waiterList_removed (o : α) : ((s.removed owner thread).thread o).waiterList =
    if o = owner then (s.thread o).waiterList.erase thread else (s.thread o).waiterList := by
  rw [thread_removed]

theorem Waiting.removed (h : s.Waiting) (hmem : (s.thread thread).lockOwner = some owner) :
    (s.removed owner thread).Waiting := by
  have honly : OnlyWaiting s (s.removed owner thread) := onlyWaiting_removed
  have hbefore : (s.removed owner thread).Before = s.Before := by
    funext a b
    rw [Before, Before, thread_removed, thread_removed]
  have hin := (h.mem_iff thread owner).mpr hmem
  refine ⟨fun t o => ?_, fun o => ?_, fun t ht => ?_, fun o => ?_, fun t => ?_⟩
  · rw [waiterList_removed, lockOwner_removed]
    by_cases ht : t = thread
    · rw [ht]
      by_cases ho : o = owner
      · simp [ho, (h.nodup owner).mem_erase_iff]
      · simp [ho, h.mem_iff, hmem, Ne.symm ho]
    · rw [if_neg ht, ← h.mem_iff]
      by_cases ho : o = owner
      · rw [if_pos ho, List.mem_erase_of_ne ht]
      · rw [if_neg ho]
  · rw [waiterList_removed, hbefore]
    split_ifs
    · exact (h.sorted o).sublist List.erase_sublist
    · exact h.sorted o
  · rw [thread_removed] at ht ⊢
    dsimp only at ht
    split_ifs at ht
    · cases ht
    · exact h.arrived t ht
  · rw [isKernelWaiter_of_onlyWaiting honly, thread_removed]
    have hcount := h.count o
    by_cases ho : o = owner
    · rw [ho, (List.perm_cons_erase hin).countP_eq, List.countP_cons] at hcount
      simp only [ho, true_and, if_true]
      split_ifs at hcount ⊢ <;> omega
    · simpa [ho] using hcount
  · rw [lockOwner_removed]
    split_ifs
    · exact nofun
    · exact h.apart t

/-! ### One round of `RestorePriority` -/

theorem thread_updatePriority (x : α) : (s.updatePriority t v).thread x =
    { s.thread x with priority := if x = t then v else (s.thread x).priority } := by
  unfold updatePriority
  split_ifs with htree hx hx
  · simp [treeInsert, modify, hx]
  · simp [treeInsert, modify, hx]
  · simp [modify, hx]
  · simp [modify, hx]

theorem clock_updatePriority : (s.updatePriority t v).clock = s.clock := by
  unfold updatePriority
  split_ifs <;> rfl

theorem tree_updatePriority : (s.updatePriority t v).tree = s.tree ∨
    (s.thread t).condvarTree = true ∧ ((s.updatePriority t v).tree).Perm (t :: s.tree.erase t) := by
  unfold updatePriority
  split_ifs with htree
  · exact .inr ⟨htree, perm_insertBefore⟩
  · exact .inl rfl

theorem restored_updatePriority : Restored s (s.updatePriority t v) := by
  refine ⟨fun x => by rw [thread_updatePriority], fun h => ?_⟩
  have hflag : ∀ x, ((s.updatePriority t v).thread x).condvarTree = (s.thread x).condvarTree := by
    intro x
    rw [thread_updatePriority]
  obtain heq | ⟨hin, hperm⟩ := tree_updatePriority (s := s)
  · exact ⟨heq ▸ h.nodup, fun x => by rw [heq, hflag, h.mem_iff]⟩
  · have hperm' := hperm.trans (List.perm_cons_erase ((h.mem_iff t).mpr hin)).symm
    exact ⟨hperm'.nodup_iff.mpr h.nodup, fun x => by rw [hperm'.mem_iff, hflag, h.mem_iff]⟩

/-- The priority of a thread that waits for nobody does not matter to the lists. -/
theorem Waiting.updatePriority (h : s.Waiting) (hnone : (s.thread t).lockOwner = none)
    (hthread : ∀ x, s'.thread x =
      { s.thread x with priority := if x = t then v else (s.thread x).priority })
    (hclock : s'.clock = s.clock) : s'.Waiting := by
  refine h.congr hclock (fun x => ?_) fun x hx => ?_
  · rw [hthread]
    exact ⟨rfl, rfl, rfl⟩
  · have hxt : x ≠ t := by
      rintro rfl
      rw [hnone] at hx
      cases hx
    rw [hthread, if_neg hxt]
    exact ⟨rfl, rfl, rfl⟩

/-- A waiter with a new priority is inserted again. -/
def requeued (s : Threads α) (owner t : α) (v : ℤ) : Threads α :=
  ((s.updatePriority t v).removed owner t).added owner t

theorem thread_requeued (howner : (s.thread t).lockOwner = some owner) (x : α) :
    (s.requeued owner t v).thread x = { s.thread x with
      priority := if x = t then v else (s.thread x).priority
      waiterList := ((s.requeued owner t v).thread x).waiterList
      arrival := ((s.requeued owner t v).thread x).arrival } := by
  have hkernel : ((s.updatePriority t v).removed owner t).isKernelWaiter t =
      (s.updatePriority t v).isKernelWaiter t := by
    rw [isKernelWaiter_of_onlyWaiting onlyWaiting_removed]
  rw [requeued, added, hkernel]
  dsimp only
  rw [thread_removed, thread_updatePriority]
  by_cases hx : x = t
  · simp [hx, howner]
  · simp [hx]

theorem counted_requeued (howner : (s.thread t).lockOwner = some owner) (hcount : s.Counted) :
    (s.requeued owner t v).Counted := by
  intro x o
  rw [isKernelWaiter, thread_requeued howner x, thread_requeued howner o]
  exact hcount x o

/-- A round of the loop, if the kernel waiters are counted. -/
theorem restorePriority_succ (hcount : s.Counted) (t : α) (fuel : ℕ) :
    s.restorePriority (fuel + 1) t =
      if s.restoredPriority t = (s.thread t).priority then .ok s
      else match (s.thread t).lockOwner with
        | none => .ok (s.updatePriority t (s.restoredPriority t))
        | some owner => (s.requeued owner t (s.restoredPriority t)).restorePriority fuel owner := by
  rw [restorePriority]
  split_ifs
  · rfl
  generalize s.restoredPriority t = v
  simp only [restored_updatePriority.lockOwner]
  cases howner : (s.thread t).lockOwner with
  | none => rfl
  | some owner =>
    have hpos : (s.updatePriority t v).isKernelWaiter t = true →
        0 < ((s.updatePriority t v).thread owner).numKernelWaiters := by
      rw [isKernelWaiter, thread_updatePriority, thread_updatePriority]
      exact hcount t owner howner
    have hadd : ((s.updatePriority t v).removed owner t).addWaiterImpl owner t =
        .ok (s.requeued owner t v) := addWaiterImpl_eq fun hk => by
      rw [isKernelWaiter_of_onlyWaiting onlyWaiting_removed] at hk
      have hpos := hpos hk
      rw [thread_removed]
      dsimp only
      split_ifs <;> omega
    simp only [removeWaiterImpl_eq hpos, hadd, bind, Except.bind]

theorem requeue_spec (h : s.Waiting) (howner : (s.thread t).lockOwner = some owner) (v : ℤ) :
    (s.requeued owner t v).Waiting ∧ Restored s (s.requeued owner t v) := by
  have hne : t ≠ owner := fun heq => h.apart t (heq ▸ howner)
  -- The priority may as well be set after the removal.
  have hwaiting : ((s.updatePriority t v).removed owner t).Waiting := by
    refine (h.removed howner).updatePriority (t := t) (v := v) ?_ (fun x => ?_) ?_
    · rw [lockOwner_removed, if_pos rfl]
    · rw [thread_removed, thread_removed, isKernelWaiter, thread_updatePriority,
        thread_updatePriority]
      rfl
    · exact clock_updatePriority
  refine ⟨hwaiting.added ?_ hne, fun x => by rw [thread_requeued howner], fun htree => ?_⟩
  · rw [lockOwner_removed, if_pos rfl]
  · exact (onlyWaiting_removed.trans onlyWaiting_added).treeOk (restored_updatePriority.tree htree)

/-- All priorities are right but perhaps one, apart from some exempt threads. -/
def InheritBut (s : Threads α) (exempt : α → Prop) (t : α) : Prop :=
  ∀ x, x ≠ t → ¬ exempt x → s.Inherits x

omit [DecidableEq α] in
/-- A new priority of one thread does not change what others than its owner inherit. -/
theorem inherits_of_ne (h : s.Waiting) (h' : s'.Waiting) (hrestored : Restored s s')
    (hpriority : ∀ x, x ≠ t → (s'.thread x).priority = (s.thread x).priority)
    (ht : (s'.thread t).priority = s.inherited t) {x : α} (hright : x = t ∨ s.Inherits x)
    (hx : (s.thread t).lockOwner ≠ some x) : s'.Inherits x := by
  have hsame : s'.inherited x = s.inherited x := by
    refine inherited_congr h h' (hrestored.basePriority x) (fun w => by rw [hrestored.lockOwner])
      fun w hw => hpriority w ?_
    rintro rfl
    exact hx hw
  rw [Inherits, hsame]
  by_cases hxt : x = t
  · rw [hxt]
    exact ht
  · rw [hpriority x hxt]
    exact hright.resolve_left hxt

variable {exempt : α → Prop}

/-- A run that ends with all priorities right. -/
def Restores (exempt : α → Prop) (s : Threads α) (t : α) (run : Run (Threads α)) : Prop :=
  ∃ s', run = .ok s' ∧ s'.Waiting ∧ Restored s s' ∧ ∀ x, x = t ∨ ¬ exempt x → s'.Inherits x

/-- A round that goes on with the owner of the thread that it gave its priority. -/
structure HandsOn (s s' : Threads α) (t owner : α) : Prop where
  before : s.Waiting
  after : s'.Waiting
  wrong : ¬ s.Inherits t
  owner_eq : (s.thread t).lockOwner = some owner
  restored : Restored s s'
  priority : ∀ x, (s'.thread x).priority = if x = t then s.inherited t else (s.thread x).priority

namespace HandsOn

variable (h : HandsOn s s' t owner)
include h

theorem ne : owner ≠ t := fun hc => h.before.apart t (hc ▸ h.owner_eq)

theorem priority_self : (s'.thread t).priority = s.inherited t := by rw [h.priority, if_pos rfl]

theorem priority_of_ne {x : α} (hx : x ≠ t) : (s'.thread x).priority = (s.thread x).priority := by
  rw [h.priority, if_neg hx]

/-- What changes for the owner when its waiter gets another priority. -/
theorem inherited_owner : s'.inherited owner ≤ s.inherited t ∧
    (∀ c ≤ s.inherited owner, c ≤ s.inherited t → c ≤ s'.inherited owner) ∧
    ∀ c ≤ s'.inherited owner, c ≤ (s.thread t).priority → c ≤ s.inherited owner := by
  have hle := h.after.le_inherited_iff.mp (le_refl (s'.inherited owner))
  have hmem := (h.restored.lockOwner t).trans h.owner_eq
  refine ⟨h.priority_self ▸ hle.2 t hmem, fun c hc hct => ?_, fun c hc hct => ?_⟩
  · rw [h.before.le_inherited_iff] at hc
    rw [h.after.le_inherited_iff, h.restored.basePriority]
    refine ⟨hc.1, fun w hw => ?_⟩
    rw [h.restored.lockOwner] at hw
    rw [h.priority]
    split_ifs
    · exact hct
    · exact hc.2 w hw
  · rw [h.after.le_inherited_iff, h.restored.basePriority] at hc
    rw [h.before.le_inherited_iff]
    refine ⟨hc.1, fun w hw => ?_⟩
    by_cases hwt : w = t
    · exact hwt ▸ hct
    · rw [← h.priority_of_ne hwt]
      exact hc.2 w (by rw [h.restored.lockOwner, hw])

end HandsOn

/-- One round: it ends with all priorities right, or goes on with the owner. -/
theorem restorePriority_round (h : s.Waiting) (hbut : s.InheritBut exempt t) (fuel : ℕ) :
    Restores exempt s t (s.restorePriority (fuel + 1) t) ∨
    ∃ owner s', HandsOn s s' t owner ∧ s'.InheritBut exempt owner ∧
      s.restorePriority (fuel + 1) t = s'.restorePriority fuel owner := by
  have hright : ∀ x, x = t ∨ ¬ exempt x → x = t ∨ s.Inherits x := fun x hx =>
    or_iff_not_imp_left.mpr fun hxt => hbut x hxt (hx.resolve_left hxt)
  rw [restorePriority_succ h.counted, h.restoredPriority_eq]
  by_cases heq : s.inherited t = (s.thread t).priority
  · refine .inl ⟨s, if_pos heq, h, Restored.refl s, fun x hx => ?_⟩
    obtain rfl | hx := hright x hx
    · exact heq.symm
    · exact hx
  · rw [if_neg heq]
    cases howner : (s.thread t).lockOwner with
    | none =>
      have hwaiting : (s.updatePriority t (s.inherited t)).Waiting :=
        h.updatePriority howner thread_updatePriority clock_updatePriority
      refine .inl ⟨_, rfl, hwaiting, restored_updatePriority, fun x hx => ?_⟩
      refine inherits_of_ne h hwaiting restored_updatePriority (fun y hy => ?_) ?_ (hright x hx)
        (by rw [howner]; exact nofun)
      · rw [thread_updatePriority, if_neg hy]
      · rw [thread_updatePriority, if_pos rfl]
    | some owner =>
      obtain ⟨hwaiting, hrestored⟩ := requeue_spec h howner (s.inherited t)
      have hpriority : ∀ x, ((s.requeued owner t (s.inherited t)).thread x).priority =
          if x = t then s.inherited t else (s.thread x).priority := fun x => by
        rw [thread_requeued howner]
      refine .inr ⟨owner, _, ⟨h, hwaiting, fun hinh => heq hinh.symm, howner, hrestored, hpriority⟩,
        fun x hx hex => ?_, rfl⟩
      refine inherits_of_ne h hwaiting hrestored (fun y hy => ?_) ?_ (hright x (.inr hex)) ?_
      · rw [hpriority, if_neg hy]
      · rw [hpriority, if_pos rfl]
      · rw [howner]
        exact fun hc => hx (Option.some.inj hc).symm

/-- A thread that waits for nobody takes one round. -/
theorem restorePriority_last (h : s.Waiting) (hbut : s.InheritBut exempt t)
    (hnone : (s.thread t).lockOwner = none) (fuel : ℕ) :
    Restores exempt s t (s.restorePriority (fuel + 1) t) := by
  obtain hend | ⟨owner, _, hround, _⟩ := restorePriority_round h hbut fuel
  · exact hend
  · exact nomatch hnone.symm.trans hround.owner_eq

/-! ### The whole chain -/

/-- The rule for the loop: what a thread has to follow goes over to its owner, and a measure
decreases. -/
theorem restorePriority_chain (follows : Threads α → α → Prop) (measure : Threads α → ℕ)
    (hstep : ∀ {s s' : Threads α} {t owner : α}, HandsOn s s' t owner → s.Inherits owner →
      follows s t → follows s' owner ∧ measure s' < measure s)
    {fuel : ℕ} (hexempt : ∀ x, exempt x → (s.thread x).lockOwner = none) (h : s.Waiting)
    (hbut : s.InheritBut exempt t) (hfollows : ¬ exempt t → follows s t)
    (hfuel : measure s + 1 < fuel) : Restores exempt s t (s.restorePriority fuel t) := by
  induction fuel generalizing s t with
  | zero => exact absurd hfuel (Nat.not_lt_zero _)
  | succ fuel ih =>
    by_cases hext : exempt t
    · exact restorePriority_last h hbut (hexempt t hext) fuel
    obtain hend | ⟨owner, s', hround, hbut', heq⟩ := restorePriority_round h hbut fuel
    · exact hend
    · have hexempt' : ∀ x, exempt x → (s'.thread x).lockOwner = none := fun x hx =>
        (hround.restored.lockOwner x).trans (hexempt x hx)
      have hrest : Restores exempt s' owner (s'.restorePriority fuel owner) := by
        by_cases hexo : exempt owner
        · obtain ⟨fuel, rfl⟩ : ∃ k, fuel = k + 1 := ⟨fuel - 1, by omega⟩
          exact restorePriority_last hround.after hbut' (hexempt' owner hexo) fuel
        · obtain ⟨hfollows', hless⟩ := hstep hround (hbut owner hround.ne hexo) (hfollows hext)
          exact ih hexempt' hround.after hbut' (fun _ => hfollows') (by omega)
      obtain ⟨s'', hrun, hend, hrestored', hall⟩ := hrest
      refine ⟨s'', heq.trans hrun, hend, hround.restored.trans hrestored', fun x hx => ?_⟩
      refine hall x (.inr ?_)
      obtain rfl | hx := hx
      · exact hext
      · exact hx

variable [Fintype α]

/-- A thread has to take the better priority `v`, if another one. -/
def Better (v : ℤ) (s : Threads α) (t : α) : Prop :=
  s.inherited t ≤ (s.thread t).priority ∧
    (s.inherited t < (s.thread t).priority → s.inherited t = v)

/-- A thread has to take a worse priority than its `p`, if another one. -/
def Worse (p : ℤ) (s : Threads α) (t : α) : Prop :=
  (s.thread t).priority ≤ s.inherited t ∧
    ((s.thread t).priority < s.inherited t → (s.thread t).priority = p)

namespace HandsOn

variable (h : HandsOn s s' t owner)
include h

/-- Fewer threads have a priority that the thread no longer has. -/
theorem card_lt (P : ℤ → Prop) [DecidablePred P] (hold : P (s.thread t).priority)
    (hnew : ¬ P (s.inherited t)) : (univ.filter fun x => P (s'.thread x).priority).card <
      (univ.filter fun x => P (s.thread x).priority).card := by
  refine card_lt_card ⟨fun x hx => ?_, fun hsub => ?_⟩
  · rw [mem_filter_univ, h.priority] at hx
    rw [mem_filter_univ]
    split_ifs at hx
    · exact absurd hx hnew
    · exact hx
  · have ht := hsub ((mem_filter_univ _).mpr hold)
    rw [mem_filter_univ, h.priority_self] at ht
    exact hnew ht

/-- A better priority is handed on unchanged. -/
theorem better (hright : s.Inherits owner) (hbetter : Better v s t) : Better v s' owner ∧
    (univ.filter fun x => v < (s'.thread x).priority).card <
      (univ.filter fun x => v < (s.thread x).priority).card := by
  obtain ⟨hle, hv⟩ := hbetter
  have hlt : s.inherited t < (s.thread t).priority := lt_of_le_of_ne hle fun hc => h.wrong hc.symm
  have hown : (s'.thread owner).priority = s.inherited owner := (h.priority_of_ne h.ne).trans hright
  obtain ⟨hle', hback, hforth⟩ := h.inherited_owner
  obtain rfl := hv hlt
  refine ⟨⟨hown ▸ hforth _ le_rfl (hle'.trans hlt.le), fun hlt' => ?_⟩,
    h.card_lt (s.inherited t < ·) hlt (lt_irrefl _)⟩
  rw [hown] at hlt'
  refine le_antisymm hle' (le_of_not_gt fun hgt => ?_)
  exact absurd (hback _ (min_le_left _ _) (min_le_right _ _)) (not_le.mpr (lt_min hlt' hgt))

/-- A worse priority is handed on only while the owners have the old one. -/
theorem worse (hright : s.Inherits owner) (hworse : Worse v s t) : Worse v s' owner ∧
    (univ.filter fun x => (s'.thread x).priority = v).card <
      (univ.filter fun x => (s.thread x).priority = v).card := by
  obtain ⟨hle, hp⟩ := hworse
  have hlt : (s.thread t).priority < s.inherited t := lt_of_le_of_ne hle h.wrong
  have hown : (s'.thread owner).priority = s.inherited owner := (h.priority_of_ne h.ne).trans hright
  obtain ⟨_, hback, hforth⟩ := h.inherited_owner
  obtain rfl := hp hlt
  have hold := (h.before.le_inherited_iff.mp le_rfl).2 t h.owner_eq
  refine ⟨⟨hown ▸ hback _ le_rfl (hold.trans hlt.le), fun hlt' => ?_⟩,
    h.card_lt (· = (s.thread t).priority) rfl hlt.ne'⟩
  rw [hown] at hlt' ⊢
  refine le_antisymm hold (le_of_not_gt fun hgt => ?_)
  exact absurd (hforth _ (min_le_left _ _) (min_le_right _ _)) (not_le.mpr (lt_min hlt' hgt))

end HandsOn

/-- `RestorePriority` returns and makes all priorities right, if only one was wrong besides those
of exempt threads, which wait for nobody. -/
theorem restore_spec (hexempt : ∀ x, exempt x → (s.thread x).lockOwner = none) (h : s.Waiting)
    (hbut : s.InheritBut exempt t) : Restores exempt s t (s.restore t) := by
  have hfuel : ∀ p : α → Prop, [DecidablePred p] →
      (univ.filter p).card + 1 < Fintype.card α + 2 := fun p _ =>
    Nat.add_lt_add_of_le_of_lt (card_le_univ _) (by decide)
  obtain hle | hle := le_total (s.inherited t) (s.thread t).priority
  · exact restorePriority_chain (Better (s.inherited t))
      (fun s' => (univ.filter fun x => s.inherited t < (s'.thread x).priority).card)
      HandsOn.better hexempt h hbut (fun _ => ⟨hle, fun _ => rfl⟩) (hfuel _)
  · exact restorePriority_chain (Worse (s.thread t).priority)
      (fun s' => (univ.filter fun x => (s'.thread x).priority = (s.thread t).priority).card)
      HandsOn.worse hexempt h hbut (fun _ => ⟨hle, fun _ => rfl⟩) (hfuel _)

end Threads

end Atmosphere.Kern
