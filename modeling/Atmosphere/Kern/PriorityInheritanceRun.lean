import Atmosphere.Kern.PriorityInheritanceSpec

/-!
# Runs of the priority inheritance

Every operation returns, and after it every thread has the priority it inherits and every
waiter list is in order. The owners may even wait for each other in a circle; only a thread
that waits for itself is excluded.
-/

namespace Atmosphere.Kern

namespace Threads

variable {α : Type} {s s' s'' : Threads α} {owner thread t : α}

/-- What holds between the operations. -/
structure WaitInv (s : Threads α) : Prop extends s.Waiting where
  inherits : ∀ t, s.Inherits t

/-- Nothing but the waiting and the priorities is different. -/
structure Framed (s s' : Threads α) : Prop where
  thread : ∀ t, s'.thread t = { s.thread t with
      priority := (s'.thread t).priority
      lockOwner := (s'.thread t).lockOwner
      waiterList := (s'.thread t).waiterList
      numKernelWaiters := (s'.thread t).numKernelWaiters
      arrival := (s'.thread t).arrival }
  tree : s.TreeOk → s'.TreeOk

theorem Framed.refl (s : Threads α) : Framed s s := ⟨fun _ => rfl, fun h => h⟩

theorem Framed.trans (h : Framed s s') (h' : Framed s' s'') : Framed s s'' := by
  refine ⟨fun t => ?_, fun htree => h'.tree (h.tree htree)⟩
  rw [h'.thread t, h.thread t]

theorem Framed.addressKey (h : Framed s s') (t : α) :
    (s'.thread t).addressKey = (s.thread t).addressKey := by rw [h.thread t]

theorem Framed.addressKeyValue (h : Framed s s') (t : α) :
    (s'.thread t).addressKeyValue = (s.thread t).addressKeyValue := by rw [h.thread t]

theorem Framed.condvarTree (h : Framed s s') (t : α) :
    (s'.thread t).condvarTree = (s.thread t).condvarTree := by rw [h.thread t]

theorem OnlyWaiting.framed (h : OnlyWaiting s s') : Framed s s' := by
  refine ⟨fun t => ?_, h.treeOk⟩
  rw [h.thread t]

theorem Restored.framed (h : Restored s s') : Framed s s' := by
  refine ⟨fun t => ?_, h.tree⟩
  rw [h.thread t]

/-- Nothing but priorities and the places in the lists is different. -/
structure Reprioritized (s s' : Threads α) : Prop where
  thread : ∀ t, s'.thread t = { s.thread t with
      priority := (s'.thread t).priority
      basePriority := (s'.thread t).basePriority
      basePriorityOnUnpin := (s'.thread t).basePriorityOnUnpin
      waiterList := (s'.thread t).waiterList
      numKernelWaiters := (s'.thread t).numKernelWaiters
      arrival := (s'.thread t).arrival }
  tree : s.TreeOk → s'.TreeOk

theorem Reprioritized.trans (h : Reprioritized s s')
    (h' : Reprioritized s' s'') : Reprioritized s s'' := by
  refine ⟨fun t => ?_, fun htree => h'.tree (h.tree htree)⟩
  rw [h'.thread t, h.thread t]

theorem Restored.reprioritized (h : Restored s s') : Reprioritized s s' := by
  refine ⟨fun t => ?_, h.tree⟩
  rw [h.thread t]

/-- What a thread inherits if its waiters stay. -/
theorem OnlyWaiting.inherits (hs : s.Waiting) (hs' : s'.Waiting) (h : OnlyWaiting s s')
    (howner : ∀ w, (s'.thread w).lockOwner = some t ↔ (s.thread w).lockOwner = some t)
    (hright : s.Inherits t) : s'.Inherits t := by
  rw [Inherits, h.priority,
    inherited_congr hs hs' (h.basePriority t) howner fun w _ => h.priority w]
  exact hright

variable [DecidableEq α]

/-- The fields that the lists and the priorities depend on, but for the key. -/
def listView (x : KThread α) : Option α × List α × ℤ × ℤ × ℤ × ℕ :=
  (x.lockOwner, x.waiterList, x.numKernelWaiters, x.priority, x.basePriority, x.arrival)

/-- The other fields of a thread do not matter, nor does the key of a thread that waits for
nobody. -/
theorem WaitInv.modify {x : KThread α} (h : s.WaitInv) (hclock : s'.clock = s.clock)
    (hthread : s'.thread = Function.update s.thread t x) (hx : listView x = listView (s.thread t))
    (hkey : (s.thread t).lockOwner.isSome = true → x.addressKey = (s.thread t).addressKey) :
    s'.WaitInv := by
  have hsame : ∀ y, listView (s'.thread y) = listView (s.thread y) := fun y => by
    rw [hthread, Function.update_apply]
    split_ifs with hy
    · rw [hy, hx]
    · rfl
  simp only [listView, Prod.mk.injEq] at hsame
  have hwaiting : s'.Waiting := by
    refine h.toWaiting.congr hclock (fun y => ⟨(hsame y).1, (hsame y).2.1, (hsame y).2.2.1⟩)
      fun y hy => ⟨(hsame y).2.2.2.1, (hsame y).2.2.2.2.2, ?_⟩
    rw [hthread, Function.update_apply]
    split_ifs with hyt
    · rw [hyt] at hy ⊢
      exact hkey hy
    · rfl
  refine ⟨hwaiting, fun y => ?_⟩
  rw [Inherits, (hsame y).2.2.2.1, inherited_congr h.toWaiting hwaiting (hsame y).2.2.2.2.1
    (fun w => by rw [(hsame w).1]) fun w _ => (hsame w).2.2.2.1]
  exact h.inherits y

/-! ### The loop of `RemoveWaiterByKey` -/

/-- The owners after some threads went over to the first of them. -/
def handOver (taken : List α) (lockOwner : α → Option α) (t : α) : Option α :=
  if t ∈ taken then (if taken.head? = some t then none else taken.head?) else lockOwner t

/-- The loop after the waiters `taken`. -/
structure Taken (s : Threads α) (taken : List α) (b : ByKey α) : Prop where
  waiting : b.threads.Waiting
  only : OnlyWaiting s b.threads
  next : b.nextOwner = taken.head?
  num : b.numWaiters = taken.length
  lockOwner : ∀ t, (b.threads.thread t).lockOwner =
    handOver taken (fun t => (s.thread t).lockOwner) t

/-- The lists after the threads `taken` left `owner` and went over to the first of them. -/
structure Split (s : Threads α) (owner : α) (taken : List α) (s' : Threads α) : Prop where
  kept : (s'.thread owner).waiterList = (s.thread owner).waiterList.filter (· ∉ taken)
  moved : ∀ next ∈ taken.head?, taken.tail.Sublist (s'.thread next).waiterList ∧
    (s'.thread next).waiterList.Perm ((s.thread next).waiterList ++ taken.tail)
  other : ∀ x, x ≠ owner → taken.head? ≠ some x →
    (s'.thread x).waiterList = (s.thread x).waiterList

/-- A thread goes over to another list; its owner need not be cleared in between. -/
theorem added_erased {next : α} :
    (s.erased owner t).added next t = (s.removed owner t).added next t := by
  have hpriority : ∀ y, ((s.removed owner t).thread y).priority =
      ((s.erased owner t).thread y).priority := fun y => by
    rw [removed, setLockOwner, thread_modify]
    split_ifs <;> rfl
  refine Threads.ext (funext fun x => ?_) rfl rfl
  have hkernel : (s.removed owner t).isKernelWaiter t = (s.erased owner t).isKernelWaiter t := by
    simp [isKernelWaiter, removed, setLockOwner, thread_modify]
  simp only [added, hpriority, hkernel]
  by_cases hx : x = t
  · simp [removed, setLockOwner, thread_modify, hx]
    rfl
  · simp [removed, setLockOwner, thread_modify, hx]

variable {taken : List α} {b : ByKey α}

theorem handOver_append {lockOwner : α → Option α} (hnew : t ∉ taken) (x : α) :
    handOver (taken ++ [t]) lockOwner x =
      if x = t then taken.head? else handOver taken lockOwner x := by
  unfold handOver
  by_cases hx : x = t
  · subst hx
    cases taken with
    | nil => simp
    | cons next taken =>
      have hne : next ≠ x := fun heq => hnew (heq ▸ .head _)
      simp [hne]
  · cases taken with
    | nil | cons next taken => simp [hx]

/-- The state after one round of the loop. -/
def tookWaiter (s : Threads α) (owner t : α) : Option α → Threads α
  | none => s.removed owner t
  | some next => (s.removed owner t).added next t

theorem takeWaiter_spec {key : ℕ} (hs : s.Waiting) (h : Taken s taken b)
    (hsub : (taken ++ [t]).Sublist (s.thread owner).waiterList)
    (hkey : (s.thread t).addressKey = key) :
    ∃ b', takeWaiter owner key b t = .ok b' ∧ Taken s (taken ++ [t]) b' ∧
      b'.threads = b.threads.tookWaiter owner t taken.head? := by
  have howns : ∀ x ∈ taken ++ [t], (s.thread x).lockOwner = some owner := fun x hx =>
    (hs.mem_iff x owner).mp (hsub.mem hx)
  have hnew : t ∉ taken := fun hmem =>
    (List.nodup_append.mp ((hs.nodup owner).sublist hsub)).2.2 t hmem t (by simp) rfl
  have howner' : (b.threads.thread t).lockOwner = some owner := by
    rw [h.lockOwner, handOver, if_neg hnew, howns t (by simp)]
  obtain ⟨s₁, huncount, herase⟩ := uncountWaiter_eq (h.waiting.counted t owner howner')
  have hremoved := h.waiting.removed howner'
  have honly : OnlyWaiting s (b.threads.removed owner t) := h.only.trans onlyWaiting_removed
  have hnone : ((b.threads.removed owner t).thread t).lockOwner = none := by
    rw [lockOwner_removed, if_pos rfl]
  rw [takeWaiter, if_pos ((h.only.addressKey t).trans hkey), huncount]
  simp only [bind, Except.bind, herase, h.next]
  cases taken with
  | nil =>
    refine ⟨_, rfl, ⟨hremoved, honly, rfl, ?_, fun x => ?_⟩, rfl⟩
    · rw [h.num]
      rfl
    · rw [handOver_append hnew, ← h.lockOwner]
      exact lockOwner_removed x
  | cons next taken =>
    have hnext : next ≠ t := fun heq => hnew (heq ▸ .head _)
    have hno : next ≠ owner := fun heq => hs.apart next (heq ▸ howns next (by simp))
    have hcount : 0 ≤ ((b.threads.erased owner t).thread next).numKernelWaiters := by
      simpa [erased, modify, hno] using h.waiting.count_nonneg next
    refine ⟨⟨(b.threads.removed owner t).added next t, some next, b.numWaiters + 1⟩, ?_,
      ⟨hremoved.added hnone hnext.symm, honly.trans onlyWaiting_added, rfl, ?_, fun x => ?_⟩, rfl⟩
    · simp only [List.head?_cons]
      rw [addWaiterImpl_eq fun _ => hcount, added_erased]
    · rw [h.num]
      simp
    · rw [handOver_append hnew, ← h.lockOwner]
      rw [lockOwner_added, lockOwner_removed]
      split_ifs <;> rfl

theorem Split.took (hs : s.Waiting) (h : Taken s taken b) (hsplit : Split s owner taken b.threads)
    (hsub : (taken ++ [t]).Sublist (s.thread owner).waiterList) :
    Split s owner (taken ++ [t]) (b.threads.tookWaiter owner t taken.head?) := by
  have happart : ∀ x ∈ taken ++ [t], x ≠ owner := fun x hx heq =>
    hs.apart x (heq ▸ (hs.mem_iff x owner).mp (hsub.mem hx))
  have howner : ((b.threads.removed owner t).thread owner).waiterList =
      (s.thread owner).waiterList.filter (· ∉ taken ++ [t]) := by
    rw [waiterList_removed, if_pos rfl, hsplit.kept,
      ((hs.nodup owner).filter _).erase_eq_filter, List.filter_filter]
    refine List.filter_congr fun x _ => ?_
    grind
  cases taken with
  | nil =>
    simp only [List.head?_nil, tookWaiter] at *
    refine ⟨howner, fun next hnext => ?_, fun x hx _ => ?_⟩
    · cases hnext
      refine ⟨List.nil_sublist _, ?_⟩
      rw [waiterList_removed, if_neg (happart t (by simp)),
        hsplit.other t (happart t (by simp)) nofun]
      simp
    · rw [waiterList_removed, if_neg hx, hsplit.other x hx nofun]
  | cons next taken =>
    have hno : next ≠ owner := happart next (by simp)
    simp only [List.head?_cons, tookWaiter]
    refine ⟨?_, fun next' hnext => ?_, fun x hx hne => ?_⟩
    · rw [waiterList_added, if_neg hno.symm, howner]
    · cases hnext
      obtain ⟨hmoved, hperm⟩ := hsplit.moved next rfl
      have hpriority := (h.only.trans onlyWaiting_removed :
        OnlyWaiting s (b.threads.removed owner t)).priority
      rw [waiterList_added, waiterList_removed, if_neg hno]
      simp only [hpriority]
      refine ⟨sublist_insertBefore hmoved ?_ fun x hx => ?_, ?_⟩
      · refine (h.waiting.sorted_le next).imp fun hab hlater => decide_eq_true ?_
        rw [h.only.priority, h.only.priority] at hab
        exact (of_decide_eq_true hlater).trans_le hab
      · have hle := (List.pairwise_append.mp ((hs.sorted_le owner).sublist hsub)).2.2 x
          (.tail _ hx) t (by simp)
        exact decide_eq_false hle.not_gt
      · refine (perm_insertBefore.trans (hperm.cons t)).trans ?_
        simpa using (List.perm_append_singleton t ((s.thread next).waiterList ++ taken)).symm
    · have hx' : x ≠ next := fun heq => hne (by simp [heq])
      rw [waiterList_added, if_neg hx', waiterList_removed, if_neg hx,
        hsplit.other x hx fun hc => hx' (Option.some.inj hc).symm]

/-- The loop over a part of the list. -/
theorem takeWaiters_spec {rest : List α} (key : ℕ) (hs : s.Waiting)
    (h : Taken s taken b) (hsplit : Split s owner taken b.threads)
    (hsub : (taken ++ rest).Sublist (s.thread owner).waiterList) :
    ∃ b', rest.foldlM (takeWaiter owner key) b = .ok b' ∧
      Taken s (taken ++ rest.filter fun x => (s.thread x).addressKey = key) b' ∧
      Split s owner (taken ++ rest.filter fun x => (s.thread x).addressKey = key) b'.threads := by
  induction rest generalizing taken b with
  | nil => exact ⟨b, rfl, by simpa using h, by simpa using hsplit⟩
  | cons t rest ih =>
    rw [List.foldlM_cons]
    by_cases hkey : (s.thread t).addressKey = key
    · rw [List.append_cons] at hsub
      have hround := (List.sublist_append_left _ _).trans hsub
      obtain ⟨b₁, htake, h₁, heq⟩ := takeWaiter_spec hs h hround hkey
      obtain ⟨b', hrun, h'⟩ := ih h₁ (heq ▸ hsplit.took hs h hround) hsub
      refine ⟨b', ?_, ?_⟩
      · simp only [htake, bind, Except.bind]
        exact hrun
      · simpa [List.filter_cons, hkey] using h'
    · obtain ⟨b', hrun, h'⟩ := ih h hsplit
        (((List.sublist_cons_self t rest).append_left taken).trans hsub)
      refine ⟨b', ?_, ?_⟩
      · rw [takeWaiter, if_neg (by rw [h.only.addressKey]; exact hkey)]
        exact hrun
      · simpa [List.filter_cons, hkey] using h'

/-! ### The operations -/

variable [Fintype α]

/-- One wrong priority is repaired. -/
theorem restore_all (h : s.Waiting) (hbut : ∀ x, x ≠ t → s.Inherits x) :
    ∃ s', s.restore t = .ok s' ∧ s'.WaitInv ∧ Restored s s' := by
  obtain ⟨s', hrun, hwaiting, hrestored, hall⟩ :=
    restore_spec (fun x hx => absurd hx not_false) h fun x hx _ => hbut x hx
  exact ⟨s', hrun, ⟨hwaiting, fun x => hall x (.inr not_false)⟩, hrestored⟩

theorem addWaiter_spec (h : s.WaitInv) (hnone : (s.thread thread).lockOwner = none)
    (hne : thread ≠ owner) :
    ∃ s', s.addWaiter owner thread = .ok s' ∧ s'.WaitInv ∧ Framed s s' ∧
      ∀ t, (s'.thread t).lockOwner = if t = thread then some owner else (s.thread t).lockOwner := by
  have hwaiting := h.toWaiting.added hnone hne
  obtain ⟨s', hrun, hinv, hrestored⟩ := restore_all hwaiting fun x hx => by
    refine onlyWaiting_added.inherits h.toWaiting hwaiting (fun w => ?_) (h.inherits x)
    rw [lockOwner_added]
    split_ifs with hw
    · rw [hw, hnone]
      exact iff_of_false (fun hc => hx (Option.some.inj hc).symm) nofun
    · rfl
  refine ⟨s', ?_, hinv, onlyWaiting_added.framed.trans hrestored.framed, fun t => ?_⟩
  · rw [addWaiter, addWaiterImpl_eq fun _ => h.count_nonneg owner]
    exact hrun
  · rw [hrestored.lockOwner, lockOwner_added]

theorem removeWaiter_spec (h : s.WaitInv) (howner : (s.thread thread).lockOwner = some owner) :
    ∃ s', s.removeWaiter owner thread = .ok s' ∧ s'.WaitInv ∧ Framed s s' ∧
      ∀ t, (s'.thread t).lockOwner = if t = thread then none else (s.thread t).lockOwner := by
  have hwaiting := h.toWaiting.removed howner
  have honly : OnlyWaiting s (s.removed owner thread) := onlyWaiting_removed
  obtain ⟨s', hrun, hinv, hrestored⟩ := restore_all hwaiting fun x hx => by
    refine honly.inherits h.toWaiting hwaiting (fun w => ?_) (h.inherits x)
    rw [lockOwner_removed]
    split_ifs with hw
    · rw [hw, howner]
      exact iff_of_false nofun fun hc => hx (Option.some.inj hc).symm
    · rfl
  refine ⟨s', ?_, hinv, honly.framed.trans hrestored.framed, fun t => ?_⟩
  · rw [removeWaiter, removeWaiterImpl_eq (h.counted thread owner howner)]
    exact hrun
  · rw [hrestored.lockOwner, lockOwner_removed]

/-- The waiters of a thread that wait for one key. -/
def waitersFor (s : Threads α) (owner : α) (key : ℕ) : List α :=
  (s.thread owner).waiterList.filter fun x => (s.thread x).addressKey = key

def WaitsFor (s : Threads α) (t owner : α) : Prop := (s.thread t).lockOwner = some owner

omit [DecidableEq α] [Fintype α] in
theorem not_transGen_of_none {x : α} (hnone : (s.thread t).lockOwner = none) :
    ¬ Relation.TransGen s.WaitsFor t x := by
  intro hwaits
  obtain ⟨owner, howner, -⟩ := Relation.TransGen.head'_iff.mp hwaits
  exact nomatch hnone.symm.trans howner

omit [Fintype α] in
/-- Only the lists of the threads for which a thread waits, directly or through others, are
different after its priority was restored. -/
theorem waiterList_restorePriority {fuel : ℕ} {x : α} (hcount : s.Counted)
    (hx : ¬ Relation.TransGen s.WaitsFor t x) (h : s.restorePriority fuel t = .ok s') :
    (s'.thread x).waiterList = (s.thread x).waiterList := by
  induction fuel generalizing s t with
  | zero => cases h
  | succ fuel ih =>
    rw [restorePriority_succ hcount] at h
    split_ifs at h
    · cases h
      rfl
    cases howner : (s.thread t).lockOwner with
    | none =>
      rw [howner] at h
      cases h
      rw [thread_updatePriority]
    | some owner =>
      rw [howner] at h
      have hne : x ≠ owner := by
        rintro rfl
        exact hx (.single howner)
      have hwaits : (s.requeued owner t (s.restoredPriority t)).WaitsFor = s.WaitsFor := by
        funext a b
        rw [WaitsFor, thread_requeued howner a, WaitsFor]
      rw [ih (counted_requeued howner hcount) (fun hc => hx (.head howner (hwaits ▸ hc))) h,
        requeued, waiterList_added, if_neg hne, waiterList_removed, if_neg hne,
        thread_updatePriority]

/-- The threads after the loop of `RemoveWaiterByKey` are `s₀`. -/
theorem removeWaiterByKey_run (h : s.WaitInv) (owner : α) (key : ℕ) :
    ∃ b s₀, s.removeWaiterByKey owner key = .ok b ∧ b.threads.WaitInv ∧
      b.nextOwner = (s.waitersFor owner key).head? ∧
      b.numWaiters = (s.waitersFor owner key).length ∧
      (∀ t, (b.threads.thread t).lockOwner =
        handOver (s.waitersFor owner key) (fun t => (s.thread t).lockOwner) t) ∧
      OnlyWaiting s s₀ ∧ s₀.Waiting ∧ Split s owner (s.waitersFor owner key) s₀ ∧
      Restored s₀ b.threads ∧ ∀ x, ¬ Relation.TransGen s₀.WaitsFor owner x →
        (b.threads.thread x).waiterList = (s₀.thread x).waiterList := by
  have hstart : Taken s [] ⟨s, none, 0⟩ :=
    ⟨h.toWaiting, OnlyWaiting.refl s, rfl, rfl, fun t => by simp [handOver]⟩
  have hwhole : Split s owner [] s := ⟨by simp, nofun, fun _ _ _ => rfl⟩
  obtain ⟨b, hloop, htaken, hsplit⟩ := takeWaiters_spec key h.toWaiting hstart hwhole
    (List.Sublist.refl _)
  change Taken s (s.waitersFor owner key) b at htaken
  have hwaits : ∀ x ∈ s.waitersFor owner key, (s.thread x).lockOwner = some owner := fun x hx =>
    (h.mem_iff x owner).mp (List.mem_of_mem_filter hx)
  rw [removeWaiterByKey, hloop]
  simp only [bind, Except.bind]
  have hsame : ∀ x, x ≠ owner → b.nextOwner ≠ some x → b.threads.Inherits x := by
    intro x hx hnext
    refine htaken.only.inherits h.toWaiting htaken.waiting (fun w => ?_) (h.inherits x)
    rw [htaken.lockOwner, handOver]
    by_cases hw : w ∈ s.waitersFor owner key
    · rw [hwaits w hw, ← htaken.next]
      refine iff_of_false ?_ fun hc => hx (Option.some.inj hc).symm
      split_ifs
      · exact nofun
      · exact hnext
    · rw [if_neg hw]
  cases hnext : b.nextOwner with
  | none =>
    have hempty : s.waitersFor owner key = [] := List.head?_eq_none_iff.mp (htaken.next ▸ hnext)
    refine ⟨b, b.threads, rfl, ⟨htaken.waiting, fun x => ?_⟩, htaken.next, htaken.num,
      htaken.lockOwner, htaken.only, htaken.waiting, hsplit, .refl _, fun _ _ => rfl⟩
    refine htaken.only.inherits h.toWaiting htaken.waiting (fun w => ?_) (h.inherits x)
    rw [htaken.lockOwner, handOver, hempty, if_neg List.not_mem_nil]
  | some next =>
    have hhead : (s.waitersFor owner key).head? = some next := htaken.next ▸ hnext
    have hfree : (b.threads.thread next).lockOwner = none := by
      rw [htaken.lockOwner, handOver, if_pos (List.mem_of_head? hhead), if_pos hhead]
    -- The owner lost waiters and the next owner got them, so two priorities may be wrong.
    have hexempt : ∀ x, x = next → (b.threads.thread x).lockOwner = none := fun x hx => hx ▸ hfree
    obtain ⟨s₁, hfirst, hwaiting, hrestored, hall⟩ :=
      restore_spec hexempt htaken.waiting
        fun x hx hne => hsame x hx fun hc => hne (Option.some.inj (hnext ▸ hc)).symm
    obtain ⟨s₂, hsecond, hinv, hrestored'⟩ := restore_all hwaiting fun x hx =>
      hall x (.inr hx)
    refine ⟨{ b with threads := s₂ }, b.threads, ?_, hinv, htaken.next, htaken.num, fun t => ?_,
      htaken.only, htaken.waiting, hsplit, hrestored.trans hrestored', fun x hx => ?_⟩
    · simp only [hfirst, hsecond, hnext]
    · rw [hrestored'.lockOwner, hrestored.lockOwner, htaken.lockOwner]
    · rw [waiterList_restorePriority hwaiting.counted
        (not_transGen_of_none (hrestored.lockOwner next ▸ hfree)) hsecond,
        waiterList_restorePriority htaken.waiting.counted hx hfirst]

theorem removeWaiterByKey_spec (h : s.WaitInv) (owner : α) (key : ℕ) :
    ∃ b, s.removeWaiterByKey owner key = .ok b ∧ b.threads.WaitInv ∧ Framed s b.threads ∧
      b.nextOwner = (s.waitersFor owner key).head? ∧
      b.numWaiters = (s.waitersFor owner key).length ∧
      ∀ t, (b.threads.thread t).lockOwner =
        handOver (s.waitersFor owner key) (fun t => (s.thread t).lockOwner) t := by
  obtain ⟨b, s₀, hrun, hinv, hnext, hnum, howner, honly, -, -, hrestored, -⟩ :=
    removeWaiterByKey_run h owner key
  exact ⟨b, hrun, hinv, honly.framed.trans hrestored.framed, hnext, hnum, howner⟩

section

variable {f : KThread α → KThread α} (hf : f (s.thread t) = { s.thread t with
  basePriority := (f (s.thread t)).basePriority
  basePriorityOnUnpin := (f (s.thread t)).basePriorityOnUnpin })
include hf

omit [Fintype α] in
/-- The base priority of one thread is set. -/
theorem thread_modify_base (x : α) : (s.modify t f).thread x = { s.thread x with
    basePriority := ((s.modify t f).thread x).basePriority
    basePriorityOnUnpin := ((s.modify t f).thread x).basePriorityOnUnpin } := by
  by_cases hx : x = t
  · subst hx
    simpa [modify] using hf
  · simp [modify, hx]

omit [Fintype α] in
theorem reprioritized_modify : Reprioritized s (s.modify t f) := by
  refine ⟨fun x => ?_, fun h => h.congr rfl fun x => ?_⟩ <;> rw [thread_modify_base hf x]

theorem restore_base (h : s.WaitInv) :
    ∃ s', (s.modify t f).restore t = .ok s' ∧ s'.WaitInv ∧ Reprioritized s s' := by
  have hthread := thread_modify_base hf
  have hpriority : ∀ x, ((s.modify t f).thread x).priority = (s.thread x).priority := fun x => by
    rw [hthread]
  have hwaiting : (s.modify t f).Waiting := by
    refine h.toWaiting.congr rfl (fun x => ?_) fun x _ => ?_ <;>
    · rw [hthread]
      exact ⟨rfl, rfl, rfl⟩
  obtain ⟨s', hrun, hinv, hrestored⟩ := restore_all (t := t) hwaiting fun x hx => by
    have hbase : ((s.modify t f).thread x).basePriority = (s.thread x).basePriority := by
      simp [modify, hx]
    rw [Inherits, hpriority, inherited_congr h.toWaiting hwaiting hbase
      (fun w => by rw [hthread]) fun w _ => hpriority w]
    exact h.inherits x
  exact ⟨s', hrun, hinv, (reprioritized_modify hf).trans hrestored.reprioritized⟩

end

theorem setBasePriority_spec (h : s.WaitInv) (t : α) (priority : ℤ) :
    ∃ s', s.setBasePriority t priority = .ok s' ∧ s'.WaitInv ∧ Reprioritized s s' := by
  refine restore_base ?_ h
  split_ifs <;> rfl

theorem increaseBasePriority_spec (h : s.WaitInv) (t : α) (priority : ℤ) :
    ∃ s', s.increaseBasePriority t priority = .ok s' ∧ s'.WaitInv := by
  let f (x : KThread α) : KThread α :=
    if x.isPinned ∧ x.basePriorityOnUnpin > priority then { x with basePriorityOnUnpin := priority }
    else x
  have hf : f (s.thread t) = { s.thread t with
      basePriorityOnUnpin := (f (s.thread t)).basePriorityOnUnpin } := by
    simp only [f]
    split_ifs <;> rfl
  have hinv : (s.modify t f).WaitInv := h.modify rfl rfl (by rw [hf]; rfl)
    fun _ => by rw [hf]
  rw [increaseBasePriority]
  split_ifs
  · obtain ⟨s', hrun, hinv', -⟩ :=
      restore_base (t := t) (f := fun x => { x with basePriority := priority }) rfl hinv
    exact ⟨s', hrun, hinv'⟩
  · exact ⟨s.modify t f, rfl, hinv⟩

end Threads

/-! ### Runs -/

/-- The operations; before a thread waits it says for which address. -/
inductive WaitOp (α : Type) where
  | setAddressKey (t : α) (key : ℕ)
  | addWaiter (owner thread : α)
  | removeWaiter (owner thread : α)
  | removeWaiterByKey (owner : α) (key : ℕ)
  | setBasePriority (t : α) (priority : ℤ)
  | increaseBasePriority (t : α) (priority : ℤ)

namespace WaitOp

variable {α : Type} [DecidableEq α] [Fintype α]

def run (s : Threads α) : WaitOp α → Run (Threads α)
  | setAddressKey t key => .ok (s.modify t fun x => { x with addressKey := key })
  | addWaiter owner thread => s.addWaiter owner thread
  | removeWaiter owner thread => s.removeWaiter owner thread
  | removeWaiterByKey owner key => do
    let b ← s.removeWaiterByKey owner key
    .ok b.threads
  | setBasePriority t priority => s.setBasePriority t priority
  | increaseBasePriority t priority => s.increaseBasePriority t priority

/-- A thread waits for one other thread at a time, and is removed from the thread it waits for. -/
def Admissible (s : Threads α) : WaitOp α → Prop
  | setAddressKey t _ => (s.thread t).lockOwner = none
  | addWaiter owner thread => (s.thread thread).lockOwner = none ∧ thread ≠ owner
  | removeWaiter owner thread => (s.thread thread).lockOwner = some owner
  | removeWaiterByKey _ _ => True
  | setBasePriority _ _ => True
  | increaseBasePriority _ _ => True

instance (s : Threads α) : (op : WaitOp α) → Decidable (op.Admissible s)
  | setAddressKey t _ => inferInstanceAs (Decidable ((s.thread t).lockOwner = none))
  | addWaiter owner thread =>
    inferInstanceAs (Decidable ((s.thread thread).lockOwner = none ∧ thread ≠ owner))
  | removeWaiter owner thread =>
    inferInstanceAs (Decidable ((s.thread thread).lockOwner = some owner))
  | removeWaiterByKey _ _ => isTrue trivial
  | setBasePriority _ _ => isTrue trivial
  | increaseBasePriority _ _ => isTrue trivial

theorem run_spec {s : Threads α} {op : WaitOp α} (h : s.WaitInv) (hop : op.Admissible s) :
    ∃ s', op.run s = .ok s' ∧ s'.WaitInv := by
  cases op with
  | setAddressKey t key =>
    refine ⟨_, rfl, h.modify rfl rfl rfl ?_⟩
    rw [show (s.thread t).lockOwner = none from hop]
    exact nofun
  | addWaiter owner thread =>
    obtain ⟨s', hrun, hinv, _⟩ := Threads.addWaiter_spec h hop.1 hop.2
    exact ⟨s', hrun, hinv⟩
  | removeWaiter owner thread =>
    obtain ⟨s', hrun, hinv, _⟩ := Threads.removeWaiter_spec h hop
    exact ⟨s', hrun, hinv⟩
  | removeWaiterByKey owner key =>
    obtain ⟨b, hrun, hinv, _⟩ := Threads.removeWaiterByKey_spec h owner key
    refine ⟨b.threads, ?_, hinv⟩
    simp only [run, hrun, bind, Except.bind]
  | setBasePriority t priority =>
    obtain ⟨s', hrun, hinv, _⟩ := Threads.setBasePriority_spec h t priority
    exact ⟨s', hrun, hinv⟩
  | increaseBasePriority t priority =>
    exact Threads.increaseBasePriority_spec h t priority

end WaitOp

section Run

variable {α : Type}

/-- Nobody waits yet. -/
def Threads.Start (s : Threads α) : Prop :=
  ∀ t, (s.thread t).lockOwner = none ∧ (s.thread t).waiterList = [] ∧
    (s.thread t).numKernelWaiters = 0 ∧ (s.thread t).priority = (s.thread t).basePriority

variable {s : Threads α}

theorem Threads.Start.waitInv (h : s.Start) : s.WaitInv := by
  refine ⟨⟨fun t o => ?_, fun o => ?_, fun t ht => ?_, fun o => ?_, fun t => ?_⟩, fun t => ?_⟩
  · rw [(h o).2.1, (h t).1]
    exact iff_of_false List.not_mem_nil nofun
  · rw [(h o).2.1]
    exact List.Pairwise.nil
  · rw [(h t).1] at ht
    cases ht
  · rw [(h o).2.1, (h o).2.2.1]
    rfl
  · rw [(h t).1]
    exact nofun
  · rw [Threads.Inherits, Threads.inherited, (h t).2.1]
    exact (h t).2.2.2

variable [DecidableEq α] [Fintype α] {ops : List (WaitOp α)}

/-- The states that sequences of operations lead to. -/
inductive WaitRun : List (WaitOp α) → Threads α → Prop
  | start {s : Threads α} (h : s.Start) : WaitRun [] s
  | step {ops : List (WaitOp α)} {s s' : Threads α} {op : WaitOp α} (h : WaitRun ops s)
      (hop : op.Admissible s) (hrun : op.run s = .ok s') : WaitRun (ops ++ [op]) s'

theorem WaitRun.waitInv (h : WaitRun ops s) : s.WaitInv := by
  induction h with
  | start h => exact h.waitInv
  | step _ hop hrun ih =>
    obtain ⟨s'', hrun', hinv⟩ := WaitOp.run_spec ih hop
    obtain rfl := Except.ok.inj (hrun.symm.trans hrun')
    exact hinv

/-- After every operation the priorities are those inherited, the lists are in the order of
priorities and then of insertion, and lists, owners and counts agree; and every operation
returns. -/
theorem waitRun_inherits {ops : List (WaitOp α)} {s : Threads α} (h : WaitRun ops s) :
    (∀ t, (s.thread t).priority =
      ((s.thread t).waiterList.map fun w => (s.thread w).priority).foldr min
        (s.thread t).basePriority) ∧
    (∀ owner, (s.thread owner).waiterList.Pairwise fun a b =>
      (s.thread a).priority < (s.thread b).priority ∨
        (s.thread a).priority = (s.thread b).priority ∧
          (s.thread a).arrival < (s.thread b).arrival) ∧
    (∀ owner, ∀ t ∈ (s.thread owner).waiterList, (s.thread t).lockOwner = some owner) ∧
    (∀ owner, (s.thread owner).numKernelWaiters = ((s.thread owner).waiterList.countP fun t =>
        isKernelAddressKey (s.thread t).addressKey : ℤ)) ∧
    ∀ op : WaitOp α, op.Admissible s → ∃ s', op.run s = .ok s' := by
  have hinv := h.waitInv
  refine ⟨hinv.inherits, hinv.sorted, fun owner t ht => (hinv.mem_iff t owner).mp ht, hinv.count,
    fun op hop => ?_⟩
  obtain ⟨s', hrun, _⟩ := WaitOp.run_spec hinv hop
  exact ⟨s', hrun⟩

/-- Where nobody waits in a circle, a thread runs with the best base priority of itself and of
all that wait for it, directly or through other owners. -/
theorem waitRun_priority_isLeast (h : WaitRun ops s) (hwf : WellFounded s.WaitsFor) (owner : α) :
    IsLeast {p | ∃ t, Relation.ReflTransGen s.WaitsFor t owner ∧ (s.thread t).basePriority = p}
      (s.thread owner).priority := by
  have hinv := h.waitInv
  have hle := fun t => hinv.le_inherited_iff.mp (hinv.inherits t).le
  constructor
  · induction owner using hwf.induction with
    | h owner ih =>
      by_contra hnot
      -- a priority that is nobody's base could be one worse
      have hworse : (s.thread owner).priority + 1 ≤ s.inherited owner := by
        refine hinv.le_inherited_iff.mpr ⟨?_, fun t ht => ?_⟩
        · exact lt_of_le_of_ne (hle owner).1 fun heq => hnot ⟨owner, .refl, heq.symm⟩
        · refine lt_of_le_of_ne ((hle owner).2 t ht) fun heq => hnot ?_
          obtain ⟨w, hw, hbase⟩ := ih t ht
          exact ⟨w, hw.tail ht, hbase.trans heq.symm⟩
      rw [← hinv.inherits owner] at hworse
      omega
  · rintro p ⟨t, hwaits, rfl⟩
    induction hwaits with
    | refl => exact (hle t).1
    | tail _ ht ih => exact ((hle _).2 _ ht).trans ih

/-- An operation that may be next is next. -/
theorem WaitRun.next (h : WaitRun ops s) (op : WaitOp α)
    (hop : op.Admissible s) : WaitRun (ops ++ [op]) ((op.run s).toOption.getD s) := by
  obtain ⟨s', hrun, _⟩ := WaitOp.run_spec h.waitInv hop
  rw [hrun]
  exact h.step hop hrun

end Run

/-- Four threads, none of which waits. -/
def fourThreads : Threads (Fin 4) where
  thread t :=
    { priority := 10 * (t : ℤ) + 10, basePriority := 10 * (t : ℤ) + 10, basePriorityOnUnpin := 0
      isPinned := false, terminationRequested := false, addressKey := 0, addressKeyValue := 0
      lockOwner := none, waiterList := [], numKernelWaiters := 0, condvarTree := false
      condvarKey := 0, arrival := 0 }
  tree := []
  clock := 0

/-- The state after thread 0 and then thread 1 began to wait for thread 2, and thread 0 got the
priority of thread 1. -/
def threadTwoOwns : Threads (Fin 4) :=
  [.addWaiter 2 0, .addWaiter 2 1, .setBasePriority 0 20].foldl
    (fun s (op : WaitOp (Fin 4)) => (op.run s).toOption.getD s) fourThreads

theorem waitRun_threadTwoOwns :
    WaitRun [.addWaiter 2 0, .addWaiter 2 1, .setBasePriority 0 20] threadTwoOwns := by
  have hstart : WaitRun [] fourThreads := .start fun _ => ⟨rfl, rfl, rfl, rfl⟩
  have hfirst := hstart.next (.addWaiter 2 0) (by decide +kernel)
  have hsecond := hfirst.next (.addWaiter 2 1) (by decide +kernel)
  exact hsecond.next (.setBasePriority 0 20) trivial

theorem threadTwoOwns_isLeast : IsLeast {p | ∃ t, Relation.ReflTransGen threadTwoOwns.WaitsFor t 2 ∧
    (threadTwoOwns.thread t).basePriority = p} 20 := by
  have hlt : ∀ t owner, (threadTwoOwns.thread t).lockOwner = some owner → t < owner := by
    decide +kernel
  exact waitRun_priority_isLeast waitRun_threadTwoOwns (Subrelation.wf (hlt _ _) wellFounded_lt) 2

/-- The waiter that came first is behind the other one, which has its priority. -/
theorem first_waiter_is_last : WaitRun [.addWaiter 2 0, .addWaiter 2 1, .setBasePriority 0 20]
      threadTwoOwns ∧
    (threadTwoOwns.thread 0).priority = (threadTwoOwns.thread 1).priority ∧
    (threadTwoOwns.thread 2).waiterList = [1, 0] :=
  ⟨waitRun_threadTwoOwns, by decide +kernel, by decide +kernel⟩

theorem threadTwoOwns_inherits : WaitRun [.addWaiter 2 0, .addWaiter 2 1, .setBasePriority 0 20]
      threadTwoOwns ∧
    ∀ t, (threadTwoOwns.thread t).priority =
      ((threadTwoOwns.thread t).waiterList.map fun w => (threadTwoOwns.thread w).priority).foldr min
        (threadTwoOwns.thread t).basePriority :=
  ⟨waitRun_threadTwoOwns, (waitRun_inherits waitRun_threadTwoOwns).1⟩

end Atmosphere.Kern
