import Atmosphere.Kern.PriorityInheritanceRun

/-!
# Cyclic owners and the hand-over of waiters

Threads may wait for each other in a circle, or for themselves. `RestorePriority` still returns:
no round sets a priority above that of the round before, so the threads that have another priority
become fewer until a lower one is set.
-/

namespace Atmosphere.Kern.Threads

open Finset

variable {α : Type} {s s' : Threads α} {owner t : α} {v w low : ℤ}

/-! ### Any waits-for graph -/

variable [DecidableEq α]

/-- The first waiter is not behind a new one. -/
theorem restoredPriority_added_le :
    (s.added owner t).restoredPriority owner ≤ (s.thread t).priority := by
  unfold restoredPriority
  rw [waiterList_added, if_pos rfl]
  cases (s.thread owner).waiterList with
  | nil => exact min_le_right _ _
  | cons y l =>
    rw [insertBefore]
    split_ifs with hy
    · exact min_le_right _ _
    · exact (min_le_right _ _).trans (not_lt.mp fun hc => hy (decide_eq_true hc))

theorem restoredPriority_requeued_le : (s.requeued owner t v).restoredPriority owner ≤ v := by
  refine restoredPriority_added_le.trans ?_
  rw [thread_removed, thread_updatePriority, if_pos rfl]

variable [Fintype α]

/-- At most so many rounds follow one that set a priority to `v`. -/
def roundsLeft (low : ℤ) (s : Threads α) (v : ℤ) : ℕ :=
  (v - low).toNat * (Fintype.card α + 1) + #{x | (s.thread x).priority ≠ v}

theorem roundsLeft_lt (hlow : low ≤ w) (hle : w ≤ v) (hne : w ≠ (s.thread t).priority)
    (hpriority : ∀ x, (s'.thread x).priority = if x = t then w else (s.thread x).priority) :
    roundsLeft low s' w < roundsLeft low s v := by
  unfold roundsLeft
  obtain rfl | hlt := hle.eq_or_lt
  · refine Nat.add_lt_add_left (card_lt_card (ssubset_iff_of_subset ?_ |>.mpr ⟨t, ?_, ?_⟩)) _
    · intro x
      simp only [mem_filter_univ, hpriority]
      split_ifs
      · exact fun hc => absurd rfl hc
      · exact id
    · simpa using hne.symm
    · simp [hpriority]
  · have hcard := card_le_univ ({x | (s'.thread x).priority ≠ w} : Finset α)
    have hless : (w - low).toNat + 1 ≤ (v - low).toNat := by omega
    calc _ < (w - low).toNat * (Fintype.card α + 1) + (Fintype.card α + 1) := by omega
      _ = ((w - low).toNat + 1) * (Fintype.card α + 1) := (Nat.succ_mul ..).symm
      _ ≤ (v - low).toNat * (Fintype.card α + 1) := Nat.mul_le_mul_right _ hless
      _ ≤ _ := Nat.le_add_right _ _

theorem restorePriority_returns {fuel : ℕ} (hcount : s.Counted)
    (hlow : ∀ x, low ≤ (s.thread x).basePriority ∧ low ≤ (s.thread x).priority)
    (hle : s.restoredPriority t ≤ v) (hfuel : roundsLeft low s v < fuel) :
    ∃ s', s.restorePriority fuel t = .ok s' := by
  induction fuel generalizing s t v with
  | zero => exact absurd hfuel (Nat.not_lt_zero _)
  | succ fuel ih =>
    rw [restorePriority_succ hcount]
    split_ifs with hsame
    · exact ⟨s, rfl⟩
    cases howner : (s.thread t).lockOwner with
    | none => exact ⟨_, rfl⟩
    | some owner =>
      have hnew : low ≤ s.restoredPriority t := by
        unfold restoredPriority
        split
        · exact (hlow t).1
        · exact le_min (hlow t).1 (hlow _).2
      have hthread := thread_requeued (v := s.restoredPriority t) howner
      refine ih ?_ (fun x => ?_) restoredPriority_requeued_le
        ((roundsLeft_lt hnew hle hsame fun x => ?_).trans_le (Nat.le_of_lt_succ hfuel))
      · exact counted_requeued howner hcount
      · rw [hthread x]
        refine ⟨(hlow x).1, ?_⟩
        split_ifs
        · exact hnew
        · exact (hlow x).2
      · rw [hthread x]

/-- `RestorePriority` returns in every waits-for graph. -/
theorem restorePriority_terminates (s : Threads α) (hcount : s.Counted) (t : α) :
    ∃ rounds, ∀ fuel ≥ rounds, ∃ s', s.restorePriority fuel t = .ok s' := by
  obtain ⟨low, hlow⟩ :=
    Finite.exists_ge fun x => min (s.thread x).basePriority (s.thread x).priority
  refine ⟨roundsLeft low s (s.restoredPriority t) + 1, fun fuel hfuel =>
    restorePriority_returns hcount (fun x => le_min_iff.mp (hlow x)) le_rfl hfuel⟩

/-- Two threads that wait for each other, one of them with a base priority that is better. -/
def waitingInCircle : Threads Bool where
  thread t := { fourThreads.thread 2 with
    basePriority := if t then 10 else 20, lockOwner := some !t, waiterList := [!t] }
  tree := []
  clock := 0

theorem restorePriority_waitingInCircle :
    ∃ rounds, ∀ fuel ≥ rounds, ∃ s', waitingInCircle.restorePriority fuel true = .ok s' :=
  restorePriority_terminates waitingInCircle (by unfold Counted; decide +kernel) true

/-! ### The waiters for one key -/

/-- `RemoveWaiterByKey` hands the waiters for the key over to the first of them; `s₀` are the
threads before the priorities are restored. The lists have the same threads afterwards, and are
the same unless the owner waits, directly or through others, for the thread whose list it is. -/
theorem removeWaiterByKey_hands_over (h : s.WaitInv) (owner : α) (key : ℕ) :
    ∃ b s₀, s.removeWaiterByKey owner key = .ok b ∧
      b.nextOwner = (s.waitersFor owner key).head? ∧
      b.numWaiters = (s.waitersFor owner key).length ∧
      Split s owner (s.waitersFor owner key) s₀ ∧
      (s₀.thread owner).waiterList =
        (s.thread owner).waiterList.filter (fun x => (s.thread x).addressKey ≠ key) ∧
      Restored s₀ b.threads ∧ b.threads.WaitInv ∧
      (∀ t, (b.threads.thread t).lockOwner =
        handOver (s.waitersFor owner key) (fun t => (s.thread t).lockOwner) t) ∧
      ∀ x, (b.threads.thread x).waiterList.Perm (s₀.thread x).waiterList ∧
        (¬ Relation.TransGen s₀.WaitsFor owner x →
          (b.threads.thread x).waiterList = (s₀.thread x).waiterList) := by
  obtain ⟨b, s₀, hrun, hinv, hnext, hnum, howner, -, hwaiting, hsplit, hrestored, hlists⟩ :=
    removeWaiterByKey_run h owner key
  refine ⟨b, s₀, hrun, hnext, hnum, hsplit, ?_, hrestored, hinv, howner,
    fun x => ⟨hrestored.perm hwaiting hinv.toWaiting x, hlists x⟩⟩
  rw [hsplit.kept]
  refine List.filter_congr fun x hx => ?_
  simp [waitersFor, hx]

/-- Two threads that wait for the first one with the same key, and one with another key. -/
def threeWaiters : Threads (Fin 4) where
  thread t := { fourThreads.thread 2 with
    lockOwner := if t = 0 then none else some 0
    addressKey := if t = 2 then 0x2000 else 0x1000
    waiterList := if t = 0 then [1, 2, 3] else []
    arrival := t }
  tree := []
  clock := 4

theorem removeWaiterByKey_threeWaiters : ∃ b,
    threeWaiters.removeWaiterByKey 0 0x1000 = .ok b ∧ b.nextOwner = some 1 ∧ b.numWaiters = 2 ∧
      (b.threads.thread 0).waiterList = [2] ∧ (b.threads.thread 1).waiterList = [3] := by
  have hinv : threeWaiters.WaitInv := by
    refine ⟨⟨by decide, fun o => ?_, by decide, by decide, by decide⟩, by unfold Inherits; decide⟩
    revert o
    unfold Before
    decide
  obtain ⟨b, s₀, hrun, hnext, hnum, hsplit, hkept, hrestored, -, howner, hlists⟩ :=
    removeWaiterByKey_hands_over hinv 0 0x1000
  have hnone : (s₀.thread 0).lockOwner = none := (hrestored.lockOwner 0).symm.trans (howner 0)
  have hmoved : ((s₀.thread 1).waiterList).Perm [3] := (hsplit.moved 1 rfl).2
  exact ⟨b, hrun, hnext, hnum, ((hlists 0).2 (not_transGen_of_none hnone)).trans hkept,
    ((hlists 1).2 (not_transGen_of_none hnone)).trans (List.perm_singleton.mp hmoved)⟩

end Atmosphere.Kern.Threads
