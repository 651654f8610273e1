import Atmosphere.Kern.UserMutexSimulation

/-!
# Runs of the mutexes of a process

From a state in which all mutexes are free and nobody waits, every sequence of enabled
operations keeps words, owners, queues and the tree in agreement.
-/

namespace Atmosphere.Kern

namespace MutexState

variable {α : Type} [DecidableEq α] {u : MutexUsers α} {s s' : MutexState α} {t : α} {m : ℕ}

/-- All mutexes are free and nobody waits. -/
structure Start (u : MutexUsers α) (s : MutexState α) : Prop where
  threads : s.process.threads.Start
  tree : s.process.threads.tree = []
  condvarTree : ∀ t, (s.process.threads.thread t).condvarTree = false
  waitQueue : ∀ t, s.process.waitQueue t = none
  memory : ∀ m ∈ u.mutexes, s.process.memory m = 0
  pc : ∀ t, s.pc t = .running
  holds : ∀ t m, s.holds t m = false

omit [DecidableEq α] in
theorem Start.simulates (h : Start u s) : Simulates u s HandOffLock.State.start := by
  refine ⟨HandOffLock.inv_start, h.threads.waitInv, ⟨?_, fun t => ?_⟩, h.memory, fun t m => ?_,
    fun t => ?_, fun t m hm => ?_⟩
  · rw [h.tree]
    exact List.nodup_nil
  · rw [h.tree, h.condvarTree]
    exact iff_of_false List.not_mem_nil Bool.false_ne_true
  · refine iff_of_false not_false fun hc => ?_
    obtain hc | hc := hc
    · rw [h.holds] at hc
      cases hc
    · have hpc : s.pc t = .inWait m := hc.1
      rw [h.pc] at hpc
      cases hpc
  · exact .running ⟨h.waitQueue t, (h.threads t).1, h.condvarTree t⟩ (h.pc t)
  · exact hm.elim (fun hc => nomatch hc) False.elim

variable [Fintype α]

/-- The states that sequences of operations lead to. -/
inductive MutexRun (u : MutexUsers α) : MutexState α → Prop
  | start {s : MutexState α} (h : Start u s) : MutexRun u s
  | step {s s' : MutexState α} {op : UserOp α} (h : MutexRun u s) (hop : s.Enabled u op)
      (hrun : s.run u op = .ok s') : MutexRun u s'

variable {a : HandOffLock.State α ℕ}

/-- Every enabled operation returns and is some steps of the protocol. -/
theorem Simulates.run (h : Simulates u s a) (op : UserOp α) (hop : s.Enabled u op) :
    ∃ s', s.run u op = .ok s' ∧ Follows u s' a := by
  cases op with
  | beginLock t m => exact ⟨_, rfl, h.beginLock hop.1 hop.2.1 hop.2.2⟩
  | updateWord t m => exact ⟨_, rfl, h.updateWord hop⟩
  | waitForAddress t m tag => exact h.waitForAddress hop
  | afterWaitForAddress t m => exact ⟨_, rfl, h.afterWaitForAddress hop.1 hop.2⟩
  | unlock t m => exact h.unlock hop.1 hop.2
  | wait t m key timeout => exact h.wait hop.1 hop.2.1 hop.2.2 timeout
  | afterWait t m => exact h.afterWait hop.1 hop.2
  | signal t key count => exact h.signal hop.2 count
  | cancelWait t result =>
    obtain ⟨k, hrun, hsim⟩ := h.cancelWait hop t
    refine ⟨_, ?_, hsim⟩
    simp only [MutexState.run, hrun, bind, Except.bind]
  | setBasePriority t priority =>
    obtain ⟨threads, hrun, hsim⟩ := h.setBasePriority t priority
    refine ⟨_, ?_, a, .refl, hsim⟩
    simp only [MutexState.run, hrun, bind, Except.bind]
  | requestTerminate t =>
    obtain ⟨k, hrun, hsim⟩ := h.requestTerminate t
    refine ⟨_, ?_, hsim⟩
    simp only [MutexState.run, hrun, bind, Except.bind]

theorem MutexRun.simulates (h : MutexRun u s) : ∃ a, Simulates u s a := by
  induction h with
  | start h => exact ⟨_, h.simulates⟩
  | step _ hop hrun ih =>
    obtain ⟨a, h⟩ := ih
    obtain ⟨s', hrun', a', _, h'⟩ := h.run _ hop
    obtain rfl := Except.ok.inj (hrun.symm.trans hrun')
    exact ⟨a', h'⟩

/-- The thread has the mutex: it knows, or `Wait` was successful and is about to return. -/
def Owns (s : MutexState α) (t : α) (m : ℕ) : Prop := s.holds t m = true ∨ (s.view t).Woken m

/-- The thread does not wait, and will look at the word of the mutex. -/
def WillLook (s : MutexState α) (t : α) (m : ℕ) : Prop :=
  s.pc t = .locking m ∨
    s.process.waitQueue t = none ∧ (s.pc t = .inWaitForAddress m ∨ s.pc t = .inWait m)

omit [DecidableEq α] [Fintype α] in
/-- The thread that a word names has the mutex or will find out. -/
theorem Simulates.owns_or_willLook {b : Bool} (h : Simulates u s a)
    (hword : a.word m = some (t, b)) : s.Owns t m ∨ s.WillLook t m := by
  obtain hholds | hlocking := h.inv.word hword
  · exact .inl ((h.holds t m).mp hholds)
  · have hshows := h.shows t
    rw [hlocking] at hshows
    refine .inr ?_
    cases hshows with
    | locking _ hpc => exact .inl hpc
    | returned hidle hpc => exact .inr ⟨hidle.1, .inl hpc⟩
    | failed hidle hpc => exact .inr ⟨hidle.1, .inr hpc⟩

omit [DecidableEq α] [Fintype α] in
/-- A thread that waits is in the tree or in one list. -/
theorem Simulates.waits_once (h : Simulates u s a)
    (hqueue : (s.process.waitQueue t).isSome = true) : (t ∈ s.process.threads.tree ∧
      ∀ owner, t ∉ (s.process.threads.thread owner).waiterList) ∨
    (t ∉ s.process.threads.tree ∧ ∃! owner, t ∈ (s.process.threads.thread owner).waiterList) := by
  have hidle : ¬ (s.view t).Idle := fun hidle => by
    rw [show s.process.waitQueue t = none from hidle.1] at hqueue
    cases hqueue
  have hlist : ∀ {owner : Option α} {queue : ThreadQueue} {m : ℕ} {handle : BitVec 32},
      (s.view t).Blocked queue owner m handle →
      ∀ o, t ∈ (s.process.threads.thread o).waiterList ↔ owner = some o := fun hblocked o => by
    rw [h.waiting.mem_iff, ← hblocked.2.1]
    rfl
  have hqueued : ∀ {owner : α} {queue : ThreadQueue} {m : ℕ} {handle : BitVec 32},
      (s.view t).Blocked queue (some owner) m handle → t ∉ s.process.threads.tree ∧
        ∃! owner, t ∈ (s.process.threads.thread owner).waiterList := fun hblocked => by
    refine ⟨fun hin => ?_, _, (hlist hblocked _).mpr rfl, fun o ho => ?_⟩
    · have hflag : (s.process.threads.thread t).condvarTree = false := hblocked.2.2.1
      rw [h.tree.mem_iff, hflag] at hin
      cases hin
    · exact (Option.some.inj ((hlist hblocked o).mp ho)).symm
  have hshows := h.shows t
  generalize a.phase t = p at hshows
  cases hshows with
  | running hc | woken hc | locking hc | returned hc | failed hc
  | arbitrating hc => exact absurd hc hidle
  | queued hblocked | requeued hblocked => exact .inr (hqueued hblocked)
  | sleeping hblocked =>
    refine .inl ⟨(h.tree.mem_iff t).mpr hblocked.2.2.1, fun o ho => ?_⟩
    exact nomatch (hlist hblocked o).mp ho

/-- In every state a mutex has at most one owner and its word says which; a thread in a waiter
list waits for the thread that the marked word of its mutex names, which has the mutex or is
about to look at the word; a thread that waits is in the tree or in one list; and the operations
return. -/
theorem mutexRun_no_lost_waiter (h : MutexRun u s) : (∀ m t t', s.Owns t m → s.Owns t' m → t = t') ∧
    (∀ t m, s.Owns t m → s.process.memory m &&& ~~~handleWaitMask = u.handle t) ∧
    (∀ owner, ∀ t ∈ (s.process.threads.thread owner).waiterList,
      s.process.memory (s.process.threads.thread t).addressKey = u.handle owner ||| handleWaitMask ∧
      (s.Owns owner (s.process.threads.thread t).addressKey ∨
        s.WillLook owner (s.process.threads.thread t).addressKey)) ∧
    (∀ t, (s.process.waitQueue t).isSome = true → (t ∈ s.process.threads.tree ∧
        ∀ owner, t ∉ (s.process.threads.thread owner).waiterList) ∨
      (t ∉ s.process.threads.tree ∧ ∃! owner, t ∈ (s.process.threads.thread owner).waiterList)) ∧
    ∀ op, s.Enabled u op → ∃ s', s.run u op = .ok s' := by
  obtain ⟨a, h⟩ := h.simulates
  refine ⟨fun m t t' ht ht' => ?_, fun t m ht => ?_, fun owner t ht => ?_, fun t => h.waits_once,
    fun op hop => ?_⟩
  · exact h.inv.holds_unique ((h.holds t m).mpr ht) ((h.holds t' m).mpr ht')
  · have hholds := (h.holds t m).mpr ht
    obtain ⟨b, hb⟩ := h.inv.holds hholds
    rw [h.word m (h.mutex t m (.inr hholds)), hb, u.tag_encode]
  · obtain ⟨c, hphase⟩ := (h.shows t).eq_queued ((h.waiting.mem_iff t owner).mp ht)
    have hword := h.inv.queued hphase
    refine ⟨?_, h.owns_or_willLook hword⟩
    have hm := h.mutex t _ (.inl (by rw [hphase]; rfl))
    exact (h.word _ hm).trans (congrArg u.encode hword)
  · obtain ⟨s', hrun, _⟩ := h.run op hop
    exact ⟨s', hrun⟩

/-- An operation that is enabled is next. -/
theorem MutexRun.next (h : MutexRun u s) (op : UserOp α) (hop : s.Enabled u op) :
    MutexRun u ((s.run u op).toOption.getD s) := by
  obtain ⟨a, hsim⟩ := h.simulates
  obtain ⟨s', hrun, _⟩ := hsim.run op hop
  rw [hrun]
  exact h.step hop hrun

end MutexState

/-- Two threads with one mutex. -/
def twoUsers : MutexUsers Bool where
  canAccess _ := true
  getObject handle := if handle = 1 then some false else if handle = 2 then some true else none
  handle t := if t then 2 else 1
  mutexes := {8}
  getObject_handle := by decide
  handle_ne_zero := by decide
  handle_and_mask := by decide
  canAccess_mutex _ _ := rfl

def twoUsersStart : MutexState Bool where
  process :=
    { threads :=
        { thread := fun _ =>
            { priority := 20, basePriority := 20, basePriorityOnUnpin := 0, isPinned := false
              terminationRequested := false, addressKey := 0, addressKeyValue := 0
              lockOwner := none, waiterList := [], numKernelWaiters := 0, condvarTree := false
              condvarKey := 0, arrival := 0 }
          tree := [], clock := 0 }
      waitQueue := fun _ => none, waitResult := fun _ => .success, memory := fun _ => 0 }
  pc _ := .running
  holds _ _ := false

/-- The first thread takes the mutex and the second one waits for it. -/
def secondWaits : MutexState Bool :=
  [.beginLock false 8, .updateWord false 8, .beginLock true 8, .updateWord true 8,
    .waitForAddress true 8 1].foldl (fun s (op : UserOp Bool) => (s.run twoUsers op).toOption.getD s)
      twoUsersStart

theorem mutexRun_secondWaits : MutexState.MutexRun twoUsers secondWaits := by
  have hstart : MutexState.MutexRun twoUsers twoUsersStart :=
    .start ⟨fun _ => ⟨rfl, rfl, rfl, rfl⟩, rfl, fun _ => rfl, fun _ => rfl, fun _ _ => rfl,
      fun _ => rfl, fun _ _ => rfl⟩
  have hfirst := (hstart.next (.beginLock false 8) ⟨rfl, rfl, rfl⟩).next (.updateWord false 8) rfl
  have hsecond := (hfirst.next (.beginLock true 8) ⟨by decide +kernel, by decide +kernel, rfl⟩).next
    (.updateWord true 8) (show _ = _ by decide +kernel)
  exact hsecond.next (.waitForAddress true 8 1) (show _ = _ by decide +kernel)

theorem secondWaits_no_lost_waiter :
    true ∈ (secondWaits.process.threads.thread false).waiterList ∧
      secondWaits.process.memory (secondWaits.process.threads.thread true).addressKey =
        twoUsers.handle false ||| handleWaitMask := by
  have hmem : true ∈ (secondWaits.process.threads.thread false).waiterList := by decide +kernel
  exact ⟨hmem, ((MutexState.mutexRun_no_lost_waiter mutexRun_secondWaits).2.2.1 _ _ hmem).1⟩

end Atmosphere.Kern
