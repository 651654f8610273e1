import Atmosphere.Kern.UserMutexView

/-!
# The mutexes of a process are handed from owner to owner

Each operation of a thread and each call of the kernel is some steps of `HandOffLock`.
-/

namespace Atmosphere.Kern

open HandOffLock (Phase Caller Step)
open Function (update update_self update_of_ne update_apply)
open ProcessState (wake beginWait endWait leaveTree)

namespace MutexState.Simulates

variable {α : Type} [DecidableEq α] {u : MutexUsers α} {s s' : MutexState α}
variable {a : HandOffLock.State α ℕ} {t owner : α} {m : ℕ}

section

variable (h : Simulates u s a)
include h

theorem beginLock (hpc : s.pc t = .running) (hnot : s.holds t m = false) (hm : m ∈ u.mutexes) :
    Follows u (s.setPc t (.locking m)) a := by
  obtain ⟨hphase, hidle⟩ := (h.shows t).eq_running hpc
  have hholds := h.holds_iff hpc (by nofun)
  have hstep : Step a { a with phase := update a.phase t (.locking m) } :=
    .begin hphase (by rw [hholds, hnot]; exact Bool.false_ne_true)
  exact h.goOn (.single hstep) h.word (.locking hidle rfl) nofun hholds (h.mutex_of_wants hm rfl)

theorem updateWord (hpc : s.pc t = .locking m) : Follows u (s.updateWord u t m) a := by
  obtain ⟨hphase, hidle⟩ := (h.shows t).eq_locking hpc
  have hm : m ∈ u.mutexes := h.mutex t m (.inl (by rw [hphase]; rfl))
  have hholds := h.holds_iff hpc (by nofun)
  have hacquired : ∀ k, a.acquired t m t k ↔ (s.setHolds t m true).holds t k = true := fun k => by
    rw [holds_setHolds, HandOffLock.State.acquired, hholds]
    by_cases hk : k = m <;> simp [hk]
  have hacquired' : ∀ x k, x ≠ t → (a.acquired t m x k ↔ a.holds x k) ∧
      (s.setHolds t m true).holds x k = s.holds x k := fun x k hx =>
    ⟨or_iff_right fun hc => hx hc.1, holds_setHolds_of_ne s hx m k true⟩
  have hmutex : ∀ k, (Phase.running : Phase α ℕ).wants = some k ∨ a.acquired t m t k →
      k ∈ u.mutexes := by
    rintro k (hk | ⟨_, rfl⟩ | hk)
    · cases hk
    · exact hm
    · exact h.mutex t k (.inr hk)
  have hword := h.word m hm
  unfold MutexState.updateWord
  cases hw : a.word m with
  | none =>
    have hzero : s.process.memory m = 0 := by rw [hword, hw]; rfl
    simp only [if_pos hzero]
    exact h.user (.single (.acquire hphase hw)) (h.word_update fun k _ => rfl) hacquired' hmutex
      (fun _ => rfl) rfl (.running hidle rfl) nofun hacquired
  | some w =>
    obtain ⟨o, b⟩ := w
    rw [hw] at hword
    have hzero : s.process.memory m ≠ 0 := by
      rw [hword]
      exact u.encode_some_ne_zero o b
    have htag : s.process.memory m &&& ~~~handleWaitMask = u.handle o := by
      rw [hword, u.tag_encode]
    simp only [if_neg hzero, htag]
    by_cases ho : o = t
    · subst ho
      rw [if_pos rfl]
      exact h.user (.single (.recognise hphase hw)) h.word hacquired' hmutex (fun _ => rfl) rfl
        (.running hidle rfl) nofun hacquired
    · rw [if_neg fun hc => ho (u.handle_injective hc)]
      refine h.goOn (.single (.mark hphase hw ho)) (h.word_update fun k _ => ?_)
        (.arbitrating hidle rfl) nofun hholds (h.mutex_of_wants hm rfl)
      rw [← u.encode_or_mask o b, ← hword]

theorem afterWaitForAddress (hpc : s.pc t = .inWaitForAddress m)
    (hqueue : s.process.waitQueue t = none) : Follows u (s.setPc t (.locking m)) a := by
  obtain ⟨hphase, hidle⟩ := (h.shows t).eq_of_inWaitForAddress hpc hqueue
  exact h.goOn (by rw [Function.update_eq_self]) h.word (hphase ▸ .locking hidle rfl) nofun
    (h.holds_iff hpc (by nofun)) (h.mutex t)

omit [DecidableEq α] in
/-- The word of a mutex that the thread holds can be written. -/
theorem of_holds (hholds : s.holds t m = true) : a.holds t m ∧ m ∈ u.mutexes ∧
    ∀ (k : ProcessState α) v, u.writeToUser k m v =
      some { k with memory := update k.memory m v } := by
  have hheld := (h.holds t m).mpr (.inl hholds)
  have hm := h.mutex t m (.inr hheld)
  exact ⟨hheld, hm, fun k v => if_pos (u.canAccess_mutex m hm)⟩

/-- What the threads hold after a release. -/
theorem holds_released (hpc : s.pc t = .running) (x : α) (k : ℕ) :
    a.released t m x k ↔ (s.setHolds t m false).holds x k = true ∨ (s.view x).Woken k := by
  rw [HandOffLock.State.released, h.holds]
  by_cases hx : x = t
  · subst hx
    have hnot : ¬ (s.view x).Woken k := fun hwoken => by
      have hpc' : s.pc x = .inWait k := hwoken.1
      rw [hpc] at hpc'
      cases hpc'
    rw [holds_setHolds]
    by_cases hk : k = m
    · subst hk
      simp [hnot]
    · simp [hk]
  · rw [holds_setHolds_of_ne s hx]
    simp [hx]

end

variable {threads : Threads α} {key : ℕ} {result : WaitResult}

section

variable (h : Simulates u s a) (hpc : s.pc t = .running) {memory : ℕ → BitVec 32}
include h hpc

/-- The mutex is released and nobody waits for it. -/
theorem release_free (hholds : a.holds t m) (hnone : s.process.threads.waitersFor t m = [])
    (hwaiting : threads.WaitInv) (hframed : Threads.Framed s.process.threads threads)
    (howner : ∀ x, (threads.thread x).lockOwner = (s.process.threads.thread x).lockOwner)
    (hmemory : ∀ k ∈ u.mutexes, memory k = update s.process.memory m 0 k) :
    Follows u
      ({ s with process := { s.process with threads := threads, memory := memory } }.setHolds t m
        false) a := by
  have hqueue : a.NoneQueued m := fun x o c hphase => by
    have hmem := (h.mem_waitersFor hholds x).mpr ⟨o, c, hphase⟩
    rw [hnone] at hmem
    cases hmem
  have hview : ∀ x, ({ s with process := { s.process with
      threads := threads, memory := memory } }.setHolds t m false).view x = s.view x := fun x =>
    view_congr rfl rfl rfl (hframed.waitView (howner x))
  have hstep := Step.release hholds hqueue
  refine ⟨_, .single hstep, h.inv.step hstep, hwaiting, hframed.tree h.tree,
    h.word_update hmemory, fun x k => ?_, fun x => hview x ▸ h.shows x, fun x k hk => ?_⟩
  · exact h.holds_released hpc x k
  · exact h.mutex x k (hk.imp_right And.left)

/-- The mutex is released to the first of its waiters. -/
theorem release_handOver (hholds : a.holds t m)
    {next : α} {rest : List α} (hwaiters : s.process.threads.waitersFor t m = next :: rest)
    (hwaiting : threads.WaitInv) (hframed : Threads.Framed s.process.threads threads)
    (howner : ∀ x, (threads.thread x).lockOwner =
      Threads.handOver (next :: rest) (fun x => (s.process.threads.thread x).lockOwner) x)
    (hmemory : ∀ k ∈ u.mutexes, memory k = update s.process.memory m
        (u.encode (some (next, decide (1 < (next :: rest).length)))) k) : Follows u
      ({ s with process :=
        { s.process with threads := threads, memory := memory }.wake next .success }.setHolds t m
          false) a := by
  have hmem := h.mem_waitersFor hholds
  rw [hwaiters] at hmem
  obtain ⟨o, c, hphase⟩ := (hmem next).mp (.head _)
  obtain rfl := h.inv.owner_eq hholds hphase
  have hmark : ∀ x o' c', x ≠ next → a.phase x = .queued m o' c' →
      decide (1 < (next :: rest).length) = true := fun x o' c' hx hqueued => by
    have hrest := List.mem_of_ne_of_mem hx ((hmem x).mpr ⟨o', c', hqueued⟩)
    have hpos := List.length_pos_of_mem hrest
    simpa using hpos
  have hstep := Step.handOver hholds hphase hmark
  obtain ⟨queue, hblocked, hcaller⟩ := (h.shows next).of_queued hphase
  let s' : MutexState α := { s with process :=
    { s.process with threads := threads, memory := memory }.wake next .success }
  have hview : ∀ x, x ≠ next → s'.view x =
      { s.view x with lockOwner := (threads.thread x).lockOwner } := fun x hne => by
    simp only [s', view, wake, update_of_ne hne, hframed.condvarTree x,
      hframed.addressKey x, hframed.addressKeyValue x]
  have hidle : (s'.view next).Idle := by
    refine ⟨?_, ?_, ?_⟩
    · simp [s', view, wake]
    · exact (howner next).trans (by simp [Threads.handOver])
    · exact (hframed.condvarTree next).trans hblocked.2.2.1
  have hresult : (s'.view next).waitResult = .success := by
    simp [s', view, wake]
  have hwoken : ∀ x k, (s'.view x).Woken k ↔
      (s.view x).Woken k ∨ x = next ∧ k = m ∧ c = .condition := by
    intro x k
    by_cases hne : x = next
    · subst hne
      have hnot : ¬ (s.view x).Woken k := hblocked.not_woken
      have hiff : (s'.view x).Woken k ↔ s.pc x = .inWait k :=
        ⟨fun hw => hw.1, fun hw => ⟨hw, hidle.1, hresult⟩⟩
      rw [hiff, or_iff_right hnot]
      obtain ⟨rfl, _, hx⟩ | ⟨rfl, _, hx⟩ := hcaller <;> rw [show s.pc x = _ from hx]
      · simp
      · simp [eq_comm]
    · rw [hview x hne]
      exact (or_iff_left fun hc => hne hc.1).symm
  refine ⟨_, .single hstep, h.inv.step hstep, hwaiting, hframed.tree h.tree,
    h.word_update hmemory, fun x k => ?_, fun x => ?_, fun x k hk => ?_⟩
  · change _ ↔ (s.setHolds o m false).holds x k = true ∨ (s'.view x).Woken k
    rw [hwoken, ← or_assoc, ← h.holds_released hpc]
  · change (s'.view x).Shows u x (a.handOver m next x)
    have hshows := h.shows x
    obtain ⟨o', c', hqueued, hne, heq⟩ | ⟨o', hqueued, rfl, heq⟩ | ⟨o', hqueued, rfl, heq⟩ |
      ⟨hother, heq⟩ := a.handOver_cases m next x <;> rw [heq]
    · have hin : x ∈ next :: rest := (hmem x).mpr ⟨o', c', hqueued⟩
      have hsome : (threads.thread x).lockOwner = some next := by
        rw [howner, Threads.handOver, if_pos hin]
        simp [Ne.symm hne]
      rw [hview x hne, hsome]
      rw [hqueued] at hshows
      cases hshows with
      | queued hb hx => exact .queued ⟨hb.1, rfl, hb.2.2.1, hb.2.2.2⟩ hx
      | requeued hb hx => exact .requeued ⟨hb.1, rfl, hb.2.2.1, hb.2.2.2⟩ hx
    · rw [hqueued] at hshows
      cases hshows with
      | queued hb hx => exact .returned hidle hx
    · rw [hqueued] at hshows
      cases hshows with
      | requeued hb hx => exact .woken hidle hx hresult
    · have hout : x ∉ next :: rest := fun hc => by
        obtain ⟨o', c', hqueued⟩ := (hmem x).mp hc
        exact hother o' c' hqueued
      have hne : x ≠ next := fun hc => hout (hc ▸ .head _)
      have hsame : (threads.thread x).lockOwner = (s.view x).lockOwner :=
        (howner x).trans (if_neg hout)
      rw [hview x hne, hsame]
      exact hshows
  · have hm : m ∈ u.mutexes := h.mutex o m (.inr hholds)
    obtain hk | hk | ⟨_, rfl, _⟩ := hk
    · change (a.handOver m next x).wants = some k at hk
      obtain ⟨o', c', _, _, heq⟩ | ⟨_, _, _, heq⟩ | ⟨_, _, _, heq⟩ | ⟨_, heq⟩ :=
        a.handOver_cases m next x <;> rw [heq] at hk
      · cases hk
        exact hm
      · cases hk
        exact hm
      · cases hk
      · exact h.mutex x k (.inl hk)
    · exact h.mutex x k (.inr hk.1)
    · exact hm

/-- The thread goes into the tree. -/
theorem sleep (hnot : s.holds t m = false) (hm : m ∈ u.mutexes) (key : ℕ) : Follows u
      ({ s with process :=
        { s.process with threads :=
          (s.process.threads.setConditionVariable t m key (u.handle t)).treeInsert t
            }.beginWait t .waitConditionVariable }.setPc t (.inWait m)) a := by
  obtain ⟨hphase, hidle⟩ := (h.shows t).eq_running hpc
  have hholds := h.holds_iff hpc (by nofun)
  let threads := (s.process.threads.setConditionVariable t m key (u.handle t)).treeInsert t
  have hthread : ∀ x, x ≠ t → threads.thread x = s.process.threads.thread x := fun x hx =>
    update_of_ne hx ..
  have hself : threads.thread t = { s.process.threads.thread t with
        condvarTree := true, condvarKey := key, addressKey := m
        addressKeyValue := u.handle t } :=
    update_self ..
  have hinv : threads.WaitInv := by
    refine h.waiting.modify rfl rfl rfl ?_
    rw [show (s.process.threads.thread t).lockOwner = none from hidle.2.1]
    exact nofun
  have hout : t ∉ s.process.threads.tree := fun hc => by
    have hflag := (h.tree.mem_iff t).mp hc
    rw [show (s.process.threads.thread t).condvarTree = false from hidle.2.2] at hflag
    cases hflag
  have htree : threads.TreeOk := by
    have hperm : threads.tree.Perm (t :: s.process.threads.tree) := perm_insertBefore
    refine ⟨hperm.nodup_iff.mpr (List.nodup_cons.mpr ⟨hout, h.tree.nodup⟩), fun x => ?_⟩
    rw [hperm.mem_iff, List.mem_cons]
    by_cases hxt : x = t
    · subst hxt
      simp [hself]
    · rw [hthread x hxt, h.tree.mem_iff]
      simp [hxt]
  have hstep : Step a { a with phase := update a.phase t (.sleeping m) } :=
    .sleep hphase (by rw [hholds, hnot]; exact Bool.false_ne_true)
  refine h.one (.single hstep) h.word (fun x k _ => ⟨Iff.rfl, rfl⟩) (h.mutex_of_wants hm rfl)
    hinv htree (fun x hx => ?_) (.sleeping ⟨?_, ?_, ?_, ?_, ?_⟩ ?_) (fun k => ?_)
  · rw [view_setPc_of_ne _ hx]
    refine view_congr rfl ?_ rfl (congrArg _ (hthread x hx))
    simp [beginWait, hx]
  · simp [view, setPc, beginWait]
  · exact (congrArg KThread.lockOwner hself).trans hidle.2.1
  · exact congrArg KThread.condvarTree hself
  · exact congrArg KThread.addressKey hself
  · exact congrArg KThread.addressKeyValue hself
  · simp [view, setPc]
  · rw [hholds]
    refine (or_iff_left fun hwoken => ?_).symm
    have hqueue := hwoken.2.1
    simp [view, setPc, beginWait] at hqueue

end

/-- A thread that waits goes on without the mutex. -/
theorem cancelled (h : Simulates u s a)
    (hphase : (∃ o c, a.phase t = .queued m o c) ∨ a.phase t = .sleeping m)
    (hqueue : (s.process.waitQueue t).isSome = true)
    (hpc : s.pc t = .inWaitForAddress m ∨ s.pc t = .inWait m) (hresult : result ≠ .success)
    (hwaiting : threads.WaitInv) (htree : threads.TreeOk) (hsame : ∀ x, x ≠ t →
      (threads.thread x).waitView = (s.process.threads.thread x).waitView)
    (howner : (threads.thread t).lockOwner = none)
    (hflag : (threads.thread t).condvarTree = false) :
    Follows u { s with process := { s.process with threads := threads }.wake t result } a := by
  have hwants : (a.phase t).wants = some m := by
    obtain ⟨o, c, hphase⟩ | hphase := hphase <;> rw [hphase] <;> rfl
  let s' : MutexState α :=
    { s with process := { s.process with threads := threads }.wake t result }
  have hidle : (s'.view t).Idle := ⟨by simp [s', view, wake], howner, hflag⟩
  have hresult' : (s'.view t).waitResult ≠ .success := by
    simpa [s', view, wake] using hresult
  refine h.one (.single (.cancel hphase)) h.word (fun x k _ => ⟨Iff.rfl, rfl⟩)
    (h.mutex_of_wants (h.mutex t m (.inl hwants)) rfl) hwaiting htree (fun x hx => ?_) ?_
    (fun k => ?_)
  · refine view_congr rfl ?_ ?_ (hsame x hx) <;> simp [wake, hx]
  · obtain hpc | hpc := hpc
    · exact .returned hidle hpc
    · exact .failed hidle hpc hresult'
  · rw [h.holds]
    refine or_congr Iff.rfl (iff_of_false (fun hwoken => ?_) fun hwoken => hresult' hwoken.2.2)
    have hnone : s.process.waitQueue t = none := hwoken.2.1
    rw [hnone] at hqueue
    cases hqueue

variable [Fintype α]

section

variable (h : Simulates u s a)
include h

/-- The thread is added to the list of the owner that the word names. -/
theorem enqueue (hphase : a.phase t = .arbitrating m owner) (hidle : (s.view t).Idle)
    (hholds : ∀ k, a.holds t k ↔ s.holds t k = true) (hword : a.word m = some (owner, true)) :
    ∃ threads, (s.process.threads.setAddressKey t m (u.handle t)).addWaiter owner t = .ok threads ∧
      Follows u ({ s with process :=
          { s.process with threads := threads }.beginWait t .waitForAddress }.setPc t
            (.inWaitForAddress m)) a := by
  let threads := s.process.threads.setAddressKey t m (u.handle t)
  have hthread : ∀ x, x ≠ t → threads.thread x = s.process.threads.thread x := fun x hx =>
    update_of_ne hx ..
  have hself : threads.thread t =
      { s.process.threads.thread t with addressKey := m, addressKeyValue := u.handle t } :=
    update_self ..
  have hinv : threads.WaitInv := by
    refine h.waiting.modify rfl rfl rfl ?_
    rw [show (s.process.threads.thread t).lockOwner = none from hidle.2.1]
    exact nofun
  have htree : threads.TreeOk := by
    refine h.tree.congr rfl fun x => ?_
    by_cases hxt : x = t
    · subst hxt
      rw [hself]
    · rw [hthread x hxt]
  have hnone : (threads.thread t).lockOwner = none := by
    rw [hself]
    exact hidle.2.1
  obtain ⟨threads', hadd, hinv', hframed, howner⟩ :=
    Threads.addWaiter_spec hinv hnone (h.inv.arbitrating hphase).symm
  refine ⟨threads', hadd, h.one (.single (.enqueue hphase hword)) h.word
    (fun x k _ => ⟨Iff.rfl, rfl⟩) (h.mutex_of_wants (h.mutex t m (.inl (by rw [hphase]; rfl))) rfl)
    hinv' (hframed.tree htree) (fun x hx => ?_) (.queued ⟨?_, ?_, ?_, ?_, ?_⟩ ?_) (fun k => ?_)⟩
  · rw [view_setPc_of_ne _ hx]
    refine view_congr rfl ?_ rfl ?_
    · simp [beginWait, hx]
    · exact (hframed.waitView ((howner x).trans (if_neg hx))).trans (congrArg _ (hthread x hx))
  · simp [view, setPc, beginWait]
  · exact (howner t).trans (if_pos rfl)
  · exact (hframed.condvarTree t).trans (by rw [hself]; exact hidle.2.2)
  · exact (hframed.addressKey t).trans (by rw [hself])
  · exact (hframed.addressKeyValue t).trans (by rw [hself])
  · simp [view, setPc]
  · rw [hholds]
    exact (or_iff_left fun hwoken => by simp [ThreadView.Woken, view, setPc] at hwoken).symm

theorem waitForAddress {tag : BitVec 32} (hpc : s.pc t = .arbitrating m tag) :
    ∃ s', s.run u (.waitForAddress t m tag) = .ok s' ∧ Follows u s' a := by
  obtain ⟨o, hphase, rfl, hidle⟩ := (h.shows t).eq_arbitrating hpc
  have hm : m ∈ u.mutexes := h.mutex t m (.inl (by rw [hphase]; rfl))
  have hholds := h.holds_iff hpc (by nofun)
  have hretry : Follows u (s.setPc t (.locking m)) a := by
    exact h.goOn (.single (.retry hphase)) h.word (.locking hidle rfl) nofun hholds
      (h.mutex_of_wants hm rfl)
  have hread : u.readFromUser s.process m = some (s.process.memory m) :=
    if_pos (u.canAccess_mutex m hm)
  rw [MutexState.run, Process.waitForAddress, hread]
  by_cases hterm : (s.process.threads.thread t).terminationRequested = true
  · simp only [if_pos hterm, bind, Except.bind]
    exact ⟨_, rfl, hretry⟩
  by_cases htag : s.process.memory m = u.handle o ||| handleWaitMask
  · have hword : a.word m = some (o, true) := u.encode_injective (by rw [← h.word m hm, htag]; rfl)
    obtain ⟨threads, hadd, hsim⟩ := h.enqueue hphase hidle hholds hword
    simp only [if_neg hterm, htag, ne_eq, not_true, u.getObject_handle, hadd, bind,
      Except.bind]
    exact ⟨_, rfl, hsim⟩
  · simp only [if_neg hterm, ne_eq, htag, not_false_iff, bind, Except.bind]
    exact ⟨_, rfl, hretry⟩

theorem afterWait (hpc : s.pc t = .inWait m) (hqueue : s.process.waitQueue t = none) :
    ∃ s', s.run u (.afterWait t m) = .ok s' ∧ Follows u s' a := by
  obtain ⟨⟨hresult, hphase⟩ | ⟨hresult, hphase⟩, hidle⟩ := (h.shows t).eq_of_inWait hpc hqueue
  · have hrun : s.run u (.afterWait t m) = .ok ((s.setHolds t m true).setPc t .running) := by
      simp only [MutexState.run, show s.process.waitResult t = .success from hresult]
    refine ⟨_, hrun, h.user (by rw [Function.update_eq_self]) h.word
      (fun x k hx => ⟨Iff.rfl, holds_setHolds_of_ne s hx m k true⟩) (h.mutex t) (fun _ => rfl) rfl
      (hphase ▸ .running hidle rfl) nofun (fun k => ?_)⟩
    rw [h.holds, holds_setHolds]
    by_cases hk : k = m
    · subst hk
      exact iff_of_true (.inr ⟨hpc, hqueue, hresult⟩) (if_pos rfl)
    · rw [if_neg hk]
      refine or_iff_left fun hwoken => hk ?_
      have hpc' : s.pc t = .inWait k := hwoken.1
      rw [hpc] at hpc'
      exact (UserPc.inWait.inj hpc').symm
  · have hrun : s.run u (.afterWait t m) = .ok (s.setPc t (.locking m)) := by
      rw [MutexState.run]
      split
      · rename_i hsuccess
        exact absurd hsuccess hresult
      · rfl
    refine ⟨_, hrun, h.goOn (by rw [Function.update_eq_self]) h.word (hphase ▸ .locking hidle rfl)
      nofun (fun k => ?_) (h.mutex t)⟩
    rw [h.holds]
    exact or_iff_left fun hwoken => hresult hwoken.2.2

/-- `RemoveWaiterByKey` of a mutex that the thread holds. -/
theorem removeWaiterByKey (hholds : a.holds t m) :
    ∃ b, s.process.threads.removeWaiterByKey t m = .ok b ∧ b.threads.WaitInv ∧
      Threads.Framed s.process.threads b.threads ∧
      ((s.process.threads.waitersFor t m = [] ∧ b.nextOwner = none ∧
        ∀ x, (b.threads.thread x).lockOwner = (s.process.threads.thread x).lockOwner) ∨
      ∃ next rest, s.process.threads.waitersFor t m = next :: rest ∧ b.nextOwner = some next ∧
        (∀ x, (b.threads.thread x).lockOwner =
          Threads.handOver (next :: rest) (fun x => (s.process.threads.thread x).lockOwner) x) ∧
        (s.process.waitQueue next).isSome = true ∧
        Process.nextValue b.threads next b.numWaiters =
          u.encode (some (next, decide (1 < (next :: rest).length)))) := by
  obtain ⟨b, hrun, hinv, hframed, hnext, hnum, howner⟩ :=
    Threads.removeWaiterByKey_spec h.waiting t m
  refine ⟨b, hrun, hinv, hframed, ?_⟩
  have hmem := h.mem_waitersFor hholds
  cases hwaiters : s.process.threads.waitersFor t m with
  | nil =>
    rw [hwaiters] at hnext howner
    exact .inl ⟨rfl, hnext, fun x => (howner x).trans (if_neg List.not_mem_nil)⟩
  | cons next rest =>
    rw [hwaiters] at hnext hnum howner hmem
    obtain ⟨o, c, hphase⟩ := (hmem next).mp (.head _)
    obtain ⟨queue, hblocked, _⟩ := (h.shows next).of_queued hphase
    refine .inr ⟨next, rest, rfl, hnext, howner, ?_, ?_⟩
    · rw [show s.process.waitQueue next = some queue from hblocked.1, Option.isSome_some]
    · have hvalue : (b.threads.thread next).addressKeyValue = u.handle next :=
        (hframed.addressKeyValue next).trans hblocked.2.2.2.2
      rw [Process.nextValue, hvalue, hnum]
      by_cases hlength : 1 < (next :: rest).length
      · rw [if_pos hlength, decide_eq_true hlength]
        rfl
      · rw [if_neg hlength, decide_eq_false hlength]
        rfl

end

theorem unlock (h : Simulates u s a) (hpc : s.pc t = .running) (hholds : s.holds t m = true) :
    ∃ s', s.run u (.unlock t m) = .ok s' ∧ Follows u s' a := by
  obtain ⟨hholds', hm, hwrite⟩ := h.of_holds hholds
  rw [MutexState.run]
  by_cases htag : s.process.memory m = u.handle t
  · rw [if_pos htag]
    have hnone : s.process.threads.waitersFor t m = [] := by
      refine List.eq_nil_iff_forall_not_mem.mpr fun x hx => ?_
      obtain ⟨o, c, hphase⟩ := (h.mem_waitersFor hholds' x).mp hx
      have hword := h.word m hm
      rw [htag, h.inv.queued hphase] at hword
      exact Bool.false_ne_true (Prod.mk.inj (Option.some.inj (u.encode_injective
        (show u.encode (some (t, false)) = _ from hword)))).2
    exact ⟨_, rfl, h.release_free hpc hholds' hnone h.waiting (.refl _) (fun _ => rfl)
      fun _ _ => rfl⟩
  · rw [if_neg htag]
    obtain ⟨b, hrun, hinv, hframed, ⟨hnone, hnext, howner⟩ |
      ⟨next, rest, hwaiters, hnext, howner, hqueue, hvalue⟩⟩ := h.removeWaiterByKey hholds'
    · simp only [Process.signalToAddress, hrun, hnext, hwrite, bind, Except.bind]
      exact ⟨_, rfl, h.release_free hpc hholds' hnone hinv hframed howner fun _ _ => rfl⟩
    · simp only [Process.signalToAddress, hrun, hnext, hwrite, hvalue, endWait, hqueue, bind,
        Except.bind]
      exact ⟨_, rfl, h.release_handOver hpc hholds' hwaiters hinv hframed howner fun _ _ => rfl⟩

omit [DecidableEq α] [Fintype α] in
/-- The flag of a condition variable is not the word of a mutex. -/
theorem writeFlag (u : MutexUsers α) (k : ProcessState α) (v : BitVec 32) (hkey : key ∉ u.mutexes) :
    ∃ memory, (u.writeToUser k key v).getD k = { k with memory := memory } ∧
      ∀ m ∈ u.mutexes, memory m = k.memory m := by
  rw [Process.writeToUser]
  split_ifs
  · refine ⟨_, rfl, fun m hm => update_of_ne ?_ ..⟩
    rintro rfl
    exact hkey hm
  · exact ⟨k.memory, rfl, fun _ _ => rfl⟩

theorem wait (h : Simulates u s a) (hpc : s.pc t = .running) (hholds : s.holds t m = true)
    (hkey : key ∉ u.mutexes) (timeout : ℤ) : ∃ s', s.run u (.wait t m key timeout) = .ok s' ∧
      Follows u s' a := by
  obtain ⟨hholds', hm, hwrite⟩ := h.of_holds hholds
  rw [MutexState.run, Process.wait]
  by_cases hterm : (s.process.threads.thread t).terminationRequested = true
  · simp only [if_pos hterm, bind, Except.bind]
    exact ⟨_, rfl, a, .refl, h⟩
  -- What follows the release is the same with and without a next owner.
  have hrest : ∀ k : ProcessState α, Follows u ({ s with process := k }.setHolds t m false) a →
      Follows u (({ s with process := k }.setHolds t m false).setPc t (.locking m)) a ∧
        Follows u
          (({ s with process :=
            { k with threads := (k.threads.setConditionVariable t m key (u.handle t)).treeInsert t
            }.beginWait t .waitConditionVariable }.setHolds t m false).setPc t (.inWait m)) a := by
    rintro k ⟨a₁, hsteps, h₁⟩
    have hnot : ({ s with process := k }.setHolds t m false).holds t m = false := by
      rw [holds_setHolds, if_pos rfl]
    obtain ⟨a₂, hlock, h₂⟩ := h₁.beginLock hpc hnot hm
    obtain ⟨a₃, hsleep, h₃⟩ := h₁.sleep hpc hnot hm key
    exact ⟨⟨a₂, hsteps.trans hlock, h₂⟩, a₃, hsteps.trans hsleep, h₃⟩
  obtain ⟨b, hrun, hinv, hframed, ⟨hnone, hnext, howner⟩ |
    ⟨next, rest, hwaiters, hnext, howner, hqueue, hvalue⟩⟩ := h.removeWaiterByKey hholds'
  · obtain ⟨memory, hflag, hsame⟩ := writeFlag u { s.process with threads := b.threads } 1 hkey
    have hmemory : ∀ k ∈ u.mutexes, update memory m 0 k = update s.process.memory m 0 k := by
      intro k hk
      rw [update_apply, update_apply, hsame k hk]
    obtain ⟨hlock, hsleep⟩ :=
      hrest _ (h.release_free hpc hholds' hnone hinv hframed howner hmemory)
    simp only [if_neg hterm, hrun, hnext, hflag, hwrite, bind, Except.bind]
    split_ifs
    · exact ⟨_, rfl, hlock⟩
    · exact ⟨_, rfl, hsleep⟩
  · obtain ⟨memory, hflag, hsame⟩ :=
      writeFlag u ({ s.process with threads := b.threads }.wake next .success) 1 hkey
    have hmemory : ∀ v, ∀ k ∈ u.mutexes, update memory m v k =
        update s.process.memory m v k := fun v k hk => by
      rw [update_apply, update_apply, hsame k hk]
      rfl
    obtain ⟨hlock, hsleep⟩ :=
      hrest _ (h.release_handOver hpc hholds' hwaiters hinv hframed howner (hmemory _))
    simp only [if_neg hterm, hrun, hnext, hvalue, endWait, hqueue, if_true, hflag,
      hwrite, bind, Except.bind]
    split_ifs
    · exact ⟨_, rfl, hlock⟩
    · exact ⟨_, rfl, hsleep⟩

/-- A sleeping thread gets the mutex or is queued for it. -/
theorem signalImpl (h : Simulates u s a) (hin : t ∈ s.process.threads.tree) :
    ∃ k, u.signalImpl s.process t = .ok k ∧ k.threads.TreeOk ∧
      k.threads.tree.Perm s.process.threads.tree ∧
      Follows u { s with process := k.leaveTree t } a := by
  have hphase := (h.shows t).eq_sleeping ((h.tree.mem_iff t).mp hin)
  have hshows := h.shows t
  rw [hphase] at hshows
  generalize (s.view t).addressKey = m at hphase hshows
  obtain ⟨hblocked, hpc⟩ : (s.view t).Blocked .waitConditionVariable none m (u.handle t) ∧
      (s.view t).pc = .inWait m := by
    cases hshows with
    | sleeping hblocked hpc => exact ⟨hblocked, hpc⟩
  have ⟨hqueue, howner, hflag, hkey, hvalue⟩ := hblocked
  have hm : m ∈ u.mutexes := h.mutex t m (.inl (by rw [hphase]; rfl))
  have hword := h.word m hm
  have hholds : ∀ k, a.holds t k ↔ s.holds t k = true := fun k => by
    rw [h.holds, or_iff_left hblocked.not_woken]
  simp only [view] at hqueue howner hflag hkey hvalue hpc
  simp only [Process.signalImpl, hkey, hvalue, u.canAccess_mutex m hm]
  cases hw : a.word m with
  | none =>
    have hzero : s.process.memory m = 0 := by rw [hword, hw]; rfl
    simp only [hzero, endWait, hqueue, Option.isSome_some]
    refine ⟨_, rfl, h.tree, .refl _, h.one (.single (.wakeFree hphase hw))
      (h.word_update fun _ _ => rfl) (fun x k hx => ⟨or_iff_right fun hc => hx hc.1, rfl⟩)
      (fun k hk => ?_) (h.waiting.leaveTree t) (h.tree.leaveTree t) (fun x hx => ?_)
      (.woken ⟨?_, ?_, ?_⟩ hpc ?_) (fun k => ?_)⟩
    · obtain hk | ⟨_, rfl⟩ | hk := hk
      · cases hk
      · exact hm
      · exact h.mutex t k (.inr hk)
    · refine view_congr rfl ?_ ?_ (congrArg _ (Threads.thread_leaveTree_of_ne _ hx)) <;>
        simp [leaveTree, wake, hx]
    · simp [view, leaveTree, wake]
    · exact (congrArg KThread.lockOwner (Threads.thread_leaveTree_self ..)).trans howner
    · exact congrArg KThread.condvarTree (Threads.thread_leaveTree_self ..)
    · simp [view, leaveTree, wake]
    · rw [HandOffLock.State.acquired, hholds]
      have hwoken : ∀ v : ThreadView α, v.pc = .inWait m → v.waitQueue = none →
          v.waitResult = .success → (v.Woken k ↔ k = m) := fun v hpc hqueue hresult => by
        simp [ThreadView.Woken, hpc, hqueue, hresult, eq_comm]
      rw [hwoken _ hpc (by simp [view, leaveTree, wake])
        (by simp [view, leaveTree, wake])]
      simp [or_comm]
  | some w =>
    obtain ⟨o, b⟩ := w
    rw [hw] at hword
    have hne : t ≠ o := (h.inv.sleeping_ne hphase hw).symm
    obtain ⟨threads, hadd, hinv, hframed, howner'⟩ :=
      Threads.addWaiter_spec h.waiting howner hne
    have htree := hframed.tree h.tree
    have hself := threads.thread_leaveTree_self t
    simp only [hword, u.encode_some_ne_zero, u.tag_encode, u.getObject_handle, hadd, bind,
      Except.bind]
    refine ⟨_, rfl, htree, h.tree.perm htree hframed.condvarTree,
      h.one (.single (.wakeQueued hphase hw)) (h.word_update fun k _ => ?_)
      (fun x k _ => ⟨Iff.rfl, rfl⟩) (h.mutex_of_wants hm rfl) (hinv.leaveTree t)
      (htree.leaveTree t) (fun x hx => ?_) (.requeued ⟨hqueue, ?_, ?_, ?_, ?_⟩ hpc)
      (fun k => ?_)⟩
    · rw [u.encode_or_mask]
      rfl
    · exact view_congr rfl rfl rfl ((congrArg _ (threads.thread_leaveTree_of_ne hx)).trans
        (hframed.waitView ((howner' x).trans (if_neg hx))))
    · exact (congrArg KThread.lockOwner hself).trans ((howner' t).trans (if_pos rfl))
    · exact congrArg KThread.condvarTree hself
    · exact (congrArg KThread.addressKey hself).trans ((hframed.addressKey t).trans hkey)
    · exact (congrArg KThread.addressKeyValue hself).trans
        ((hframed.addressKeyValue t).trans hvalue)
    · rw [hholds]
      refine (or_iff_left fun hwoken => ?_).symm
      have hqueue' : s.process.waitQueue t = none := hwoken.2.1
      rw [hqueue] at hqueue'
      cases hqueue'

theorem signalLoop {fuel : ℕ} {it : Option α} (cvKey : ℕ) (count : ℤ) (numWaiters : ℕ)
    (h : Simulates u s a) (hit : ∀ t, it = some t → t ∈ s.process.threads.tree)
    (hfuel : s.process.threads.tree.length < fuel) :
    ∃ k it', u.signalLoop cvKey count fuel s.process it numWaiters = .ok (k, it') ∧
      Follows u { s with process := k } a := by
  induction fuel generalizing s a it numWaiters with
  | zero => exact absurd hfuel (Nat.not_lt_zero _)
  | succ fuel ih =>
    cases it with
    | none => exact ⟨_, _, rfl, a, .refl, h⟩
    | some t =>
      rw [Process.signalLoop]
      split_ifs
      · have hin := hit t rfl
        obtain ⟨k, hsignal, htree, hperm, a₁, hsteps, h₁⟩ := h.signalImpl hin
        have hin' : t ∈ k.threads.tree := hperm.mem_iff.mpr hin
        have hlength : (k.threads.tree.erase t).length + 1 = s.process.threads.tree.length := by
          rw [List.length_erase_add_one hin', hperm.length_eq]
        have hnext : ∀ x, nextOf t k.threads.tree = some x → x ∈ k.threads.tree.erase t :=
          fun x hx => by
            obtain ⟨hmem, hne⟩ := mem_of_nextOf htree.nodup hx
            exact (List.mem_erase_of_ne hne).mpr hmem
        obtain ⟨k', it', hloop, a₂, hsteps', h₂⟩ := ih (numWaiters + 1) h₁ hnext (by
          change (k.threads.tree.erase t).length < fuel
          omega)
        refine ⟨k', it', ?_, a₂, hsteps.trans hsteps', h₂⟩
        simp only [hsignal, bind, Except.bind]
        exact hloop
      · exact ⟨_, _, rfl, a, .refl, h⟩

variable (h : Simulates u s a)
include h

theorem signal (hkey : key ∉ u.mutexes) (count : ℤ) :
    ∃ s', s.run u (.signal t key count) = .ok s' ∧ Follows u s' a := by
  have hstart : ∀ t, s.process.nfindKey key = some t → t ∈ s.process.threads.tree := fun t ht =>
    List.mem_of_find?_eq_some ht
  obtain ⟨k, it, hloop, a', hsteps, h'⟩ := h.signalLoop key count 0 hstart (Nat.lt_succ_self _)
  obtain ⟨memory, hflag, hsame⟩ := writeFlag u k 0 hkey
  have hcleared := h'.setMemory hsame
  simp only [MutexState.run, Process.signal, hloop, hflag, bind, Except.bind]
  cases it with
  | none => exact ⟨_, rfl, a', hsteps, hcleared⟩
  | some x =>
    dsimp only
    split_ifs
    · exact ⟨_, rfl, a', hsteps, hcleared⟩
    · exact ⟨_, rfl, a', hsteps, h'⟩

/-- A queued thread leaves the list of its owner. -/
theorem removeWaiter {c : Caller} (hphase : a.phase t = .queued m owner c) :
    ∃ threads, s.process.threads.removeWaiter owner t = .ok threads ∧
      (threads.thread t).condvarTree = false ∧
      ∀ result, result ≠ .success →
        Follows u { s with process := { s.process with threads := threads }.wake t result } a := by
  obtain ⟨queue, hblocked, hcaller⟩ := (h.shows t).of_queued hphase
  obtain ⟨threads, hrun, hinv, hframed, howner⟩ :=
    Threads.removeWaiter_spec h.waiting (show (s.process.threads.thread t).lockOwner = _ from
      hblocked.2.1)
  have hflag : (threads.thread t).condvarTree = false :=
    (hframed.condvarTree t).trans hblocked.2.2.1
  refine ⟨threads, hrun, hflag, fun result hresult => ?_⟩
  refine h.cancelled (.inl ⟨owner, c, hphase⟩) ?_ ?_ hresult hinv (hframed.tree h.tree)
    (fun x hx => hframed.waitView ((howner x).trans (if_neg hx))) ((howner t).trans (if_pos rfl))
    hflag
  · rw [show s.process.waitQueue t = some queue from hblocked.1, Option.isSome_some]
  · exact hcaller.imp (fun hc => hc.2.2) fun hc => hc.2.2

theorem cancelWait (hresult : result ≠ .success) (t : α) :
    ∃ k, Process.cancelWait s.process t result = .ok k ∧ Follows u { s with process := k } a := by
  have hshows := h.shows t
  have hnone : (s.view t).Idle → ∃ k, Process.cancelWait s.process t result = .ok k ∧
      Follows u { s with process := k } a :=
    fun hidle => by
      simp only [Process.cancelWait, show s.process.waitQueue t = none from hidle.1]
      exact ⟨_, rfl, a, .refl, h⟩
  generalize hphase : a.phase t = p at hshows
  cases hshows with
  | running hidle | woken hidle | locking hidle | returned hidle | failed hidle
  | arbitrating hidle => exact hnone hidle
  | queued hblocked | requeued hblocked =>
    obtain ⟨threads, hrun, hflag, hsim⟩ := h.removeWaiter hphase
    have hqueue : s.process.waitQueue t = some _ := hblocked.1
    have howner : (s.process.threads.thread t).lockOwner = some _ := hblocked.2.1
    simp only [Process.cancelWait, hqueue, howner, hrun, hflag, bind, Except.bind,
      Bool.false_eq_true]
    exact ⟨_, rfl, hsim result hresult⟩
  | @sleeping m hblocked hpc =>
    have hqueue : s.process.waitQueue t = some .waitConditionVariable := hblocked.1
    have howner : (s.process.threads.thread t).lockOwner = none := hblocked.2.1
    have hflag : (s.process.threads.thread t).condvarTree = true := hblocked.2.2.1
    have hself := s.process.threads.thread_leaveTree_self t
    simp only [Process.cancelWait, hqueue, howner, hflag, bind, Except.bind]
    refine ⟨_, rfl, h.cancelled (.inr hphase) ?_ (.inr hpc) hresult (h.waiting.leaveTree t)
      (h.tree.leaveTree t) (fun x hx => ?_) ?_ ?_⟩
    · rw [hqueue, Option.isSome_some]
    · rw [Threads.thread_leaveTree_of_ne _ hx]
    · exact (congrArg KThread.lockOwner hself).trans howner
    · exact congrArg KThread.condvarTree hself

theorem setBasePriority (t : α) (priority : ℤ) :
    ∃ threads, s.process.threads.setBasePriority t priority = .ok threads ∧
      Simulates u { s with process := { s.process with threads := threads } } a := by
  obtain ⟨threads, hrun, hinv, hrest⟩ := Threads.setBasePriority_spec h.waiting t priority
  refine ⟨threads, hrun, h.setThreads hinv (hrest.tree h.tree) fun x => ?_⟩
  rw [hrest.thread x]
  rfl

theorem requestTerminate (t : α) : ∃ k, Process.requestTerminate s.process t = .ok k ∧
      Follows u { s with process := k } a := by
  rw [Process.requestTerminate]
  split_ifs with hterm
  · exact ⟨_, rfl, a, .refl, h⟩
  have h₁ : Simulates u { s with process := { s.process with
      threads := s.process.threads.setTerminationRequested t } } a := by
    refine h.setThreads (h.waiting.modify rfl rfl rfl fun _ => rfl)
      (h.tree.congr rfl fun x => ?_) fun x => ?_ <;>
    · rw [Threads.setTerminationRequested, Threads.thread_modify]
      split_ifs <;> rfl
  have hresult : WaitResult.terminationRequested ≠ .success := by decide
  dsimp only
  split_ifs
  · obtain ⟨threads, hrun, h₂⟩ := h₁.setBasePriority t terminatingThreadPriority
    have hrun' : (s.process.threads.setTerminationRequested t).setBasePriority t
        terminatingThreadPriority = .ok threads := hrun
    simp only [hrun', bind, Except.bind]
    exact h₂.cancelWait hresult t
  · exact h₁.cancelWait hresult t

end MutexState.Simulates

end Atmosphere.Kern
