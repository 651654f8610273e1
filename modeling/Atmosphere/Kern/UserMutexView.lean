import Atmosphere.Kern.UserMutex
import Atmosphere.Kern.PriorityInheritanceRun
import Atmosphere.Lib.HandOffLock.Basic

/-!
# The mutexes of a process as a protocol

Words, wait queues and waiter lists show a state of `HandOffLock`.
-/

namespace Atmosphere.Kern

open HandOffLock (Phase Caller Step Inv)

/-! ### Words -/

namespace MutexUsers

variable {α : Type} (u : MutexUsers α)

/-- The word of a mutex. -/
def encode : Option (α × Bool) → BitVec 32
  | none => 0
  | some (t, false) => u.handle t
  | some (t, true) => u.handle t ||| handleWaitMask

theorem handle_injective : Function.Injective u.handle := fun t t' h =>
  Option.some.inj ((u.getObject_handle t).symm.trans ((congrArg _ h).trans (u.getObject_handle t')))

theorem tag_encode (t : α) (b : Bool) :
    u.encode (some (t, b)) &&& ~~~handleWaitMask = u.handle t := by
  have hbit : ∀ i, ((u.handle t).getLsbD i && handleWaitMask.getLsbD i) = false := fun i => by
    rw [← BitVec.getLsbD_and, u.handle_and_mask, BitVec.ofNat_eq_ofNat, BitVec.getLsbD_zero]
  refine BitVec.eq_of_getLsbD_eq fun i hi => ?_
  have h := hbit i
  cases b <;> simp only [encode, BitVec.getLsbD_and, BitVec.getLsbD_or, BitVec.getLsbD_not, hi] <;>
    revert h <;> cases (u.handle t).getLsbD i <;> cases handleWaitMask.getLsbD i <;> decide

theorem encode_or_mask (t : α) (b : Bool) :
    u.encode (some (t, b)) ||| handleWaitMask = u.encode (some (t, true)) := by
  cases b with
  | false => rfl
  | true => rw [encode, BitVec.or_assoc, BitVec.or_self]

theorem encode_and_mask (t : α) (b : Bool) :
    u.encode (some (t, b)) &&& handleWaitMask = if b then handleWaitMask else 0 := by
  cases b with
  | false => exact u.handle_and_mask t
  | true =>
    refine BitVec.eq_of_getLsbD_eq fun i _ => ?_
    simp only [encode, BitVec.getLsbD_and, BitVec.getLsbD_or, if_true]
    cases (u.handle t).getLsbD i <;> cases handleWaitMask.getLsbD i <;> rfl

theorem encode_some_ne_zero (t : α) (b : Bool) : u.encode (some (t, b)) ≠ 0 := by
  intro h
  have htag := u.tag_encode t b
  rw [h] at htag
  exact u.handle_ne_zero t (by simpa using htag.symm)

theorem encode_injective : Function.Injective u.encode := by
  rintro (_ | ⟨t, b⟩) (_ | ⟨t', b'⟩) h
  · rfl
  · exact absurd h.symm (u.encode_some_ne_zero t' b')
  · exact absurd h (u.encode_some_ne_zero t b)
  · have ht : t = t' := by
      refine u.handle_injective ?_
      rw [← u.tag_encode t b, ← u.tag_encode t' b', h]
    have hb := u.encode_and_mask t b
    rw [h, u.encode_and_mask] at hb
    cases b <;> cases b' <;> simp_all [handleWaitMask]

end MutexUsers

/-! ### The tree -/

section Tree

variable {α : Type}

/-- The fields of a thread that the protocol depends on. -/
def KThread.waitView (t : KThread α) : Option α × Bool × ℕ × BitVec 32 :=
  (t.lockOwner, t.condvarTree, t.addressKey, t.addressKeyValue)

theorem Threads.Framed.waitView {s s' : Threads α} {x : α} (h : Framed s s')
    (howner : (s'.thread x).lockOwner = (s.thread x).lockOwner) :
    (s'.thread x).waitView = (s.thread x).waitView := by
  rw [KThread.waitView, howner, h.condvarTree x, h.addressKey x, h.addressKeyValue x,
    KThread.waitView]

variable [DecidableEq α]

theorem mem_of_nextOf {t x : α} {l : List α} (hl : l.Nodup) (h : nextOf t l = some x) :
    x ∈ l ∧ x ≠ t := by
  induction l with
  | nil => cases h
  | cons y l ih =>
    obtain ⟨hy, hl⟩ := List.nodup_cons.mp hl
    rw [nextOf] at h
    split_ifs at h with hyt
    · have hx := List.mem_of_head? h
      refine ⟨List.mem_cons_of_mem y hx, ?_⟩
      rintro rfl
      exact hy (hyt ▸ hx)
    · exact ⟨List.mem_cons_of_mem y (ih hl h).1, (ih hl h).2⟩

namespace Threads

variable {s : Threads α}

theorem thread_leaveTree_self (s : Threads α) (t : α) : (s.leaveTree t).thread t =
    { s.thread t with condvarTree := false } :=
  Function.update_self ..

theorem thread_leaveTree_of_ne (s : Threads α) {t x : α} (hx : x ≠ t) :
    (s.leaveTree t).thread x = s.thread x :=
  Function.update_of_ne hx ..

theorem WaitInv.leaveTree (h : s.WaitInv) (t : α) : (s.leaveTree t).WaitInv :=
  h.modify rfl rfl rfl fun _ => rfl

theorem TreeOk.leaveTree (h : s.TreeOk) (t : α) : (s.leaveTree t).TreeOk := by
  refine ⟨h.nodup.erase t, fun x => ?_⟩
  change x ∈ s.tree.erase t ↔ _
  rw [h.nodup.mem_erase_iff, h.mem_iff]
  by_cases hx : x = t
  · simp [hx, thread_leaveTree_self]
  · simp [hx, thread_leaveTree_of_ne s hx]

end Threads

end Tree

/-! ### What a thread shows -/

/-- All that the protocol needs to know of a thread. -/
structure ThreadView (α : Type) where
  pc : UserPc
  waitQueue : Option ThreadQueue
  waitResult : WaitResult
  lockOwner : Option α
  condvarTree : Bool
  addressKey : ℕ
  addressKeyValue : BitVec 32

namespace ThreadView

variable {α : Type} (v : ThreadView α)

/-- The thread does not wait. -/
def Idle : Prop := v.waitQueue = none ∧ v.lockOwner = none ∧ v.condvarTree = false

/-- The thread is in the list of its owner or, without one, in the tree. -/
def Blocked (queue : ThreadQueue) (owner : Option α) (m : ℕ) (handle : BitVec 32) : Prop :=
  v.waitQueue = some queue ∧ v.lockOwner = owner ∧ v.condvarTree = owner.isNone ∧
    v.addressKey = m ∧ v.addressKeyValue = handle

/-- `Wait` was successful, but the thread has not gone on yet. -/
def Woken (m : ℕ) : Prop := v.pc = .inWait m ∧ v.waitQueue = none ∧ v.waitResult = .success

theorem Blocked.not_woken {v : ThreadView α} {queue : ThreadQueue} {owner : Option α} {m k : ℕ}
    {handle : BitVec 32} (h : v.Blocked queue owner m handle) : ¬ v.Woken k := fun hwoken =>
  nomatch hwoken.2.1.symm.trans h.1

/-- The thread is in a phase of the protocol. -/
inductive Shows (u : MutexUsers α) (t : α) : Phase α ℕ → Prop
  | running (hidle : v.Idle) (hpc : v.pc = .running) : Shows u t .running
  | woken {m : ℕ} (hidle : v.Idle) (hpc : v.pc = .inWait m) (hresult : v.waitResult = .success) :
      Shows u t .running
  | locking {m : ℕ} (hidle : v.Idle) (hpc : v.pc = .locking m) : Shows u t (.locking m)
  | returned {m : ℕ} (hidle : v.Idle) (hpc : v.pc = .inWaitForAddress m) : Shows u t (.locking m)
  | failed {m : ℕ} (hidle : v.Idle) (hpc : v.pc = .inWait m) (hresult : v.waitResult ≠ .success) :
      Shows u t (.locking m)
  | arbitrating {m : ℕ} {owner : α} (hidle : v.Idle)
      (hpc : v.pc = .arbitrating m (u.handle owner)) : Shows u t (.arbitrating m owner)
  | queued {m : ℕ} {owner : α} (hblocked : v.Blocked .waitForAddress (some owner) m (u.handle t))
      (hpc : v.pc = .inWaitForAddress m) : Shows u t (.queued m owner .lock)
  | requeued {m : ℕ} {owner : α}
      (hblocked : v.Blocked .waitConditionVariable (some owner) m (u.handle t))
      (hpc : v.pc = .inWait m) : Shows u t (.queued m owner .condition)
  | sleeping {m : ℕ} (hblocked : v.Blocked .waitConditionVariable none m (u.handle t))
      (hpc : v.pc = .inWait m) : Shows u t (.sleeping m)

namespace Shows

variable {v : ThreadView α} {u : MutexUsers α} {t : α} {p : Phase α ℕ} {m : ℕ}

variable (h : v.Shows u t p)
include h

theorem eq_running (hpc : v.pc = .running) : p = .running ∧ v.Idle := by
  cases h <;> simp_all

theorem eq_locking (hpc : v.pc = .locking m) : p = .locking m ∧ v.Idle := by
  cases h <;> simp_all

theorem eq_arbitrating {tag : BitVec 32} (hpc : v.pc = .arbitrating m tag) :
    ∃ o, p = .arbitrating m o ∧ tag = u.handle o ∧ v.Idle := by
  cases h <;> simp_all

theorem eq_of_inWaitForAddress (hpc : v.pc = .inWaitForAddress m) (hqueue : v.waitQueue = none) :
    p = .locking m ∧ v.Idle := by
  cases h <;> simp_all [Blocked]

theorem eq_of_inWait (hpc : v.pc = .inWait m) (hqueue : v.waitQueue = none) :
    (v.waitResult = .success ∧ p = .running ∨ v.waitResult ≠ .success ∧ p = .locking m) ∧
      v.Idle := by
  cases h <;> simp_all [Blocked]

theorem eq_queued {o : α} (howner : v.lockOwner = some o) : ∃ c, p = .queued v.addressKey o c := by
  cases h <;> simp_all [Blocked, Idle]

theorem eq_sleeping (htree : v.condvarTree = true) : p = .sleeping v.addressKey := by
  cases h <;> simp_all [Blocked, Idle]

theorem of_queued {c : Caller} {o : α} (hp : p = .queued m o c) :
    ∃ queue, v.Blocked queue (some o) m (u.handle t) ∧
      (c = .lock ∧ queue = .waitForAddress ∧ v.pc = .inWaitForAddress m ∨
        c = .condition ∧ queue = .waitConditionVariable ∧ v.pc = .inWait m) := by
  subst hp
  cases h with
  | queued hblocked hpc => exact ⟨_, hblocked, .inl ⟨rfl, rfl, hpc⟩⟩
  | requeued hblocked hpc => exact ⟨_, hblocked, .inr ⟨rfl, rfl, hpc⟩⟩

end Shows

end ThreadView

namespace MutexState

variable {α : Type} {x : α}

def view (s : MutexState α) (t : α) : ThreadView α where
  pc := s.pc t
  waitQueue := s.process.waitQueue t
  waitResult := s.process.waitResult t
  lockOwner := (s.process.threads.thread t).lockOwner
  condvarTree := (s.process.threads.thread t).condvarTree
  addressKey := (s.process.threads.thread t).addressKey
  addressKeyValue := (s.process.threads.thread t).addressKeyValue

theorem view_congr {s s' : MutexState α} (hpc : s'.pc x = s.pc x)
    (hqueue : s'.process.waitQueue x = s.process.waitQueue x)
    (hresult : s'.process.waitResult x = s.process.waitResult x)
    (hthread : (s'.process.threads.thread x).waitView = (s.process.threads.thread x).waitView) :
    s'.view x = s.view x := by
  simp only [KThread.waitView, Prod.mk.injEq] at hthread
  simp only [view, hpc, hqueue, hresult, hthread]

/-- The process is in a state of the protocol. -/
structure Simulates (u : MutexUsers α) (s : MutexState α) (a : HandOffLock.State α ℕ) : Prop where
  inv : Inv a
  waiting : s.process.threads.WaitInv
  tree : s.process.threads.TreeOk
  word : ∀ m ∈ u.mutexes, s.process.memory m = u.encode (a.word m)
  holds : ∀ t m, a.holds t m ↔ s.holds t m = true ∨ (s.view t).Woken m
  shows : ∀ t, (s.view t).Shows u t (a.phase t)
  mutex : ∀ t m, (a.phase t).wants = some m ∨ a.holds t m → m ∈ u.mutexes

/-- The protocol can go on to a state that the process is in. -/
abbrev Follows [DecidableEq α] (u : MutexUsers α) (s : MutexState α)
    (a : HandOffLock.State α ℕ) : Prop :=
  ∃ a', Relation.ReflTransGen Step a a' ∧ Simulates u s a'

namespace Simulates

variable {u : MutexUsers α} {s : MutexState α} {a : HandOffLock.State α ℕ} {t : α} {m : ℕ}

variable (h : Simulates u s a) {memory : ℕ → BitVec 32}
include h

theorem holds_iff {pc : UserPc} (hpc : s.pc t = pc) (hne : ∀ m, pc ≠ .inWait m) (k : ℕ) :
    a.holds t k ↔ s.holds t k = true := by
  rw [h.holds t k]
  exact or_iff_left fun hwoken => hne k (hpc.symm.trans hwoken.1)

/-- A thread that wants the mutex `m` and holds what it held. -/
theorem mutex_of_wants {p : Phase α ℕ} (hm : m ∈ u.mutexes) (hp : p.wants = some m) (k : ℕ)
    (hk : p.wants = some k ∨ a.holds t k) : k ∈ u.mutexes := by
  rcases hk with hk | hk
  · cases hp.symm.trans hk
    exact hm
  · exact h.mutex t k (.inr hk)

/-- A word is written. -/
theorem word_update {w : Option (α × Bool)}
    (hmemory : ∀ k ∈ u.mutexes, memory k = Function.update s.process.memory m (u.encode w) k) :
    ∀ k ∈ u.mutexes, memory k = u.encode (Function.update a.word m w k) := by
  intro k hk
  rw [hmemory k hk]
  by_cases hkm : k = m
  · subst hkm
    simp
  · simp [hkm, h.word k hk]

/-- The waiters for a mutex are those that the protocol has in its queue. -/
theorem mem_waitersFor (hholds : a.holds t m) (x : α) :
    x ∈ s.process.threads.waitersFor t m ↔ ∃ o c, a.phase x = .queued m o c := by
  rw [Threads.waitersFor, List.mem_filter, h.waiting.mem_iff, decide_eq_true_iff]
  constructor
  · rintro ⟨howner, hkey⟩
    obtain ⟨c, hphase⟩ := (h.shows x).eq_queued howner
    exact ⟨t, c, by rw [hphase]; exact congrArg (Phase.queued · t c) hkey⟩
  · rintro ⟨o, c, hphase⟩
    obtain ⟨queue, hblocked, _⟩ := (h.shows x).of_queued hphase
    rw [← h.inv.owner_eq hholds hphase]
    exact ⟨hblocked.2.1, hblocked.2.2.2.1⟩

/-- Other memory than the mutexes does not matter. -/
theorem setMemory (hmemory : ∀ m ∈ u.mutexes, memory m = s.process.memory m) :
    Simulates u { s with process := { s.process with memory := memory } } a :=
  ⟨h.inv, h.waiting, h.tree, fun m hm => (hmemory m hm).trans (h.word m hm), h.holds, h.shows,
    h.mutex⟩

/-- Other fields of the threads do not matter. -/
theorem setThreads {threads : Threads α} (hwaiting : threads.WaitInv) (htree : threads.TreeOk)
    (hsame : ∀ x, (threads.thread x).waitView = (s.process.threads.thread x).waitView) :
    Simulates u { s with process := { s.process with threads := threads } } a := by
  have hview : ∀ x, view { s with process := { s.process with threads := threads } } x =
      s.view x := fun x => view_congr rfl rfl rfl (hsame x)
  exact ⟨h.inv, hwaiting, htree, h.word, fun x k => hview x ▸ h.holds x k,
    fun x => hview x ▸ h.shows x, h.mutex⟩

end Simulates

variable [DecidableEq α] (s : MutexState α)

theorem view_setPc (t : α) (pc : UserPc) : (s.setPc t pc).view t = { s.view t with pc := pc } := by
  simp [view, setPc]

theorem view_setPc_of_ne {t : α} (hx : x ≠ t) (pc : UserPc) :
    (s.setPc t pc).view x = s.view x := by
  simp [view, setPc, hx]

theorem holds_setHolds (t : α) (m k : ℕ) (b : Bool) :
    (s.setHolds t m b).holds t k = if k = m then b else s.holds t k := by
  simp [setHolds]

theorem holds_setHolds_of_ne {t : α} (hx : x ≠ t) (m k : ℕ) (b : Bool) :
    (s.setHolds t m b).holds x k = s.holds x k := by
  simp [setHolds, hx]

namespace Simulates

variable {u : MutexUsers α} {s s' : MutexState α} {a : HandOffLock.State α ℕ} {t : α} {m : ℕ}
variable {holds : α → ℕ → Prop} {p : Phase α ℕ} {word : ℕ → Option (α × Bool)} {pc : UserPc}

section

variable (h : Simulates u s a)
  (hsteps : Relation.ReflTransGen Step a ⟨Function.update a.phase t p, word, holds⟩)
  (hword : ∀ m ∈ u.mutexes, s'.process.memory m = u.encode (word m))
  (hothers : ∀ x m, x ≠ t → (holds x m ↔ a.holds x m) ∧ s'.holds x m = s.holds x m)
  (hmutex : ∀ m, p.wants = some m ∨ holds t m → m ∈ u.mutexes)
include h hsteps hword hothers hmutex

/-- Only one thread has gone on. -/
theorem one (hwaiting : s'.process.threads.WaitInv) (htree : s'.process.threads.TreeOk)
    (hview : ∀ x, x ≠ t → s'.view x = s.view x) (hshows : (s'.view t).Shows u t p)
    (hholds : ∀ m, holds t m ↔ s'.holds t m = true ∨ (s'.view t).Woken m) : Follows u s' a := by
  refine ⟨_, hsteps, h.inv.steps hsteps, hwaiting, htree, hword, fun x k => ?_, fun x => ?_,
    fun x k => ?_⟩ <;> by_cases hx : x = t
  · subst hx
    exact hholds k
  · rw [hview x hx, (hothers x k hx).2]
    exact (hothers x k hx).1.trans (h.holds x k)
  · subst hx
    simpa using hshows
  · rw [hview x hx]
    simpa [hx] using h.shows x
  · subst hx
    simpa using hmutex k
  · have hsame := h.mutex x k
    rw [← (hothers x k hx).1] at hsame
    simpa [hx] using hsame

/-- Steps of one thread outside the kernel. -/
theorem user (hview : ∀ x, s'.view x = s.view x) (hthreads : s'.process.threads = s.process.threads)
    (hshows : ThreadView.Shows { s.view t with pc := pc } u t p) (hpc : ∀ m, pc ≠ .inWait m)
    (hholds : ∀ m, holds t m ↔ s'.holds t m = true) : Follows u (s'.setPc t pc) a := by
  refine h.one hsteps hword hothers hmutex (hthreads ▸ h.waiting) (hthreads ▸ h.tree)
    (fun x hx => (view_setPc_of_ne s' hx pc).trans (hview x)) ?_ (fun m => ?_)
  · rw [view_setPc, hview t]
    exact hshows
  · refine (hholds m).trans (or_iff_left fun hwoken => hpc m ?_).symm
    rw [← hwoken.1, view_setPc]

end

/-- The thread keeps what it holds. -/
theorem goOn {memory : ℕ → BitVec 32} (h : Simulates u s a)
    (hsteps : Relation.ReflTransGen Step a ⟨Function.update a.phase t p, word, a.holds⟩)
    (hword : ∀ m ∈ u.mutexes, memory m = u.encode (word m))
    (hshows : ThreadView.Shows { s.view t with pc := pc } u t p) (hpc : ∀ m, pc ≠ .inWait m)
    (hholds : ∀ m, a.holds t m ↔ s.holds t m = true)
    (hmutex : ∀ m, p.wants = some m ∨ a.holds t m → m ∈ u.mutexes) :
    Follows u ({ s with process := { s.process with memory := memory } }.setPc t pc) a :=
  h.user hsteps hword (fun _ _ _ => ⟨Iff.rfl, rfl⟩) hmutex (fun _ => rfl) rfl hshows hpc hholds

end Simulates

end MutexState

end Atmosphere.Kern
