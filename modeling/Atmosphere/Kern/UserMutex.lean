import Atmosphere.Kern.ConditionVariable

/-!
# Mutexes and condition variables of a process

The threads of a process use `KConditionVariable` through the intended protocol. A mutex is
taken by exchanging zero for the own handle. A thread that finds another handle sets the wait
bit and calls `WaitForAddress`, and afterwards looks at the word again. A word with the wait
bit is released with `SignalToAddress`. `Wait` releases the mutex, and if it does not succeed
the mutex is taken again.

An operation is one access to a word by a user thread or one call of the kernel, and any
sequence of operations that are enabled is a run. `holds` and the places of the threads are not
in the source; they say what each thread has got to.
-/

namespace Atmosphere.Kern

/-- The handles of the threads and the addresses of the mutexes. -/
structure MutexUsers (α : Type) extends Process α where
  handle : α → BitVec 32
  mutexes : Set ℕ
  getObject_handle : ∀ t, getObject (handle t) = some t
  handle_ne_zero : ∀ t, handle t ≠ 0
  handle_and_mask : ∀ t, handle t &&& handleWaitMask = 0
  canAccess_mutex : ∀ m ∈ mutexes, canAccess m = true

/-- Where a thread is. -/
inductive UserPc
  | running
  /-- It is about to look at the word of a mutex. -/
  | locking (m : ℕ)
  /-- It is about to call `WaitForAddress`. -/
  | arbitrating (m : ℕ) (tag : BitVec 32)
  | inWaitForAddress (m : ℕ)
  | inWait (m : ℕ)
  deriving DecidableEq, Repr

structure MutexState (α : Type) where
  process : ProcessState α
  pc : α → UserPc
  holds : α → ℕ → Bool

inductive UserOp (α : Type) where
  | beginLock (t : α) (m : ℕ)
  | updateWord (t : α) (m : ℕ)
  | waitForAddress (t : α) (m : ℕ) (tag : BitVec 32)
  | afterWaitForAddress (t : α) (m : ℕ)
  | unlock (t : α) (m : ℕ)
  | wait (t : α) (m key : ℕ) (timeout : ℤ)
  | afterWait (t : α) (m : ℕ)
  | signal (t : α) (key : ℕ) (count : ℤ)
  | cancelWait (t : α) (result : WaitResult)
  | setBasePriority (t : α) (priority : ℤ)
  | requestTerminate (t : α)

namespace MutexState

variable {α : Type} [DecidableEq α]

def setPc (s : MutexState α) (t : α) (pc : UserPc) : MutexState α :=
  { s with pc := Function.update s.pc t pc }

def setHolds (s : MutexState α) (t : α) (m : ℕ) (b : Bool) : MutexState α :=
  { s with holds := fun x k => if x = t ∧ k = m then b else s.holds x k }

def setWord (s : MutexState α) (m : ℕ) (value : BitVec 32) : MutexState α :=
  { s with process := { s.process with memory := Function.update s.process.memory m value } }

/-- One atomic access to the word of a mutex that the thread wants. -/
def updateWord (u : MutexUsers α) (s : MutexState α) (t : α) (m : ℕ) : MutexState α :=
  let word := s.process.memory m
  if word = 0 then ((s.setWord m (u.handle t)).setHolds t m true).setPc t .running
  else if word &&& ~~~handleWaitMask = u.handle t then (s.setHolds t m true).setPc t .running
  else
    (s.setWord m (word ||| handleWaitMask)).setPc t (.arbitrating m (word &&& ~~~handleWaitMask))

variable [Fintype α]

/-- What an operation does. -/
def run (u : MutexUsers α) (s : MutexState α) : UserOp α → Run (MutexState α)
  | .beginLock t m => .ok (s.setPc t (.locking m))
  | .updateWord t m => .ok (s.updateWord u t m)
  | .waitForAddress t m tag => do
    let (k, result) ← u.waitForAddress s.process t tag m (u.handle t)
    let pc := match result with | none => UserPc.inWaitForAddress m | some _ => UserPc.locking m
    .ok ({ s with process := k }.setPc t pc)
  | .afterWaitForAddress t m => .ok (s.setPc t (.locking m))
  | .unlock t m =>
    if s.process.memory m = u.handle t then .ok ((s.setWord m 0).setHolds t m false)
    else do
      let (k, _) ← u.signalToAddress s.process t m
      .ok ({ s with process := k }.setHolds t m false)
  | .wait t m key timeout => do
    let (k, result) ← u.wait s.process t m key (u.handle t) timeout
    let s := { s with process := k }
    match result with
    | none => .ok ((s.setHolds t m false).setPc t (.inWait m))
    | some .terminationRequested => .ok s
    | some _ => .ok ((s.setHolds t m false).setPc t (.locking m))
  | .afterWait t m =>
    match s.process.waitResult t with
    | .success => .ok ((s.setHolds t m true).setPc t .running)
    | _ => .ok (s.setPc t (.locking m))
  | .signal _ key count => do
    let k ← u.signal s.process key count
    .ok { s with process := k }
  | .cancelWait t result => do
    let k ← Process.cancelWait s.process t result
    .ok { s with process := k }
  | .setBasePriority t priority => do
    let threads ← s.process.threads.setBasePriority t priority
    .ok { s with process := { s.process with threads := threads } }
  | .requestTerminate t => do
    let k ← Process.requestTerminate s.process t
    .ok { s with process := k }

/-- When a thread may be at an operation. A mutex is not taken twice by a thread, and the keys of
condition variables are no mutexes. -/
def Enabled (u : MutexUsers α) (s : MutexState α) : UserOp α → Prop
  | .beginLock t m => s.pc t = .running ∧ s.holds t m = false ∧ m ∈ u.mutexes
  | .updateWord t m => s.pc t = .locking m
  | .waitForAddress t m tag => s.pc t = .arbitrating m tag
  | .afterWaitForAddress t m => s.pc t = .inWaitForAddress m ∧ s.process.waitQueue t = none
  | .unlock t m => s.pc t = .running ∧ s.holds t m = true
  | .wait t m key _ => s.pc t = .running ∧ s.holds t m = true ∧ key ∉ u.mutexes
  | .afterWait t m => s.pc t = .inWait m ∧ s.process.waitQueue t = none
  | .signal t key _ => s.pc t = .running ∧ key ∉ u.mutexes
  | .cancelWait _ result => result ≠ .success
  | .setBasePriority _ _ => True
  | .requestTerminate _ => True

end MutexState

end Atmosphere.Kern
