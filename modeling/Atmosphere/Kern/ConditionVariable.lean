import Atmosphere.Kern.PriorityInheritance

/-!
# Waiting for addresses and condition variables

`KConditionVariable` for the threads of one process. Each function is one section under the
scheduler lock; a thread that waits goes on when its wait queue is cleared. `none` in place of a
result says that the caller waits.

Timers and the references to the owner thread are left out.
-/

namespace Atmosphere.Kern

/-- `ams::svc::HandleWaitMask`. -/
def handleWaitMask : BitVec 32 := 1 <<< 30

/-- `ams::svc::SystemThreadPriorityHighest`. -/
def systemThreadPriorityHighest : ℤ := 16

/-- The results that a waiting thread may get. -/
inductive WaitResult
  | success
  | terminationRequested
  | timedOut
  | cancelled
  | invalidCurrentMemory
  | invalidHandle
  | invalidState
  deriving DecidableEq, Repr

/-- The thread queues of `KConditionVariable`. -/
inductive ThreadQueue
  | waitForAddress
  | waitConditionVariable
  deriving DecidableEq, Repr

/-- The threads and the memory that they share. -/
structure ProcessState (α : Type) where
  threads : Threads α
  /-- `m_wait_queue`, of a thread in `ThreadState_Waiting`. -/
  waitQueue : α → Option ThreadQueue
  waitResult : α → WaitResult
  memory : ℕ → BitVec 32

/-- Where the process can access its memory, and its handle table. -/
structure Process (α : Type) where
  canAccess : ℕ → Bool
  /-- `GetObjectWithoutPseudoHandle<KThread>`. -/
  getObject : BitVec 32 → Option α

/-- The iterator after `t`. -/
def nextOf {α : Type} [DecidableEq α] (t : α) : List α → Option α
  | [] => none
  | x :: l => if x = t then l.head? else nextOf t l

namespace Threads

variable {α : Type} [DecidableEq α] (s : Threads α)

/-- `KThread::SetAddressKey`. -/
def setAddressKey (t : α) (key : ℕ) (value : BitVec 32) : Threads α :=
  s.modify t fun x => { x with addressKey := key, addressKeyValue := value }

/-- `KThread::SetConditionVariable`. -/
def setConditionVariable (t : α) (address cvKey : ℕ) (value : BitVec 32) : Threads α :=
  s.modify t fun x =>
    { x with
      condvarTree := true, condvarKey := cvKey, addressKey := address, addressKeyValue := value }

def setTerminationRequested (t : α) : Threads α :=
  s.modify t fun x => { x with terminationRequested := true }

/-- The thread leaves the tree: `erase` and `ClearConditionVariable`. -/
def leaveTree (t : α) : Threads α :=
  { s with tree := s.tree.erase t }.modify t fun x => { x with condvarTree := false }

end Threads

namespace ProcessState

variable {α : Type} [DecidableEq α] (k : ProcessState α)

/-- `KThread::BeginWait`. -/
def beginWait (t : α) (queue : ThreadQueue) : ProcessState α :=
  { k with waitQueue := Function.update k.waitQueue t (some queue) }

/-- What `KThreadQueue::EndWait` and `KThreadQueue::CancelWait` both do. -/
def wake (t : α) (result : WaitResult) : ProcessState α :=
  { k with
    waitQueue := Function.update k.waitQueue t none
    waitResult := Function.update k.waitResult t result }

/-- `KThread::EndWait`. -/
def endWait (t : α) (result : WaitResult) : ProcessState α :=
  if (k.waitQueue t).isSome then k.wake t result else k

def leaveTree (t : α) : ProcessState α :=
  { k with threads := k.threads.leaveTree t }

/-- `m_tree.nfind_key({ cv_key, -1 })`. -/
def nfindKey (cvKey : ℕ) : Option α :=
  k.threads.tree.find? fun x =>
    decide (cvKey < (k.threads.thread x).condvarKey) ||
      decide (cvKey = (k.threads.thread x).condvarKey ∧ -1 < (k.threads.thread x).priority)

end ProcessState

namespace Process

variable {α : Type} [DecidableEq α]

/-- `WriteToUser`. -/
def writeToUser (p : Process α) (k : ProcessState α) (address : ℕ) (value : BitVec 32) :
    Option (ProcessState α) :=
  if p.canAccess address then some { k with memory := Function.update k.memory address value }
  else none

/-- `ReadFromUser`. -/
def readFromUser (p : Process α) (k : ProcessState α) (address : ℕ) : Option (BitVec 32) :=
  if p.canAccess address then some (k.memory address) else none

/-- The tag for the next owner. -/
def nextValue (threads : Threads α) (next : α) (numWaiters : ℕ) : BitVec 32 :=
  let nextValue := (threads.thread next).addressKeyValue
  if numWaiters > 1 then nextValue ||| handleWaitMask else nextValue

variable [Fintype α] (p : Process α) (k : ProcessState α)

/-- `KConditionVariable::SignalToAddress`. -/
def signalToAddress (cur : α) (addr : ℕ) : Run (ProcessState α × WaitResult) := do
  let b ← k.threads.removeWaiterByKey cur addr
  let k := { k with threads := b.threads }
  match b.nextOwner with
  | some next =>
    match p.writeToUser k addr (nextValue k.threads next b.numWaiters) with
    | some k => .ok (k.endWait next .success, .success)
    | none => .ok (k.endWait next .invalidCurrentMemory, .invalidCurrentMemory)
  | none =>
    match p.writeToUser k addr 0 with
    | some k => .ok (k, .success)
    | none => .ok (k, .invalidCurrentMemory)

/-- `KConditionVariable::WaitForAddress`. -/
def waitForAddress (cur : α) (handle : BitVec 32) (addr : ℕ) (value : BitVec 32) :
    Run (ProcessState α × Option WaitResult) :=
  if (k.threads.thread cur).terminationRequested then .ok (k, some .terminationRequested)
  else
    match p.readFromUser k addr with
    | none => .ok (k, some .invalidCurrentMemory)
    | some testTag =>
      if testTag ≠ handle ||| handleWaitMask then .ok (k, some .success)
      else
        match p.getObject handle with
        | none => .ok (k, some .invalidHandle)
        | some owner => do
          let threads ← (k.threads.setAddressKey cur addr value).addWaiter owner cur
          .ok ({ k with threads := threads }.beginWait cur .waitForAddress, none)

/-- `KConditionVariable::SignalImpl`; `UpdateLockAtomic` is its third line. -/
def signalImpl (thread : α) : Run (ProcessState α) :=
  let address := (k.threads.thread thread).addressKey
  let ownTag := (k.threads.thread thread).addressKeyValue
  if p.canAccess address then
    let prevTag := k.memory address
    let newTag := if prevTag = 0 then ownTag else prevTag ||| handleWaitMask
    let k := { k with memory := Function.update k.memory address newTag }
    if prevTag = 0 then .ok (k.endWait thread .success)
    else
      match p.getObject (prevTag &&& ~~~handleWaitMask) with
      | some owner => do
        let threads ← k.threads.addWaiter owner thread
        .ok { k with threads := threads }
      | none => .ok (k.endWait thread .invalidState)
  else .ok (k.endWait thread .invalidCurrentMemory)

/-- The loop of `Signal`; each round takes one unit of fuel. -/
def signalLoop (p : Process α) (cvKey : ℕ) (count : ℤ) :
    (fuel : ℕ) → ProcessState α → (it : Option α) → (numWaiters : ℕ) →
      Run (ProcessState α × Option α)
  | 0, _, _, _ => .error .stuck
  | _ + 1, k, none, _ => .ok (k, none)
  | fuel + 1, k, some t, numWaiters =>
    if (count ≤ 0 ∨ numWaiters < count) ∧ (k.threads.thread t).condvarKey = cvKey then do
      let k ← p.signalImpl k t
      p.signalLoop cvKey count fuel (k.leaveTree t) (nextOf t k.threads.tree) (numWaiters + 1)
    else .ok (k, some t)

variable (k : ProcessState α)

/-- `KConditionVariable::Signal`. Every round erases a thread from the tree. -/
def signal (cvKey : ℕ) (count : ℤ) : Run (ProcessState α) := do
  let (k, it) ← p.signalLoop cvKey count (k.threads.tree.length + 1) k (k.nfindKey cvKey) 0
  match it with
  | none => .ok ((p.writeToUser k cvKey 0).getD k)
  | some t =>
    if (k.threads.thread t).condvarKey ≠ cvKey then .ok ((p.writeToUser k cvKey 0).getD k)
    else .ok k

/-- `KConditionVariable::Wait`. -/
def wait (cur : α) (addr key : ℕ) (value : BitVec 32) (timeout : ℤ) :
    Run (ProcessState α × Option WaitResult) :=
  if (k.threads.thread cur).terminationRequested then .ok (k, some .terminationRequested)
  else do
    let b ← k.threads.removeWaiterByKey cur addr
    let k := { k with threads := b.threads }
    let (tag, k) :=
      match b.nextOwner with
      | some next => (nextValue k.threads next b.numWaiters, k.endWait next .success)
      | none => (0, k)
    let k := (p.writeToUser k key 1).getD k
    match p.writeToUser k addr tag with
    | none => .ok (k, some .invalidCurrentMemory)
    | some k =>
      if timeout = 0 then .ok (k, some .timedOut)
      else
        let threads := (k.threads.setConditionVariable cur addr key value).treeInsert cur
        .ok ({ k with threads := threads }.beginWait cur .waitConditionVariable, none)

/-- `CancelWait` of the two thread queues; nothing happens to a thread that does not wait. -/
def cancelWait (t : α) (result : WaitResult) : Run (ProcessState α) :=
  match k.waitQueue t with
  | none => .ok k
  | some .waitForAddress =>
    match (k.threads.thread t).lockOwner with
    | none => .error .nullDereference
    | some owner => do
      let threads ← k.threads.removeWaiter owner t
      .ok ({ k with threads := threads }.wake t result)
  | some .waitConditionVariable => do
    let threads ←
      match (k.threads.thread t).lockOwner with
      | none => .ok k.threads
      | some owner => k.threads.removeWaiter owner t
    let k := { k with threads := threads }
    let k := if (k.threads.thread t).condvarTree then k.leaveTree t else k
    .ok (k.wake t result)

/-- `KThread::RequestTerminate`, of a thread that is not pinned or suspended. -/
def requestTerminate (t : α) : Run (ProcessState α) :=
  if (k.threads.thread t).terminationRequested then .ok k
  else do
    let threads := k.threads.setTerminationRequested t
    let threads ←
      if (threads.thread t).basePriority ≥ systemThreadPriorityHighest then
        threads.setBasePriority t terminatingThreadPriority
      else .ok threads
    cancelWait { k with threads := threads } t .terminationRequested

end Process

end Atmosphere.Kern
