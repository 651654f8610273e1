import Atmosphere.Kern.Basic

/-!
# Waiters and inherited priorities

A thread that owns a lock keeps the threads that wait for it in a list, best priority first,
and runs with the best of its own priority and theirs. A change is passed on from each thread
to the owner of the lock it waits for.

What `KScheduler` is told about a new priority is left out. `arrival` and `clock` are not in
the source: they number the insertions into waiter lists, and no function reads them.
-/

namespace Atmosphere.Kern

/-- `TerminatingThreadPriority`. -/
def terminatingThreadPriority : ℤ := 15

/-- `KernelVirtualAddressSpaceBase`. -/
def kernelVirtualAddressSpaceBase : ℕ := 2 ^ 64 - 2 ^ 39

/-- `KernelVirtualAddressSpaceLast`. -/
def kernelVirtualAddressSpaceLast : ℕ := 2 ^ 64 - 2 ^ 21 - 1

def isKernelAddressKey (key : ℕ) : Bool :=
  decide (kernelVirtualAddressSpaceBase ≤ key) && decide (key ≤ kernelVirtualAddressSpaceLast) &&
    decide (key % 2 = 0)

/-- The fields of a `KThread` that have to do with waiting. -/
structure KThread (α : Type) where
  priority : ℤ
  basePriority : ℤ
  basePriorityOnUnpin : ℤ
  isPinned : Bool
  terminationRequested : Bool
  addressKey : ℕ
  addressKeyValue : BitVec 32
  lockOwner : Option α
  waiterList : List α
  numKernelWaiters : ℤ
  /-- `m_condvar_tree != nullptr`. -/
  condvarTree : Bool
  condvarKey : ℕ
  arrival : ℕ

/-- All threads, and the tree of those that wait for a condition variable in its order. -/
@[ext] structure Threads (α : Type) where
  thread : α → KThread α
  tree : List α
  clock : ℕ

/-- Inserts before the first element that comes later. -/
def insertBefore {α : Type} (later : α → Bool) (a : α) : List α → List α
  | [] => [a]
  | x :: l => if later x then a :: x :: l else x :: insertBefore later a l

namespace Threads

variable {α : Type} [DecidableEq α] (s : Threads α)

def modify (t : α) (f : KThread α → KThread α) : Threads α :=
  { s with thread := Function.update s.thread t (f (s.thread t)) }

/-- `tree->insert`; `ConditionVariableComparator` puts a thread behind those like it. -/
def treeInsert (t : α) : Threads α :=
  let x := s.thread t
  { s with
    tree := insertBefore (fun y =>
      decide (x.condvarKey < (s.thread y).condvarKey) ||
        decide (x.condvarKey = (s.thread y).condvarKey ∧ x.priority < (s.thread y).priority))
      t s.tree }

variable (owner thread : α)

/-- `KThread::AddWaiterImpl`. -/
def addWaiterImpl : Run (Threads α) :=
  let x := s.thread thread
  let list := insertBefore (fun y => decide ((s.thread y).priority > x.priority)) thread
    (s.thread owner).waiterList
  let insert (s : Threads α) : Threads α :=
    let s := s.modify owner fun o => { o with waiterList := list }
    let s := s.modify thread fun x => { x with lockOwner := some owner, arrival := s.clock }
    { s with clock := s.clock + 1 }
  if isKernelAddressKey x.addressKey then
    if (s.thread owner).numKernelWaiters ≥ 0 then
      .ok (insert (s.modify owner fun o => { o with numKernelWaiters := o.numKernelWaiters + 1 }))
    else .error .abortUnless
  else .ok (insert s)

/-- A kernel waiter leaves the count of its owner. -/
def uncountWaiter : Run (Threads α) :=
  if isKernelAddressKey (s.thread thread).addressKey then
    if (s.thread owner).numKernelWaiters > 0 then
      .ok (s.modify owner fun o => { o with numKernelWaiters := o.numKernelWaiters - 1 })
    else .error .abortUnless
  else .ok s

/-- `m_waiter_list.erase`. -/
def eraseWaiter : Threads α :=
  s.modify owner fun o => { o with waiterList := o.waiterList.erase thread }

def setLockOwner (thread : α) (owner : Option α) : Threads α :=
  s.modify thread fun x => { x with lockOwner := owner }

/-- `KThread::RemoveWaiterImpl`. -/
def removeWaiterImpl (owner thread : α) : Run (Threads α) := do
  let s ← s.uncountWaiter owner thread
  .ok ((s.eraseWaiter owner thread).setLockOwner thread none)

/-- The priority that `RestorePriority` computes. -/
def restoredPriority (t : α) : ℤ :=
  match (s.thread t).waiterList with
  | [] => (s.thread t).basePriority
  | w :: _ => min (s.thread t).basePriority (s.thread w).priority

/-- `SetPriority` between `BeforeUpdatePriority` and `AfterUpdatePriority`. -/
def updatePriority (t : α) (priority : ℤ) : Threads α :=
  let set (s : Threads α) := s.modify t fun x => { x with priority := priority }
  if (s.thread t).condvarTree then (set { s with tree := s.tree.erase t }).treeInsert t else set s

/-- `KThread::RestorePriority`; each round of the loop takes one unit of fuel. -/
def restorePriority : (fuel : ℕ) → Threads α → α → Run (Threads α)
  | 0, _, _ => .error .stuck
  | fuel + 1, s, t =>
    let newPriority := s.restoredPriority t
    if newPriority = (s.thread t).priority then .ok s
    else
      let s := s.updatePriority t newPriority
      match (s.thread t).lockOwner with
      | none => .ok s
      | some lockOwner => do
        let s ← s.removeWaiterImpl lockOwner t
        let s ← s.addWaiterImpl lockOwner t
        restorePriority fuel s lockOwner

variable [Fintype α]

/-- The loop changes no thread twice, so this is fuel enough. -/
def restore (s : Threads α) (t : α) : Run (Threads α) := s.restorePriority (Fintype.card α + 2) t

/-- `KThread::AddWaiter`. -/
def addWaiter (s : Threads α) (owner thread : α) : Run (Threads α) := do
  let s ← s.addWaiterImpl owner thread
  s.restore owner

/-- `KThread::RemoveWaiter`. -/
def removeWaiter (s : Threads α) (owner thread : α) : Run (Threads α) := do
  let s ← s.removeWaiterImpl owner thread
  s.restore owner

/-- The threads, the next owner and the number of waiters during `RemoveWaiterByKey`. -/
structure ByKey (α : Type) where
  threads : Threads α
  nextOwner : Option α
  numWaiters : ℕ

/-- The loop of `RemoveWaiterByKey` at one thread of the list. -/
def takeWaiter (owner : α) (key : ℕ) (b : ByKey α) (t : α) : Run (ByKey α) :=
  if (b.threads.thread t).addressKey = key then do
    let s ← b.threads.uncountWaiter owner t
    let s := s.eraseWaiter owner t
    match b.nextOwner with
    | none => .ok ⟨s.setLockOwner t none, some t, b.numWaiters + 1⟩
    | some next => do
      let s ← s.addWaiterImpl next t
      .ok ⟨s, some next, b.numWaiters + 1⟩
  else .ok b

/-- `KThread::RemoveWaiterByKey`. -/
def removeWaiterByKey (s : Threads α) (owner : α) (key : ℕ) : Run (ByKey α) := do
  let b ← (s.thread owner).waiterList.foldlM (takeWaiter owner key) ⟨s, none, 0⟩
  match b.nextOwner with
  | none => .ok b
  | some next => do
    let s ← b.threads.restore owner
    let s ← s.restore next
    .ok { b with threads := s }

/-- `KThread::SetBasePriority`. -/
def setBasePriority (s : Threads α) (t : α) (priority : ℤ) : Run (Threads α) :=
  let x := s.thread t
  let target :=
    if x.terminationRequested ∧ priority ≥ terminatingThreadPriority then terminatingThreadPriority
    else priority
  let s := s.modify t fun x =>
    if x.isPinned then { x with basePriorityOnUnpin := target }
    else { x with basePriority := target }
  s.restore t

/-- `KThread::IncreaseBasePriority`. -/
def increaseBasePriority (s : Threads α) (t : α) (priority : ℤ) : Run (Threads α) :=
  let s := s.modify t fun x =>
    if x.isPinned ∧ x.basePriorityOnUnpin > priority then { x with basePriorityOnUnpin := priority }
    else x
  if (s.thread t).basePriority > priority then
    (s.modify t fun x => { x with basePriority := priority }).restore t
  else .ok s

end Threads

end Atmosphere.Kern
