import Atmosphere.Kern.Basic
import Atmosphere.Lib.BitScan.Basic
import Atmosphere.Lib.IntrusiveList.Basic

/-!
# The priority queue of the scheduler

For every priority and core there is a list of the threads that are scheduled on the
core and a list of those that are only suggested for it. A thread has one list entry
for each core, so that on one core it can be in one list only.

The queue of the kernel has the priorities from 0 to 63; the idle threads have one
priority more and are never linked. The number of cores is a parameter as in the source.
-/

namespace Atmosphere.Kern

open IntrusiveList BitScan

/-- `LowestPriority`, the largest number that a queued thread has as its priority. -/
def lowestPriority : ℕ := 63

/-- What the queue reads from a member. No active core is `-1` in the source. -/
structure QueueMember where
  priority : ℕ
  activeCore : Option ℕ
  affinityMask : BitVec 64
  deriving DecidableEq

/-- `KAffinityMask::GetAffinity`. -/
def QueueMember.getAffinity (m : QueueMember) (core : ℕ) : Bool := m.affinityMask.getLsbD core

/-! ## Bit sets -/

/-- `BitSet64` with one word; index 0 is the highest bit. -/
abbrev BitSet64 := BitVec 64

namespace BitSet64

def getBitMask (bit : ℕ) : BitVec 64 := 1#64 <<< (63 - bit)

variable (s : BitSet64)

def setBit (i : ℕ) : BitSet64 := s ||| getBitMask i

def clearBit (i : ℕ) : BitSet64 := s &&& ~~~getBitMask i

def countLeadingZero : ℕ := countLeadingZeros s

/-- `GetNextSet`; there is no second word to go on with. -/
def getNextSet (n : ℕ) : ℕ :=
  if n + 1 < 64 then countLeadingZeros (s &&& (getBitMask n - 1)) else 64

end BitSet64

/-! ## One queue -/

/-- Which of the two queues of `KPriorityQueue`. -/
inductive QueueKind
  | scheduled
  | suggested
  deriving DecidableEq, Repr

/-- `KPriorityQueueImpl`: the roots of the lists by priority and core. -/
structure KPriorityQueueImpl (α : Type*) where
  queues : ℕ → ℕ → Entry α
  availablePriorities : ℕ → BitSet64

/-- `KPriorityQueue`, with the entry of each member for each core. -/
structure KPriorityQueue (α : Type*) where
  impl : QueueKind → KPriorityQueueImpl α
  entries : α → ℕ → Entry α

namespace KPriorityQueue

variable {α : Type*} (q : KPriorityQueue α)

/-- The root of a list with the entries for its core. -/
def links (kind : QueueKind) (priority core : ℕ) : Links α where
  root := (q.impl kind).queues priority core
  entry a := q.entries a core

/-- Writes the root of a list and the entries for its core. -/
def setLinks (kind : QueueKind) (priority core : ℕ) (c : Links α) : KPriorityQueue α where
  impl kind' :=
    if kind' = kind then
      { q.impl kind with
        queues := fun priority' core' =>
          if priority' = priority ∧ core' = core then c.root
          else (q.impl kind).queues priority' core' }
    else q.impl kind'
  entries a core' := if core' = core then c.entry a else q.entries a core'

/-- Changes the set of priorities with a member. -/
def setAvailable (kind : QueueKind) (core : ℕ) (s : BitSet64) : KPriorityQueue α :=
  { q with
    impl := fun kind' =>
      if kind' = kind then
        { q.impl kind with
          availablePriorities := fun core' =>
            if core' = core then s else (q.impl kind).availablePriorities core' }
      else q.impl kind' }

/-- A queue without members. -/
def empty (entries : α → ℕ → Entry α) : KPriorityQueue α where
  impl _ := { queues := fun _ _ => Entry.empty, availablePriorities := fun _ => 0 }
  entries := entries

variable [DecidableEq α] (q : KPriorityQueue α) (kind : QueueKind) (priority core : ℕ)

/-- `KPriorityQueueImpl::PushBack`. -/
def implPushBack (member : α) : KPriorityQueue α :=
  if priority ≤ lowestPriority then
    let c := q.links kind priority core
    let q := q.setLinks kind priority core (c.pushBack member)
    if c.root.prev.isNone then
      q.setAvailable kind core (((q.impl kind).availablePriorities core).setBit priority)
    else q
  else q

/-- `KPriorityQueueImpl::PushFront`. -/
def implPushFront (member : α) : KPriorityQueue α :=
  if priority ≤ lowestPriority then
    let c := q.links kind priority core
    let q := q.setLinks kind priority core (c.pushFront member)
    if c.root.next.isNone then
      q.setAvailable kind core (((q.impl kind).availablePriorities core).setBit priority)
    else q
  else q

/-- `KPriorityQueueImpl::Remove`. -/
def implRemove (member : α) : KPriorityQueue α :=
  if priority ≤ lowestPriority then
    let c := (q.links kind priority core).remove member
    let q := q.setLinks kind priority core c
    if c.root.next.isNone then
      q.setAvailable kind core (((q.impl kind).availablePriorities core).clearBit priority)
    else q
  else q

/-- `KPriorityQueueImpl::GetFront` of a core. -/
def getFront (core : ℕ) : Option α :=
  let priority := ((q.impl kind).availablePriorities core).countLeadingZero
  if priority ≤ lowestPriority then ((q.impl kind).queues priority core).next else none

/-- `KPriorityQueueImpl::GetNext`; the member has the given priority. -/
def getNext (core : ℕ) (member : α) (memberPriority : ℕ) : Option α :=
  match (q.entries member core).next with
  | some next => some next
  | none =>
    let priority := ((q.impl kind).availablePriorities core).getNextSet memberPriority
    if priority ≤ lowestPriority then ((q.impl kind).queues priority core).next else none

/-- `KPriorityQueueImpl::MoveToBack`, without the front that it returns. -/
def implMoveToBack (priority core : ℕ) (member : α) : KPriorityQueue α :=
  if priority ≤ lowestPriority then
    let c := ((q.links kind priority core).remove member).pushBack member
    q.setLinks kind priority core c
  else q

/-! ## Both queues -/

/-- The affinity mask without the active core. -/
def otherCores (m : QueueMember) : BitVec 64 :=
  match m.activeCore with
  | some core => BitScan.clearBit m.affinityMask core
  | none => m.affinityMask

variable (q : KPriorityQueue α)

/-- `PushBack` at a priority. -/
def pushBackAt (priority : ℕ) (member : α) (m : QueueMember) : KPriorityQueue α :=
  let q :=
    match m.activeCore with
    | some core => q.implPushBack .scheduled priority core member
    | none => q
  forBits (fun core q => q.implPushBack .suggested priority core member) 64 (otherCores m) q

/-- `PushFront` at a priority. The suggestions go to the back. -/
def pushFrontAt (priority : ℕ) (member : α) (m : QueueMember) : KPriorityQueue α :=
  let q :=
    match m.activeCore with
    | some core => q.implPushFront .scheduled priority core member
    | none => q
  forBits (fun core q => q.implPushBack .suggested priority core member) 64 (otherCores m) q

/-- `Remove` at a priority. -/
def removeAt (priority : ℕ) (member : α) (m : QueueMember) : KPriorityQueue α :=
  let q :=
    match m.activeCore with
    | some core => q.implRemove .scheduled priority core member
    | none => q
  forBits (fun core q => q.implRemove .suggested priority core member) 64 (otherCores m) q

def pushBack (member : α) (m : QueueMember) : KPriorityQueue α :=
  q.pushBackAt m.priority member m

def remove (member : α) (m : QueueMember) : KPriorityQueue α :=
  q.removeAt m.priority member m

/-- `MoveToScheduledBack`, for a member with an active core. -/
def moveToScheduledBack (member : α) (priority core : ℕ) : KPriorityQueue α :=
  q.implMoveToBack .scheduled priority core member

/-- `ChangePriority`, called when the member already has its new priority. -/
def changePriority (prevPriority : ℕ) (isRunning : Bool) (member : α) (m : QueueMember) :
    KPriorityQueue α :=
  let q := q.removeAt prevPriority member m
  if isRunning then q.pushFrontAt m.priority member m else q.pushBackAt m.priority member m

/-- The queue of a member on one core of its affinity mask. -/
def kindOn (activeCore : Option ℕ) (core : ℕ) : QueueKind :=
  if activeCore = some core then .scheduled else .suggested

/-- `ChangeAffinityMask`, called when the member already has its new mask and core. -/
def changeAffinityMask (numCores : ℕ) (q : KPriorityQueue α) (prev : QueueMember) (member : α)
    (m : QueueMember) : KPriorityQueue α :=
  let q := (List.range numCores).foldl (fun q core =>
    if prev.getAffinity core then
      q.implRemove (kindOn prev.activeCore core) m.priority core member
    else q) q
  (List.range numCores).foldl (fun q core =>
    if m.getAffinity core then
      q.implPushBack (kindOn m.activeCore core) m.priority core member
    else q) q

variable (q : KPriorityQueue α)

/-- `ChangeCore`, called when the member already has its new core. -/
def changeCore (prevCore : Option ℕ) (member : α) (m : QueueMember) (toFront : Bool) :
    KPriorityQueue α :=
  if prevCore ≠ m.activeCore then
    let q :=
      match prevCore with
      | some core => q.implRemove .scheduled m.priority core member
      | none => q
    let q :=
      match m.activeCore with
      | some core =>
        let q := q.implRemove .suggested m.priority core member
        if toFront then q.implPushFront .scheduled m.priority core member
        else q.implPushBack .scheduled m.priority core member
      | none => q
    match prevCore with
    | some core => q.implPushBack .suggested m.priority core member
    | none => q
  else q

def getScheduledFront (core : ℕ) : Option α := q.getFront .scheduled core

def getSuggestedFront (core : ℕ) : Option α := q.getFront .suggested core

def getScheduledNext (core : ℕ) (member : α) (m : QueueMember) : Option α :=
  q.getNext .scheduled core member m.priority

def getSuggestedNext (core : ℕ) (member : α) (m : QueueMember) : Option α :=
  q.getNext .suggested core member m.priority

end KPriorityQueue

end Atmosphere.Kern
