import Atmosphere.Kern.PriorityQueue

/-!
# Choosing the thread of every core

`KScheduler::UpdateHighestPriorityThreadsImpl` takes the front of each core's queue, looks
at the pinned threads of its process, and then moves threads to the cores that have none.
The counters and traces that the scheduler keeps for debugging are left out.
-/

namespace Atmosphere.Kern

open BitScan

/-- `cpu::NumCores`. -/
def numCores : ℕ := 4

/-- `HighestCoreMigrationAllowedPriority`. -/
def highestCoreMigrationAllowedPriority : ℕ := 2

variable {α π : Type}

/-- What the scheduler reads from the threads and the processes. -/
structure ThreadTable (α π : Type) where
  /-- `GetOwnerProcess`; kernel threads have none. -/
  owner : α → Option π
  /-- `GetNumKernelWaiters`. -/
  numKernelWaiters : α → ℕ
  /-- `GetRawState() == ThreadState_Runnable`. -/
  runnable : α → Bool
  /-- `GetPinnedThread`. -/
  pinnedThread : π → ℕ → Option α
  /-- `GetExceptionThread`. -/
  exceptionThread : π → Option α

/-- The queue of the runnable threads and the choice of each core's scheduler. -/
structure SchedulerState (α : Type) where
  queue : KPriorityQueue α
  info : α → QueueMember
  highestPriorityThread : ℕ → Option α
  needsScheduling : ℕ → Bool

/-- The scheduler with the local variables of the update. -/
structure Update (α : Type) extends SchedulerState α where
  topThreads : ℕ → Option α
  coresNeedingScheduling : BitVec 64

variable [DecidableEq α]

/-- The thread that a core takes, given the front of its queue. -/
def ThreadTable.chooseTop (threads : ThreadTable α π) (core : ℕ) (top : α) : Option α :=
  match threads.owner top with
  | none => some top
  | some parent =>
    match threads.pinnedThread parent core with
    | none => some top
    | some pinned =>
      if pinned ≠ top then
        -- Threads with kernel waiters are preferred to the pinned thread.
        if threads.numKernelWaiters top = 0 ∧ threads.exceptionThread parent ≠ some top then
          if threads.runnable pinned then some pinned else none
        else some top
      else some top

namespace Update

/-- `top_threads[core] = thread` and `UpdateHighestPriorityThread` of the core. -/
def setTop (u : Update α) (core : ℕ) (thread : Option α) : Update α :=
  let u := { u with topThreads := Function.update u.topThreads core thread }
  if u.highestPriorityThread core ≠ thread then
    { u with
      highestPriorityThread := Function.update u.highestPriorityThread core thread
      needsScheduling := Function.update u.needsScheduling core true
      coresNeedingScheduling := u.coresNeedingScheduling ||| (1#64 <<< core) }
  else u

/-- `SetActiveCore` and `ChangeCore`. -/
def changeCore (u : Update α) (thread : α) (prevCore : Option ℕ) (core : ℕ) : Update α :=
  let m := { u.info thread with activeCore := some core }
  { u with
    info := Function.update u.info thread m
    queue := u.queue.changeCore prevCore thread m false }

/-- `top_threads[core]`. -/
def readTop (u : Update α) (core : ℕ) : Run (Option α) :=
  if core < numCores then .ok (u.topThreads core) else .error .outOfBounds

/-- The first loop, for one core. -/
def chooseTop (threads : ThreadTable α π) (u : Update α) (core : ℕ) : Update α :=
  u.setTop core ((u.queue.getScheduledFront core).bind (threads.chooseTop core))

/-- Whether the search over the suggested threads ended without one, with the cores of the
threads that are on top of theirs. -/
structure Search (α : Type) where
  update : Update α
  exhausted : Bool
  candidates : List ℕ

/-- The loop over the suggested threads of an idle core. `room` is what is left of the
array of candidates. -/
def migrateSuggested (core : ℕ) :
    (room : ℕ) → (suggested : Option α) → (candidates : List ℕ) → Update α → Run (Search α)
  | _, none, candidates, u => .ok ⟨u, true, candidates⟩
  | room, some suggested, candidates, u =>
    match (u.info suggested).activeCore with
    | none =>
      .ok ⟨(u.changeCore suggested none core).setTop core (some suggested), false, candidates⟩
    | some suggestedCore => do
      let top ← u.readTop suggestedCore
      if top ≠ some suggested then
        if top.any fun top => (u.info top).priority < highestCoreMigrationAllowedPriority then
          .ok ⟨u, false, candidates⟩
        else
          .ok ⟨(u.changeCore suggested (some suggestedCore) core).setTop core (some suggested),
            false, candidates⟩
      else
        match room with
        | 0 => .error .outOfBounds
        | room + 1 =>
          migrateSuggested core room (u.queue.getSuggestedNext core suggested (u.info suggested))
            (candidates ++ [suggestedCore]) u

/-- The loop over the candidates: a core gives its top thread if it has another one. -/
def migrateTop (core : ℕ) : (candidates : List ℕ) → Update α → Run (Update α)
  | [], u => .ok u
  | candidateCore :: candidates, u => do
    match ← u.readTop candidateCore with
    | none => .error .nullDereference
    | some suggested =>
      match u.queue.getScheduledNext candidateCore suggested (u.info suggested) with
      | some next =>
        .ok (((u.setTop candidateCore (some next)).changeCore suggested (some candidateCore)
          core).setTop core (some suggested))
      | none => migrateTop core candidates u

/-- The second loop, for one idle core. -/
def fillIdleCore (core : ℕ) (u : Update α) : Run (Update α) := do
  let search ← migrateSuggested core numCores (u.queue.getSuggestedFront core) [] u
  if search.exhausted then migrateTop core search.candidates search.update
  else .ok search.update

end Update

/-- `idle_cores` after the first loop. -/
def idleCores (s : SchedulerState α) : BitVec 64 :=
  (List.range numCores).foldl (fun idle core =>
    if (s.queue.getScheduledFront core).isNone then idle ||| (1#64 <<< core) else idle) 0

/-- The state after the first loop. -/
def chooseTops (threads : ThreadTable α π) (s : SchedulerState α) : Update α :=
  (List.range numCores).foldl (Update.chooseTop threads)
    { s with topThreads := fun _ => none, coresNeedingScheduling := 0 }

/-- `KScheduler::UpdateHighestPriorityThreadsImpl`. -/
def updateHighestPriorityThreadsImpl (threads : ThreadTable α π) (s : SchedulerState α) :
    Run (Update α) :=
  forBits (fun core u => u >>= Update.fillIdleCore core) 64 (idleCores s)
    (.ok (chooseTops threads s))

end Atmosphere.Kern
