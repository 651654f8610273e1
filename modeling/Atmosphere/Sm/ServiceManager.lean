import Atmosphere.Lib.Table.Basic
import Atmosphere.Sm.AccessControl

/-!
# The service manager

sm keeps four tables: the registered processes, the registered services, the services for
which a mitm is declared, and the installed mitms. A command first checks its arguments
against the tables and then changes them; the lock makes every command one step.

What the kernel answers to a command is an argument of the command. Handles are numbered in
the order in which the kernel creates them for sm, and none is `InvalidNativeHandle`; beside
the tables the state records which handles sm closed and which it gave to a client. Process
ids in commands come from the kernel and are valid; in the tables none is `InvalidProcessId`.
A record of the names for which a command calls `TriggerResume` is part of what it returns.
-/

namespace Atmosphere.Sm

open Function (update)

def processCountMax : ℕ := 0x50

def serviceCountMax : ℕ := 0x180

def mitmCountMax : ℕ := 0x20

def accessControlSizeMax : ℕ := 0x200

/-- The code of `svc::ResultOutOfSessions`. -/
def svcOutOfSessions : ℕ := 7

abbrev ProcessId := ℕ

abbrev ProgramId := ℕ

/-- `os::NativeHandle`; none is `InvalidNativeHandle`. -/
abbrev NativeHandle := Option ℕ

structure ProcessInfo where
  processId : Option ProcessId
  programId : ProgramId
  overrideStatus : ℕ
  accessControl : List UInt8
  deriving DecidableEq

/-- `InvalidProcessInfo`. -/
def ProcessInfo.invalid : ProcessInfo := ⟨none, 0, 0, []⟩

structure ServiceInfo where
  name : ServiceName
  ownerProcessId : Option ProcessId
  portH : NativeHandle
  isLight : Bool
  maxSessions : ℕ
  /-- The index of the mitm; none is `MitmCountMax`. -/
  mitmIndex : Option (Fin mitmCountMax)
  deriving DecidableEq

/-- `InvalidServiceInfo`. -/
def ServiceInfo.invalid : ServiceInfo := ⟨.invalid, none, none, false, 0, none⟩

structure MitmInfo where
  processId : Option ProcessId
  waitingAckProcessId : Option ProcessId
  portH : NativeHandle
  queryH : NativeHandle
  fwdSessH : NativeHandle
  waitingAck : Bool
  deriving DecidableEq

/-- `InvalidMitmInfo`. -/
def MitmInfo.invalid : MitmInfo := ⟨none, none, none, none, none, false⟩

/-- The global state of sm, and what became of the handles. -/
structure SmState where
  processes : Fin processCountMax → ProcessInfo
  services : Fin serviceCountMax → ServiceInfo
  futureMitms : Fin mitmCountMax → ServiceName
  mitms : Fin mitmCountMax → MitmInfo
  endedInitialDefers : Bool
  /-- The number of handles created so far. -/
  created : ℕ
  /-- The handles sm closed. -/
  closed : List ℕ
  /-- The handles that commands returned to clients. -/
  given : List ℕ

/-- The range of the initial process ids, as the kernel gives it; it is not empty. -/
structure InitialProcessIdLimits where
  min : ProcessId
  max : ProcessId
  min_le_max : min ≤ max

/-- What the kernel and the mitm answer during a command; a result is none for success. -/
structure Answers where
  createPort : Option ℕ
  createSession : Option ℕ
  connectToPort : Option ℕ
  connectToMitm : Option ℕ
  /-- The answer of the mitm to the query whether it wants the session. -/
  shouldMitm : Option Bool

/-- The aborts of the modelled commands. -/
inductive SmAbort
  /-- `GetMitmProcessInfo` of a process without process info. -/
  | noProcessInfo
  /-- `GetMitmServiceHandleImpl` without a mitm. -/
  | noMitmInfo
  /-- The query to the mitm failed. -/
  | queryFailed
  /-- The connection to the port of the mitm failed. -/
  | mitmConnectFailed
  deriving DecidableEq, Repr

/-- The values a command returns. -/
inductive Reply
  | none
  | flag (value : Bool)
  | handle (handle : NativeHandle)
  | mitmHandles (port query : NativeHandle)
  | mitmSession (processId : Option ProcessId) (programId : ProgramId) (overrideStatus : ℕ)
      (session : NativeHandle)
  deriving DecidableEq

/-- How a command ends. -/
structure Outcome where
  result : Except SmResult Reply
  state : SmState
  /-- The names for which `TriggerResume` was called. -/
  triggered : List ServiceName

/-- A command that returns or aborts sm. -/
abbrev Command := Except SmAbort Outcome

namespace SmState

/-- The state when sm starts. -/
def initial : SmState where
  processes := fun _ => .invalid
  services := fun _ => .invalid
  futureMitms := fun _ => .invalid
  mitms := fun _ => .invalid
  endedInitialDefers := false
  created := 0
  closed := []
  given := []

variable (limits : InitialProcessIdLimits) (s : SmState)

/-! ### Lookups -/

/-- `IsInitialProcess`. -/
def isInitialProcess (processId : ProcessId) : Bool :=
  limits.min ≤ processId && processId ≤ limits.max

/-- `GetProcessInfo`. -/
def getProcessInfo (processId : Option ProcessId) : Option (Fin processCountMax) :=
  Table.find fun i => (s.processes i).processId == processId

/-- `GetFreeProcessInfo`. -/
def getFreeProcessInfo : Option (Fin processCountMax) := s.getProcessInfo none

/-- `GetServiceInfo`. -/
def getServiceInfo (service : ServiceName) : Option (Fin serviceCountMax) :=
  Table.find fun i => (s.services i).name == service

/-- `GetFreeServiceInfo`. -/
def getFreeServiceInfo : Option (Fin serviceCountMax) := s.getServiceInfo .invalid

/-- `HasServiceInfo`. -/
def hasServiceInfo (service : ServiceName) : Bool := (s.getServiceInfo service).isSome

/-- `GetFreeMitmInfo`. -/
def getFreeMitmInfo : Option (Fin mitmCountMax) :=
  Table.find fun j => (s.mitms j).processId == none

/-- `HasMitm`. -/
def hasMitm (service : ServiceName) : Bool :=
  match s.getServiceInfo service with
  | some i => (s.services i).mitmIndex.isSome
  | none => false

/-- `HasFutureMitmDeclaration`. -/
def hasFutureMitmDeclaration (service : ServiceName) : Bool :=
  (Table.find fun k => s.futureMitms k == service).isSome

/-- `InitiallyDeferredServices`. -/
def initiallyDeferredServices : List ServiceName :=
  [.encode [0x66, 0x73, 0x70, 0x2d, 0x73, 0x72, 0x76] 7]

/-- `ShouldDeferForInit`. -/
def shouldDeferForInit (service : ServiceName) : Bool :=
  !s.endedInitialDefers && initiallyDeferredServices.contains service

/-- The programs for which `IsMitmDisallowed`: Loader, Pm, Spl, Boot, Ncm, Mitm, Creport. -/
def mitmDisallowedPrograms : List ProgramId :=
  [0x0100000000000001, 0x0100000000000003, 0x0100000000000028, 0x0100000000000005,
    0x0100000000000002, 0x010041544D530000, 0x0100000000000036]

/-- `IsMitmDisallowed`. -/
def isMitmDisallowed (programId : ProgramId) : Bool := mitmDisallowedPrograms.contains programId

/-! ### Checks that the commands share -/

/-- The process is an initial one, or registered and allowed by its access control. -/
def checkAccess (processId : ProcessId) (service : ServiceName) (isHost : Bool) :
    Except SmResult Unit :=
  if isInitialProcess limits processId then .ok ()
  else
    match s.getProcessInfo processId with
    | none => .error .invalidClient
    | some p => validateAccessControl (s.processes p).accessControl service isHost false

/-- The process is an initial one, or registered. -/
def checkRegistered (processId : ProcessId) : Except SmResult Unit :=
  if isInitialProcess limits processId then .ok ()
  else if (s.getProcessInfo processId).isSome then .ok ()
  else .error .invalidClient

/-- `R_UNLESS`. -/
def require (condition : Bool) (error : SmResult) : Except SmResult Unit :=
  if condition then .ok () else .error error

/-- A pointer that must not be null. -/
def notNull {α : Type} (pointer : Option α) (error : SmResult) : Except SmResult α :=
  match pointer with
  | some a => .ok a
  | none => .error error

/-! ### Handles -/

/-- The next handle that the kernel creates. -/
def newHandle : NativeHandle := some s.created

/-- `os::CloseNativeHandle`. -/
def closeNativeHandle (handle : NativeHandle) : SmState :=
  { s with closed := handle.toList ++ s.closed }

/-- A handle is returned to the client. -/
def give (handle : NativeHandle) : SmState := { s with given := handle.toList ++ s.given }

/-- `svc::ConnectToPort` that succeeds, with the session given to the client. -/
def connectForClient : SmState := { s with created := s.created + 1 }.give s.newHandle

/-! ### Commands -/

/-- A command that fails without any change. -/
def refuse (error : SmResult) : Command := .ok ⟨.error error, s, []⟩

/-- A command that succeeds. -/
def succeed (reply : Reply) (triggered : List ServiceName) : Command :=
  .ok ⟨.ok reply, s, triggered⟩

/-- The checks of a command, and what it does when they pass. -/
def checked {α : Type} (checks : Except SmResult α) (body : α → Command) : Command :=
  match checks with
  | .error e => s.refuse e
  | .ok a => body a

/-- `RegisterProcess`. -/
def registerProcess (processId : ProcessId) (programId : ProgramId) (overrideStatus : ℕ)
    (acidSac aciSac : List UInt8) : Command :=
  s.checked (do
    require (aciSac.length ≤ accessControlSizeMax) .tooLargeAccessControl
    let p ← notNull s.getFreeProcessInfo .outOfProcesses
    require (aciSac.length != 0) .notAllowed
    validateRestriction acidSac aciSac
    return p)
  fun p =>
    { s with
      processes := update s.processes p
        ⟨some processId, programId, overrideStatus, aciSac⟩ }.succeed .none []

/-- `UnregisterProcess`. -/
def unregisterProcess (processId : ProcessId) : Command :=
  s.checked (notNull (s.getProcessInfo processId) .invalidClient) fun p =>
    { s with processes := update s.processes p .invalid }.succeed .none []

/-- `HasService`. -/
def hasService (service : ServiceName) : Command :=
  s.checked (validateServiceName service) fun _ =>
    s.succeed (.flag (s.hasServiceInfo service)) []

/-- `WaitService`. -/
def waitService (service : ServiceName) : Command :=
  s.checked (do
    validateServiceName service
    require (s.hasServiceInfo service) .requestDeferred)
  fun _ => s.succeed .none []

/-- `ConnectToPortImpl` for the client, with the conversion of its result. -/
def connect (connectToPort : Option ℕ) : Command :=
  match connectToPort with
  | some code => s.refuse (if code = svcOutOfSessions then .outOfSessions else .svc code)
  | none => s.connectForClient.succeed (.handle s.newHandle) []

variable (i : Fin serviceCountMax)

/-- `GetMitmServiceHandleImpl`. -/
def getMitmServiceHandleImpl (processId : ProcessId) (answers : Answers) : Command :=
  match (s.services i).mitmIndex with
  | none => .error .noMitmInfo
  | some j =>
    match answers.shouldMitm with
    | none => .error .queryFailed
    | some false => s.connect answers.connectToPort
    | some true =>
      match answers.connectToPort with
      | some code => s.connect (some code)
      | none =>
        -- The forward session is created first; the client gets the other one.
        let t := { s with
          created := s.created + 1
          mitms := update s.mitms j { s.mitms j with
              fwdSessH := s.newHandle
              waitingAckProcessId := some processId
              waitingAck := true } }
        match answers.connectToMitm with
        | some _ => .error .mitmConnectFailed
        | none => t.connect none

/-- `GetServiceHandleImpl`. -/
def getServiceHandleImpl (processId : ProcessId) (answers : Answers) :
    Command :=
  match (s.services i).mitmIndex with
  | none => s.connect answers.connectToPort
  | some j =>
    if (s.mitms j).processId = some processId then s.connect answers.connectToPort
    else
      match s.getProcessInfo processId with
      | none => .error .noProcessInfo
      | some p =>
        if isMitmDisallowed (s.processes p).programId then s.connect answers.connectToPort
        else s.getMitmServiceHandleImpl i processId answers

/-- The service has a mitm that waits for an acknowledgement. -/
def isWaitingAck : Bool :=
  match (s.services i).mitmIndex with
  | some j => (s.mitms j).waitingAck
  | none => false

variable (processId : ProcessId) (service : ServiceName)

/-- The checks of `GetServiceHandle`. -/
def checkGetServiceHandle : Except SmResult (Fin serviceCountMax) := do
  validateServiceName service
  s.checkAccess limits processId service false
  let i ← notNull (s.getServiceInfo service) .requestDeferred
  require (!s.shouldDeferForInit service) .requestDeferred
  require (!s.hasFutureMitmDeclaration service) .requestDeferred
  require (!s.isWaitingAck i) .requestDeferred
  return i

/-- `GetServiceHandle`. -/
def getServiceHandle (answers : Answers) :
    Command :=
  s.checked (s.checkGetServiceHandle limits processId service) fun i =>
    s.getServiceHandleImpl i processId answers

/-- `RegisterServiceImpl`. -/
def registerServiceImpl (maxSessions : ℕ) (isLight : Bool) (answers : Answers) : Command :=
  s.checked (do
    validateServiceName service
    require (!s.hasServiceInfo service) .alreadyRegistered
    notNull s.getFreeServiceInfo .outOfServices)
  fun i =>
    match answers.createPort with
    | some code => s.refuse (.svc code)
    | none =>
      let server := s.newHandle
      let s := { s with created := s.created + 1 }
      let client := s.newHandle
      let s := { s with
        created := s.created + 1
        services := update s.services i { s.services i with
            name := service
            ownerProcessId := some processId
            portH := client
            maxSessions := maxSessions % 2 ^ 8
            isLight := isLight } }
      (s.give server).succeed (.handle server) [service]

/-- `RegisterService`. -/
def registerService (maxSessions : ℕ) (isLight : Bool) (answers : Answers) :
    Command :=
  s.checked (do
    validateServiceName service
    s.checkAccess limits processId service true
    require (!s.hasServiceInfo service) .alreadyRegistered)
  fun _ => s.registerServiceImpl processId service maxSessions isLight answers

/-- `RegisterServiceForSelf`, where `self` is the process of sm. -/
def registerServiceForSelf (self : ProcessId) (service : ServiceName) (maxSessions : ℕ)
    (answers : Answers) : Command :=
  s.registerServiceImpl self service maxSessions false answers

/-- The handles of a mitm are closed and its entry is reset. -/
def resetMitm (j : Fin mitmCountMax) : SmState :=
  let m := s.mitms j
  let s := ((s.closeNativeHandle m.portH).closeNativeHandle m.queryH).closeNativeHandle m.fwdSessH
  { s with mitms := update s.mitms j .invalid }

/-- `UnregisterServiceImpl`. -/
def unregisterServiceImpl (i : Fin serviceCountMax) : SmState :=
  let info := s.services i
  let s := s.closeNativeHandle info.portH
  let s := { s with services := update s.services i .invalid }
  match info.mitmIndex with
  | some j => s.resetMitm j
  | none => s

variable (processId : ProcessId)

/-- `UnregisterService`. -/
def unregisterService (service : ServiceName) : Command :=
  s.checked (do
    validateServiceName service
    s.checkRegistered limits processId
    let i ← notNull (s.getServiceInfo service) .notRegistered
    require ((s.services i).ownerProcessId == some processId) .notAllowed
    return i)
  fun i => (s.unregisterServiceImpl i).succeed .none []

/-- One round of the loop of `OnClientDisconnected`. -/
def disconnectService (s : SmState) (i : Fin serviceCountMax) : SmState :=
  if (s.services i).name ≠ .invalid ∧ (s.services i).ownerProcessId = some processId then
    s.unregisterServiceImpl i
  else s

/-- The loop of `OnClientDisconnected`. -/
def disconnected : SmState :=
  (List.finRange serviceCountMax).foldl (disconnectService processId) s

/-- `OnClientDisconnected`. -/
def onClientDisconnected : Command :=
  (s.disconnected processId).succeed .none []

variable (service : ServiceName)

/-- The second `HasMitm`. -/
def hasMitmCommand : Command :=
  s.checked (validateServiceName service) fun _ => s.succeed (.flag (s.hasMitm service)) []

/-- `WaitMitm`. -/
def waitMitm : Command :=
  s.checked (do
    validateServiceName service
    require (s.hasMitm service) .requestDeferred)
  fun _ => s.succeed .none []

/-- `ClearFutureMitmDeclaration`, without the call of `TriggerResume`. -/
def clearFutureMitmDeclaration : SmState :=
  { s with
    futureMitms := fun k => if s.futureMitms k = service then .invalid else s.futureMitms k }

/-- `AddFutureMitmDeclaration`. -/
def addFutureMitmDeclaration : Except SmResult SmState := do
  let k ← notNull (Table.find fun k => s.futureMitms k == .invalid) .outOfServices
  return { s with futureMitms := update s.futureMitms k service }

/-- The checks of `InstallMitm`, which give the service and a free mitm. -/
def checkInstallMitm (processId : ProcessId) (service : ServiceName) :
    Except SmResult (Fin serviceCountMax × Fin mitmCountMax) := do
  validateServiceName service
  s.checkAccess limits processId service true
  let i ← notNull (s.getServiceInfo service) .requestDeferred
  require (s.services i).mitmIndex.isNone .alreadyRegistered
  let j ← notNull s.getFreeMitmInfo .outOfServices
  return (i, j)

/-- The rest of `InstallMitm` once the mitm is declared. On failure `undo` is run. -/
def createMitm (i : Fin serviceCountMax) (j : Fin mitmCountMax) (processId : ProcessId)
    (service : ServiceName) (answers : Answers) (undo : SmState → SmState × List ServiceName) :
    Command :=
  match answers.createPort with
  | some code =>
    let (s, triggered) := undo s
    .ok ⟨.error (.svc code), s, triggered⟩
  | none =>
    let hnd := s.newHandle
    let s := { s with created := s.created + 1 }
    let portHnd := s.newHandle
    let s := { s with created := s.created + 1 }
    match answers.createSession with
    | some code =>
      let (s, triggered) := undo ((s.closeNativeHandle hnd).closeNativeHandle portHnd)
      .ok ⟨.error (.svc code), s, triggered⟩
    | none =>
      let qryHnd := s.newHandle
      let s := { s with created := s.created + 1 }
      let mitmQryHnd := s.newHandle
      let s := { s with
        created := s.created + 1
        mitms := update s.mitms j
          { s.mitms j with processId := some processId, portH := portHnd, queryH := mitmQryHnd }
        services := update s.services i { s.services i with mitmIndex := some j } }
      ((s.give hnd).give qryHnd).succeed (.mitmHandles hnd qryHnd) [service]

variable (processId : ProcessId) (service : ServiceName)

/-- `InstallMitm`. -/
def installMitm (answers : Answers) : Command :=
  s.checked (s.checkInstallMitm limits processId service) fun (i, j) =>
    if s.hasFutureMitmDeclaration service then
      s.createMitm i j processId service answers fun s => (s, [])
    else
      s.checked (s.addFutureMitmDeclaration service) fun t =>
        t.createMitm i j processId service answers fun s =>
          (s.clearFutureMitmDeclaration service, [service])

/-- `UninstallMitm`. -/
def uninstallMitm : Command :=
  s.checked (do
    validateServiceName service
    s.checkRegistered limits processId
    let i ← notNull (s.getServiceInfo service) .notRegistered
    let j ← notNull (s.services i).mitmIndex .notRegistered
    require ((s.mitms j).processId == some processId) .notAllowed
    return (i, j))
  fun (i, j) =>
    let s := s.resetMitm j
    { s with
      services := update s.services i { s.services i with mitmIndex := none } }.succeed .none []

/-- `DeclareFutureMitm`. -/
def declareFutureMitm : Command :=
  s.checked (do
    validateServiceName service
    s.checkAccess limits processId service true
    require (!s.hasMitm service) .alreadyRegistered
    require (!s.hasFutureMitmDeclaration service) .alreadyRegistered
    s.addFutureMitmDeclaration service)
  fun t => t.succeed .none []

/-- `ClearFutureMitm`. -/
def clearFutureMitm : Command :=
  s.checked (do
    validateServiceName service
    s.checkAccess limits processId service true
    let i ← notNull (s.getServiceInfo service) .notRegistered
    match (s.services i).mitmIndex with
    | some j => require ((s.mitms j).processId == some processId) .notAllowed
    | none => require (s.hasFutureMitmDeclaration service) .notRegistered)
  fun _ => (s.clearFutureMitmDeclaration service).succeed .none [service]

/-- `AcknowledgeMitmSession`. -/
def acknowledgeMitmSession : Command :=
  s.checked (do
    validateServiceName service
    s.checkRegistered limits processId
    let i ← notNull (s.getServiceInfo service) .notRegistered
    let j ← notNull (s.services i).mitmIndex .notRegistered
    require ((s.mitms j).processId == some processId) .notAllowed
    require (s.mitms j).waitingAck .notAllowed
    return j)
  fun j =>
    let m := s.mitms j
    match s.getProcessInfo m.waitingAckProcessId with
    | none => .error .noProcessInfo
    | some p =>
      let s := { s with
        mitms := update s.mitms j
          { m with fwdSessH := none, waitingAck := false, waitingAckProcessId := none } }
      (s.give m.fwdSessH).succeed (.mitmSession m.waitingAckProcessId (s.processes p).programId
          (s.processes p).overrideStatus m.fwdSessH) [service]

/-- `EndInitialDefers`. -/
def endInitialDefers : Command :=
  { s with endedInitialDefers := true }.succeed .none initiallyDeferredServices

end SmState

/-- The commands of sm. -/
inductive SmCommand
  | registerProcess (processId : ProcessId) (programId : ProgramId) (overrideStatus : ℕ)
      (acidSac aciSac : List UInt8)
  | unregisterProcess (processId : ProcessId)
  | hasService (service : ServiceName)
  | waitService (service : ServiceName)
  | getServiceHandle (processId : ProcessId) (service : ServiceName)
  | registerService (processId : ProcessId) (service : ServiceName) (maxSessions : ℕ)
      (isLight : Bool)
  | registerServiceForSelf (service : ServiceName) (maxSessions : ℕ)
  | unregisterService (processId : ProcessId) (service : ServiceName)
  | onClientDisconnected (processId : ProcessId)
  | hasMitm (service : ServiceName)
  | waitMitm (service : ServiceName)
  | installMitm (processId : ProcessId) (service : ServiceName)
  | uninstallMitm (processId : ProcessId) (service : ServiceName)
  | declareFutureMitm (processId : ProcessId) (service : ServiceName)
  | clearFutureMitm (processId : ProcessId) (service : ServiceName)
  | acknowledgeMitmSession (processId : ProcessId) (service : ServiceName)
  | endInitialDefers
  deriving DecidableEq

/-- What does not change while sm runs. -/
structure SmConfig where
  limits : InitialProcessIdLimits
  /-- `os::GetCurrentProcessId`. -/
  self : ProcessId

/-- A command, given what the kernel and the mitm answer. -/
def SmState.exec (c : SmConfig) (s : SmState) (answers : Answers) : SmCommand → Command
  | .registerProcess processId programId overrideStatus acidSac aciSac =>
    s.registerProcess processId programId overrideStatus acidSac aciSac
  | .unregisterProcess processId => s.unregisterProcess processId
  | .hasService service => s.hasService service
  | .waitService service => s.waitService service
  | .getServiceHandle processId service => s.getServiceHandle c.limits processId service answers
  | .registerService processId service maxSessions isLight =>
    s.registerService c.limits processId service maxSessions isLight answers
  | .registerServiceForSelf service maxSessions =>
    s.registerServiceForSelf c.self service maxSessions answers
  | .unregisterService processId service => s.unregisterService c.limits processId service
  | .onClientDisconnected processId => s.onClientDisconnected processId
  | .hasMitm service => s.hasMitmCommand service
  | .waitMitm service => s.waitMitm service
  | .installMitm processId service => s.installMitm c.limits processId service answers
  | .uninstallMitm processId service => s.uninstallMitm c.limits processId service
  | .declareFutureMitm processId service => s.declareFutureMitm c.limits processId service
  | .clearFutureMitm processId service => s.clearFutureMitm c.limits processId service
  | .acknowledgeMitmSession processId service =>
    s.acknowledgeMitmSession c.limits processId service
  | .endInitialDefers => s.endInitialDefers

end Atmosphere.Sm
