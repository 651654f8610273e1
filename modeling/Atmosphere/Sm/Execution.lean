import Atmosphere.Lib.Fallible.Basic
import Atmosphere.Sm.ServiceManager

/-!
# What the commands of sm do

`Executed` lists, for every command that returns, what it did to the state and under which
conditions. The proofs about runs of sm use this list and not the commands themselves.
-/

namespace Atmosphere.Sm

open Fallible (bind_eq_ok)
open Function (update update_self update_of_ne)

namespace SmState

variable {s : SmState} {o : Outcome}
variable {processId : ProcessId} {service : ServiceName} {error : SmResult}

theorem require_eq_ok {condition : Bool} {u : Unit} :
    require condition error = .ok u ↔ condition = true := by
  unfold require
  split_ifs with h
  · exact ⟨fun _ => h, fun _ => rfl⟩
  · exact ⟨nofun, fun hc => absurd hc h⟩

variable {α : Type} {checks : Except SmResult α} {body : α → Command}

theorem notNull_eq_ok {pointer : Option α} {a : α} :
    notNull pointer error = .ok a ↔ pointer = some a := by
  cases pointer with
  | none => exact ⟨nofun, nofun⟩
  | some b =>
    change Except.ok b = .ok a ↔ _
    rw [Except.ok.injEq, Option.some.injEq]

theorem checked_eq_ok (h : s.checked checks body = .ok o) :
    (∃ e, checks = .error e ∧ o = ⟨.error e, s, []⟩) ∨ ∃ a, checks = .ok a ∧ body a = .ok o := by
  cases checks with
  | error e =>
    injection h with h
    exact .inl ⟨e, rfl, h.symm⟩
  | ok a => exact .inr ⟨a, rfl, h⟩

theorem checked_of_ok {a : α} (h : checks = .ok a) : s.checked checks body = body a := by
  rw [h]
  rfl

theorem checked_of_error {e : SmResult} (h : checks = .error e) :
    s.checked checks body = .ok ⟨.error e, s, []⟩ := by
  rw [h]
  rfl

theorem of_getServiceInfo {i : Fin serviceCountMax} (h : s.getServiceInfo service = some i) :
    (s.services i).name = service := by
  have := Table.of_find_eq_some h
  exact eq_of_beq this

theorem name_ne_of_getServiceInfo (h : s.getServiceInfo service = none) (i : Fin serviceCountMax) :
    (s.services i).name ≠ service := by
  have := Table.find_eq_none.mp h i
  exact ne_of_beq_false this

/-- A valid name is not the name of a free entry. -/
theorem ne_invalid_of_validateServiceName (h : validateServiceName service = .ok ()) :
    service ≠ .invalid := by
  rintro rfl
  cases h

theorem of_getProcessInfo {p : Fin processCountMax} {id : Option ProcessId}
    (h : s.getProcessInfo id = some p) : (s.processes p).processId = id := by
  have := Table.of_find_eq_some h
  exact eq_of_beq this

variable (s : SmState)

/-- The state after `InstallMitm` created the port and the session and set up the entries. -/
def mitmInstalled (i : Fin serviceCountMax) (j : Fin mitmCountMax) (processId : ProcessId) :
    SmState :=
  { s with
    created := s.created + 4
    given := (s.created + 2) :: s.created :: s.given
    mitms := update s.mitms j { s.mitms j with
        processId := some processId
        portH := some (s.created + 1)
        queryH := some (s.created + 3) }
    services := update s.services i { s.services i with mitmIndex := some j } }

/-- The state after `GetServiceHandle` gave a client the session of a mitm. -/
def mitmConnected (j : Fin mitmCountMax) (processId : ProcessId) : SmState :=
  { s with
    created := s.created + 2
    given := (s.created + 1) :: s.given
    mitms := update s.mitms j { s.mitms j with
        fwdSessH := some s.created
        waitingAckProcessId := some processId
        waitingAck := true } }

/-- The state after `RegisterServiceImpl`. -/
def serviceRegistered (i : Fin serviceCountMax) (processId : ProcessId) (service : ServiceName)
    (maxSessions : ℕ) (isLight : Bool) : SmState :=
  { s with
    created := s.created + 2
    given := s.created :: s.given
    services := update s.services i { s.services i with
        name := service
        ownerProcessId := some processId
        portH := some (s.created + 1)
        maxSessions := maxSessions % 2 ^ 8
        isLight := isLight } }

/-- The state after `UninstallMitm`. -/
def mitmUninstalled (i : Fin serviceCountMax) (j : Fin mitmCountMax) : SmState :=
  { s.resetMitm j with
    services := update s.services i { s.services i with mitmIndex := none } }

/-- The state after `AcknowledgeMitmSession`. -/
def mitmAcknowledged (j : Fin mitmCountMax) : SmState :=
  { s with
    mitms := update s.mitms j
      { s.mitms j with fwdSessH := none, waitingAck := false, waitingAckProcessId := none } }.give
        (s.mitms j).fwdSessH

/-- The state after `InstallMitm` failed to create the session and closed the port again. -/
def portClosed : SmState :=
  { s with
    created := s.created + 2
    closed := (s.created + 1) :: s.created :: s.closed }

/-- The state after a process was registered in the entry `p`. -/
def processRegistered (p : Fin processCountMax) (info : ProcessInfo) : SmState :=
  { s with processes := update s.processes p info }

/-- The state after a mitm was declared in the entry `k`. -/
def futureDeclared (k : Fin mitmCountMax) (service : ServiceName) : SmState :=
  { s with futureMitms := update s.futureMitms k service }

end SmState

open SmState

/-- `Executed c s command result s' triggered`: in the state `s` the command can return
`result`, leave the state `s'` and call `TriggerResume` for `triggered`. -/
inductive Executed (c : SmConfig) (s : SmState) :
    SmCommand → Except SmResult Reply → SmState → List ServiceName → Prop
  /-- The command failed, or had only something to look up. -/
  | unchanged (command : SmCommand) (result : Except SmResult Reply)
      (triggered : List ServiceName) : Executed c s command result s triggered
  | processRegistered {processId : ProcessId} {programId : ProgramId} {overrideStatus : ℕ}
      {acidSac aciSac : List UInt8} {p : Fin processCountMax}
      (hfree : (s.processes p).processId = none) (hsize : aciSac.length ≤ accessControlSizeMax)
      (hvalid : validateRestriction acidSac aciSac = .ok ()) :
      Executed c s (.registerProcess processId programId overrideStatus acidSac aciSac)
        (.ok .none) (s.processRegistered p ⟨some processId, programId, overrideStatus, aciSac⟩) []
  | processUnregistered {processId : ProcessId} {p : Fin processCountMax}
      (hfind : s.getProcessInfo processId = some p) :
      Executed c s (.unregisterProcess processId) (.ok .none) (s.processRegistered p .invalid) []
  | connected {processId : ProcessId} {service : ServiceName} :
      Executed c s (.getServiceHandle processId service) (.ok (.handle s.newHandle))
        s.connectForClient []
  | mitmConnected {processId : ProcessId} {service : ServiceName} {i : Fin serviceCountMax}
      {j : Fin mitmCountMax} {p : Fin processCountMax}
      (hvalid : validateServiceName service = .ok ())
      (hservice : s.getServiceInfo service = some i) (hindex : (s.services i).mitmIndex = some j)
      (hwait : (s.mitms j).waitingAck = false) (hfind : s.getProcessInfo processId = some p) :
      Executed c s (.getServiceHandle processId service) (.ok (.handle (some (s.created + 1))))
        (s.mitmConnected j processId) []
  | registered {command : SmCommand} {processId : ProcessId} {service : ServiceName}
      {maxSessions : ℕ} {isLight : Bool} {i : Fin serviceCountMax}
      (hvalid : validateServiceName service = .ok ())
      (hnew : s.getServiceInfo service = none) (hfree : s.getFreeServiceInfo = some i) :
      Executed c s command (.ok (.handle s.newHandle))
        (s.serviceRegistered i processId service maxSessions isLight) [service]
  | unregistered {processId : ProcessId} {service : ServiceName} {i : Fin serviceCountMax}
      (hvalid : validateServiceName service = .ok ())
      (hservice : s.getServiceInfo service = some i) :
      Executed c s (.unregisterService processId service) (.ok .none) (s.unregisterServiceImpl i) []
  | disconnected {processId : ProcessId} :
      Executed c s (.onClientDisconnected processId) (.ok .none) (s.disconnected processId) []
  | portClosed {processId : ProcessId} {service : ServiceName} {code : ℕ}
      {triggered : List ServiceName} :
      Executed c s (.installMitm processId service) (.error (.svc code)) s.portClosed triggered
  | installed {processId : ProcessId} {service : ServiceName} {i : Fin serviceCountMax}
      {j : Fin mitmCountMax} {future : Fin mitmCountMax → ServiceName}
      (hvalid : validateServiceName service = .ok ())
      (hservice : s.getServiceInfo service = some i) (hindex : (s.services i).mitmIndex = none)
      (hfree : (s.mitms j).processId = none)
      (hfuture : ∀ k, future k = s.futureMitms k ∨
        s.futureMitms k = .invalid ∧ future k = service) :
      Executed c s (.installMitm processId service)
        (.ok (.mitmHandles s.newHandle (some (s.created + 2))))
        { s.mitmInstalled i j processId with futureMitms := future } [service]
  | uninstalled {processId : ProcessId} {service : ServiceName} {i : Fin serviceCountMax}
      {j : Fin mitmCountMax} (hvalid : validateServiceName service = .ok ())
      (hregistered : s.checkRegistered c.limits processId = .ok ())
      (hservice : s.getServiceInfo service = some i) (hindex : (s.services i).mitmIndex = some j)
      (howner : (s.mitms j).processId = some processId) :
      Executed c s (.uninstallMitm processId service) (.ok .none) (s.mitmUninstalled i j) []
  | declared {processId : ProcessId} {service : ServiceName} {k : Fin mitmCountMax}
      (hfree : s.futureMitms k = .invalid) :
      Executed c s (.declareFutureMitm processId service) (.ok .none)
        (s.futureDeclared k service) []
  | cleared {processId : ProcessId} {service : ServiceName} :
      Executed c s (.clearFutureMitm processId service) (.ok .none)
        (s.clearFutureMitmDeclaration service) [service]
  | acknowledged {processId : ProcessId} {service : ServiceName} {i : Fin serviceCountMax}
      {j : Fin mitmCountMax} {reply : Reply} (hservice : s.getServiceInfo service = some i)
      (hindex : (s.services i).mitmIndex = some j) (hwait : (s.mitms j).waitingAck = true) :
      Executed c s (.acknowledgeMitmSession processId service) (.ok reply) (s.mitmAcknowledged j)
        [service]
  | endedInitialDefers :
      Executed c s .endInitialDefers (.ok .none) { s with endedInitialDefers := true }
        initiallyDeferredServices

namespace SmState

variable {c : SmConfig} {limits : InitialProcessIdLimits} {s : SmState} {o : Outcome}
variable {answers : Answers} {processId : ProcessId} {service : ServiceName}

variable {command : SmCommand} {undo : SmState → SmState × List ServiceName}
variable {i : Fin serviceCountMax} {j : Fin mitmCountMax}

/-- A check of the command fails and nothing changes, or the checks pass. -/
theorem executed_checked {α : Type} {checks : Except SmResult α} {body : α → Command}
    (h : s.checked checks body = .ok o) (hbody : ∀ a, checks = .ok a → body a = .ok o →
      Executed c s command o.result o.state o.triggered) :
    Executed c s command o.result o.state o.triggered := by
  obtain ⟨e, -, rfl⟩ | ⟨a, hchecks, hok⟩ := checked_eq_ok h
  · exact .unchanged _ _ _
  · exact hbody a hchecks hok

theorem connect_spec (connectToPort : Option ℕ) :
    (∃ e, e ≠ .requestDeferred ∧ s.connect connectToPort = .ok ⟨.error e, s, []⟩) ∨
    s.connect connectToPort = .ok ⟨.ok (.handle s.newHandle), s.connectForClient, []⟩ := by
  cases connectToPort with
  | none => exact .inr rfl
  | some code =>
    refine .inl ⟨_, ?_, rfl⟩
    split_ifs <;> exact nofun

/-- What `GetServiceHandleImpl` can do: connect to the port of the service, or fail to, abort, or
connect the client to the mitm. -/
theorem getServiceHandleImpl_cases (i : Fin serviceCountMax) (processId : ProcessId)
    (answers : Answers) :
    ((∃ e, e ≠ .requestDeferred ∧
        s.getServiceHandleImpl i processId answers = .ok ⟨.error e, s, []⟩) ∨
      s.getServiceHandleImpl i processId answers =
        .ok ⟨.ok (.handle s.newHandle), s.connectForClient, []⟩) ∨
    (∃ j, (s.services i).mitmIndex = some j ∧ (s.mitms j).processId ≠ some processId ∧
      s.getProcessInfo processId = none ∧
      s.getServiceHandleImpl i processId answers = .error .noProcessInfo) ∨
    (∃ abort, abort ≠ .noProcessInfo ∧ s.getServiceHandleImpl i processId answers = .error abort) ∨
    ∃ j p, (s.services i).mitmIndex = some j ∧ s.getProcessInfo processId = some p ∧
      s.getServiceHandleImpl i processId answers =
        .ok ⟨.ok (.handle (some (s.created + 1))), s.mitmConnected j processId, []⟩ := by
  unfold getServiceHandleImpl
  cases hindex : (s.services i).mitmIndex with
  | none => exact .inl (connect_spec _)
  | some j =>
    dsimp only
    split_ifs with howner
    · exact .inl (connect_spec _)
    · cases hfind : s.getProcessInfo processId with
      | none => exact .inr (.inl ⟨j, rfl, howner, rfl, rfl⟩)
      | some p =>
        dsimp only
        split_ifs
        · exact .inl (connect_spec _)
        · unfold getMitmServiceHandleImpl
          rw [hindex]
          dsimp only
          split
          · exact .inr (.inr (.inl ⟨_, by decide, rfl⟩))
          · exact .inl (connect_spec _)
          · split
            · exact .inl (connect_spec _)
            · split
              · exact .inr (.inr (.inl ⟨_, by decide, rfl⟩))
              · exact .inr (.inr (.inr ⟨j, p, rfl, rfl, rfl⟩))

theorem executed_getServiceHandle
    (h : s.getServiceHandle limits processId service answers = .ok o) :
    Executed c s (.getServiceHandle processId service) o.result o.state o.triggered := by
  refine executed_checked h fun i hchecks hbody => ?_
  simp only [checkGetServiceHandle, bind_eq_ok, require_eq_ok, notNull_eq_ok] at hchecks
  obtain ⟨_, hvalid, _, _, i, hservice, _, _, _, _, _, hwait, hi⟩ := hchecks
  cases hi
  obtain (⟨e, -, himpl⟩ | himpl) | ⟨_, _, _, _, himpl⟩ | ⟨_, _, himpl⟩ |
    ⟨j, p, hindex, hfind, himpl⟩ := getServiceHandleImpl_cases i processId answers <;>
  rw [himpl] at hbody <;> cases hbody
  · exact .unchanged _ _ _
  · exact .connected
  · have hnot : (s.mitms j).waitingAck = false := by
      simpa [isWaitingAck, hindex] using hwait
    exact .mitmConnected hvalid hservice hindex hnot hfind

theorem executed_registerServiceImpl {maxSessions : ℕ} {isLight : Bool}
    (h : s.registerServiceImpl processId service maxSessions isLight answers = .ok o) :
    Executed c s command o.result o.state o.triggered := by
  refine executed_checked h fun i hchecks hbody => ?_
  simp only [bind_eq_ok, require_eq_ok, notNull_eq_ok] at hchecks
  obtain ⟨_, hvalid, _, hnew, hfree⟩ := hchecks
  cases hport : answers.createPort with
  | some code =>
    rw [hport] at hbody
    cases hbody
    exact .unchanged _ _ _
  | none =>
    rw [hport] at hbody
    cases hbody
    refine .registered hvalid ?_ hfree
    simpa [hasServiceInfo] using hnew

/-- Creating the mitm neither aborts nor defers. -/
theorem createMitm_spec {r : Command} (h : s.createMitm i j processId service answers undo = r) :
    ∃ o, r = .ok o ∧ o.result ≠ .error .requestDeferred := by
  rw [← h, createMitm]
  cases answers.createPort with
  | some code => exact ⟨_, rfl, nofun⟩
  | none =>
    cases answers.createSession with
    | some code => exact ⟨_, rfl, nofun⟩
    | none => exact ⟨_, rfl, nofun⟩

/-- Creating the mitm after the declaration left the entries `t.futureMitms`. -/
theorem executed_createMitm {future : Fin mitmCountMax → ServiceName}
    (hvalid : validateServiceName service = .ok ())
    (hservice : s.getServiceInfo service = some i) (hindex : (s.services i).mitmIndex = none)
    (hfree : (s.mitms j).processId = none)
    (hfuture : ∀ k, future k = s.futureMitms k ∨ s.futureMitms k = .invalid ∧ future k = service)
    (hundo : ∀ u : SmState, u.futureMitms = future →
      (undo u).1 = { u with futureMitms := s.futureMitms })
    (h : { s with futureMitms := future }.createMitm i j processId service answers undo = .ok o) :
    Executed c s (.installMitm processId service) o.result o.state o.triggered := by
  unfold createMitm at h
  cases hport : answers.createPort with
  | some code =>
    rw [hport] at h
    cases h
    have hstate := hundo { s with futureMitms := future } rfl
    rw [hstate]
    exact .unchanged _ _ _
  | none =>
    rw [hport] at h
    cases hsession : answers.createSession with
    | some code =>
      rw [hsession] at h
      cases h
      rw [hundo _ rfl]
      exact .portClosed
    | none =>
      rw [hsession] at h
      cases h
      exact .installed hvalid hservice hindex hfree hfuture

theorem executed_installMitm (h : s.installMitm limits processId service answers = .ok o) :
    Executed c s (.installMitm processId service) o.result o.state o.triggered := by
  refine executed_checked h fun ⟨i, j⟩ hchecks hbody => ?_
  simp only [checkInstallMitm, bind_eq_ok, require_eq_ok, notNull_eq_ok] at hchecks
  obtain ⟨_, hvalid, _, _, i', hservice, _, hindex, j', hfree, hij⟩ := hchecks
  cases hij
  have hindex' : (s.services i).mitmIndex = none := Option.isNone_iff_eq_none.mp hindex
  have hfree' : (s.mitms j).processId = none := by
    have := Table.of_find_eq_some hfree
    exact eq_of_beq this
  split_ifs at hbody with hdeclared
  · exact executed_createMitm hvalid hservice hindex' hfree' (fun _ => .inl rfl)
      (fun u hu => by rw [← hu]) hbody
  · obtain ⟨e, -, rfl⟩ | ⟨t, hadd, hcreate⟩ := checked_eq_ok hbody
    · exact .unchanged _ _ _
    · simp only [addFutureMitmDeclaration, bind_eq_ok, notNull_eq_ok] at hadd
      obtain ⟨k, hk, ht⟩ := hadd
      cases ht
      have hslot : s.futureMitms k = .invalid := eq_of_beq (Table.of_find_eq_some hk)
      refine executed_createMitm hvalid hservice hindex' hfree' (fun l => ?_) (fun u hu => ?_)
        hcreate
      · by_cases hl : l = k
        · rw [hl, update_self]
          exact .inr ⟨hslot, rfl⟩
        · rw [update_of_ne hl]
          exact .inl rfl
      · -- The declaration was the only one of this name, so clearing it undoes the addition.
        have hnone : ∀ l, s.futureMitms l ≠ service := by
          intro l hl
          have hsome : ¬ (Table.find fun l => s.futureMitms l == service).isSome = true :=
            hdeclared
          obtain ⟨l', hl'⟩ := Table.exists_find_of (p := fun l => s.futureMitms l == service)
            (beq_iff_eq.mpr hl)
          rw [hl'] at hsome
          exact hsome rfl
        have hclear : (u.clearFutureMitmDeclaration service).futureMitms = s.futureMitms := by
          funext l
          change (if u.futureMitms l = service then _ else u.futureMitms l) = _
          rw [hu]
          by_cases hl : l = k
          · rw [hl, update_self, if_pos rfl, hslot]
          · rw [update_of_ne hl, if_neg (hnone l)]
        rw [← hclear]
        rfl

/-- Everything that a command can do. -/
theorem executed_of_exec (h : s.exec c answers command = .ok o) :
    Executed c s command o.result o.state o.triggered := by
  cases command with
  | registerProcess processId programId overrideStatus acidSac aciSac =>
    refine executed_checked h fun p hchecks hbody => ?_
    simp only [bind_eq_ok, require_eq_ok, notNull_eq_ok, decide_eq_true_eq] at hchecks
    obtain ⟨_, hsize, q, hfree, _, _, _, hvalid, hp⟩ := hchecks
    cases hp
    cases hbody
    exact .processRegistered (of_getProcessInfo hfree) hsize hvalid
  | unregisterProcess processId =>
    refine executed_checked h fun p hchecks hbody => ?_
    cases hbody
    exact .processUnregistered (notNull_eq_ok.mp hchecks)
  | hasService service | waitService service | hasMitm service | waitMitm service =>
    refine executed_checked h fun a _ hbody => ?_
    cases hbody
    exact .unchanged _ _ _
  | getServiceHandle processId service => exact executed_getServiceHandle h
  | registerService processId service maxSessions isLight =>
    exact executed_checked h fun i _ hbody => executed_registerServiceImpl hbody
  | registerServiceForSelf service maxSessions => exact executed_registerServiceImpl h
  | unregisterService processId service =>
    refine executed_checked h fun i hchecks hbody => ?_
    simp only [bind_eq_ok, require_eq_ok, notNull_eq_ok] at hchecks
    obtain ⟨_, hvalid, _, _, i', hservice, _, _, hi⟩ := hchecks
    cases hi
    cases hbody
    exact .unregistered hvalid hservice
  | onClientDisconnected processId =>
    rw [exec, onClientDisconnected, succeed, Except.ok.injEq] at h
    rw [← h]
    dsimp only
    exact .disconnected
  | installMitm processId service => exact executed_installMitm h
  | uninstallMitm processId service =>
    refine executed_checked h fun ⟨i, j⟩ hchecks hbody => ?_
    simp only [bind_eq_ok, require_eq_ok, notNull_eq_ok] at hchecks
    obtain ⟨_, hvalid, _, hregistered, i', hservice, j', hindex, _, howner, hij⟩ := hchecks
    cases hij
    cases hbody
    exact .uninstalled hvalid hregistered hservice hindex (eq_of_beq howner)
  | declareFutureMitm processId service =>
    refine executed_checked h fun t hchecks hbody => ?_
    simp only [addFutureMitmDeclaration, bind_eq_ok, require_eq_ok, notNull_eq_ok] at hchecks
    obtain ⟨_, _, _, _, _, _, _, _, k, hk, ht⟩ := hchecks
    cases ht
    cases hbody
    exact .declared (eq_of_beq (Table.of_find_eq_some hk))
  | clearFutureMitm processId service =>
    refine executed_checked h fun _ _ hbody => ?_
    cases hbody
    exact .cleared
  | acknowledgeMitmSession processId service =>
    refine executed_checked h fun j hchecks hbody => ?_
    simp only [bind_eq_ok, require_eq_ok, notNull_eq_ok] at hchecks
    obtain ⟨_, _, _, _, i, hservice, j', hindex, _, _, _, hwait, hj⟩ := hchecks
    cases hj
    dsimp only at hbody
    split at hbody
    · cases hbody
    · injection hbody with hbody
      subst hbody
      exact .acknowledged hservice hindex hwait
  | endInitialDefers =>
    cases h
    exact .endedInitialDefers

end SmState

/-- The states that sm can reach. -/
inductive SmReaches (c : SmConfig) : SmState → Prop
  | initial : SmReaches c .initial
  | step {s : SmState} {answers : Answers} {command : SmCommand} {o : Outcome}
      (hrun : SmReaches c s) (hexec : s.exec c answers command = .ok o) : SmReaches c o.state

/-- The state after a list of commands, up to the first abort. -/
def SmState.afterCommands (c : SmConfig) (s : SmState) : List (Answers × SmCommand) → SmState
  | [] => s
  | (answers, command) :: commands =>
    match s.exec c answers command with
    | .ok o => o.state.afterCommands c commands
    | .error _ => s

variable {c : SmConfig} {s : SmState} {allowed : SmState → SmCommand → Prop}

/-- The states that sm can reach by commands that meet a condition. -/
inductive SmReachesUnder (c : SmConfig) (allowed : SmState → SmCommand → Prop) : SmState → Prop
  | initial : SmReachesUnder c allowed .initial
  | step {s : SmState} {answers : Answers} {command : SmCommand} {o : Outcome}
      (hrun : SmReachesUnder c allowed s) (hallowed : allowed s command)
      (hexec : s.exec c answers command = .ok o) : SmReachesUnder c allowed o.state

theorem SmReachesUnder.afterCommand {answers : Answers}
    {command : SmCommand} (hrun : SmReachesUnder c allowed s) (hallowed : allowed s command) :
    SmReachesUnder c allowed (s.afterCommands c [(answers, command)]) := by
  unfold SmState.afterCommands
  cases hexec : s.exec c answers command with
  | ok o => exact .step hrun hallowed hexec
  | error abort => exact hrun

/-- Commands that meet the condition in every state. -/
theorem SmReachesUnder.afterCommands
    (hrun : SmReachesUnder c allowed s) {commands : List (Answers × SmCommand)}
    (hallowed : ∀ s, ∀ step ∈ commands, allowed s step.2) :
    SmReachesUnder c allowed (s.afterCommands c commands) := by
  induction commands generalizing s with
  | nil => exact hrun
  | cons first commands ih =>
    unfold SmState.afterCommands
    cases hexec : s.exec c first.1 first.2 with
    | ok o =>
      apply ih (.step hrun (hallowed s first (.head _)) hexec)
      intro s step hstep
      exact hallowed s step (List.mem_cons_of_mem first hstep)
    | error abort => exact hrun

theorem SmReachesUnder.reaches (hrun : SmReachesUnder c allowed s) : SmReaches c s := by
  induction hrun with
  | initial => exact .initial
  | step _ _ hexec ih => exact .step ih hexec

theorem SmReaches.afterCommands (commands : List (Answers × SmCommand)) :
    SmReaches c (SmState.initial.afterCommands c commands) :=
  ((@SmReachesUnder.initial c fun _ _ => True).afterCommands fun _ _ _ => trivial).reaches

/-! ### A run to look at -/

/-- Every kernel call succeeds, and the mitm wants the session. -/
def Answers.allSucceed : Answers := ⟨none, none, none, none, some true⟩

/-- The processes 1 to 80 are the initial ones, and sm is the second of them. -/
def bootConfig : SmConfig := ⟨⟨1, 80, by decide⟩, 2⟩

/-- The service `set`. -/
def setService : ServiceName := .encode [0x73, 0x65, 0x74] 3

/-- The first entry of the table of mitms. -/
def firstMitm : Fin mitmCountMax := ⟨0, by decide⟩

/-- Process 3 registers `set`, process 4 installs a mitm for it, and process 90 is registered
with access to all services. -/
def mitmInstalledRun : List (Answers × SmCommand) :=
  [(.allSucceed, .registerService 3 setService 1 false), (.allSucceed, .installMitm 4 setService),
    (.allSucceed, .clearFutureMitm 4 setService),
    (.allSucceed, .registerProcess 90 0x0100000000001000 0 [0x00, 0x2a] [0x00, 0x2a])]

end Atmosphere.Sm
