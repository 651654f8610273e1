import Atmosphere.Sm.Invariant

/-!
# The process info of a client of a mitm

`GetMitmProcessInfo` aborts sm when the process that asks for a mitm session has no process
info. The process is remembered by its id until the mitm acknowledges the session, so the
process table must keep an entry for it that long.
-/

namespace Atmosphere.Sm

open Fallible (bind_eq_ok)

namespace SmState

variable {c : SmConfig} {s s' : SmState} {answers : Answers} {command : SmCommand}
variable {j : Fin mitmCountMax}

/-- A process has an entry in the process table. -/
def HasProcess (s : SmState) (processId : ProcessId) : Prop :=
  ∃ p, (s.processes p).processId = some processId

/-- Every process whose session waits for an acknowledgement has a process info. -/
def WaitersRegistered (s : SmState) : Prop :=
  ∀ j processId, (s.mitms j).waitingAckProcessId = some processId → s.HasProcess processId

/-- A command keeps the process infos that `GetMitmProcessInfo` demands: an initial process without
one gets no service with the mitm of another process, and a process is not unregistered while its
session waits for an acknowledgement (unless it is registered twice). -/
def KeepsProcessInfo (c : SmConfig) (s : SmState) : SmCommand → Prop
  | .getServiceHandle processId service =>
    isInitialProcess c.limits processId = true → ¬ s.HasProcess processId →
      ∀ i j, s.checkGetServiceHandle c.limits processId service = .ok i →
        (s.services i).mitmIndex = some j → (s.mitms j).processId = some processId
  | .unregisterProcess processId =>
    ∀ j, (s.mitms j).waitingAckProcessId = some processId →
      ∃ p p', p ≠ p' ∧ (s.processes p).processId = some processId ∧
        (s.processes p').processId = some processId
  | _ => True

theorem HasProcess.getProcessInfo_ne_none {processId : ProcessId} (h : s.HasProcess processId) :
    s.getProcessInfo processId ≠ none := by
  obtain ⟨p, hp⟩ := h
  intro hnone
  exact ne_of_beq_false (Table.find_eq_none.mp hnone p) hp

/-! ### One command -/

/-- The commands that change neither the process table nor start to wait for a process. -/
def WaitsLess (s s' : SmState) : Prop :=
  s'.processes = s.processes ∧ ∀ j processId, (s'.mitms j).waitingAckProcessId = some processId →
      (s.mitms j).waitingAckProcessId = some processId

theorem WaitsLess.of_mitms (hprocesses : s'.processes = s.processes) (hmitms : s'.mitms = s.mitms) :
    s.WaitsLess s' := by
  refine ⟨hprocesses, fun j processId hwait => ?_⟩
  rw [hmitms] at hwait
  exact hwait

/-- An entry of the mitm table that waits for nobody is written. -/
theorem WaitsLess.of_update {m : MitmInfo}
    (hprocesses : s'.processes = s.processes) (hmitms : s'.mitms = Function.update s.mitms j m)
    (hnone : m.waitingAckProcessId = none) : s.WaitsLess s' := by
  refine ⟨hprocesses, fun j' processId hwait => ?_⟩
  rw [hmitms, Function.update_apply] at hwait
  split_ifs at hwait with hj
  · rw [hnone] at hwait
    cases hwait
  · exact hwait

theorem WaitsLess.trans {s₁ s₂ s₃ : SmState} (h : s₁.WaitsLess s₂) (h' : s₂.WaitsLess s₃) :
    s₁.WaitsLess s₃ :=
  ⟨h'.1.trans h.1, fun j processId hwait => h.2 j processId (h'.2 j processId hwait)⟩

theorem waitsLess_unregisterServiceImpl (i : Fin serviceCountMax) :
    s.WaitsLess (s.unregisterServiceImpl i) := by
  cases hindex : (s.services i).mitmIndex with
  | none =>
    rw [unregisterServiceImpl_of_none hindex]
    exact .of_mitms rfl rfl
  | some j =>
    rw [unregisterServiceImpl_of_some hindex]
    exact .of_update (j := j) rfl rfl rfl

theorem waitsLess_disconnected (processId : ProcessId) :
    s.WaitsLess (s.disconnected processId) := by
  unfold disconnected
  induction List.finRange serviceCountMax generalizing s with
  | nil => exact .of_mitms rfl rfl
  | cons i entries ih =>
    refine WaitsLess.trans ?_ ih
    unfold disconnectService
    split_ifs
    · exact waitsLess_unregisterServiceImpl i
    · exact .of_mitms rfl rfl

namespace WaitersRegistered

theorem waitsLess (h : s.WaitersRegistered) (hless : s.WaitsLess s') : s'.WaitersRegistered := by
  intro j processId hwait
  obtain ⟨p, hp⟩ := h j processId (hless.2 j processId hwait)
  refine ⟨p, ?_⟩
  rw [hless.1]
  exact hp

theorem mitmConnected (h : s.WaitersRegistered) {processId : ProcessId}
    (hprocess : s.HasProcess processId) : (s.mitmConnected j processId).WaitersRegistered := by
  intro j' processId' hwait
  change (Function.update s.mitms j _ j').waitingAckProcessId = _ at hwait
  rw [Function.update_apply] at hwait
  split_ifs at hwait with hj
  · injection hwait with hwait
    rw [← hwait]
    exact hprocess
  · exact h j' processId' hwait

/-- An entry of the process table is written without leaving a waiting process alone. -/
theorem of_processRegistered {p : Fin processCountMax} {info : ProcessInfo}
    (hother : ∀ j processId, (s.mitms j).waitingAckProcessId = some processId →
      ∃ p', p' ≠ p ∧ (s.processes p').processId = some processId) :
    (s.processRegistered p info).WaitersRegistered := by
  intro j processId hwait
  obtain ⟨p', hne, hp'⟩ := hother j processId hwait
  refine ⟨p', ?_⟩
  change (Function.update s.processes p info p').processId = _
  rw [Function.update_of_ne hne]
  exact hp'

theorem executed (h : s.WaitersRegistered) (inv : s.SmInv) {result : Except SmResult Reply}
    {triggered : List ServiceName} (hkeeps : KeepsProcessInfo c s command)
    (hexec : Executed c s command result s' triggered) : s'.WaitersRegistered := by
  cases hexec with
  | unchanged => exact h
  | @processRegistered _ _ _ _ _ p hfree =>
    refine of_processRegistered fun j processId hwait => ?_
    obtain ⟨p', hp'⟩ := h j processId hwait
    refine ⟨p', ?_, hp'⟩
    rintro rfl
    rw [hfree] at hp'
    cases hp'
  | @processUnregistered processId p hfind =>
    refine of_processRegistered fun j processId' hwait => ?_
    obtain rfl | hne := eq_or_ne processId' processId
    · -- The process is registered twice, so one of the two entries stays.
      obtain ⟨p₁, p₂, hne, hp₁, hp₂⟩ := hkeeps j hwait
      obtain rfl | hp := eq_or_ne p₁ p
      · exact ⟨p₂, hne.symm, hp₂⟩
      · exact ⟨p₁, hp, hp₁⟩
    · obtain ⟨p', hp'⟩ := h j processId' hwait
      refine ⟨p', ?_, hp'⟩
      rintro rfl
      rw [of_getProcessInfo hfind] at hp'
      injection hp' with hp'
      exact hne hp'.symm
  | connected | registered | portClosed | declared | cleared | endedInitialDefers =>
     exact h.waitsLess (.of_mitms rfl rfl)
  | mitmConnected hvalid hservice hindex hwait hfind =>
    exact h.mitmConnected ⟨_, of_getProcessInfo hfind⟩
  | unregistered => exact h.waitsLess (waitsLess_unregisterServiceImpl _)
  | disconnected => exact h.waitsLess (waitsLess_disconnected _)
  | @installed _ _ _ j _ hvalid hservice hindex hfree =>
    refine h.waitsLess (.of_update (j := j) rfl rfl ?_)
    rw [inv.freeMitm j hfree]
    rfl
  | @uninstalled _ _ _ j | @acknowledged _ _ _ j =>
     exact h.waitsLess (.of_update (j := j) rfl rfl rfl)

end WaitersRegistered

/-! ### The abort -/

variable {abort : SmAbort} {processId : ProcessId} {service : ServiceName}

theorem checked_eq_error {α : Type} {checks : Except SmResult α} {body : α → Command}
    (h : s.checked checks body = .error abort) : ∃ a, checks = .ok a ∧ body a = .error abort := by
  cases checks with
  | error e => cases h
  | ok a => exact ⟨a, rfl, h⟩

/-- A command whose body only succeeds does not abort. -/
theorem checked_succeed_ne_error {α : Type} {checks : Except SmResult α} {after : α → SmState}
    {reply : α → Reply} {triggered : α → List ServiceName} :
    s.checked checks (fun a => (after a).succeed (reply a) (triggered a)) ≠ .error abort := by
  intro h
  obtain ⟨a, -, ha⟩ := checked_eq_error h
  cases ha

theorem registerServiceImpl_ne_error {maxSessions : ℕ} {isLight : Bool} :
    s.registerServiceImpl processId service maxSessions isLight answers ≠ .error abort := by
  intro h
  obtain ⟨i, -, hbody⟩ := checked_eq_error h
  cases hport : answers.createPort with
  | none | some code =>
    rw [hport] at hbody
    cases hbody

/-- Only an initial process gets a service without a process info. -/
theorem isInitialProcess_of_checkGetServiceHandle {i : Fin serviceCountMax}
    (h : s.checkGetServiceHandle c.limits processId service = .ok i)
    (hnone : s.getProcessInfo processId = none) : isInitialProcess c.limits processId = true := by
  simp only [checkGetServiceHandle, bind_eq_ok] at h
  obtain ⟨_, -, _, haccess, -⟩ := h
  by_contra hinitial
  simp only [checkAccess, if_neg hinitial, hnone] at haccess
  cases haccess

/-- No command reaches the abort while the waiting processes are registered. -/
theorem exec_ne_noProcessInfo (inv : s.SmInv) (h : s.WaitersRegistered)
    (hkeeps : KeepsProcessInfo c s command) :
    s.exec c answers command ≠ .error .noProcessInfo := by
  intro hexec
  cases command with
  | registerProcess | unregisterProcess | hasService
  | waitService => exact checked_succeed_ne_error hexec
  | getServiceHandle processId service =>
    obtain ⟨i, hchecks, hbody⟩ := checked_eq_error hexec
    obtain (⟨_, _, himpl⟩ | himpl) | ⟨j, hindex, howner, hnone, -⟩ | ⟨abort, hne, himpl⟩ |
      ⟨_, _, _, _, himpl⟩ := getServiceHandleImpl_cases (s := s) i processId answers
    · cases himpl.symm.trans hbody
    · cases himpl.symm.trans hbody
    · have hinitial := isInitialProcess_of_checkGetServiceHandle hchecks hnone
      exact howner (hkeeps hinitial (·.getProcessInfo_ne_none hnone) i j hchecks hindex)
    · exact hne (Except.error.inj (himpl.symm.trans hbody))
    · cases himpl.symm.trans hbody
  | registerService =>
    obtain ⟨_, -, hbody⟩ := checked_eq_error hexec
    exact registerServiceImpl_ne_error hbody
  | registerServiceForSelf => exact registerServiceImpl_ne_error hexec
  | unregisterService => exact checked_succeed_ne_error hexec
  | onClientDisconnected => cases hexec
  | hasMitm | waitMitm => exact checked_succeed_ne_error hexec
  | installMitm =>
    obtain ⟨⟨i, j⟩, -, hbody⟩ := checked_eq_error hexec
    split_ifs at hbody
    · obtain ⟨_, ⟨⟩, -⟩ := createMitm_spec hbody
    · obtain ⟨t, -, hcreate⟩ := checked_eq_error hbody
      obtain ⟨_, ⟨⟩, -⟩ := createMitm_spec hcreate
  | uninstallMitm | declareFutureMitm | clearFutureMitm => exact checked_succeed_ne_error hexec
  | acknowledgeMitmSession processId service =>
    obtain ⟨j, hchecks, hbody⟩ := checked_eq_error hexec
    simp only [bind_eq_ok, require_eq_ok, notNull_eq_ok] at hchecks
    obtain ⟨_, _, _, _, _, _, _, _, _, _, _, hwait, hj⟩ := hchecks
    cases hj
    dsimp only at hbody
    split at hbody
    · -- The waiting process has no process info.
      rename_i hnone
      have hsome := inv.waitingProcess j
      rw [hwait] at hsome
      obtain ⟨waiting, hwaiting⟩ := Option.isSome_iff_exists.mp hsome
      rw [hwaiting] at hnone
      exact (h j waiting hwaiting).getProcessInfo_ne_none hnone
    · cases hbody
  | endInitialDefers => cases hexec

end SmState

open SmState

variable {c : SmConfig} {s : SmState}

theorem SmReachesUnder.waitersRegistered (hrun : SmReachesUnder c (KeepsProcessInfo c) s) :
    s.WaitersRegistered := by
  induction hrun with
  | initial => exact fun _ _ hwait => by cases hwait
  | step hrun hkeeps hexec ih =>
    exact ih.executed hrun.reaches.inv hkeeps (executed_of_exec hexec)

/-- In a run whose commands keep the process infos of the clients of mitms, no command reaches
the abort of `GetMitmProcessInfo`. -/
theorem smReachesUnder_has_mitmProcessInfo (hrun : SmReachesUnder c (KeepsProcessInfo c) s)
    {answers : Answers} {command : SmCommand} (hkeeps : KeepsProcessInfo c s command) :
    s.exec c answers command ≠ .error .noProcessInfo :=
  exec_ne_noProcessInfo hrun.reaches.inv hrun.waitersRegistered hkeeps

/-- The session of process 90 waits for the mitm, which is process 4, to acknowledge it. -/
def waitingRun : List (Answers × SmCommand) := [(.allSucceed, .getServiceHandle 90 setService)]

theorem mitmProcessInfo_waitingRun :
    let s := (SmState.initial.afterCommands bootConfig mitmInstalledRun).afterCommands bootConfig
      waitingRun
    (s.mitms firstMitm).waitingAckProcessId = some 90 ∧
      s.exec bootConfig .allSucceed (.acknowledgeMitmSession 4 setService) ≠
        .error .noProcessInfo := by
  intro s
  have hinstalled : SmReachesUnder bootConfig (KeepsProcessInfo bootConfig)
      (SmState.initial.afterCommands bootConfig mitmInstalledRun) := by
    apply SmReachesUnder.initial.afterCommands
    simp [mitmInstalledRun, KeepsProcessInfo]
  have hprocess : (SmState.initial.afterCommands bootConfig mitmInstalledRun).HasProcess 90 :=
    ⟨⟨0, by decide⟩, by decide +kernel⟩
  have hrun : SmReachesUnder bootConfig (KeepsProcessInfo bootConfig) s :=
    hinstalled.afterCommand fun _ hnone => absurd hprocess hnone
  exact ⟨by decide +kernel, smReachesUnder_has_mitmProcessInfo hrun trivial⟩

/-- The abort of a command. -/
def abortOf : Command → Option SmAbort
  | .ok _ => none
  | .error abort => some abort

theorem eq_error_of_abortOf {result : Command} {abort : SmAbort}
    (h : abortOf result = some abort) : result = .error abort := by
  cases result with
  | ok o => cases h
  | error a =>
    injection h with h
    rw [h]

/-- The client ends before its session is acknowledged and the mitm then acknowledges it; and
the initial process 5, which has no process info, asks for the service. -/
theorem mitmProcessInfo_missing : (∃ s, SmReaches bootConfig s ∧
      s.exec bootConfig .allSucceed (.acknowledgeMitmSession 4 setService) =
        .error .noProcessInfo) ∧
    ∃ s, SmReaches bootConfig s ∧
      s.exec bootConfig .allSucceed (.getServiceHandle 5 setService) = .error .noProcessInfo := by
  constructor
  · refine ⟨_, SmReaches.afterCommands
      (mitmInstalledRun ++ waitingRun ++ [(.allSucceed, .unregisterProcess 90)]), ?_⟩
    exact eq_error_of_abortOf (by decide +kernel)
  · refine ⟨_, SmReaches.afterCommands mitmInstalledRun, ?_⟩
    exact eq_error_of_abortOf (by decide +kernel)

end Atmosphere.Sm
