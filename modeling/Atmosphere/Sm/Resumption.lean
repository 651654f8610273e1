import Atmosphere.Sm.Deferral

/-!
# Which commands resume deferred requests

Every command either leaves in place what blocks the requests for a name, or calls
`TriggerResume` with the name. The exception is `UninstallMitm` of a mitm that waits for an
acknowledgement.
-/

namespace Atmosphere.Sm

open Fallible (ok_bind bind_eq_ok)
open Function (update update_self update_of_ne update_apply update_eq_self)

namespace SmState

variable {c : SmConfig} {s s' s'' : SmState} {service : ServiceName}
variable {result : Except SmResult Reply} {triggered : List ServiceName} {command : SmCommand}

/-- Whatever blocked the requests for a name blocks them still. -/
structure BlocksStill (s s' : SmState) (service : ServiceName) : Prop where
  named : s'.Named service → s.Named service
  mitmed : s'.Mitmed service → s.Mitmed service
  init : s.shouldDeferForInit service = true → s'.shouldDeferForInit service = true
  declared : s.Declared service → s'.Declared service
  waits : s'.Named service → s.Waits service → s'.Waits service

/-- `UninstallMitm` resets a mitm that waits for an acknowledgement, and nothing but the wait
held back the requests for its service. -/
def LosesWakeup (c : SmConfig) (s : SmState) (command : SmCommand) : Prop :=
  ∃ processId service i j, command = .uninstallMitm processId service ∧
    validateServiceName service = .ok () ∧ s.checkRegistered c.limits processId = .ok () ∧
    s.getServiceInfo service = some i ∧ (s.services i).mitmIndex = some j ∧
    (s.mitms j).processId = some processId ∧ (s.mitms j).waitingAck = true ∧
    s.shouldDeferForInit service = false ∧ s.hasFutureMitmDeclaration service = false

/-- The mitm of one entry is that of no other. -/
theorem SmInv.update_mitm {i i' : Fin serviceCountMax} {j j' : Fin mitmCountMax} {info : MitmInfo}
    (inv : s.SmInv) (hindex : (s.services i).mitmIndex = some j) (hne : i' ≠ i)
    (hindex' : (s.services i').mitmIndex = some j') : update s.mitms j info j' = s.mitms j' := by
  apply update_of_ne
  rintro rfl
  exact hne (inv.mitmUnique i' i j' hindex' hindex)

namespace BlocksStill

theorem blocks {r : SmRequest} (h : BlocksStill s s' r.service) (hblocks : s.Blocks r) :
    s'.Blocks r := by
  cases r with
  | getServiceHandle processId service =>
    intro hnamed
    obtain hinit | hdeclared | hwaits := hblocks (h.named hnamed)
    · exact .inl (h.init hinit)
    · exact .inr (.inl (h.declared hdeclared))
    · exact .inr (.inr (h.waits hnamed hwaits))
  | waitService service
  | installMitm processId service => exact fun hnamed => hblocks (h.named hnamed)
  | waitMitm service => exact fun hmitmed => hblocks (h.mitmed hmitmed)

theorem refl (s : SmState) (service : ServiceName) : BlocksStill s s service :=
  ⟨id, id, id, id, fun _ => id⟩

theorem trans (h : BlocksStill s s' service) (h' : BlocksStill s' s'' service) :
    BlocksStill s s'' service where
  named := fun hnamed => h.named (h'.named hnamed)
  mitmed := fun hmitmed => h.mitmed (h'.mitmed hmitmed)
  init := fun hinit => h'.init (h.init hinit)
  declared := fun hdeclared => h'.declared (h.declared hdeclared)
  waits := fun hnamed hwaits => h'.waits hnamed (h.waits (h'.named hnamed) hwaits)

section

variable (inv : s.SmInv) (hname : service ≠ .invalid)
include inv hname

section

variable (hended : s'.endedInitialDefers = s.endedInitialDefers)
  (hdeclared : s.Declared service → s'.Declared service)
include hended hdeclared

/-- The entries of the name are as before, and their mitms wait as before. -/
theorem of_entries (hentries : ∀ i, (s'.services i).name = service → s'.services i = s.services i)
    (hwaits : ∀ i j, (s'.services i).name = service → (s.services i).mitmIndex = some j →
      (s.mitms j).waitingAck = true → (s'.mitms j).waitingAck = true) :
    BlocksStill s s' service where
  named := by
    intro ⟨i, hi⟩
    refine ⟨i, ?_⟩
    rw [← hentries i hi]
    exact hi
  mitmed := by
    intro ⟨i, j, hi, hindex⟩
    refine ⟨i, j, ?_, ?_⟩
    · rw [← hentries i hi]
      exact hi
    · rw [← hentries i hi]
      exact hindex
  init := by
    unfold shouldDeferForInit
    rw [hended]
    exact id
  declared := hdeclared
  waits := by
    intro ⟨i, hi⟩ ⟨i', j, hi', hindex, hwait⟩
    have hsame := hentries i hi
    have heq : i' = i := by
      apply inv.names i' i
      · rw [hi', ← hsame, hi]
      · rw [hi']
        exact hname
    subst heq
    refine ⟨i', j, hi, ?_, hwaits i' j hi hindex hwait⟩
    rw [hsame]
    exact hindex

/-- No service changed, and no mitm stopped to wait. -/
theorem of_services (hservices : s'.services = s.services)
    (hwaits : ∀ j, (s.mitms j).waitingAck = true → (s'.mitms j).waitingAck = true) :
    BlocksStill s s' service := by
  refine of_entries inv hname hended hdeclared ?_ ?_
  · intro i _
    rw [hservices]
  · intro _ j _ _ hwait
    exact hwaits j hwait

/-- One entry is replaced by one without the name, and the mitms of the others are as before. -/
theorem of_update {i : Fin serviceCountMax} {info : ServiceInfo}
    (hservices : s'.services = update s.services i info) (hne : service ≠ info.name)
    (hmitms : ∀ i' j, i' ≠ i → (s.services i').mitmIndex = some j → s'.mitms j = s.mitms j) :
    BlocksStill s s' service := by
  have hother : ∀ i', (s'.services i').name = service → i' ≠ i := by
    rintro i' hi' rfl
    rw [hservices, update_self] at hi'
    exact hne hi'.symm
  refine of_entries inv hname hended hdeclared ?_ ?_
  · intro i' hi'
    rw [hservices, update_of_ne (hother i' hi')]
  · intro i' j hi' hindex hwait
    rw [hmitms i' j (hother i' hi') hindex]
    exact hwait

end

theorem unregisterServiceImpl (i : Fin serviceCountMax) :
    BlocksStill s (s.unregisterServiceImpl i) service := by
  cases hindex : (s.services i).mitmIndex with
  | none =>
    rw [unregisterServiceImpl_of_none hindex]
    exact of_update inv hname rfl id rfl hname (fun _ _ _ _ => rfl)
  | some j =>
    rw [unregisterServiceImpl_of_some hindex]
    exact of_update inv hname rfl id rfl hname (fun _ _ => inv.update_mitm hindex)

theorem disconnected (processId : ProcessId) :
    BlocksStill s (s.disconnected processId) service := by
  unfold SmState.disconnected
  induction List.finRange serviceCountMax generalizing s with
  | nil => exact refl s service
  | cons i entries ih =>
    refine trans ?_ (ih (inv.disconnectService processId i))
    unfold disconnectService
    split_ifs
    · exact unregisterServiceImpl inv hname i
    · exact refl s service

end

end BlocksStill

/-- What a command does to the requests for a name with which it calls no `TriggerResume`. -/
theorem blocksStill_of_executed (inv : s.SmInv)
    (hexec : Executed c s command result s' triggered) (hname : service ≠ .invalid)
    (hnot : service ∉ triggered) :
    BlocksStill s s' service ∨ s.Mitmed service ∧ (s'.shouldDeferForInit service = false →
      s'.hasFutureMitmDeclaration service = false → LosesWakeup c s command) := by
  cases hexec with
  | unchanged => exact .inl (.refl s service)
  | processRegistered | processUnregistered
  | connected => exact .inl (.of_services inv hname rfl id rfl (fun _ => id))
  | @mitmConnected _ _ _ j =>
    refine .inl (.of_services inv hname rfl id rfl (fun j' hwait => ?_))
    change (update s.mitms j _ j').waitingAck = true
    rw [update_apply]
    split_ifs
    · rfl
    · exact hwait
  | registered =>
    have hne := List.ne_of_not_mem_cons hnot
    exact .inl (.of_update inv hname rfl id rfl hne (fun _ _ _ _ => rfl))
  | unregistered => exact .inl (.unregisterServiceImpl inv hname _)
  | disconnected => exact .inl (.disconnected inv hname _)
  | portClosed => exact .inl (.of_services inv hname rfl id rfl (fun _ => id))
  | @installed _ installed _ _ future hvalid hservice hindex hfree hfuture =>
    have hne : service ≠ installed := List.ne_of_not_mem_cons hnot
    rw [← of_getServiceInfo hservice] at hne
    refine .inl (.of_update inv hname rfl (fun ⟨k, hk⟩ => ⟨k, ?_⟩) rfl hne ?_)
    · obtain hsame | ⟨hslot, -⟩ := hfuture k
      · exact hsame.trans hk
      · rw [hslot] at hk
        exact absurd hk.symm hname
    · intro i' j' _ hindex'
      apply update_of_ne
      rintro rfl
      exact (inv.mitmOwned j').mpr ⟨i', hindex'⟩ hfree
  | @uninstalled processId uninstalled i j hvalid hregistered hservice hindex howner =>
    obtain rfl | hne := eq_or_ne service uninstalled
    · have hi := of_getServiceInfo hservice
      by_cases hwaits : s.Waits service
      · refine .inr ⟨⟨i, j, hi, hindex⟩, fun hinit hfuture => ?_⟩
        have hwait : (s.mitms j).waitingAck = true := by
          simpa [isWaitingAck, hindex] using (inv.isWaitingAck_iff hname hservice).mpr hwaits
        exact ⟨processId, service, i, j, rfl, hvalid, hregistered, hservice, hindex, howner, hwait,
          hinit, hfuture⟩
      · exact .inl ⟨fun _ => ⟨i, hi⟩, fun _ => ⟨i, j, hi, hindex⟩, id, id,
          fun _ hwaits' => absurd hwaits' hwaits⟩
    · rw [← of_getServiceInfo hservice] at hne
      exact .inl (.of_update inv hname rfl id rfl hne (fun _ _ => inv.update_mitm hindex))
  | @declared _ _ k hfree =>
    refine .inl (.of_services inv hname rfl (fun ⟨k', hk'⟩ => ⟨k', ?_⟩) rfl fun _ => id)
    have hne : k' ≠ k := by
      rintro rfl
      rw [hfree] at hk'
      exact hname hk'.symm
    change update s.futureMitms k _ k' = service
    rw [update_of_ne hne]
    exact hk'
  | @cleared _ cleared =>
    have hne : service ≠ cleared := List.ne_of_not_mem_cons hnot
    refine .inl (.of_services inv hname rfl (fun ⟨k, hk⟩ => ⟨k, ?_⟩) rfl fun _ => id)
    change (if s.futureMitms k = cleared then _ else s.futureMitms k) = service
    rw [hk, if_neg hne]
  | acknowledged hservice hindex =>
    have hne := List.ne_of_not_mem_cons hnot
    rw [← of_getServiceInfo hservice] at hne
    exact .inl (.of_update inv hname rfl id (update_eq_self _ _).symm hne
      (fun _ _ => inv.update_mitm hindex))
  | endedInitialDefers =>
    refine .inl ⟨id, id, fun hinit => ?_, id, fun _ => id⟩
    unfold shouldDeferForInit at hinit
    rw [Bool.and_eq_true, List.contains_iff_mem] at hinit
    exact absurd hinit.2 hnot

/-- A command that unblocks a request resumes it, unless it loses the wake-up. -/
theorem resumes_of_executed (inv : s.SmInv) {r : SmRequest}
    (hexec : Executed c s command result s' triggered) (hname : r.service ≠ .invalid)
    (hblocks : s.Blocks r) (hfree : ¬ s'.Blocks r) (hkeeps : ¬ LosesWakeup c s command) :
    r.service ∈ triggered := by
  by_contra hnot
  obtain hstill | ⟨hmitmed, hloses⟩ := blocksStill_of_executed inv hexec hname hnot
  · exact hfree (hstill.blocks hblocks)
  · -- The service has a mitm, so the request is one of `GetServiceHandle`.
    cases r with
    | getServiceHandle client service =>
      refine hkeeps (hloses ?_ ?_)
      · exact Bool.eq_false_of_not_eq_true fun hinit => hfree fun _ => .inl hinit
      · exact Bool.eq_false_of_not_eq_true fun hdeclared =>
          hfree fun _ => .inr (.inl (hasFutureMitmDeclaration_iff.mp hdeclared))
    | waitService service | installMitm client service =>
      obtain ⟨i, _, hi, -⟩ := hmitmed
      exact hblocks ⟨i, hi⟩
    | waitMitm service => exact hblocks hmitmed

/-! ### The lost wake-up -/

variable {i : Fin serviceCountMax} {j : Fin mitmCountMax}

variable (hvalid : validateServiceName service = .ok ())
include hvalid

/-- What `UninstallMitm` does when its checks pass. -/
theorem uninstallMitm_eq {limits : InitialProcessIdLimits} {processId : ProcessId}
    (hregistered : s.checkRegistered limits processId = .ok ())
    (hservice : s.getServiceInfo service = some i) (hindex : (s.services i).mitmIndex = some j)
    (howner : (s.mitms j).processId = some processId) :
    s.uninstallMitm limits processId service = .ok ⟨.ok .none, s.mitmUninstalled i j, []⟩ := by
  apply checked_of_ok (a := (i, j))
  simp only [bind_eq_ok, require_eq_ok, notNull_eq_ok]
  exact ⟨(), hvalid, (), hregistered, i, hservice, j, hindex, (), beq_iff_eq.mpr howner, rfl⟩

variable (hservice : s.getServiceInfo service = some i)
  (hinit : s.shouldDeferForInit service = false)
  (hfuture : s.hasFutureMitmDeclaration service = false)
include hservice hinit hfuture

/-- An initial process asks for a service that nothing defers but the wait of its mitm. -/
theorem checkGetServiceHandle_min (limits : InitialProcessIdLimits) :
    s.checkGetServiceHandle limits limits.min service =
      if s.isWaitingAck i then .error .requestDeferred else .ok i := by
  -- An initial process may ask for every service.
  have haccess : s.checkAccess limits limits.min service false = .ok () :=
    if_pos (by simp [isInitialProcess, limits.min_le_max])
  unfold checkGetServiceHandle
  rw [ok_bind hvalid, ok_bind haccess, hservice, hinit, hfuture]
  change (require (!s.isWaitingAck i) _ >>= fun _ => pure i) = _
  cases s.isWaitingAck i <;> rfl

theorem deferred_of_waitingAck (hindex : (s.services i).mitmIndex = some j)
    (hwait : (s.mitms j).waitingAck = true) :
    Deferred c s (.getServiceHandle c.limits.min service) := by
  have hwaiting : s.isWaitingAck i = true := by
    simp only [isWaitingAck, hindex, hwait]
  have hchecks := checkGetServiceHandle_min hvalid hservice hinit hfuture c.limits
  rw [if_pos hwaiting] at hchecks
  exact ⟨.allSucceed, _, checked_of_error hchecks, rfl⟩

/-- After the mitm is gone the same request succeeds. -/
theorem wouldSucceed_mitmUninstalled :
    WouldSucceed c (s.mitmUninstalled i j) (.getServiceHandle c.limits.min service) := by
  have hnames : ∀ i', ((s.mitmUninstalled i j).services i').name = (s.services i').name := by
    intro i'
    change (update s.services i _ i').name = _
    rw [update_apply]
    split_ifs with hi
    · rw [hi]
    · rfl
  have hservice' : (s.mitmUninstalled i j).getServiceInfo service = some i := by
    unfold getServiceInfo
    simp only [hnames]
    exact hservice
  have hindex' : ((s.mitmUninstalled i j).services i).mitmIndex = none := by
    change (update s.services i _ i).mitmIndex = none
    rw [update_self]
  have hwaiting : ¬ (s.mitmUninstalled i j).isWaitingAck i = true := by
    simp [isWaitingAck, hindex']
  have hchecks := checkGetServiceHandle_min hvalid hservice' hinit hfuture c.limits
  rw [if_neg hwaiting] at hchecks
  have hconnect : (s.mitmUninstalled i j).getServiceHandleImpl i c.limits.min .allSucceed =
      .ok ⟨.ok (.handle (s.mitmUninstalled i j).newHandle),
        (s.mitmUninstalled i j).connectForClient, []⟩ := by
    unfold getServiceHandleImpl
    rw [hindex']
    rfl
  exact ⟨.allSucceed, _, _, (checked_of_ok hchecks).trans hconnect, rfl⟩

end SmState

open SmState

/-- In every reachable state a command resumes each deferred request that it lets succeed, if
and only if it is not an `UninstallMitm` that loses the wake-up. -/
theorem smReaches_resumes_iff {c : SmConfig} {s : SmState} {answers : Answers}
    {command : SmCommand} {o : Outcome} (hrun : SmReaches c s)
    (hexec : s.exec c answers command = .ok o) :
    (∀ r, Deferred c s r → WouldSucceed c o.state r → r.service ∈ o.triggered) ↔
      ¬ LosesWakeup c s command := by
  have hinv := hrun.inv
  have hinv' := (hrun.step hexec).inv
  constructor
  · rintro hresumes ⟨processId, service, i, j, rfl, hvalid, hregistered, hservice, hindex, howner,
      hwait, hinit, hfuture⟩
    change s.uninstallMitm c.limits processId service = .ok o at hexec
    rw [uninstallMitm_eq hvalid hregistered hservice hindex howner] at hexec
    injection hexec with hexec
    subst hexec
    have hmem := hresumes (.getServiceHandle c.limits.min service)
      (deferred_of_waitingAck hvalid hservice hinit hfuture hindex hwait)
      (wouldSucceed_mitmUninstalled hvalid hservice hinit hfuture)
    cases hmem
  · intro hkeeps r hdeferred hsucceeds
    obtain ⟨hname, hfree⟩ := hsucceeds.not_blocks hinv'
    exact resumes_of_executed hinv (executed_of_exec hexec) hname (hdeferred.blocks hinv) hfree
      hkeeps

/-- The requests for `set` that wait for its registration are resumed. -/
theorem resumes_registerService :
    ∃ o, SmState.initial.exec bootConfig .allSucceed (.registerService 3 setService 1 false) =
        .ok o ∧
      ∀ r, Deferred bootConfig .initial r → WouldSucceed bootConfig o.state r →
        r.service ∈ o.triggered := by
  have hexec : ∃ o, SmState.initial.exec bootConfig .allSucceed
      (.registerService 3 setService 1 false) = .ok o := ⟨_, rfl⟩
  obtain ⟨o, hexec⟩ := hexec
  refine ⟨o, hexec, (smReaches_resumes_iff .initial hexec).mpr ?_⟩
  rintro ⟨_, _, _, _, hcommand, _⟩
  cases hcommand

/-- The state in which the mitm for `set` waits for the session of process 90. -/
def waitingState : SmState :=
  SmState.initial.afterCommands bootConfig
    (mitmInstalledRun ++ [(.allSucceed, .getServiceHandle 90 setService)])

/-- Process 1 asks for `set` while the mitm waits, and the mitm is uninstalled: the request
would succeed now, and nothing resumes it. -/
theorem uninstallMitm_loses_wakeup : SmReaches bootConfig waitingState ∧
    ∃ o, waitingState.exec bootConfig .allSucceed (.uninstallMitm 4 setService) = .ok o ∧
      Deferred bootConfig waitingState (.getServiceHandle 1 setService) ∧
      WouldSucceed bootConfig o.state (.getServiceHandle 1 setService) ∧
      setService ∉ o.triggered := by
  have hvalid : validateServiceName setService = .ok () := by decide +kernel
  have hservice : waitingState.getServiceInfo setService = some ⟨0, by decide⟩ := by
    decide +kernel
  have hindex : (waitingState.services ⟨0, by decide⟩).mitmIndex = some firstMitm := by
    decide +kernel
  have hinit : waitingState.shouldDeferForInit setService = false := by decide +kernel
  have hfuture : waitingState.hasFutureMitmDeclaration setService = false := by decide +kernel
  refine ⟨SmReaches.afterCommands _, _,
    uninstallMitm_eq hvalid (by decide +kernel) hservice hindex (by decide +kernel), ?_, ?_, ?_⟩
  · exact deferred_of_waitingAck (c := bootConfig) hvalid hservice hinit hfuture hindex
      (by decide +kernel)
  · exact wouldSucceed_mitmUninstalled (c := bootConfig) hvalid hservice hinit hfuture
  · exact List.not_mem_nil

end Atmosphere.Sm
