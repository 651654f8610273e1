import Atmosphere.Sm.Invariant

/-!
# Deferred requests and their resumption

A request that cannot be answered yet is deferred, and executed again when a command calls
`TriggerResume` with its service name. What a request waits for is stated here in terms of the
names in the tables; `BlocksStill` says that a command leaves all of it in place.
-/

namespace Atmosphere.Sm

open Fallible (bind_eq_ok bind_eq_error)

/-- The requests that can be deferred. -/
inductive SmRequest
  | getServiceHandle (processId : ProcessId) (service : ServiceName)
  | waitService (service : ServiceName)
  | installMitm (processId : ProcessId) (service : ServiceName)
  | waitMitm (service : ServiceName)

namespace SmRequest

/-- The name with which a deferred request is resumed. -/
def service : SmRequest → ServiceName
  | getServiceHandle _ service => service
  | waitService service => service
  | installMitm _ service => service
  | waitMitm service => service

/-- The command that executes the request. -/
def command : SmRequest → SmCommand
  | getServiceHandle processId service => .getServiceHandle processId service
  | waitService service => .waitService service
  | installMitm processId service => .installMitm processId service
  | waitMitm service => .waitMitm service

end SmRequest

namespace SmState

variable {c : SmConfig} {s : SmState} {answers : Answers} {o : Outcome}
variable {processId : ProcessId} {service : ServiceName} {i : Fin serviceCountMax}

/-- Executing the request is deferred. -/
def Deferred (c : SmConfig) (s : SmState) (r : SmRequest) : Prop :=
  ∃ answers o, s.exec c answers r.command = .ok o ∧ o.result = .error .requestDeferred

/-- Executing the request succeeds, when the kernel and the mitm let it. -/
def WouldSucceed (c : SmConfig) (s : SmState) (r : SmRequest) : Prop :=
  ∃ answers o reply, s.exec c answers r.command = .ok o ∧ o.result = .ok reply

/-! ### What requests wait for -/

/-- A service of this name is registered. -/
def Named (s : SmState) (service : ServiceName) : Prop := ∃ i, (s.services i).name = service

/-- A service of this name has a mitm. -/
def Mitmed (s : SmState) (service : ServiceName) : Prop :=
  ∃ i j, (s.services i).name = service ∧ (s.services i).mitmIndex = some j

/-- A service of this name has a mitm that waits for an acknowledgement. -/
def Waits (s : SmState) (service : ServiceName) : Prop :=
  ∃ i j, (s.services i).name = service ∧ (s.services i).mitmIndex = some j ∧
    (s.mitms j).waitingAck = true

/-- A mitm of this name is declared. -/
def Declared (s : SmState) (service : ServiceName) : Prop := ∃ k, s.futureMitms k = service

/-- The reasons to defer a request. -/
def Blocks (s : SmState) : SmRequest → Prop
  | .getServiceHandle _ service =>
    s.Named service → s.shouldDeferForInit service = true ∨ s.Declared service ∨ s.Waits service
  | .waitService service => ¬ s.Named service
  | .installMitm _ service => ¬ s.Named service
  | .waitMitm service => ¬ s.Mitmed service

theorem named_of_getServiceInfo (h : s.getServiceInfo service = some i) :
    s.Named service := ⟨i, of_getServiceInfo h⟩

theorem not_named_of_getServiceInfo (h : s.getServiceInfo service = none) : ¬ s.Named service :=
  fun ⟨i, hi⟩ => name_ne_of_getServiceInfo h i hi

theorem hasServiceInfo_iff : s.hasServiceInfo service = true ↔ s.Named service := by
  unfold hasServiceInfo
  cases h : s.getServiceInfo service with
  | none =>
    refine ⟨nofun, fun hnamed => ?_⟩
    exact absurd hnamed (not_named_of_getServiceInfo h)
  | some i => exact ⟨fun _ => named_of_getServiceInfo h, fun _ => rfl⟩

theorem hasFutureMitmDeclaration_iff :
    s.hasFutureMitmDeclaration service = true ↔ s.Declared service := by
  unfold hasFutureMitmDeclaration
  constructor
  · intro hsome
    obtain ⟨k, hk⟩ := Option.isSome_iff_exists.mp hsome
    exact ⟨k, eq_of_beq (Table.of_find_eq_some hk)⟩
  · intro ⟨k, hk⟩
    obtain ⟨k', hk'⟩ := Table.exists_find_of (p := fun k => s.futureMitms k == service) (i := k)
      (beq_iff_eq.mpr hk)
    rw [hk']
    rfl

namespace SmInv

variable (inv : s.SmInv) (hname : service ≠ .invalid)
include inv hname

/-- Only one entry has a valid name. -/
theorem eq_of_getServiceInfo {i' : Fin serviceCountMax} (h : s.getServiceInfo service = some i)
    (hi' : (s.services i').name = service) : i' = i := by
  have hi := of_getServiceInfo h
  apply inv.names i' i
  · rw [hi, hi']
  · rw [hi']
    exact hname

theorem hasMitm_iff : s.hasMitm service = true ↔ s.Mitmed service := by
  unfold hasMitm
  cases h : s.getServiceInfo service with
  | none =>
    refine ⟨nofun, fun ⟨i, j, hi, _⟩ => ?_⟩
    exact absurd hi (name_ne_of_getServiceInfo h i)
  | some i =>
    rw [Option.isSome_iff_exists]
    constructor
    · intro ⟨j, hj⟩
      exact ⟨i, j, of_getServiceInfo h, hj⟩
    · intro ⟨i', j, hi', hj⟩
      rw [inv.eq_of_getServiceInfo hname h hi'] at hj
      exact ⟨j, hj⟩

theorem isWaitingAck_iff (h : s.getServiceInfo service = some i) :
    s.isWaitingAck i = true ↔ s.Waits service := by
  unfold isWaitingAck
  constructor
  · cases hindex : (s.services i).mitmIndex with
    | none => exact nofun
    | some j => exact fun hwait => ⟨i, j, of_getServiceInfo h, hindex, hwait⟩
  · intro ⟨i', j, hi', hindex, hwait⟩
    rw [inv.eq_of_getServiceInfo hname h hi'] at hindex
    rw [hindex]
    exact hwait

end SmInv

/-! ### Deferred requests are blocked ones -/

theorem validateServiceName_ne_deferred :
    validateServiceName service ≠ .error .requestDeferred := by
  unfold validateServiceName
  split_ifs
  · exact nofun
  · split
    · exact nofun
    · split_ifs <;> exact nofun

theorem checkAccess_ne_deferred {limits : InitialProcessIdLimits} {isHost : Bool} :
    s.checkAccess limits processId service isHost ≠ .error .requestDeferred := by
  unfold checkAccess
  split_ifs
  · exact nofun
  · split
    · exact nofun
    · unfold validateAccessControl
      split_ifs <;> exact nofun

theorem require_eq_error {condition : Bool} {error e : SmResult} :
    require condition error = .error e ↔ condition = false ∧ error = e := by
  cases condition with
  | true => exact ⟨nofun, fun h => (by cases h.1)⟩
  | false =>
    change Except.error error = .error e ↔ _
    rw [Except.error.injEq]
    exact ⟨fun h => ⟨rfl, h⟩, And.right⟩

variable {α : Type} {checks : Except SmResult α} {body : α → Command} {r : SmRequest}

theorem notNull_eq_error {pointer : Option α} {error e : SmResult} :
    notNull pointer error = .error e ↔ pointer = none ∧ error = e := by
  cases pointer with
  | some a => exact ⟨nofun, fun h => (by cases h.1)⟩
  | none =>
    change Except.error error = .error e ↔ _
    rw [Except.error.injEq]
    exact ⟨fun h => ⟨rfl, h⟩, And.right⟩

/-- A command is deferred by its checks or by its body. -/
theorem checked_deferred
    (h : s.checked checks body = .ok o) (hdeferred : o.result = .error .requestDeferred) :
    checks = .error .requestDeferred ∨ ∃ a, checks = .ok a ∧ body a = .ok o := by
  obtain ⟨e, he, rfl⟩ | hok := checked_eq_ok h
  · injection hdeferred with hdeferred
    rw [he, hdeferred]
    exact .inl rfl
  · exact .inr hok

theorem getServiceHandleImpl_ne_deferred (h : s.getServiceHandleImpl i processId answers = .ok o) :
    o.result ≠ .error .requestDeferred := by
  obtain (⟨e, hne, himpl⟩ | himpl) | ⟨_, _, _, _, himpl⟩ | ⟨_, _, himpl⟩ | ⟨_, _, _, _, himpl⟩ :=
    getServiceHandleImpl_cases (s := s) i processId answers <;>
  rw [himpl] at h <;> cases h
  · exact fun hc => hne (Except.error.inj hc)
  · exact nofun
  · exact nofun

/-- `WaitService` and `WaitMitm` are deferred by the check of a valid name. -/
theorem wait_deferred {present : Bool} (h : s.checked (do
      validateServiceName service
      require present .requestDeferred) (fun _ => s.succeed .none []) = .ok o)
    (hdeferred : o.result = .error .requestDeferred) :
    service ≠ .invalid ∧ ¬ present = true := by
  obtain hchecks | ⟨_, -, hbody⟩ := checked_deferred h hdeferred
  · simp only [bind_eq_error, require_eq_error, validateServiceName_ne_deferred, false_or,
      and_true] at hchecks
    obtain ⟨_, hvalid, habsent⟩ := hchecks
    exact ⟨ne_invalid_of_validateServiceName hvalid, Bool.eq_false_iff.mp habsent⟩
  · injection hbody with hbody
    rw [← hbody] at hdeferred
    cases hdeferred

theorem blocks_of_getServiceHandle (inv : s.SmInv)
    (h : s.getServiceHandle c.limits processId service answers = .ok o)
    (hdeferred : o.result = .error .requestDeferred) :
    s.Blocks (.getServiceHandle processId service) := by
  obtain hchecks | ⟨i, -, hbody⟩ := checked_deferred h hdeferred
  · simp only [checkGetServiceHandle, bind_eq_error, require_eq_error, notNull_eq_error,
      validateServiceName_ne_deferred, checkAccess_ne_deferred, false_or, and_true] at hchecks
    obtain ⟨_, hvalid, _, -, hnone | ⟨i, hi, hinit | ⟨_, -, hfuture | ⟨_, -, hwait | hreturn⟩⟩⟩⟩ :=
      hchecks
    · exact fun hnamed => absurd hnamed (not_named_of_getServiceInfo hnone)
    · exact fun _ => .inl (by simpa using hinit)
    · exact fun _ => .inr (.inl (hasFutureMitmDeclaration_iff.mp (by simpa using hfuture)))
    · have hname := ne_invalid_of_validateServiceName hvalid
      rw [notNull_eq_ok] at hi
      exact fun _ => .inr (.inr ((inv.isWaitingAck_iff hname hi).mp (by simpa using hwait)))
    · obtain ⟨_, -, hreturn⟩ := hreturn
      cases hreturn
  · exact absurd hdeferred (getServiceHandleImpl_ne_deferred hbody)

theorem blocks_of_installMitm (h : s.installMitm c.limits processId service answers = .ok o)
    (hdeferred : o.result = .error .requestDeferred) :
    s.Blocks (.installMitm processId service) := by
  obtain hchecks | ⟨⟨i, j⟩, -, hbody⟩ := checked_deferred h hdeferred
  · simp only [checkInstallMitm, bind_eq_error, require_eq_error, notNull_eq_error,
      validateServiceName_ne_deferred, checkAccess_ne_deferred, false_or, and_true, reduceCtorEq,
      and_false] at hchecks
    obtain ⟨_, -, _, -, hnone | ⟨_, -, _, -, _, -, hreturn⟩⟩ := hchecks
    · exact not_named_of_getServiceInfo hnone
    · cases hreturn
  · split_ifs at hbody
    · obtain ⟨_, ⟨⟩, hne⟩ := createMitm_spec hbody
      exact absurd hdeferred hne
    · obtain hadd | ⟨t, -, hcreate⟩ := checked_deferred hbody hdeferred
      · simp only [addFutureMitmDeclaration, bind_eq_error, notNull_eq_error, reduceCtorEq,
          and_false, false_or] at hadd
        obtain ⟨_, -, hreturn⟩ := hadd
        cases hreturn
      · obtain ⟨_, ⟨⟩, hne⟩ := createMitm_spec hcreate
        exact absurd hdeferred hne

theorem Deferred.blocks (inv : s.SmInv) (h : Deferred c s r) : s.Blocks r := by
  obtain ⟨answers, o, hexec, hdeferred⟩ := h
  cases r with
  | getServiceHandle processId service => exact blocks_of_getServiceHandle inv hexec hdeferred
  | waitService service =>
    exact fun hnamed => (wait_deferred hexec hdeferred).2 (hasServiceInfo_iff.mpr hnamed)
  | installMitm processId service => exact blocks_of_installMitm hexec hdeferred
  | waitMitm service =>
    obtain ⟨hname, habsent⟩ := wait_deferred hexec hdeferred
    exact fun hmitmed => habsent ((inv.hasMitm_iff hname).mpr hmitmed)

/-- A command that succeeds passed its checks. -/
theorem checked_succeeds {reply : Reply}
    (h : s.checked checks body = .ok o) (hok : o.result = .ok reply) :
    ∃ a, checks = .ok a ∧ body a = .ok o := by
  obtain ⟨e, -, rfl⟩ | hbody := checked_eq_ok h
  · cases hok
  · exact hbody

/-- A request that succeeds has a valid name and nothing blocks it. -/
theorem WouldSucceed.not_blocks (inv : s.SmInv) (h : WouldSucceed c s r) :
    r.service ≠ .invalid ∧ ¬ s.Blocks r := by
  obtain ⟨answers, o, reply, hexec, hok⟩ := h
  cases r with
  | getServiceHandle processId service =>
    obtain ⟨i, hchecks, -⟩ := checked_succeeds hexec hok
    simp only [checkGetServiceHandle, bind_eq_ok, require_eq_ok, notNull_eq_ok] at hchecks
    obtain ⟨_, hvalid, _, -, i', hservice, _, hinit, _, hfuture, _, hwait, -⟩ := hchecks
    have hname := ne_invalid_of_validateServiceName hvalid
    refine ⟨hname, fun hblocks => ?_⟩
    obtain hinit' | hfuture' | hwait' := hblocks (named_of_getServiceInfo hservice)
    · rw [hinit'] at hinit
      cases hinit
    · rw [hasFutureMitmDeclaration_iff.mpr hfuture'] at hfuture
      cases hfuture
    · rw [(inv.isWaitingAck_iff hname hservice).mpr hwait'] at hwait
      cases hwait
  | waitService service =>
    obtain ⟨_, hchecks, -⟩ := checked_succeeds hexec hok
    simp only [bind_eq_ok, require_eq_ok] at hchecks
    obtain ⟨_, hvalid, hnamed⟩ := hchecks
    refine ⟨ne_invalid_of_validateServiceName hvalid, fun hblocks => ?_⟩
    exact hblocks (hasServiceInfo_iff.mp hnamed)
  | installMitm processId service =>
    obtain ⟨_, hchecks, -⟩ := checked_succeeds hexec hok
    simp only [checkInstallMitm, bind_eq_ok, require_eq_ok, notNull_eq_ok] at hchecks
    obtain ⟨_, hvalid, _, -, i, hservice, -⟩ := hchecks
    refine ⟨ne_invalid_of_validateServiceName hvalid, fun hblocks => ?_⟩
    exact hblocks (named_of_getServiceInfo hservice)
  | waitMitm service =>
    obtain ⟨_, hchecks, -⟩ := checked_succeeds hexec hok
    simp only [bind_eq_ok, require_eq_ok] at hchecks
    obtain ⟨_, hvalid, hmitm⟩ := hchecks
    have hname := ne_invalid_of_validateServiceName hvalid
    exact ⟨hname, fun hblocks => hblocks ((inv.hasMitm_iff hname).mp hmitm)⟩

end SmState

end Atmosphere.Sm
