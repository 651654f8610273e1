import Atmosphere.Sm.Execution

/-!
# The tables of sm and its handles

The invariant of sm says how the tables of services and of mitms refer to each other, and
counts every handle that the kernel created: it was given to a client, closed, or is stored
in one field.
-/

namespace Atmosphere.Sm

open Function (update update_apply update_eq_self)

namespace SmState

variable {c : SmConfig} {s s' : SmState}

/-- A field holds the handle. -/
def holds (field : NativeHandle) (handle : ℕ) : ℕ := if field = some handle then 1 else 0

/-- The number of fields of a mitm that hold the handle. -/
def mitmHolds (m : MitmInfo) (handle : ℕ) : ℕ :=
  holds m.portH handle + holds m.queryH handle + holds m.fwdSessH handle

/-- The number of fields that hold the handle. -/
def stored (s : SmState) (handle : ℕ) : ℕ :=
  ∑ i, holds (s.services i).portH handle + ∑ j, mitmHolds (s.mitms j) handle

@[simp]
theorem holds_none (n : ℕ) : holds none n = 0 := by simp [holds]

@[simp]
theorem holds_some (m n : ℕ) : holds (some m) n = if m = n then 1 else 0 := by simp [holds]

@[simp]
theorem mitmHolds_invalid (n : ℕ) : mitmHolds .invalid n = 0 := rfl

@[simp]
theorem holds_invalid (n : ℕ) : holds ServiceInfo.invalid.portH n = 0 := rfl

theorem count_toList (h : NativeHandle) (n : ℕ) : h.toList.count n = holds h n := by
  cases h with
  | none => rfl
  | some m => simp [List.count_singleton]

/-- The tables of services and mitms fit together, and every handle is accounted for. -/
structure SmInv (s : SmState) : Prop where
  names : ∀ i i', (s.services i).name = (s.services i').name → (s.services i).name ≠ .invalid →
    i = i'
  freeService : ∀ i, (s.services i).name = .invalid → s.services i = .invalid
  freeMitm : ∀ j, (s.mitms j).processId = none → s.mitms j = .invalid
  mitmOwned : ∀ j, (s.mitms j).processId ≠ none ↔ ∃ i, (s.services i).mitmIndex = some j
  mitmUnique : ∀ i i' j, (s.services i).mitmIndex = some j →
    (s.services i').mitmIndex = some j → i = i'
  waiting : ∀ j, (s.mitms j).fwdSessH.isSome = (s.mitms j).waitingAck
  waitingProcess : ∀ j, (s.mitms j).waitingAckProcessId.isSome = (s.mitms j).waitingAck
  handles : ∀ n, s.given.count n + s.closed.count n + s.stored n = if n < s.created then 1 else 0

theorem smInv_initial : initial.SmInv where
  names := fun _ _ _ hne => absurd rfl hne
  freeService := fun _ _ => rfl
  freeMitm := fun _ _ => rfl
  mitmOwned := fun _ => ⟨fun hne => absurd rfl hne, fun ⟨_, hi⟩ => by cases hi⟩
  mitmUnique := fun _ _ _ hi => by cases hi
  waiting := fun _ => rfl
  waitingProcess := fun _ => rfl
  handles := fun n => by simp [initial, stored, ServiceInfo.invalid]

/-- The number of fields after a service entry and a mitm entry changed. -/
theorem stored_update {i : Fin serviceCountMax} {info : ServiceInfo} {j : Fin mitmCountMax}
    {m : MitmInfo} (hservices : s'.services = update s.services i info)
    (hmitms : s'.mitms = update s.mitms j m) (n : ℕ) :
    s'.stored n + holds (s.services i).portH n + mitmHolds (s.mitms j) n =
      s.stored n + holds info.portH n + mitmHolds m n := by
  have hservice :=
    Table.sum_update_add (fun info : ServiceInfo => holds info.portH n) s.services i info
  have hmitm := Table.sum_update_add (fun m : MitmInfo => mitmHolds m n) s.mitms j m
  unfold stored
  rw [hservices, hmitms]
  omega

/-- The state after the entry of a service was closed and reset. -/
def serviceRemoved (s : SmState) (i : Fin serviceCountMax) : SmState :=
  { s with
    closed := (s.services i).portH.toList ++ s.closed
    services := update s.services i .invalid }

theorem unregisterServiceImpl_of_none {i : Fin serviceCountMax}
    (hindex : (s.services i).mitmIndex = none) :
    s.unregisterServiceImpl i = s.serviceRemoved i := by
  simp only [unregisterServiceImpl, hindex]
  rfl

theorem unregisterServiceImpl_of_some {i : Fin serviceCountMax} {j : Fin mitmCountMax}
    (hindex : (s.services i).mitmIndex = some j) :
    s.unregisterServiceImpl i = (s.serviceRemoved i).resetMitm j := by
  simp only [unregisterServiceImpl, hindex]
  rfl

/-- What the invariant says about an entry of the table of mitms. -/
def MitmOk (m : MitmInfo) : Prop :=
  (m.processId = none → m = .invalid) ∧ m.fwdSessH.isSome = m.waitingAck ∧
    m.waitingAckProcessId.isSome = m.waitingAck

/-- What it says about the table of services. -/
structure NamesOk (services : Fin serviceCountMax → ServiceInfo) : Prop where
  names : ∀ i i', (services i).name = (services i').name → (services i).name ≠ .invalid → i = i'
  free : ∀ i, (services i).name = .invalid → services i = .invalid

/-- What it says about the links from services to mitms. -/
structure LinksOk (services : Fin serviceCountMax → ServiceInfo)
    (mitms : Fin mitmCountMax → MitmInfo) : Prop where
  owned : ∀ j, (mitms j).processId ≠ none ↔ ∃ i, (services i).mitmIndex = some j
  unique : ∀ i i' j, (services i).mitmIndex = some j → (services i').mitmIndex = some j → i = i'

section Tables

variable {services services' : Fin serviceCountMax → ServiceInfo}
variable {mitms mitms' : Fin mitmCountMax → MitmInfo} {i : Fin serviceCountMax}
variable {j : Fin mitmCountMax} {info : ServiceInfo} {m : MitmInfo}

/-- An entry is freed, or gets a name that no other entry has. -/
theorem NamesOk.update (h : NamesOk services) (hinfo : info = .invalid ∨
    info.name ≠ .invalid ∧ ∀ i', i' ≠ i → (services i').name ≠ info.name) :
    NamesOk (update services i info) := by
  have hother : ∀ i', i' ≠ i → (services i').name = info.name → info.name = .invalid := by
    intro i' hi heq
    obtain rfl | ⟨_, hnew⟩ := hinfo
    · rfl
    · exact absurd heq (hnew i' hi)
  refine ⟨fun i₁ i₂ => ?_, fun i' => ?_⟩
  · rw [update_apply, update_apply]
    split_ifs with h₁ h₂ h₂ <;> intro heq hne
    · rw [h₁, h₂]
    · exact absurd (hother i₂ h₂ heq.symm) hne
    · exact absurd (heq.trans (hother i₁ h₁ heq)) hne
    · exact h.names i₁ i₂ heq hne
  · rw [update_apply]
    split_ifs
    · exact fun hname => hinfo.resolve_right fun hvalid => hvalid.1 hname
    · exact h.free i'

variable (h : LinksOk services mitms)
include h

theorem LinksOk.congr (hindex : ∀ i, (services' i).mitmIndex = (services i).mitmIndex)
    (howner : ∀ j, (mitms' j).processId ≠ none ↔ (mitms j).processId ≠ none) :
    LinksOk services' mitms' := by
  refine ⟨fun j => ?_, fun i i' j => ?_⟩
  · simp only [howner, hindex]
    exact h.owned j
  · rw [hindex, hindex]
    exact h.unique i i' j

/-- A service loses its mitm. -/
theorem LinksOk.unlink (hindex : (services i).mitmIndex = some j) (hnone : info.mitmIndex = none)
    (hfree : m.processId = none) : LinksOk (update services i info) (update mitms j m) := by
  have hlink : ∀ i' j', (update services i info i').mitmIndex = some j' ↔
      (services i').mitmIndex = some j' ∧ j' ≠ j := by
    intro i' j'
    rw [update_apply]
    split_ifs with hi
    · grind
    · refine ⟨fun hj' => ⟨hj', ?_⟩, And.left⟩
      rintro rfl
      exact hi (h.unique i' i j' hj' hindex)
  refine ⟨fun j' => ?_, fun i₁ i₂ j' => ?_⟩
  · simp only [hlink, exists_and_right, ← h.owned]
    rw [update_apply]
    split_ifs with hj <;> simp [hj, hfree]
  · rw [hlink, hlink]
    exact fun h₁ h₂ => h.unique i₁ i₂ j' h₁.1 h₂.1

/-- A service gets a mitm whose entry was free. -/
theorem LinksOk.link (hnone : (services i).mitmIndex = none) (hfree : (mitms j).processId = none)
    (hindex : info.mitmIndex = some j) (howner : m.processId ≠ none) :
    LinksOk (update services i info) (update mitms j m) := by
  have hlink : ∀ i' j', (update services i info i').mitmIndex = some j' ↔
      (services i').mitmIndex = some j' ∨ i' = i ∧ j' = j := by
    intro i' j'
    rw [update_apply]
    split_ifs with hi
    · grind
    · simp [hi]
  -- Nobody referred to the free entry.
  have hunlinked : ∀ i', (services i').mitmIndex ≠ some j := fun i' hi' =>
    (h.owned j).mpr ⟨i', hi'⟩ hfree
  refine ⟨fun j' => ?_, fun i₁ i₂ j' => ?_⟩
  · simp only [hlink]
    rw [update_apply]
    split_ifs with hj
    · exact ⟨fun _ => ⟨i, .inr ⟨rfl, hj⟩⟩, fun _ => howner⟩
    · rw [h.owned j']
      simp [hj]
  · rw [hlink, hlink]
    rintro (h₁ | ⟨rfl, rfl⟩) (h₂ | ⟨rfl, hj⟩)
    · exact h.unique i₁ i₂ j' h₁ h₂
    · exact absurd (hj ▸ h₁) (hunlinked i₁)
    · exact absurd h₂ (hunlinked i₂)
    · rfl

end Tables

namespace SmInv

theorem of_ok (hnames : NamesOk s.services) (hmitms : ∀ j, MitmOk (s.mitms j))
    (hlinks : LinksOk s.services s.mitms)
    (hhandles : ∀ n, s.given.count n + s.closed.count n + s.stored n =
      if n < s.created then 1 else 0) : s.SmInv :=
  ⟨hnames.names, hnames.free, fun j => (hmitms j).1, hlinks.owned, hlinks.unique,
    fun j => (hmitms j).2.1, fun j => (hmitms j).2.2, hhandles⟩

theorem namesOk (inv : s.SmInv) : NamesOk s.services := ⟨inv.names, inv.freeService⟩

theorem linksOk (inv : s.SmInv) : LinksOk s.services s.mitms := ⟨inv.mitmOwned, inv.mitmUnique⟩

theorem mitmOk (inv : s.SmInv) (j : Fin mitmCountMax) : MitmOk (s.mitms j) :=
  ⟨inv.freeMitm j, inv.waiting j, inv.waitingProcess j⟩

variable {j : Fin mitmCountMax} {i : Fin serviceCountMax}

variable (inv : s.SmInv)
include inv

theorem mitmOk_update {m : MitmInfo} (hm : MitmOk m) : ∀ j', MitmOk (update s.mitms j m j') :=
  (Function.forall_update_iff s.mitms fun _ m => MitmOk m).mpr ⟨hm, fun j' _ => inv.mitmOk j'⟩

/-- An entry that keeps its name. -/
theorem namesOk_update {info : ServiceInfo} (hsame : info.name = (s.services i).name)
    (hname : (s.services i).name ≠ .invalid) : NamesOk (update s.services i info) := by
  refine inv.namesOk.update (.inr ⟨hsame ▸ hname, fun i' hi heq => hi ?_⟩)
  rw [hsame] at heq
  exact inv.names i' i heq (heq ▸ hname)

/-- A command that leaves services and mitms alone only has to account for its handles. -/
theorem of_tables (hservices : s'.services = s.services) (hmitms : s'.mitms = s.mitms)
    (hhandles : ∀ n, s'.given.count n + s'.closed.count n + s.stored n =
      if n < s'.created then 1 else 0) : s'.SmInv := by
  refine .of_ok ?_ ?_ ?_ fun n => ?_
  · rw [hservices]
    exact inv.namesOk
  · rw [hmitms]
    exact inv.mitmOk
  · rw [hservices, hmitms]
    exact inv.linksOk
  · rw [stored, hservices, hmitms]
    exact hhandles n

theorem connectForClient : s.connectForClient.SmInv := by
  refine inv.of_tables rfl rfl fun n => ?_
  have h := inv.handles n
  change (s.created :: s.given).count n + s.closed.count n + s.stored n =
    if n < s.created + 1 then 1 else 0
  rw [List.count_cons]
  simp only [beq_iff_eq]
  split_ifs at h ⊢ <;> omega

theorem portClosed : s.portClosed.SmInv := by
  refine inv.of_tables rfl rfl fun n => ?_
  have h := inv.handles n
  change s.given.count n + ((s.created + 1) :: s.created :: s.closed).count n + s.stored n =
    if n < s.created + 2 then 1 else 0
  rw [List.count_cons, List.count_cons]
  simp only [beq_iff_eq]
  split_ifs at h ⊢ <;> omega

/-- A command that changes only the session of an installed mitm. -/
theorem of_session {m : MitmInfo} (hindex : (s.services i).mitmIndex = some j)
    (hservices : s'.services = s.services) (hmitms : s'.mitms = update s.mitms j m)
    (howner : m.processId = (s.mitms j).processId) (hwait : m.fwdSessH.isSome = m.waitingAck)
    (hprocess : m.waitingAckProcessId.isSome = m.waitingAck)
    (hhandles : ∀ n, s'.given.count n + s'.closed.count n + s'.stored n =
      if n < s'.created then 1 else 0) : s'.SmInv := by
  have hinstalled : m.processId ≠ none := howner ▸ (inv.mitmOwned j).mpr ⟨i, hindex⟩
  refine .of_ok ?_ ?_ ?_ hhandles
  · rw [hservices]
    exact inv.namesOk
  · rw [hmitms]
    exact inv.mitmOk_update ⟨fun hnone => absurd hnone hinstalled, hwait, hprocess⟩
  · rw [hservices, hmitms]
    refine inv.linksOk.congr (fun _ => rfl) fun j' => ?_
    rw [update_apply]
    split_ifs with hj
    · rw [hj, howner]
    · rfl

theorem mitmConnected {i : Fin serviceCountMax} {j : Fin mitmCountMax} (processId : ProcessId)
    (hindex : (s.services i).mitmIndex = some j) (hwait : (s.mitms j).waitingAck = false) :
    (s.mitmConnected j processId).SmInv := by
  refine inv.of_session hindex rfl rfl rfl rfl rfl fun n => ?_
  have h := inv.handles n
  have hstored := @stored_update s (s.mitmConnected j processId) i (s.services i) j _
    (update_eq_self _ _).symm rfl n
  have hnone : (s.mitms j).fwdSessH = none := by
    have h := inv.waiting j
    rw [hwait] at h
    exact Option.isSome_eq_false_iff.mp h |> Option.isNone_iff_eq_none.mp
  simp only [mitmHolds, hnone, holds_none, holds_some] at hstored
  change ((s.created + 1) :: s.given).count n + s.closed.count n + _ =
    if n < s.created + 2 then 1 else 0
  rw [List.count_cons]
  simp only [beq_iff_eq]
  split_ifs at h hstored ⊢ <;> omega

theorem mitmAcknowledged (hindex : (s.services i).mitmIndex = some j) :
    (s.mitmAcknowledged j).SmInv := by
  refine inv.of_session hindex rfl rfl rfl rfl rfl fun n => ?_
  have h := inv.handles n
  have hstored := @stored_update s (s.mitmAcknowledged j) i (s.services i) j _
    (update_eq_self _ _).symm rfl n
  simp only [mitmHolds, holds_none] at hstored
  change ((s.mitms j).fwdSessH.toList ++ s.given).count n + s.closed.count n + _ =
    if n < s.created then 1 else 0
  rw [List.count_append, count_toList]
  omega

/-- A free entry of the service table gets a name. -/
theorem serviceRegistered {processId : ProcessId} {service : ServiceName} {maxSessions : ℕ}
    {isLight : Bool} (hname : service ≠ .invalid) (hnew : ∀ i', (s.services i').name ≠ service)
    (hfree : (s.services i).name = .invalid) :
    (s.serviceRegistered i processId service maxSessions isLight).SmInv := by
  have hinvalid := inv.freeService i hfree
  refine .of_ok (inv.namesOk.update (.inr ⟨hname, fun i' _ => hnew i'⟩)) inv.mitmOk
    (inv.linksOk.congr (fun i' => ?_) fun _ => Iff.rfl) fun n => ?_
  · change (update s.services i _ i').mitmIndex = _
    rw [update_apply]
    split_ifs with hi
    · rw [hi]
    · rfl
  · have h := inv.handles n
    have hport : (s.services i).portH = none := by
      rw [hinvalid]
      rfl
    have hstored := @stored_update s
      (s.serviceRegistered i processId service maxSessions isLight) i _ ⟨0, by decide⟩
      (s.mitms _) rfl (update_eq_self _ _).symm n
    simp only [hport, holds_none, holds_some] at hstored
    change (s.created :: s.given).count n + s.closed.count n + _ =
      if n < s.created + 2 then 1 else 0
    rw [List.count_cons]
    simp only [beq_iff_eq]
    split_ifs at h hstored ⊢ <;> omega

theorem mitmInstalled (processId : ProcessId) (hindex : (s.services i).mitmIndex = none)
    (hname : (s.services i).name ≠ .invalid) (hfree : (s.mitms j).processId = none) :
    (s.mitmInstalled i j processId).SmInv := by
  have hinvalid := inv.freeMitm j hfree
  refine .of_ok (inv.namesOk_update rfl hname)
    (inv.mitmOk_update ⟨nofun, inv.waiting j, inv.waitingProcess j⟩)
    (inv.linksOk.link hindex hfree rfl (Option.some_ne_none processId)) fun n => ?_
  have h := inv.handles n
  have hstored := @stored_update s (s.mitmInstalled i j processId) i _ j _ rfl rfl n
  simp only [mitmHolds, hinvalid, MitmInfo.invalid, holds_none, holds_some] at hstored
  change ((s.created + 2) :: s.created :: s.given).count n + s.closed.count n + _ =
    if n < s.created + 4 then 1 else 0
  rw [List.count_cons, List.count_cons]
  simp only [beq_iff_eq]
  split_ifs at h hstored ⊢ <;> omega

theorem mitmUninstalled (hindex : (s.services i).mitmIndex = some j) :
    (s.mitmUninstalled i j).SmInv := by
  refine .of_ok (inv.namesOk_update rfl fun hfree => by
    rw [inv.freeService i hfree] at hindex
    cases hindex)
    (inv.mitmOk_update ⟨fun _ => rfl, rfl, rfl⟩) (inv.linksOk.unlink hindex rfl rfl) fun n => ?_
  have h := inv.handles n
  have hstored := @stored_update s (s.mitmUninstalled i j) i _ j _ rfl rfl n
  rw [mitmHolds_invalid, mitmHolds] at hstored
  dsimp only at hstored
  change s.given.count n + ((s.mitms j).fwdSessH.toList ++ ((s.mitms j).queryH.toList ++
    ((s.mitms j).portH.toList ++ s.closed))).count n + _ = if n < s.created then 1 else 0
  simp only [List.count_append, count_toList]
  omega

theorem serviceRemoved (hindex : (s.services i).mitmIndex = none) : (s.serviceRemoved i).SmInv := by
  refine .of_ok (inv.namesOk.update (.inl rfl)) inv.mitmOk
    (inv.linksOk.congr (fun i' => ?_) fun _ => Iff.rfl) fun n => ?_
  · change (update s.services i _ i').mitmIndex = _
    rw [update_apply]
    split_ifs with hi
    · rw [hi, hindex]
      rfl
    · rfl
  have h := inv.handles n
  have hstored := @stored_update s (s.serviceRemoved i) i _ ⟨0, by decide⟩ (s.mitms _) rfl
    (update_eq_self _ _).symm n
  rw [holds_invalid] at hstored
  change s.given.count n + ((s.services i).portH.toList ++ s.closed).count n + _ =
    if n < s.created then 1 else 0
  rw [List.count_append, count_toList]
  omega

theorem serviceRemoved_resetMitm (hindex : (s.services i).mitmIndex = some j) :
    ((s.serviceRemoved i).resetMitm j).SmInv := by
  refine .of_ok (inv.namesOk.update (.inl rfl)) (inv.mitmOk_update ⟨fun _ => rfl, rfl, rfl⟩)
    (inv.linksOk.unlink hindex rfl rfl) fun n => ?_
  have h := inv.handles n
  have hstored := @stored_update s ((s.serviceRemoved i).resetMitm j) i _ j _ rfl rfl n
  rw [mitmHolds_invalid, holds_invalid, mitmHolds] at hstored
  change s.given.count n + ((s.mitms j).fwdSessH.toList ++ ((s.mitms j).queryH.toList ++
    ((s.mitms j).portH.toList ++ ((s.services i).portH.toList ++ s.closed)))).count n + _ =
      if n < s.created then 1 else 0
  simp only [List.count_append, count_toList]
  omega

theorem unregisterServiceImpl (i : Fin serviceCountMax) : (s.unregisterServiceImpl i).SmInv := by
  cases hindex : (s.services i).mitmIndex with
  | none =>
    rw [unregisterServiceImpl_of_none hindex]
    exact inv.serviceRemoved hindex
  | some j =>
    rw [unregisterServiceImpl_of_some hindex]
    exact inv.serviceRemoved_resetMitm hindex

theorem disconnectService (processId : ProcessId) (i : Fin serviceCountMax) :
    (s.disconnectService processId i).SmInv := by
  unfold SmState.disconnectService
  split_ifs
  · exact inv.unregisterServiceImpl i
  · exact inv

theorem disconnected (processId : ProcessId) : (s.disconnected processId).SmInv := by
  unfold SmState.disconnected
  induction List.finRange serviceCountMax generalizing s with
  | nil => exact inv
  | cons i entries ih => exact ih (inv.disconnectService processId i)

theorem executed {command : SmCommand} {result : Except SmResult Reply}
    {triggered : List ServiceName} (h : Executed c s command result s' triggered) : s'.SmInv := by
  cases h with
  | unchanged => exact inv
  | processRegistered | processUnregistered | declared | cleared | endedInitialDefers =>
     exact inv.of_tables rfl rfl inv.handles
  | connected => exact inv.connectForClient
  | mitmConnected hvalid hservice hindex hwait => exact inv.mitmConnected _ hindex hwait
  | registered hvalid hnew hfree =>
    exact inv.serviceRegistered (ne_invalid_of_validateServiceName hvalid)
      (name_ne_of_getServiceInfo hnew) (of_getServiceInfo hfree)
  | unregistered => exact inv.unregisterServiceImpl _
  | disconnected => exact inv.disconnected _
  | portClosed => exact inv.portClosed
  | @installed processId _ _ _ _ hvalid hservice hindex hfree =>
    have hname := ne_invalid_of_validateServiceName hvalid
    rw [← of_getServiceInfo hservice] at hname
    have hinstalled := inv.mitmInstalled processId hindex hname hfree
    exact hinstalled.of_tables rfl rfl hinstalled.handles
  | uninstalled hvalid hregistered hservice hindex => exact inv.mitmUninstalled hindex
  | acknowledged hservice hindex => exact inv.mitmAcknowledged hindex

end SmInv

end SmState

open SmState

variable {c : SmConfig} {s : SmState}

/-- The invariant holds in every state that sm reaches. -/
theorem SmReaches.inv (hrun : SmReaches c s) : s.SmInv := by
  induction hrun with
  | initial => exact smInv_initial
  | step _ hexec ih => exact ih.executed (executed_of_exec hexec)

/-- What a failing command leaves: the tables, and the handles that clients have. -/
def SmState.SameTables (s s' : SmState) : Prop :=
  s'.processes = s.processes ∧ s'.services = s.services ∧ s'.futureMitms = s.futureMitms ∧
    s'.mitms = s.mitms ∧ s'.endedInitialDefers = s.endedInitialDefers ∧ s'.given = s.given

/-- In every run the tables of sm fit together and every handle is in one place, and a command
that fails changes no table. -/
theorem smReaches_tables_and_handles (hrun : SmReaches c s) :
    (∀ i i', (s.services i).name = (s.services i').name → (s.services i).name ≠ .invalid → i = i') ∧
    (∀ j, (s.mitms j).processId ≠ none ↔ ∃! i, (s.services i).mitmIndex = some j) ∧
    (∀ j, (s.mitms j).fwdSessH.isSome ↔ (s.mitms j).waitingAck) ∧
    (∀ n, s.given.count n + s.closed.count n + s.stored n = if n < s.created then 1 else 0) ∧
    ∀ answers command o error, s.exec c answers command = .ok o → o.result = .error error →
      s.SameTables o.state := by
  have inv := hrun.inv
  refine ⟨inv.names, fun j => ?_, fun j => ?_, inv.handles, ?_⟩
  · rw [inv.mitmOwned j]
    constructor
    · intro ⟨i, hi⟩
      exact ⟨i, hi, fun i' hi' => inv.mitmUnique i' i j hi' hi⟩
    · intro ⟨i, hi, _⟩
      exact ⟨i, hi⟩
  · rw [inv.waiting j]
  · rintro answers command ⟨_, s', triggered⟩ error hexec rfl
    cases executed_of_exec hexec with
    | unchanged | portClosed => exact ⟨rfl, rfl, rfl, rfl, rfl, rfl⟩

/-- With the mitm installed the kernel has created six handles: the tables hold the client
ports of the service and of the mitm and the query session. -/
theorem tables_and_handles_mitmInstalled :
    let s := SmState.initial.afterCommands bootConfig mitmInstalledRun
    s.created = 6 ∧ s.closed = [] ∧ (∃! i, (s.services i).mitmIndex = some firstMitm) ∧
      s.stored 3 = 1 := by
  intro s
  have hcreated : s.created = 6 := by decide +kernel
  have hclosed : s.closed = [] := by decide +kernel
  have howner : (s.mitms firstMitm).processId ≠ none := by decide +kernel
  have hgiven : s.given.count 3 = 0 := by decide +kernel
  obtain ⟨-, howned, -, hhandles, -⟩ :=
    smReaches_tables_and_handles (SmReaches.afterCommands mitmInstalledRun)
  have hthree := hhandles 3
  rw [hclosed, hgiven, if_pos (by decide)] at hthree
  refine ⟨hcreated, hclosed, (howned firstMitm).mp howner, ?_⟩
  simpa using hthree

end Atmosphere.Sm
