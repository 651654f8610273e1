import Atmosphere.Sm.Execution

/-!
# Access lists and their restriction

`RegisterProcess` accepts an access list if the restriction list allows every entry of it. An
entry that ends in a star stands for all names that begin with the rest of it, but an exact
entry of the restriction list allows every such entry, whatever its name.
-/

namespace Atmosphere.Sm

open Fallible (bind_eq_ok)
open AccessControlEntry SmState

variable {acid aci : List UInt8} {service : ServiceName} {host : Bool}

/-- The check of a request grants the name. -/
def Granted (accessControl : List UInt8) (service : ServiceName) (host : Bool) : Prop :=
  validateAccessControl accessControl service host false = .ok ()

instance : Decidable (Granted aci service host) := inferInstanceAs (Decidable (_ = _))

theorem validateAccessControl_eq_ok {wildcard : Bool} :
    validateAccessControl aci service host wildcard = .ok () ↔
      ∃ e ∈ entries aci, AccessControlEntry.isHost e = host ∧ allows e service wildcard = true := by
  unfold validateAccessControl
  split_ifs with h <;> simpa using h

/-- The entries of an accepted list are accepted. -/
theorem of_validateRestriction (h : validateRestriction acid aci = .ok ()) : ∀ e ∈ entries aci,
    validateAccessControl acid (getServiceName e) (AccessControlEntry.isHost e)
      (AccessControlEntry.isWildcard e) = .ok () := by
  unfold validateRestriction at h
  generalize entries aci = es at h ⊢
  induction es with
  | nil => exact nofun
  | cons e es ih =>
    obtain ⟨_, he, hes⟩ := bind_eq_ok.mp h
    exact List.forall_mem_cons.mpr ⟨he, ih hes⟩

/-- A wildcard stands for every name that another entry stands for: its prefix is a prefix of the
other one's. -/
structure Covers (r e : AccessControlEntry) : Prop where
  isHost : AccessControlEntry.isHost r = AccessControlEntry.isHost e
  isWildcard : AccessControlEntry.isWildcard r = true
  size_le : getServiceNameSize r ≤ getServiceNameSize e
  agrees : (getServiceName r).equalUpTo (getServiceName e) (getServiceNameSize r - 1) = true

/-- Every wildcard of the access list is covered by one of the restriction list. -/
def WildcardsCovered (acid aci : List UInt8) : Prop :=
  ∀ e ∈ entries aci, AccessControlEntry.isWildcard e = true → ∃ r ∈ entries acid, Covers r e

section

variable {r e : AccessControlEntry}

theorem equalUpTo_iff {a b : ServiceName} {size : ℕ} :
    a.equalUpTo b size = true ↔ ∀ i : Fin 8, i.val < size → a i = b i := decide_eq_true_iff

theorem allows_of_isWildcard (h : isWildcard e = true) :
    allows e service false = (getServiceName e).equalUpTo service (getServiceNameSize e - 1) := by
  simp [allows, h]

theorem allows_of_not_isWildcard (h : isWildcard e = false) :
    allows e service false = (getServiceName e == service) := by
  simp [allows, h]

theorem Covers.allows (hcovers : Covers r e) (hwild : e.isWildcard = true)
    (hallows : allows e service false = true) : allows r service false = true := by
  rw [allows_of_isWildcard hwild, equalUpTo_iff] at hallows
  rw [allows_of_isWildcard hcovers.isWildcard, equalUpTo_iff]
  intro i hi
  have hsize := hcovers.size_le
  rw [equalUpTo_iff.mp hcovers.agrees i hi]
  exact hallows i (by omega)

theorem getServiceNameSize_le (e : AccessControlEntry) : getServiceNameSize e - 1 < 8 := by
  have hand : (header e &&& 7).toNat ≤ 7 := Nat.and_le_right
  unfold getServiceNameSize
  omega

/-- The name of a wildcard entry with a character in place of the star. -/
def starReplaced (e : AccessControlEntry) (c : UInt8) : ServiceName :=
  Function.update (getServiceName e) ⟨getServiceNameSize e - 1, getServiceNameSize_le e⟩ c

theorem allows_starReplaced (hwild : isWildcard e = true) (c : UInt8) :
    allows e (starReplaced e c) false = true := by
  rw [allows_of_isWildcard hwild, equalUpTo_iff]
  intro i hi
  rw [starReplaced, Function.update_of_ne fun heq => by rw [heq] at hi; exact Nat.lt_irrefl _ hi]

/-- An entry that does not cover a wildcard allows one character at most in place of the star. -/
theorem starReplaced_injective (hhost : isHost r = isHost e)
    (hcovers : ¬ Covers r e) {c d : UInt8} (hc : allows r (starReplaced e c) false = true)
    (hd : allows r (starReplaced e d) false = true) : c = d := by
  have hself : ∀ c, starReplaced e c ⟨getServiceNameSize e - 1, getServiceNameSize_le e⟩ = c :=
    fun c => Function.update_self ..
  cases hwild : isWildcard r with
  | false =>
    rw [allows_of_not_isWildcard hwild, beq_iff_eq] at hc hd
    rw [← hself c, ← hself d, ← hc, ← hd]
  | true =>
    rw [allows_of_isWildcard hwild, equalUpTo_iff] at hc hd
    obtain hlt | hge := Nat.lt_or_ge (getServiceNameSize e - 1) (getServiceNameSize r - 1)
    · rw [← hself c, ← hself d, ← hc _ hlt, ← hd _ hlt]
    · refine absurd ⟨hhost, hwild, ?_, equalUpTo_iff.mpr fun i hi => ?_⟩ hcovers
      · unfold getServiceNameSize at hge ⊢
        omega
      · rw [hc i hi, starReplaced, Function.update_of_ne]
        rintro rfl
        exact absurd hi (Nat.not_lt.mpr hge)

/-- Fewer entries than characters cannot allow all of them if none covers the wildcard. -/
theorem exists_covers (hwild : isWildcard e = true)
    (hlength : (entries acid).length < 256)
    (hgranted : ∀ service, allows e service false = true →
      Granted acid service (isHost e)) : ∃ r ∈ entries acid, Covers r e := by
  by_contra hnone
  have hentry : ∀ c : UInt8, ∃ r ∈ entries acid,
      isHost r = isHost e ∧
        allows r (starReplaced e c) false = true := fun c =>
    validateAccessControl_eq_ok.mp (hgranted _ (allows_starReplaced hwild c))
  choose entry hmem hhost hallows using hentry
  have hnodup : ((List.range 256).map fun n => entry (UInt8.ofNat n)).Nodup := by
    refine List.nodup_range.map_on fun m hm n hn heq => ?_
    have hchar : UInt8.ofNat m = UInt8.ofNat n :=
      starReplaced_injective (hhost _) (fun h => hnone ⟨_, hmem _, h⟩) (hallows _)
        (heq ▸ hallows (UInt8.ofNat n))
    rw [← UInt8.toNat_ofNat_of_lt' (List.mem_range.mp hm), hchar,
      UInt8.toNat_ofNat_of_lt' (List.mem_range.mp hn)]
  have hsub : ((List.range 256).map fun n => entry (UInt8.ofNat n)) ⊆ entries acid := by
    intro r hr
    obtain ⟨n, -, rfl⟩ := List.mem_map.mp hr
    exact hmem _
  have hle := (List.subperm_of_subset hnodup hsub).length_le
  rw [List.length_map, List.length_range] at hle
  omega

end

/-- A process that was registered is granted only what its restriction list grants if the wildcards
of its access list are covered, which `RegisterProcess` does not check. If they are not, it is
granted more, unless the restriction list is long enough to name all cases one by one. -/
theorem registerProcess_granted_iff {s : SmState} {processId : ProcessId} {programId : ProgramId}
    {overrideStatus : ℕ} {o : Outcome} {reply : Reply}
    (hexec : s.registerProcess processId programId overrideStatus acid aci = .ok o)
    (hok : o.result = .ok reply) :
    ∃ p, (o.state.processes p).processId = some processId ∧
      (WildcardsCovered acid aci → ∀ service host,
        Granted (o.state.processes p).accessControl service host → Granted acid service host) ∧
      ((entries acid).length < 256 → (∀ service host,
        Granted (o.state.processes p).accessControl service host → Granted acid service host) →
          WildcardsCovered acid aci) := by
  obtain ⟨e, -, rfl⟩ | ⟨p, hchecks, hbody⟩ := checked_eq_ok hexec
  · cases hok
  · simp only [bind_eq_ok] at hchecks
    obtain ⟨_, -, _, -, _, -, _, hvalid, -⟩ := hchecks
    injection hbody with hbody
    subst hbody
    refine ⟨p, by simp, ?_⟩
    have hstored : (Function.update s.processes p
        ⟨some processId, programId, overrideStatus, aci⟩ p).accessControl = aci := by simp
    rw [hstored]
    constructor
    · intro hcovered service host hgranted
      obtain ⟨e, he, rfl, hallows⟩ := validateAccessControl_eq_ok.mp hgranted
      cases hwild : isWildcard e with
      | true =>
        obtain ⟨r, hr, hcovers⟩ := hcovered e he hwild
        exact validateAccessControl_eq_ok.mpr
          ⟨r, hr, hcovers.isHost, hcovers.allows hwild hallows⟩
      | false =>
        -- The exact entries of an accepted list are granted by the restriction list.
        have hentry := of_validateRestriction hvalid e he
        rw [allows_of_not_isWildcard hwild, beq_iff_eq] at hallows
        rw [hwild, hallows] at hentry
        exact hentry
    · intro hlength hsub e he hwild
      refine exists_covers hwild hlength fun service hallows => ?_
      exact hsub service _ (validateAccessControl_eq_ok.mpr ⟨e, he, rfl, hallows⟩)

/-- The list with the single entry `fsp-srv`. -/
def onlyFspSrv : List UInt8 := [0x06, 0x66, 0x73, 0x70, 0x2d, 0x73, 0x72, 0x76]

theorem registerProcess_granted_onlyFspSrv :
    ∃ o : Outcome, SmState.initial.registerProcess 0x80 0 0 onlyFspSrv onlyFspSrv = .ok o ∧
      ∃ p, (o.state.processes p).processId = some 0x80 ∧
        ∀ service host, Granted (o.state.processes p).accessControl service host →
          Granted onlyFspSrv service host := by
  have hregister : ∃ o : Outcome,
      SmState.initial.registerProcess 0x80 0 0 onlyFspSrv onlyFspSrv = .ok o ∧
      o.result = .ok .none := ⟨_, rfl, by decide +kernel⟩
  obtain ⟨o, hexec, hok⟩ := hregister
  obtain ⟨p, hp, hcovered, -⟩ := registerProcess_granted_iff hexec hok
  refine ⟨o, hexec, p, hp, hcovered ?_⟩
  intro e he hwild
  have hentries : entries onlyFspSrv = [onlyFspSrv] := by decide +kernel
  rw [hentries, List.mem_singleton] at he
  rw [he] at hwild
  exact absurd hwild (by decide +kernel)

/-- The list with the single entry `*`. -/
def everyName : List UInt8 := [0x00, 0x2a]

/-- A process whose restriction list names one service may register for all of them. -/
theorem registerProcess_grants_more :
    ∃ o : Outcome, SmState.initial.registerProcess 0x80 0 0 onlyFspSrv everyName = .ok o ∧
      o.result = .ok .none ∧
      Granted (o.state.processes ⟨0, by decide⟩).accessControl (.encode [0x73, 0x65, 0x74] 3)
        false ∧
      ¬ Granted onlyFspSrv (.encode [0x73, 0x65, 0x74] 3) false := by
  refine ⟨_, rfl, by decide +kernel, by decide +kernel, by decide +kernel⟩

end Atmosphere.Sm
