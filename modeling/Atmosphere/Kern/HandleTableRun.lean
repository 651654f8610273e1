import Atmosphere.Kern.HandleTableSpec

/-!
# Runs of a handle table

The table refines a finite map from handles to objects. The history of a run is kept
beside it: which handles were returned for which object and not removed since, which are
reserved, and when the linear id of each handle was issued.
-/

namespace Atmosphere.Kern

open FreeList

open KHandleTable
open Function (update update_self update_of_ne)
open Finset

/-- A handle table with the history of its run. -/
structure HandleState (α : Type) where
  table : KHandleTable α
  /-- The object for which a handle was returned, until the handle is removed. -/
  live : Handle → Option α
  /-- The handles that `Reserve` returned and that were not used since. -/
  reserved : Finset Handle
  /-- The number of linear ids issued so far. -/
  issued : ℕ
  /-- The number of ids issued before the one of this handle, for its last issue. -/
  issuedAt : Handle → Option ℕ

/-- The operations of the table. -/
inductive HandleOp (α : Type)
  | initializeTable (size : ℤ)
  | add (obj : α)
  | reserve
  | register (handle : Handle) (obj : α)
  | unreserve (handle : Handle)
  | remove (handle : Handle)

namespace HandleState

variable {α : Type} {s s' : HandleState α} {op : HandleOp α} {h : Handle} {o : α} {i : ℕ}

/-- A table whose history begins. -/
def start (t : KHandleTable α) : HandleState α := ⟨t, fun _ => none, ∅, 0, fun _ => none⟩

/-- The history after the table `t` issued a handle. -/
def issue (s : HandleState α) (t : KHandleTable α) (h : Handle) : HandleState α :=
  { s with
    table := t
    issued := s.issued + 1
    issuedAt := update s.issuedAt h (some s.issued) }

/-- One operation. -/
def step (s : HandleState α) : HandleOp α → Run (HandleState α)
  | .initializeTable size =>
    match s.table.initializeTable size with
    | .ok t => .ok (start t)
    | .error _ => .ok s
  | .add obj => do
    let (result, t) ← s.table.add obj
    match result with
    | .ok h => return { s.issue t h with live := update s.live h (some obj) }
    | .error _ => return { s with table := t }
  | .reserve => do
    let (result, t) ← s.table.reserve
    match result with
    | .ok h => return { s.issue t h with reserved := insert h s.reserved }
    | .error _ => return { s with table := t }
  | .register h obj =>
    .ok { s with
      table := s.table.register h obj
      live := update s.live h (some obj)
      reserved := s.reserved.erase h }
  | .unreserve h =>
    .ok { s with table := s.table.unreserve h, reserved := s.reserved.erase h }
  | .remove h =>
    match s.table.remove h with
    | some (_, t) => .ok { s with table := t, live := update s.live h none }
    | none => .ok s

/-- `Register` and `Unreserve` are called with a handle that is reserved. -/
def Admissible (s : HandleState α) : HandleOp α → Prop
  | .register h _ | .unreserve h => h ∈ s.reserved
  | _ => True

/-- The states of a table from its construction on. -/
inductive Reaches : HandleState α → Prop
  | start : Reaches (start constantInitialize)
  | step {s s' : HandleState α} {op : HandleOp α} (hrun : Reaches s) (hop : s.Admissible op)
      (hstep : s.step op = .ok s') : Reaches s'

/-- The table is the map of the live handles. -/
structure HandleInv (s : HandleState α) : Prop where
  nextId : s.table.nextLinearId = s.issued % maxLinearId + 1
  freeOk : ∃ free, s.table.FreeListOk free ∧ ∀ i, i ∈ free ↔
    i < s.table.tableSize ∧ s.table.objects i = none ∧ ∀ h ∈ s.reserved, h.index ≠ i
  lookup : ∀ h, s.table.getObjectImpl h = s.live h
  entry : ∀ i < s.table.tableSize, s.table.objects i ≠ none →
    (s.table.entryInfos i).getLinearId ≠ 0 ∧ (s.table.entryInfos i).getLinearId ≤ maxLinearId
  reserved : ∀ h ∈ s.reserved, h.reserved = 0 ∧ h.linearId ≠ 0 ∧ h.index < s.table.tableSize ∧
    s.table.objects h.index = none
  reserved_index : ∀ h ∈ s.reserved, ∀ h' ∈ s.reserved, h.index = h'.index → h = h'
  issuedAt : ∀ h m, s.issuedAt h = some m → m < s.issued ∧ h.linearId = m % maxLinearId + 1

theorem HandleInv.start {t : KHandleTable α} (hfree : t.AllFree) : (start t).HandleInv := by
  obtain ⟨free, ok, hmem⟩ := hfree.freeOk
  refine ⟨hfree.nextLinearId, ⟨free, ok, fun i => ?_⟩, fun h => ?_, fun i hi hne => ?_,
    by simp [HandleState.start], by simp [HandleState.start], by simp [HandleState.start]⟩
  · rw [hmem]
    exact ⟨fun hi => ⟨hi, hfree.objects i hi, by simp [HandleState.start]⟩, fun hi => hi.1⟩
  · apply Option.eq_none_iff_forall_ne_some.mpr
    intro o ho
    obtain ⟨-, -, hi, hobj, -⟩ := getObjectImpl_eq_some.mp ho
    have hnone : (HandleState.start t).table.objects h.index = none := hfree.objects _ hi
    rw [hnone] at hobj
    cases hobj
  · exact absurd (hfree.objects i hi) hne

/-! ### Issuing a handle -/

/-- The handle `h` can be issued, and `t` is the table without its entry on the free list. -/
structure Issues (s : HandleState α) (h : Handle) (t : KHandleTable α) : Prop where
  reserved : h.reserved = 0
  linearId : h.linearId = s.issued % maxLinearId + 1
  index_lt : h.index < s.table.tableSize
  objects_none : s.table.objects h.index = none
  index_ne : ∀ h' ∈ s.reserved, h'.index ≠ h.index
  entryInfos_eq : t.entryInfos = s.table.entryInfos
  objects_eq : t.objects = s.table.objects
  tableSize_eq : t.tableSize = s.table.tableSize
  head : s.table.freeHeadIndex = h.index
  next : t.freeHeadIndex = (s.table.entryInfos h.index).getNextFreeIndex
  count : t.count = s.table.count + 1
  nextId : t.nextLinearId = (s.issued + 1) % maxLinearId + 1
  freeOk : ∃ rest, t.FreeListOk rest ∧ ∀ i, i ∈ rest ↔ i ≠ h.index ∧
    i < s.table.tableSize ∧ s.table.objects i = none ∧ ∀ h' ∈ s.reserved, h'.index ≠ i

/-- While the table is not full, `Add` and `Reserve` issue a handle. -/
theorem HandleInv.issues (inv : s.HandleInv) (hcount : s.table.count < s.table.tableSize) :
    ∃ h t, s.Issues h t ∧ s.table.reserve = .ok (.ok h, t) ∧
      ∀ o, s.table.add o = .ok (.ok h, t.setEntry h.index h.linearId o) := by
  obtain ⟨free, ok, hmem⟩ := inv.freeOk
  obtain ⟨i, rest, rfl, hhead, halloc, hrest⟩ := ok.allocateLinearId.allocateEntry hcount
  obtain ⟨hlt, hobj, hres⟩ := (hmem i).mp (.head _)
  have hsize := ok.size_le
  have hid : s.table.nextLinearId = s.issued % 32767 + 1 := inv.nextId
  have hindex : (Handle.encode i s.table.nextLinearId).index = i := by
    unfold maxTableSize at hsize
    rw [Handle.index_encode]
    omega
  have hlinear : (Handle.encode i s.table.nextLinearId).linearId = s.table.nextLinearId := by
    rw [Handle.linearId_encode]
    omega
  refine ⟨.encode i s.table.nextLinearId, s.table.allocateLinearId.2.taken i, ?_, ?_, fun o => ?_⟩
  · refine ⟨Handle.reserved_encode _ _, ?_, ?_, ?_, ?_, rfl, rfl, rfl, ?_, ?_, rfl,
      ?_, rest, hrest, ?_⟩
    · rw [hlinear, inv.nextId]
    · rwa [hindex]
    · rwa [hindex]
    · rwa [hindex]
    · rw [hindex]
      exact hhead
    · rw [hindex]
      rfl
    · have hnext : (s.table.allocateLinearId.2.taken i).nextLinearId =
          if maxLinearId < (s.table.nextLinearId + 1) % 2 ^ 16 then minLinearId
          else (s.table.nextLinearId + 1) % 2 ^ 16 := rfl
      rw [hnext]
      unfold maxLinearId minLinearId
      split_ifs <;> omega
    · intro j
      have hnodup := List.nodup_cons.mp ok.chain.nodup
      rw [hindex, ← hmem j, List.mem_cons]
      constructor
      · intro hj
        refine ⟨?_, .inr hj⟩
        rintro rfl
        exact hnodup.1 hj
      · rintro ⟨hne, heq | hj⟩
        · exact absurd heq hne
        · exact hj
  · rw [reserve, if_pos hcount]
    change (s.table.allocateLinearId.2.allocateEntry >>= _) = _
    rw [halloc]
    rfl
  · rw [add, if_pos hcount, hindex, hlinear]
    change (s.table.allocateLinearId.2.allocateEntry >>= _) = _
    rw [halloc]
    rfl

namespace Issues

variable {t : KHandleTable α}

theorem linearId_ne (hi : s.Issues h t) : h.linearId ≠ 0 := by
  rw [hi.linearId]
  omega

variable (inv : s.HandleInv) (hi : s.Issues h t)
include inv hi

theorem issuedAt (h' : Handle) (m : ℕ) (hm : update s.issuedAt h (some s.issued) h' = some m) :
    m < s.issued + 1 ∧ h'.linearId = m % maxLinearId + 1 := by
  by_cases heq : h' = h
  · subst heq
    rw [update_self] at hm
    injection hm with hm
    subst hm
    exact ⟨Nat.lt_succ_self _, hi.linearId⟩
  · rw [update_of_ne heq] at hm
    obtain ⟨hlt, hid⟩ := inv.issuedAt h' m hm
    exact ⟨Nat.lt_succ_of_lt hlt, hid⟩

/-- `Reserve`. -/
theorem inv_reserve : HandleInv { s.issue t h with reserved := insert h s.reserved } := by
  obtain ⟨rest, ok, hmem⟩ := hi.freeOk
  refine ⟨hi.nextId, ⟨rest, ok, fun i => ?_⟩, fun h' => ?_, ?_, fun h' hh' => ?_, ?_,
    hi.issuedAt inv⟩
  · rw [hmem]
    change _ ↔ i < t.tableSize ∧ t.objects i = none ∧ ∀ h' ∈ insert h s.reserved, h'.index ≠ i
    rw [hi.tableSize_eq, hi.objects_eq, forall_mem_insert]
    tauto
  · change t.getObjectImpl h' = s.live h'
    rw [← inv.lookup, getObjectImpl_congr (congrFun hi.entryInfos_eq _)
      (congrFun hi.objects_eq _) hi.tableSize_eq]
  · change ∀ i < t.tableSize, t.objects i ≠ none →
      (t.entryInfos i).getLinearId ≠ 0 ∧ (t.entryInfos i).getLinearId ≤ maxLinearId
    rw [hi.tableSize_eq, hi.objects_eq, hi.entryInfos_eq]
    exact inv.entry
  · change _ ∧ _ ∧ _ < t.tableSize ∧ t.objects h'.index = none
    rw [hi.tableSize_eq, hi.objects_eq]
    rcases mem_insert.mp hh' with rfl | hold
    · exact ⟨hi.reserved, hi.linearId_ne, hi.index_lt, hi.objects_none⟩
    · exact inv.reserved h' hold
  · intro h₁ hh₁ h₂ hh₂ hindex
    rcases mem_insert.mp hh₁ with rfl | hold₁
    · rcases mem_insert.mp hh₂ with rfl | hold₂
      · rfl
      · exact absurd hindex.symm (hi.index_ne h₂ hold₂)
    · rcases mem_insert.mp hh₂ with rfl | hold₂
      · exact absurd hindex (hi.index_ne h₁ hold₁)
      · exact inv.reserved_index h₁ hold₁ h₂ hold₂ hindex

end Issues

/-! ### Reserved handles -/

/-- The state after `Register`. -/
def registered (s : HandleState α) (h : Handle) (o : α) : HandleState α :=
  { s with
    table := s.table.setEntry h.index h.linearId o
    live := update s.live h (some o)
    reserved := s.reserved.erase h }

/-- The state after `Remove` of a live handle. -/
def removed (s : HandleState α) (h : Handle) : HandleState α :=
  { s with table := s.table.freeEntry h.index, live := update s.live h none }

/-- The state after `Add` issued the handle and left the table `t` to put the object into. -/
def added (s : HandleState α) (t : KHandleTable α) (h : Handle) (o : α) : HandleState α :=
  { s.issue (t.setEntry h.index h.linearId o) h with live := update s.live h (some o) }

theorem forall_erase_reserved (hmem : h ∈ s.reserved) (hne : h.index ≠ i) :
    (∀ h' ∈ s.reserved.erase h, h'.index ≠ i) ↔ ∀ h' ∈ s.reserved, h'.index ≠ i := by
  conv_rhs => rw [← insert_erase hmem]
  rw [forall_mem_insert]
  exact ⟨fun hall => ⟨hne, hall⟩, fun hall => hall.2⟩

namespace HandleInv

theorem linearId_le (h : Handle) : h.linearId ≤ maxLinearId := by
  unfold Handle.linearId maxLinearId
  omega

variable (inv : s.HandleInv)
include inv

theorem registered (hmem : h ∈ s.reserved) (o : α) : (s.registered h o).HandleInv := by
  obtain ⟨hres, hid, hlt, hnone⟩ := inv.reserved h hmem
  obtain ⟨free, ok, hfree⟩ := inv.freeOk
  have hnot : h.index ∉ free := fun hin => ((hfree _).mp hin).2.2 h hmem rfl
  refine ⟨inv.nextId, ⟨free, ok.setEntry hnot, fun i => ?_⟩, fun h' => ?_, fun i hi hne => ?_,
    fun h' hh' => ?_, fun h₁ hh₁ h₂ hh₂ => inv.reserved_index h₁ (mem_of_mem_erase hh₁) h₂
      (mem_of_mem_erase hh₂), inv.issuedAt⟩
  · change _ ↔ i < s.table.tableSize ∧ update s.table.objects h.index (some o) i = none ∧
      ∀ h' ∈ s.reserved.erase h, h'.index ≠ i
    by_cases heq : i = h.index
    · subst heq
      rw [update_self]
      exact ⟨fun hin => absurd hin hnot, fun hin => by cases hin.2.1⟩
    · rw [update_of_ne heq, forall_erase_reserved hmem (Ne.symm heq), hfree]
  · change (s.table.setEntry _ _ _).getObjectImpl h' = update s.live h (some o) h'
    rw [getObjectImpl_setEntry hlt hres hid, inv.lookup]
    by_cases heq : h' = h
    · simp [heq]
    · rw [update_of_ne heq]
      split_ifs with hindex
      · rw [← inv.lookup, getObjectImpl_eq_none_of_objects]
        rwa [hindex]
      · rfl
  · change update s.table.objects h.index (some o) i ≠ none at hne
    change EntryInfo.getLinearId (update s.table.entryInfos h.index _ i) ≠ 0 ∧
      EntryInfo.getLinearId (update s.table.entryInfos h.index _ i) ≤ maxLinearId
    by_cases heq : i = h.index
    · have hle := linearId_le h
      rw [heq, update_self, EntryInfo.getLinearId_ofLinearId]
      · exact ⟨hid, hle⟩
      · unfold maxLinearId at hle
        omega
    · rw [update_of_ne heq] at hne ⊢
      exact inv.entry i hi hne
  · obtain ⟨hres', hid', hlt', hobj⟩ := inv.reserved h' (mem_of_mem_erase hh')
    refine ⟨hres', hid', hlt', ?_⟩
    change update s.table.objects h.index (some o) h'.index = none
    obtain ⟨hne, hold⟩ := mem_erase.mp hh'
    rw [update_of_ne fun hindex => hne (inv.reserved_index h' hold h hmem hindex), hobj]

/-- Freeing an entry that no reserved handle keeps. -/
theorem freed (hi : i < s.table.tableSize) (live : Handle → Option α)
    (reserved : Finset Handle) (hsub : reserved ⊆ s.reserved)
    (hused : s.table.objects i ≠ none ∨ ∃ h ∈ s.reserved, h.index = i)
    (hlive : ∀ h, live h = if h.index = i then none else s.live h)
    (hreserved : ∀ h ∈ s.reserved, h ∈ reserved ↔ h.index ≠ i) :
    HandleInv { s with table := s.table.freeEntry i, live := live, reserved := reserved } := by
  obtain ⟨free, ok, hfree⟩ := inv.freeOk
  have hnot : i ∉ free := by
    intro hin
    obtain ⟨-, hnone, hres⟩ := (hfree i).mp hin
    rcases hused with hobj | ⟨h, hmem, hindex⟩
    · exact hobj hnone
    · exact hres h hmem hindex
  refine ⟨inv.nextId, ⟨i :: free, ok.freeEntry hi hnot, fun j => ?_⟩, fun h' => ?_,
    fun j hj hne => ?_, fun h' hh' => ?_, fun h₁ hh₁ h₂ hh₂ => inv.reserved_index h₁ (hsub hh₁) h₂
      (hsub hh₂), inv.issuedAt⟩
  · change _ ↔ j < s.table.tableSize ∧ update s.table.objects i none j = none ∧
      ∀ h' ∈ reserved, h'.index ≠ j
    rw [List.mem_cons, hfree]
    by_cases heq : j = i
    · subst heq
      rw [update_self]
      exact ⟨fun _ => ⟨hi, rfl, fun h' hh' => (hreserved h' (hsub hh')).mp hh'⟩, fun _ => .inl rfl⟩
    · rw [update_of_ne heq]
      constructor
      · rintro (rfl | ⟨hlt, hnone, hres⟩)
        · exact absurd rfl heq
        · exact ⟨hlt, hnone, fun h' hh' => hres h' (hsub hh')⟩
      · rintro ⟨hlt, hnone, hres⟩
        refine .inr ⟨hlt, hnone, fun h' hh' hindex => ?_⟩
        refine hres h' ((hreserved h' hh').mpr ?_) hindex
        rw [hindex]
        exact heq
  · change (s.table.freeEntry i).getObjectImpl h' = live h'
    rw [getObjectImpl_freeEntry, hlive, inv.lookup]
  · change update s.table.objects i none j ≠ none at hne
    change EntryInfo.getLinearId (update s.table.entryInfos i _ j) ≠ 0 ∧
      EntryInfo.getLinearId (update s.table.entryInfos i _ j) ≤ maxLinearId
    by_cases heq : j = i
    · rw [heq, update_self] at hne
      exact absurd rfl hne
    · rw [update_of_ne heq] at hne ⊢
      exact inv.entry j hj hne
  · obtain ⟨hres', hid', hlt', hobj⟩ := inv.reserved h' (hsub hh')
    refine ⟨hres', hid', hlt', ?_⟩
    change update s.table.objects i none h'.index = none
    rw [update_of_ne ((hreserved h' (hsub hh')).mp hh'), hobj]

theorem unreserved (hmem : h ∈ s.reserved) :
    HandleInv { s with table := s.table.freeEntry h.index, reserved := s.reserved.erase h } := by
  obtain ⟨-, -, hlt, hnone⟩ := inv.reserved h hmem
  refine inv.freed hlt s.live _ (erase_subset _ _) (.inr ⟨h, hmem, rfl⟩) (fun h' => ?_) ?_
  · split_ifs with hindex
    · rw [← inv.lookup, getObjectImpl_eq_none_of_objects]
      rwa [hindex]
    · rfl
  · intro h' hh'
    rw [mem_erase]
    constructor
    · rintro ⟨hne, -⟩ hindex
      exact hne (inv.reserved_index h' hh' h hmem hindex)
    · rintro hindex
      refine ⟨?_, hh'⟩
      rintro rfl
      exact hindex rfl

theorem removed (ho : s.live h = some o) : (s.removed h).HandleInv := by
  have hget := ho
  rw [← inv.lookup] at hget
  obtain ⟨-, -, hlt, hobj, -⟩ := getObjectImpl_eq_some.mp hget
  refine inv.freed hlt _ s.reserved (Subset.refl _) (.inl (by simp [hobj])) (fun h' => ?_)
    fun h' hh' => ⟨fun _ hindex => ?_, fun _ => hh'⟩
  · by_cases heq : h' = h
    · simp [heq]
    · rw [update_of_ne heq]
      split_ifs with hindex
      · -- Another handle with the same index does not resolve.
        cases hlive : s.live h' with
        | none => rfl
        | some o' =>
          rw [← inv.lookup] at hlive
          exact absurd (eq_of_getObjectImpl hlive hget hindex) heq
      · rfl
  · obtain ⟨-, -, -, hnone⟩ := inv.reserved h' hh'
    rw [hindex, hobj] at hnone
    cases hnone

/-- `Add` issues a handle as `Reserve` does and registers the object under it. -/
theorem added {t : KHandleTable α} (hi : s.Issues h t) (o : α) : (s.added t h o).HandleInv := by
  have hreg := (hi.inv_reserve inv).registered (mem_insert_self h s.reserved) o
  unfold HandleState.registered at hreg
  rw [erase_insert fun hmem => hi.index_ne h hmem rfl] at hreg
  exact hreg

end HandleInv

/-! ### Runs -/

/-- A handle that was given up resolves or is reserved again only after `maxLinearId` more
linear ids than its own were issued. -/
def ReissuedLate (s s' : HandleState α) : Prop :=
  ∀ h m, s.issuedAt h = some m → s.live h = none → h ∉ s.reserved →
    (s'.live h ≠ none ∨ h ∈ s'.reserved) → maxLinearId ≤ s'.issued - (m + 1)

theorem ReissuedLate.of_subset (hlive : ∀ h, s'.live h ≠ none → s.live h ≠ none ∨ h ∈ s.reserved)
    (hreserved : s'.reserved ⊆ s.reserved) : s.ReissuedLate s' := by
  intro h m _ hnone hnot hback
  rcases hback with hsome | hmem
  · rcases hlive h hsome with hold | hold
    · exact absurd hnone hold
    · exact absurd hold hnot
  · exact absurd (hreserved hmem) hnot

theorem ReissuedLate.refl (s : HandleState α) : s.ReissuedLate s :=
  .of_subset (fun _ => .inl) (Subset.refl _)

theorem ReissuedLate.of_issues {t : KHandleTable α} (inv : s.HandleInv) (hi : s.Issues h t)
    (hissued : s'.issued = s.issued + 1) (hback : ∀ h', s'.live h' ≠ none ∨ h' ∈ s'.reserved →
      h' = h ∨ s.live h' ≠ none ∨ h' ∈ s.reserved) : s.ReissuedLate s' := by
  intro h' m hm hnone hnot hagain
  rcases hback h' hagain with rfl | hold | hold
  · obtain ⟨hlt, hid⟩ := inv.issuedAt h' m hm
    rw [hi.linearId] at hid
    unfold maxLinearId at *
    omega
  · exact absurd hnone hold
  · exact absurd hold hnot

theorem HandleInv.step_add (inv : s.HandleInv) (hcount : s.table.count < s.table.tableSize) :
    ∃ h t, s.Issues h t ∧ ∀ o, s.step (.add o) = .ok (s.added t h o) := by
  obtain ⟨h, t, hi, -, hadd⟩ := inv.issues hcount
  refine ⟨h, t, hi, fun o => ?_⟩
  rw [step, hadd o]
  rfl

theorem HandleInv.step_remove (inv : s.HandleInv) (ho : s.live h = some o) :
    s.step (.remove h) = .ok (s.removed h) := by
  simp only [step, remove_eq, inv.lookup, ho, Option.map_some]
  rfl

/-- Every admissible operation returns and keeps the table and its history together. -/
theorem HandleInv.step (inv : s.HandleInv) (hop : s.Admissible op) :
    ∃ s', s.step op = .ok s' ∧ s'.HandleInv ∧ s.ReissuedLate s' := by
  cases op with
  | initializeTable size =>
    cases hinit : s.table.initializeTable size with
    | error e => exact ⟨s, by simp [step, hinit], inv, .refl s⟩
    | ok t =>
      refine ⟨HandleState.start t, by simp [step, hinit],
        .start (allFree_of_initializeTable hinit), ?_⟩
      exact .of_subset (fun _ hne => absurd rfl hne) (empty_subset _)
  | add o =>
    by_cases hcount : s.table.count < s.table.tableSize
    · obtain ⟨h, t, hi, hstep⟩ := inv.step_add hcount
      refine ⟨_, hstep o, inv.added hi o, ?_⟩
      refine .of_issues inv hi rfl fun h' hback => ?_
      by_cases heq : h' = h
      · exact .inl heq
      · change update s.live h (some o) h' ≠ none ∨ _ at hback
        rw [update_of_ne heq] at hback
        exact .inr hback
    · refine ⟨s, ?_, inv, .refl s⟩
      rw [step, KHandleTable.add, if_neg hcount]
      rfl
  | reserve =>
    by_cases hcount : s.table.count < s.table.tableSize
    · obtain ⟨h, t, hi, hreserve, -⟩ := inv.issues hcount
      refine ⟨_, by rw [step, hreserve]; rfl, hi.inv_reserve inv, ?_⟩
      refine .of_issues inv hi rfl fun h' hback => ?_
      rcases hback with hlive | hmem
      · exact .inr (.inl hlive)
      · rcases mem_insert.mp hmem with heq | hold
        · exact .inl heq
        · exact .inr (.inr hold)
    · refine ⟨s, ?_, inv, .refl s⟩
      rw [step, KHandleTable.reserve, if_neg hcount]
      rfl
  | register h o =>
    obtain ⟨-, -, hlt, -⟩ := inv.reserved h hop
    refine ⟨s.registered h o, ?_, inv.registered hop o, ?_⟩
    · rw [step, register, if_pos hlt]
      rfl
    · refine .of_subset (fun h' hne => ?_) (erase_subset _ _)
      by_cases heq : h' = h
      · exact .inr (heq ▸ hop)
      · change update s.live h (some o) h' ≠ none at hne
        rw [update_of_ne heq] at hne
        exact .inl hne
  | unreserve h =>
    obtain ⟨-, -, hlt, -⟩ := inv.reserved h hop
    refine ⟨_, rfl, ?_, .of_subset (fun _ => .inl) (erase_subset _ _)⟩
    rw [unreserve, if_pos hlt]
    exact inv.unreserved hop
  | remove h =>
    cases ho : s.live h with
    | none =>
      refine ⟨s, ?_, inv, .refl s⟩
      simp [step, remove_eq, inv.lookup, ho]
    | some o =>
      refine ⟨_, inv.step_remove ho, inv.removed ho, ?_⟩
      refine .of_subset (fun h' hne => ?_) (Subset.refl _)
      by_cases heq : h' = h
      · rw [heq]
        simp [ho]
      · change update s.live h none h' ≠ none at hne
        rw [update_of_ne heq] at hne
        exact .inl hne

theorem Reaches.inv (hrun : Reaches s) : s.HandleInv := by
  induction hrun with
  | start => exact .start allFree_constantInitialize
  | step _ hop hstep ih =>
    obtain ⟨s', hstep', inv, -⟩ := ih.step hop
    rw [hstep] at hstep'
    injection hstep' with heq
    exact heq ▸ inv

/-- An entry that is registered or reserved. -/
def Used (s : HandleState α) (i : ℕ) : Prop :=
  (∃ h, s.live h ≠ none ∧ h.index = i) ∨ ∃ h ∈ s.reserved, h.index = i

namespace HandleInv

variable (inv : s.HandleInv)
include inv

/-- An entry with an object has the handle under which the object is registered. -/
theorem live_of_getObjectByIndexImpl (hget : s.table.getObjectByIndexImpl i = some (h, o)) :
    s.live h = some o ∧ h.index = i := by
  obtain ⟨free, ok, -⟩ := inv.freeOk
  have hsize := ok.size_le
  unfold getObjectByIndexImpl at hget
  split_ifs at hget with hlt
  obtain ⟨o', hobj, heq⟩ := Option.map_eq_some_iff.mp hget
  obtain ⟨hcode, rfl⟩ := Prod.mk.inj heq
  have hid := inv.entry i (by omega) (by simp [hobj])
  unfold maxTableSize at hsize
  unfold maxLinearId at hid
  have hindex : h.index = i := by
    rw [← hcode, Handle.index_encode]
    omega
  have hlinear : h.linearId = (s.table.entryInfos i).getLinearId := by
    rw [← hcode, Handle.linearId_encode]
    omega
  have hres : h.reserved = 0 := by rw [← hcode, Handle.reserved_encode]
  refine ⟨?_, hindex⟩
  rw [← inv.lookup, getObjectImpl_eq_some, hindex, hlinear]
  exact ⟨hres, hid.1, by omega, hobj, rfl⟩

theorem getObjectByIndexImpl_of_live (ho : s.live h = some o) :
    s.table.getObjectByIndexImpl h.index = some (h, o) := by
  rw [← inv.lookup] at ho
  obtain ⟨hres, -, hlt, hobj, hid⟩ := getObjectImpl_eq_some.mp ho
  rw [getObjectByIndexImpl, if_neg (by omega), hobj, Option.map_some, hid,
    Handle.encode_eq_self hres]

theorem used_iff (hi : i < s.table.tableSize) :
    s.Used i ↔ s.table.objects i ≠ none ∨ ∃ h ∈ s.reserved, h.index = i := by
  refine or_congr ⟨?_, fun hne => ?_⟩ Iff.rfl
  · rintro ⟨h, hne, rfl⟩
    rw [← inv.lookup] at hne
    exact fun hnone => hne (getObjectImpl_eq_none_of_objects hnone)
  · obtain ⟨o, ho⟩ := Option.ne_none_iff_exists'.mp hne
    have hget : s.table.getObjectByIndexImpl i =
        some (.encode i (s.table.entryInfos i).getLinearId, o) := by
      rw [getObjectByIndexImpl, if_neg (by omega), ho, Option.map_some]
    obtain ⟨hlive, hindex⟩ := inv.live_of_getObjectByIndexImpl hget
    exact ⟨_, by simp [hlive], hindex⟩

/-- The free list has exactly the entries that are not used, and the others are counted. -/
theorem freeList : ∃ free, IsChain s.table.nextFree s.table.freeHeadIndex.toNat? free ∧ free.Nodup ∧
      (∀ i, i ∈ free ↔ i < s.table.tableSize ∧ ¬ s.Used i) ∧
      s.table.count = ((range s.table.tableSize).filter (· ∉ free)).card := by
  obtain ⟨free, ok, hfree⟩ := inv.freeOk
  refine ⟨free, ok.chain, ok.chain.nodup, fun i => ?_, ?_⟩
  · rw [hfree]
    refine and_congr_right fun hi => ?_
    rw [inv.used_iff hi, not_or, not_not, not_exists]
    refine and_congr_right fun _ => forall_congr' fun h => ?_
    rw [not_and]
  · have hfilter : (range s.table.tableSize).filter (· ∉ free) =
        range s.table.tableSize \ free.toFinset := by
      ext i
      simp
    have hsub : free.toFinset ⊆ range s.table.tableSize := by
      intro i hi
      exact mem_range.mpr (ok.lt_size i (List.mem_toFinset.mp hi))
    have hadd := ok.count_add
    rw [hfilter, card_sdiff_of_subset hsub, card_range, List.toFinset_card_of_nodup ok.chain.nodup]
    omega

end HandleInv

/-- Some operations, one after the other. -/
def run (s : HandleState α) (ops : List (HandleOp α)) : Run (HandleState α) := ops.foldlM step s

/-- Operations that are always admissible lead from one state of a table to another. -/
theorem Reaches.run {ops : List (HandleOp α)} (hreach : Reaches s)
    (hops : ∀ op ∈ ops, ∀ s : HandleState α, s.Admissible op) (hrun : s.run ops = .ok s') :
    Reaches s' := by
  induction ops generalizing s with
  | nil =>
    cases hrun
    exact hreach
  | cons op ops ih =>
    obtain ⟨s₁, hstep, hrest⟩ := bind_eq_ok.mp hrun
    have hreach₁ := hreach.step (hops op List.mem_cons_self s) hstep
    exact ih hreach₁ (fun op' hop' => hops op' (.tail _ hop')) hrest

/-- A table of two entries with one object. -/
def oneObject : Run (HandleState Unit) :=
  (start constantInitialize).run [.initializeTable 2, .add ()]

theorem oneObject_spec : ∃ s : HandleState Unit, oneObject = .ok s ∧ Reaches s ∧ s.issued = 1 ∧
      s.table.count < s.table.tableSize ∧ s.table.getObjectImpl (.encode 1 1) = some () := by
  have hrun : ∃ s : HandleState Unit, oneObject = .ok s ∧ s.issued = 1 ∧
      s.table.count < s.table.tableSize ∧ s.table.getObjectImpl (.encode 1 1) = some () :=
    ⟨_, rfl, rfl, by decide, by decide⟩
  obtain ⟨s, hs, hissued, hcount, hget⟩ := hrun
  exact ⟨s, hs, Reaches.start.run (by simp [Admissible]) hs, hissued, hcount, hget⟩

/-- As long as only reserved handles are registered or unreserved, the free list has no cycle
and has exactly the unused entries, the others are counted, every registered entry has a handle
of its own that is neither zero nor a pseudo handle, a handle resolves to the object it was
returned for until it is removed, and it comes back only after all linear ids were issued. -/
theorem handleTable_refines_map (hrun : Reaches s) :
    (∃ free, IsChain s.table.nextFree s.table.freeHeadIndex.toNat? free ∧ free.Nodup ∧
      (∀ i, i ∈ free ↔ i < s.table.tableSize ∧ ¬ s.Used i) ∧
      s.table.count = ((range s.table.tableSize).filter (· ∉ free)).card) ∧
    (∀ h o, s.live h = some o → h ≠ Handle.invalid ∧ h.isPseudoHandle = false ∧
      s.table.getObjectByIndexImpl h.index = some (h, o)) ∧
    (∀ i j h h' o o', s.table.getObjectByIndexImpl i = some (h, o) →
      s.table.getObjectByIndexImpl j = some (h', o') → i ≠ j → h ≠ h') ∧
    (∀ h, s.table.getObjectImpl h = s.live h) ∧
    ∀ op, s.Admissible op → ∃ s', s.step op = .ok s' ∧ s.ReissuedLate s' := by
  have inv := hrun.inv
  refine ⟨inv.freeList, fun h o ho => ?_, fun i j h h' o o' hi hj hne heq => ?_, inv.lookup,
    fun op hop => ?_⟩
  · obtain ⟨hres, hid, -⟩ := getObjectImpl_eq_some.mp ((inv.lookup h).trans ho)
    exact ⟨Handle.ne_invalid hid, Handle.isPseudoHandle_eq_false hres,
      inv.getObjectByIndexImpl_of_live ho⟩
  · apply hne
    rw [← (inv.live_of_getObjectByIndexImpl hi).2, ← (inv.live_of_getObjectByIndexImpl hj).2, heq]
  · obtain ⟨s', hstep, -, hlate⟩ := inv.step hop
    exact ⟨s', hstep, hlate⟩

theorem handleTable_refines_map_oneObject :
    ∃ s : HandleState Unit, oneObject = .ok s ∧ s.live (.encode 1 1) = some () ∧
      s.table.count = 1 ∧ ∀ op, s.Admissible op → ∃ s', s.step op = .ok s' ∧ s.ReissuedLate s' := by
  obtain ⟨s, hs, hrun, -, -, hget⟩ := oneObject_spec
  obtain ⟨-, -, -, hlookup, hstep⟩ := handleTable_refines_map hrun
  refine ⟨s, hs, by rw [← hlookup, hget], ?_, hstep⟩
  injection hs with hs
  rw [← hs]
  rfl

/-! ### Handles that come back early -/

/-- An object that is added and removed again leaves a trace in the linear ids only. -/
theorem add_remove (inv : s.HandleInv) (hcount : s.table.count < s.table.tableSize) (o : α) :
    ∃ ops s', s.run ops = .ok s' ∧ s'.HandleInv ∧ s'.issued = s.issued + 1 ∧
      s'.table = { s.table with
        nextLinearId := s'.table.nextLinearId, maxCount := s'.table.maxCount } := by
  obtain ⟨h, t, hi, hstep⟩ := inv.step_add hcount
  have inv' := inv.added hi o
  have hlive : (s.added t h o).live h = some o := by simp [added]
  refine ⟨[.add o, .remove h], (s.added t h o).removed h, ?_, inv'.removed hlive, rfl, ?_⟩
  · change (s.step (.add o) >>= fun s' => s'.step (.remove h) >>= pure) = _
    rw [hstep o]
    change ((s.added t h o).step (.remove h) >>= pure) = _
    rw [inv'.step_remove hlive]
    rfl
  · have hobjects : update (update t.objects h.index (some o)) h.index none =
        s.table.objects := by
      rw [Function.update_idem, hi.objects_eq, ← hi.objects_none, Function.update_eq_self]
    have hinfos : update (update t.entryInfos h.index
        (EntryInfo.ofLinearId h.linearId)) h.index (EntryInfo.ofNextFreeIndex t.freeHeadIndex) =
        s.table.entryInfos := by
      rw [Function.update_idem, hi.entryInfos_eq, hi.next, EntryInfo.ofNextFreeIndex,
        EntryInfo.getNextFreeIndex, BitVec.ofInt_toInt, Function.update_eq_self]
    have hback : (t.count + (2 ^ 16 - 1)) % 2 ^ 16 = s.table.count := by
      obtain ⟨free, ok, -⟩ := inv.freeOk
      have hsize := ok.size_le
      unfold maxTableSize at hsize
      rw [hi.count]
      omega
    simp only [removed, added, issue, KHandleTable.freeEntry, KHandleTable.setEntry, hobjects,
      hinfos, hback, ← hi.head, hi.tableSize_eq]

/-- The same any number of times. -/
theorem add_remove_iterate (inv : s.HandleInv) (hcount : s.table.count < s.table.tableSize)
    (o : α) (n : ℕ) :
    ∃ ops s', s.run ops = .ok s' ∧ s'.HandleInv ∧ s'.issued = s.issued + n ∧
      s'.table = { s.table with
        nextLinearId := s'.table.nextLinearId, maxCount := s'.table.maxCount } := by
  induction n with
  | zero => exact ⟨[], s, rfl, inv, rfl, rfl⟩
  | succ n ih =>
    obtain ⟨ops, s₁, hrun, inv₁, hissued, htable⟩ := ih
    have hcount₁ : s₁.table.count < s₁.table.tableSize := by
      rw [htable]
      exact hcount
    obtain ⟨ops', s₂, hrun', inv₂, hissued', htable'⟩ := add_remove inv₁ hcount₁ o
    refine ⟨ops ++ ops', s₂, ?_, inv₂, ?_, ?_⟩
    · rw [run, List.foldlM_append]
      change (s.run ops >>= fun s₁ => s₁.run ops') = _
      rw [hrun]
      exact hrun'
    · rw [hissued', hissued, Nat.add_assoc]
    · rw [htable', htable]

/-- A handle that is removed comes back when its linear id is the next one. -/
theorem reuse {h : Handle} {o : α} (inv : s.HandleInv) (hlive : s.live h = some o)
    (hreserved : h.reserved = 0) (hid : s.issued % maxLinearId + 1 = h.linearId) :
    ∃ s', (s.removed h).step (.add o) = .ok s' ∧ s'.table.getObjectImpl h = some o ∧
      s'.issued = s.issued + 1 := by
  have inv' := inv.removed hlive
  have hroom : (s.removed h).table.count < (s.removed h).table.tableSize := by
    obtain ⟨free, ok, -⟩ := inv'.freeOk
    have hchain : IsChain _ (some h.index) free := ok.chain
    have hadd := ok.count_add
    cases hchain
    rw [List.length_cons] at hadd
    omega
  obtain ⟨h', t, hi, hadd⟩ := inv'.step_add hroom
  obtain rfl : h' = h := by
    refine Handle.eq_of_fields hi.reserved hreserved ?_ (hi.linearId.trans hid)
    have hhead : ((h.index : ℕ) : ℤ) = h'.index := hi.head
    omega
  refine ⟨_, hadd o, ?_, rfl⟩
  rw [(inv'.added hi o).lookup]
  simp [added]

/-- An entry that is unreserved twice makes the free list a cycle; a handle that is removed long
after it was issued can come back with the very next linear id; and a table that is initialized
again forgets its handles. -/
theorem unreserve_twice_and_early_reuse : (∃ s : HandleState Unit, (start constantInitialize).run
        [.initializeTable 1, .reserve, .unreserve (.encode 0 1), .unreserve (.encode 0 1)] = .ok s ∧
      ¬ ∃ free, IsChain s.table.nextFree s.table.freeHeadIndex.toNat? free) ∧
    (∃ (ops : List (HandleOp Unit)) (h : Handle) (s s' s'' : HandleState Unit),
      (start constantInitialize).run ops = .ok s ∧ s.table.getObjectImpl h = some () ∧
      s.step (.remove h) = .ok s' ∧ s'.table.getObjectImpl h = none ∧
      s'.step (.add ()) = .ok s'' ∧ s''.table.getObjectImpl h = some () ∧
      s''.issued = s'.issued + 1) ∧
    ∃ s s' : HandleState Unit, oneObject = .ok s ∧ s.table.getObjectImpl (.encode 1 1) = some () ∧
      s.step (.initializeTable 2) = .ok s' ∧ s'.table.getObjectImpl (.encode 1 1) = none := by
  refine ⟨?_, ?_, _, _, rfl, by decide, rfl, by decide⟩
  · refine ⟨_, rfl, ?_⟩
    rintro ⟨free, hchain⟩
    have hself := hchain.next_ne (by cases hchain; exact (.head _))
    exact hself (by decide)
  · obtain ⟨s₀, hone, hreach, hissued₀, hcount₀, hget₀⟩ := oneObject_spec
    -- After all other linear ids were issued, the id of the first object is the next one.
    obtain ⟨ops, s, hrun, inv, hissued, htable⟩ := add_remove_iterate hreach.inv hcount₀ () 32766
    have hget : s.table.getObjectImpl (.encode 1 1) = some () := by
      rw [htable, ← hget₀]
      exact getObjectImpl_congr rfl rfl rfl
    have hlive := hget
    rw [inv.lookup] at hlive
    obtain ⟨s', hadd, hagain, hnext⟩ := reuse inv hlive (by decide) (by
      rw [hissued, hissued₀]
      decide)
    refine ⟨[.initializeTable 2, .add ()] ++ ops, .encode 1 1, s, _, s', ?_, hget,
      inv.step_remove hlive, ?_, hadd, hagain, hnext⟩
    · change (oneObject >>= fun s => s.run ops) = _
      rw [hone]
      exact hrun
    · rw [(inv.removed hlive).lookup]
      simp [removed]

end HandleState

end Atmosphere.Kern
