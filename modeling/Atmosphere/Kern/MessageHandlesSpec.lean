import Atmosphere.Kern.HandleTableRun
import Atmosphere.Kern.MessageHandles

/-!
# What the rounds of a transfer do

A round over one handle of a message puts an object into the destination table (`Gains`),
takes a handle from the source table (`Loses`), does both or does neither. `Books` keeps
the account of all rounds so far: the handles made in the destination table, the handles
that left the source table, and the reference counts that follow from them.
-/

namespace Atmosphere.Kern

open Function (update update_apply)

namespace KHandleTable

variable {α : Type} {t : KHandleTable α} {h : Handle} {o : α}

/-- A handle table as its operations leave it. -/
def Valid (t : KHandleTable α) : Prop := ∃ s : HandleState α, s.Reaches ∧ s.table = t

theorem getObjectImpl_invalid (t : KHandleTable α) : t.getObjectImpl .invalid = none := by
  apply Option.eq_none_iff_forall_ne_some.mpr
  intro o ho
  exact (getObjectImpl_eq_some.mp ho).2.1 rfl

/-- `Add` to a table with room makes a new handle. -/
theorem Valid.add (hv : t.Valid) (hroom : t.count < t.tableSize) (o : α) :
    ∃ h t', t.add o = .ok (.ok h, t') ∧ t'.Valid ∧ h ≠ .invalid ∧ t.getObjectImpl h = none ∧
      (∀ h', t'.getObjectImpl h' = if h' = h then some o else t.getObjectImpl h') ∧
      t'.count = t.count + 1 ∧ t'.tableSize = t.tableSize := by
  obtain ⟨s, hrun, rfl⟩ := hv
  have inv := hrun.inv
  obtain ⟨h, t, hi, -, hadd⟩ := inv.issues hroom
  have inv' := inv.added hi o
  have hstep : s.step (.add o) = .ok (s.added t h o) := by
    rw [HandleState.step, hadd o]
    rfl
  have hrun' : (s.added t h o).Reaches :=
    @HandleState.Reaches.step _ _ _ (.add o) hrun trivial hstep
  refine ⟨h, t.setEntry h.index h.linearId o, hadd o, ⟨_, hrun', rfl⟩,
    Handle.ne_invalid hi.linearId_ne, getObjectImpl_eq_none_of_objects hi.objects_none,
    fun h' => ?_, hi.count, hi.tableSize_eq⟩
  have hlookup := inv'.lookup h'
  change (t.setEntry h.index h.linearId o).getObjectImpl h' = update s.live h (some o) h' at hlookup
  rw [hlookup, update_apply, inv.lookup]

/-- `Remove` of a handle that resolves. -/
theorem Valid.remove (hv : t.Valid) (ho : t.getObjectImpl h = some o) :
    ∃ t', t.remove h = some (o, t') ∧ t'.Valid ∧
      (∀ h', t'.getObjectImpl h' = if h' = h then none else t.getObjectImpl h') ∧
      t'.count + 1 = t.count ∧ t'.tableSize = t.tableSize := by
  obtain ⟨s, hrun, rfl⟩ := hv
  have inv := hrun.inv
  have hlive := ho
  rw [inv.lookup] at hlive
  have inv' := inv.removed hlive
  have hrun' : (s.removed h).Reaches :=
    @HandleState.Reaches.step _ _ _ (.remove h) hrun trivial (inv.step_remove hlive)
  refine ⟨s.table.freeEntry h.index, ?_, ⟨_, hrun', rfl⟩, fun h' => ?_, ?_, rfl⟩
  · rw [remove_eq, ho]
    rfl
  · have hlookup := inv'.lookup h'
    change (s.table.freeEntry h.index).getObjectImpl h' = update s.live h none h' at hlookup
    rw [hlookup, update_apply, inv.lookup]
  · obtain ⟨free, ok, hfree⟩ := inv.freeOk
    obtain ⟨-, -, hlt, hobj, -⟩ := getObjectImpl_eq_some.mp ho
    have hnot : h.index ∉ free := by
      intro hmem
      rw [((hfree _).mp hmem).2.1] at hobj
      cases hobj
    have hbefore := ok.count_add
    have hafter := (ok.freeEntry hlt hnot).count_add
    change (s.table.freeEntry h.index).count + (h.index :: free).length =
      s.table.tableSize at hafter
    rw [List.length_cons] at hafter
    omega

end KHandleTable

namespace IpcState

variable {α : Type} [DecidableEq α] {s s' s₀ : IpcState α} {h d : Handle} {o : α}

/-- The handle is gone from the source table. -/
structure Loses (s s' : IpcState α) (h : Handle) (o : α) : Prop where
  valid : s'.src.Valid
  before : s.src.getObjectImpl h = some o
  lookup : ∀ h', s'.src.getObjectImpl h' = if h' = h then none else s.src.getObjectImpl h'
  refs : ∀ o', s'.refCount o' = s.refCount o' - if o' = o then 1 else 0
  dst : s'.dst = s.dst

/-- The tables and the reference counts are the same. -/
structure Same (s s' : IpcState α) : Prop where
  src : s'.src = s.src
  dst : s'.dst = s.dst
  refs : s'.refCount = s.refCount

theorem closeObject_refCount (o o' : α) :
    (s.closeObject o).refCount o' = s.refCount o' - if o' = o then 1 else 0 := by
  change update s.refCount o (s.refCount o - 1) o' = _
  rw [update_apply]
  split_ifs with ho
  · rw [ho]
  · rw [Int.sub_zero]

theorem removeFromSource_of_some (hv : s.src.Valid) (ho : s.src.getObjectImpl h = some o) :
    Loses s (s.removeFromSource h) h o ∧ (s.removeFromSource h).msg = s.msg := by
  obtain ⟨t, hremove, hvalid, hlookup, -, -⟩ := hv.remove ho
  have hstate : s.removeFromSource h = { s with src := t }.closeObject o := by
    unfold removeFromSource
    rw [hremove]
  rw [hstate]
  exact ⟨⟨hvalid, ho, hlookup, fun o' => closeObject_refCount o o', rfl⟩, rfl⟩

theorem removeFromSource_of_none (ho : s.src.getObjectImpl h = none) :
    s.removeFromSource h = s := by
  unfold removeFromSource
  rw [KHandleTable.remove_eq, ho]
  rfl

theorem count_snd_cons (l : List (Handle × α)) (d : Handle) (o o' : α) :
    (((d, o) :: l).map Prod.snd).count o' =
      (l.map Prod.snd).count o' + if o' = o then 1 else 0 := by
  rw [List.map_cons, List.count_cons]
  simp only [beq_iff_eq, eq_comm (a := o)]

theorem count_snd_concat (l : List (Handle × α)) (d : Handle) (o o' : α) :
    ((l ++ [(d, o)]).map Prod.snd).count o' =
      (l.map Prod.snd).count o' + if o' = o then 1 else 0 := by
  rw [List.map_append, List.count_append, count_snd_cons]
  simp

/-- The rounds made the handles `made` in the destination table and took the handles `left`
from the source table. -/
structure Books (s₀ s : IpcState α) (made left : List (Handle × α)) : Prop where
  srcValid : s.src.Valid
  dstValid : s.dst.Valid
  madeNodup : (made.map Prod.fst).Nodup
  madeFresh : ∀ p ∈ made, p.1 ≠ .invalid ∧ s₀.dst.getObjectImpl p.1 = none
  madeLookup : ∀ p ∈ made, s.dst.getObjectImpl p.1 = some p.2
  dstLookup : ∀ h, h ∉ made.map Prod.fst → s.dst.getObjectImpl h = s₀.dst.getObjectImpl h
  leftNodup : (left.map Prod.fst).Nodup
  leftBefore : ∀ p ∈ left, s₀.src.getObjectImpl p.1 = some p.2
  srcLookup : ∀ h, s.src.getObjectImpl h =
    if h ∈ left.map Prod.fst then none else s₀.src.getObjectImpl h
  refs : ∀ o, s.refCount o =
    s₀.refCount o + (made.map Prod.snd).count o - (left.map Prod.snd).count o
  count : s.dst.count = s₀.dst.count + made.length
  size : s.dst.tableSize = s₀.dst.tableSize

namespace Books

variable {made left : List (Handle × α)}

theorem refl (hsrc : s.src.Valid) (hdst : s.dst.Valid) : Books s s [] [] where
  srcValid := hsrc
  dstValid := hdst
  madeNodup := List.nodup_nil
  madeFresh := by simp
  madeLookup := by simp
  dstLookup := fun _ _ => rfl
  leftNodup := List.nodup_nil
  leftBefore := by simp
  srcLookup := by simp
  refs := by simp
  count := rfl
  size := rfl

section

variable (b : Books s₀ s made left)
include b

theorem same (hs : Same s s') : Books s₀ s' made left := by
  obtain ⟨src, dst, refCount, msg⟩ := s'
  obtain ⟨rfl, rfl, rfl⟩ := hs
  exact ⟨b.srcValid, b.dstValid, b.madeNodup, b.madeFresh, b.madeLookup, b.dstLookup, b.leftNodup,
    b.leftBefore, b.srcLookup, b.refs, b.count, b.size⟩

theorem loses (hl : Loses s s' h o) : Books s₀ s' made (left ++ [(h, o)]) := by
  have hbefore := hl.before
  rw [b.srcLookup] at hbefore
  split_ifs at hbefore with hmem
  refine ⟨hl.valid, ?_, b.madeNodup, b.madeFresh, ?_, ?_, ?_, ?_, fun h' => ?_,
    fun o' => ?_, ?_, ?_⟩
  · rw [hl.dst]
    exact b.dstValid
  · rw [hl.dst]
    exact b.madeLookup
  · rw [hl.dst]
    exact b.dstLookup
  · rw [List.map_append]
    exact b.leftNodup.append (List.nodup_singleton h) (by simpa using hmem)
  · rw [List.forall_mem_append, List.forall_mem_singleton]
    exact ⟨b.leftBefore, hbefore⟩
  · rw [hl.lookup, b.srcLookup, List.map_append, List.map_singleton]
    simp only [List.mem_append, List.mem_singleton]
    split_ifs <;> first | rfl | (exfalso; tauto)
  · rw [hl.refs, b.refs, count_snd_concat]
    split_ifs <;> omega
  · rw [hl.dst, b.count]
  · rw [hl.dst, b.size]

end

/-- `Remove` of any handle of the source table. -/
theorem removeFromSource (b : Books s₀ s made left) (h : Handle) :
    ∃ left', Books s₀ (s.removeFromSource h) made left' ∧ (s.removeFromSource h).msg = s.msg ∧
      ∀ h', h' ∈ left'.map Prod.fst ↔
        h' ∈ left.map Prod.fst ∨ h' = h ∧ s₀.src.getObjectImpl h' ≠ none := by
  cases ho : s.src.getObjectImpl h with
  | some o =>
    obtain ⟨hloses, hmsg⟩ := removeFromSource_of_some b.srcValid ho
    refine ⟨left ++ [(h, o)], b.loses hloses, hmsg, fun h' => ?_⟩
    rw [b.srcLookup] at ho
    split_ifs at ho
    rw [List.map_append, List.mem_append, List.map_singleton, List.mem_singleton]
    refine or_congr_right ⟨fun heq => ⟨heq, ?_⟩, And.left⟩
    rw [heq, ho]
    exact Option.some_ne_none o
  | none =>
    rw [removeFromSource_of_none ho]
    refine ⟨left, b, rfl, fun h' => ⟨.inl, ?_⟩⟩
    rintro (hmem | ⟨rfl, hsome⟩)
    · exact hmem
    · rw [b.srcLookup] at ho
      split_ifs at ho with hmem
      · exact hmem
      · exact absurd ho hsome

end Books

end IpcState

end Atmosphere.Kern
