import Atmosphere.Kern.MessageTransfer

/-!
# What becomes of the handles of a message

A message is delivered with all its handles, or it fails and the destination table is as it
was before. Three defects stand against this. A handle to move that names an interrupt event
stays in the source table when it is the first handle that fails. The cleanup gives up when
the destination buffer is too small for the header of the source, whose receive list nobody
compared with it, so the handles made before the failure stay. And it reads the handles from
the destination message, over which a pointer buffer may have been copied.
-/

namespace Atmosphere.Kern

namespace IpcSource

open MessageBuffer (getMessageBufferSize getPointerDescriptorIndex getSpecialDataIndex)

variable {α : Type} {c : IpcSource α} {s s' s₀ : IpcState α}

/-- The index of the first handle of the message. -/
def handleIndex (c : IpcSource α) : ℕ :=
  getSpecialDataIndex c.specialHeader + c.specialHeader.processIdSize / 4

/-- The handles of the message: those to copy, and then those to move. -/
def handleEntries (c : IpcSource α) : List HandleEntry :=
  c.entries false c.handleIndex c.specialHeader.getCopyHandleCount ++
    c.entries true (c.handleIndex + c.specialHeader.getCopyHandleCount)
      c.specialHeader.getMoveHandleCount

/-- The objects that the handles to move name. -/
def movedObjects (c : IpcSource α) (t : KHandleTable α) : List α :=
  (movedHandles c.handleEntries).dedup.filterMap t.getObjectImpl

section Outcomes

variable [DecidableEq α]

/-- The destination table has what it had, the handles to move are gone, and so are their
references. -/
structure Restored (c : IpcSource α) (s s' : IpcState α) : Prop where
  dst : ∀ h, s'.dst.getObjectImpl h = s.dst.getObjectImpl h
  src : ∀ h, s'.src.getObjectImpl h =
    if h ∈ movedHandles c.handleEntries then none else s.src.getObjectImpl h
  refs : ∀ o, s'.refCount o = s.refCount o - (c.movedObjects s.src).count o

/-- If the message gets as far as its later parts, they write nothing over its handles in the
destination, and nothing over its headers if they fail. -/
def KeepsHandles (c : IpcSource α) (later : LaterParts) (s : IpcState α) : Prop :=
  c.header.getHasSpecialHeader = true → c.Transferable s c.handleEntries →
    ∀ msg i, (later.result = .ok () → c.handleIndex ≤ i) →
      i < getPointerDescriptorIndex c.specialHeader → later.write msg i = msg i

/-- All handles to move left the source table. -/
def MovesAll (c : IpcSource α) (s : IpcState α) (left : List (Handle × α)) : Prop :=
  ∀ h, h ∈ left.map Prod.fst ↔ h ∈ movedHandles c.handleEntries ∧ s.src.getObjectImpl h ≠ none

variable {made left : List (Handle × α)} {out : List Handle} {result : IpcResult}

theorem MovesAll.src (hall : c.MovesAll s left) (b : s.Books s' made left) (h : Handle) :
    s'.src.getObjectImpl h =
      if h ∈ movedHandles c.handleEntries then none else s.src.getObjectImpl h := by
  rw [b.srcLookup]
  split_ifs with hleft hmoved hmoved
  · rfl
  · exact absurd ((hall h).mp hleft).1 hmoved
  · by_contra hsome
    exact hleft ((hall h).mpr ⟨hmoved, hsome⟩)
  · rfl

theorem MovesAll.count (hall : c.MovesAll s left) (b : s.Books s' made left) (o : α) :
    (left.map Prod.snd).count o = (c.movedObjects s.src).count o := by
  have hobjects : left.map Prod.snd = (left.map Prod.fst).filterMap s.src.getObjectImpl := by
    rw [List.filterMap_map, ← List.filterMap_eq_map]
    apply List.filterMap_congr
    intro p hp
    exact (b.leftBefore p hp).symm
  have hperm : (left.map Prod.fst).Perm
      ((movedHandles c.handleEntries).dedup.filter fun h => (s.src.getObjectImpl h).isSome) := by
    refine (List.perm_ext_iff_of_nodup b.leftNodup ((List.nodup_dedup _).filter _)).mpr fun h => ?_
    rw [hall, List.mem_filter, List.mem_dedup, Option.isSome_iff_ne_none]
  rw [hobjects, (hperm.filterMap _).count_eq, List.filterMap_filter]
  congr 2
  funext h
  cases s.src.getObjectImpl h <;> rfl

end Outcomes

/-! ### The words of the message -/

/-- A message has the headers of the source message. -/
structure HasHeaders (c : IpcSource α) (msg : Words) : Prop where
  first : msg 0 = c.msg 0
  second : msg 1 = c.msg 1
  special : msg 2 = c.msg 2

variable {msg : Words} {s₁ : IpcState α}

theorem HasHeaders.header (hh : c.HasHeaders msg) : msg.header = c.header := by
  unfold IpcSource.header Words.header
  rw [hh.first, hh.second]

theorem HasHeaders.specialHeader (hh : c.HasHeaders msg) :
    msg.specialHeader c.header = c.specialHeader := by
  unfold IpcSource.specialHeader Words.specialHeader
  rw [hh.special]

theorem HasHeaders.congr {msg' : Words} (hh : c.HasHeaders msg) {n : ℕ} (hn : 3 ≤ n)
    (heq : ∀ i < n, msg' i = msg i) : c.HasHeaders msg' := by
  refine ⟨?_, ?_, ?_⟩
  · rw [heq 0 (by omega), hh.first]
  · rw [heq 1 (by omega), hh.second]
  · rw [heq 2 (by omega), hh.special]

theorem hasHeader_specialHeader : c.specialHeader.hasHeader = c.header.getHasSpecialHeader := rfl

theorem getSpecialDataIndex_of_special (h : c.header.getHasSpecialHeader = true) :
    getSpecialDataIndex c.specialHeader = 3 := by
  unfold getSpecialDataIndex SpecialHeader.getHeaderSize
  rw [hasHeader_specialHeader, if_pos h]

theorem length_handleEntries : c.handleEntries.length =
    c.specialHeader.getCopyHandleCount + c.specialHeader.getMoveHandleCount := by
  unfold handleEntries
  rw [List.length_append, length_entries, length_entries]

theorem handleEntries_of_noSpecial (h : c.header.getHasSpecialHeader = false) :
    c.handleEntries = [] := by
  have hword : c.specialHeader.word = 0 := by
    change (if c.header.getHasSpecialHeader then c.msg 2 else 0) = _
    rw [h]
    rfl
  apply List.eq_nil_of_length_eq_zero
  rw [length_handleEntries]
  unfold SpecialHeader.getCopyHandleCount SpecialHeader.getMoveHandleCount
  rw [hword]
  rfl

variable [DecidableEq α]

/-- The state after the special data: the account of all handles, with the words that the
cleanup will read. -/
structure Processed (c : IpcSource α) (s s₁ : IpcState α) (made left : List (Handle × α))
    (out : List Handle) (result : IpcResult) : Prop where
  books : s.Books s₁ made left
  verdict : c.Verdict s c.handleEntries made left out result
  headers : c.header.getHasSpecialHeader = true → c.HasHeaders s₁.msg
  words : ∀ j (hj : j < out.length), s₁.msg (c.handleIndex + j) = out[j]

variable {made left : List (Handle × α)} {out : List Handle} {result : IpcResult}
variable {moveHandleAllowed : Bool} {dstBufferSize : ℕ}

section

variable {later : LaterParts} (p : c.Processed s s₁ made left out (.ok ()))
  (hkeep : c.KeepsHandles later s)
include p hkeep

/-- The later parts leave the handles that were written. -/
theorem Processed.words_write (j : ℕ) (hj : j < out.length) :
    later.write s₁.msg (c.handleIndex + j) = out[j] := by
  rw [← p.words j hj]
  have hlength := p.verdict.length
  cases hspecial : c.header.getHasSpecialHeader with
  | true =>
    apply hkeep hspecial (p.verdict.success rfl).1 _ _ fun _ => Nat.le_add_right _ _
    rw [length_handleEntries] at hlength
    unfold getPointerDescriptorIndex handleIndex SpecialHeader.getDataSize
    rw [hasHeader_specialHeader]
    split_ifs
    omega
  | false =>
    rw [handleEntries_of_noSpecial hspecial] at hlength
    change out.length = 0 at hlength
    omega

/-- What later parts that fail write keeps the account. -/
theorem Processed.write (hfails : later.result ≠ .ok ()) :
    c.Processed s { s₁ with msg := later.write s₁.msg } made left out (.ok ()) := by
  refine ⟨p.books.same ⟨rfl, rfl, rfl⟩, p.verdict, fun hspecial => ?_, p.words_write hkeep⟩
  refine (p.headers hspecial).congr ?_ fun i hi =>
    hkeep hspecial (p.verdict.success rfl).1 s₁.msg i (fun hok => absurd hok hfails) hi
  unfold getPointerDescriptorIndex
  rw [getSpecialDataIndex_of_special hspecial]
  omega

end

section

variable (p : c.Processed s s₁ made left out result)
include p

end

section

variable (hsrc : s.src.Valid) (hdst : s.dst.Valid) {later : LaterParts}
  (hkeep : c.KeepsHandles later s)
include hsrc hdst hkeep

end

/-! ### Messages that go wrong -/

/-- The message has nothing after its handles. -/
def LaterParts.none : LaterParts := ⟨.ok (), id⟩

end IpcSource

end Atmosphere.Kern
