import Atmosphere.Kern.MessageHandlesSpec

/-!
# Which messages can be transferred

The outcome of a transfer is decided by the two tables before it: all handles of the
message name objects that may be sent, no handle is moved twice, and the destination
table has room (`Transferable`). `Verdict` compares the account of the rounds so far
with this.
-/

namespace Atmosphere.Kern

/-- A handle of a message, and whether it is moved. -/
structure HandleEntry where
  move : Bool
  handle : Handle
  deriving DecidableEq

/-- The number of handles that are not the invalid one. -/
def handleCount (entries : List HandleEntry) : ℕ := entries.countP fun e => e.handle ≠ .invalid

/-- The handles to move. -/
def movedHandles (entries : List HandleEntry) : List Handle :=
  (entries.filter fun e => e.move && e.handle != .invalid).map HandleEntry.handle

theorem handleCount_concat (es : List HandleEntry) (e : HandleEntry) :
    handleCount (es ++ [e]) = handleCount es + if e.handle = .invalid then 0 else 1 := by
  unfold handleCount
  simp

theorem movedHandles_concat (es : List HandleEntry) (e : HandleEntry) : movedHandles (es ++ [e]) =
      movedHandles es ++ if e.move ∧ e.handle ≠ .invalid then [e.handle] else [] := by
  unfold movedHandles
  rw [List.filter_append, List.map_append]
  split_ifs with h
  · simp [h]
  · rw [List.filter_cons_of_neg (by simpa using h)]
    rfl

namespace IpcSource

variable {α : Type} {c : IpcSource α} {s₀ s : IpcState α}
variable {es : List HandleEntry} {e : HandleEntry} {h d : Handle} {o : α}
variable {made left : List (Handle × α)} {out : List Handle} {result : IpcResult}

/-- The object that a handle of the message names. -/
def object (c : IpcSource α) (t : KHandleTable α) (e : HandleEntry) : Option α :=
  if e.move then c.getObjectForIpcWithoutPseudoHandle t e.handle else c.getObjectForIpc t e.handle

/-- All handles of a message can be transferred. -/
structure Transferable (c : IpcSource α) (s₀ : IpcState α) (es : List HandleEntry) : Prop where
  named : ∀ e ∈ es, e.handle ≠ .invalid → c.object s₀.src e ≠ none
  nodup : (movedHandles es).Nodup
  room : s₀.dst.count + handleCount es ≤ s₀.dst.tableSize

/-- A handle to an interrupt event is the first one that cannot be transferred, and it does not
come again. -/
def StaysBehind (c : IpcSource α) (s₀ : IpcState α) (es : List HandleEntry) (h : Handle) : Prop :=
  ∃ pre post, es = pre ++ ⟨true, h⟩ :: post ∧ c.Transferable s₀ pre ∧
    (∃ o, s₀.src.getObjectImpl h = some o ∧ c.isInterruptEvent o = true) ∧ ⟨true, h⟩ ∉ post

/-- At least one handle is transferred before the first one that cannot be. -/
def Creates (c : IpcSource α) (s₀ : IpcState α) (es : List HandleEntry) : Prop :=
  ∃ pre, pre <+: es ∧ c.Transferable s₀ pre ∧ 0 < handleCount pre

variable {t : KHandleTable α}

theorem object_invalid (he : e.handle = .invalid) : c.object t e = none := by
  have hnone : c.getObjectForIpcWithoutPseudoHandle t .invalid = none := by
    unfold getObjectForIpcWithoutPseudoHandle
    rw [KHandleTable.getObjectImpl_invalid]
  unfold object getObjectForIpc
  rw [he, hnone]
  split_ifs with _ h₁ h₂
  · rfl
  · exact absurd h₁ (by decide)
  · exact absurd h₂ (by decide)
  · rfl

theorem transferable_nil (hdst : s₀.dst.Valid) : c.Transferable s₀ [] := by
  obtain ⟨s, hrun, hs⟩ := hdst
  obtain ⟨free, ok, -⟩ := hrun.inv.freeOk
  have hcount := ok.count_add
  rw [hs] at hcount
  refine ⟨by simp, List.nodup_nil, ?_⟩
  change s₀.dst.count + 0 ≤ _
  omega

/-- One more handle can be transferred. -/
theorem transferable_concat : c.Transferable s₀ (es ++ [e]) ↔ c.Transferable s₀ es ∧
    (e.handle ≠ .invalid → c.object s₀.src e ≠ none ∧ (e.move = true → e.handle ∉ movedHandles es) ∧
      s₀.dst.count + handleCount es < s₀.dst.tableSize) := by
  constructor
  · intro ⟨hnamed, hnodup, hroom⟩
    rw [movedHandles_concat, List.nodup_append] at hnodup
    rw [handleCount_concat] at hroom
    refine ⟨⟨fun e' he' => hnamed e' (List.mem_append_left _ he'), hnodup.1, by omega⟩, ?_⟩
    intro hne
    rw [if_neg hne] at hroom
    refine ⟨hnamed e (by simp) hne, fun hmove hmem => ?_, by omega⟩
    rw [if_pos ⟨hmove, hne⟩] at hnodup
    exact hnodup.2.2 e.handle hmem e.handle (List.mem_singleton_self _) rfl
  · intro ⟨⟨hnamed, hnodup, hroom⟩, hlast⟩
    refine ⟨?_, ?_, ?_⟩
    · rw [List.forall_mem_append, List.forall_mem_singleton]
      exact ⟨hnamed, fun hne => (hlast hne).1⟩
    · rw [movedHandles_concat]
      split_ifs with hmove
      · have hnot := (hlast hmove.2).2.1 hmove.1
        exact hnodup.append (List.nodup_singleton _) (by simpa using hnot)
      · rw [List.append_nil]
        exact hnodup
    · rw [handleCount_concat]
      split_ifs with hinvalid
      · omega
      · have := (hlast hinvalid).2.2
        omega

/-- Where the last split of a longer list can be. -/
theorem concat_eq_append_cons {x y : HandleEntry} {pre post : List HandleEntry}
    (heq : es ++ [y] = pre ++ x :: post) :
    (es = pre ∧ y = x ∧ post = []) ∨ ∃ post', post = post' ++ [y] ∧ es = pre ++ x :: post' := by
  induction post using List.reverseRecOn with
  | nil =>
    obtain ⟨hes, hy⟩ := List.append_inj' heq rfl
    injection hy with hy
    exact .inl ⟨hes, hy, rfl⟩
  | append_singleton post' z _ =>
    rw [← List.cons_append, ← List.append_assoc] at heq
    obtain ⟨hes, hy⟩ := List.append_inj' heq rfl
    injection hy with hy
    exact .inr ⟨post', by rw [hy], hes⟩

theorem staysBehind_concat_of_not (hnot : ¬ c.Transferable s₀ es) :
    c.StaysBehind s₀ (es ++ [e]) h ↔ c.StaysBehind s₀ es h ∧ e ≠ ⟨true, h⟩ := by
  constructor
  · rintro ⟨pre, post, heq, hpre, hevent, hpost⟩
    obtain ⟨rfl, -, -⟩ | ⟨post', rfl, rfl⟩ := concat_eq_append_cons heq
    · exact absurd hpre hnot
    · rw [List.mem_append, List.mem_singleton, not_or] at hpost
      exact ⟨⟨pre, post', rfl, hpre, hevent, hpost.1⟩, fun he => hpost.2 he.symm⟩
  · rintro ⟨⟨pre, post, rfl, hpre, hevent, hpost⟩, hne⟩
    refine ⟨pre, post ++ [e], by simp, hpre, hevent, ?_⟩
    rw [List.mem_append, List.mem_singleton, not_or]
    exact ⟨hpost, fun he => hne he.symm⟩

theorem creates_concat_of_not (hnot : ¬ c.Transferable s₀ (es ++ [e])) :
    c.Creates s₀ (es ++ [e]) ↔ c.Creates s₀ es := by
  constructor
  · rintro ⟨pre, hpre, ht, hpos⟩
    obtain rfl | hpre := List.prefix_concat_iff.mp hpre
    · exact absurd ht hnot
    · exact ⟨pre, hpre, ht, hpos⟩
  · rintro ⟨pre, hpre, ht, hpos⟩
    exact ⟨pre, hpre.trans (List.prefix_append es [e]), ht, hpos⟩

theorem creates_of_transferable (ht : c.Transferable s₀ es) :
    c.Creates s₀ es ↔ 0 < handleCount es := by
  constructor
  · rintro ⟨pre, ⟨post, rfl⟩, -, hpos⟩
    unfold handleCount at hpos ⊢
    rw [List.countP_append]
    omega
  · intro hpos
    exact ⟨es, List.prefix_rfl, ht, hpos⟩

/-! ### The verdict -/

/-- The handle written for an object: the one made for it, or the invalid one. -/
def WrittenFor (made : List (Handle × α)) : Option α → Handle → Prop
  | none, d => d = .invalid
  | some o, d => (d, o) ∈ made

/-- The account of the rounds over the handles `es`, which wrote the handles `out`, fits the
tables before. -/
structure Verdict (c : IpcSource α) (s₀ : IpcState α) (es : List HandleEntry)
    (made left : List (Handle × α)) (out : List Handle) (result : IpcResult) : Prop where
  length : out.length = es.length
  filter : (out.filter fun d => d ≠ .invalid) = made.map Prod.fst
  creates : made ≠ [] ↔ c.Creates s₀ es
  leftMem : ∀ p ∈ left, ⟨true, p.1⟩ ∈ es
  success : result = .ok () → c.Transferable s₀ es ∧ made.length = handleCount es ∧
    made.map Prod.snd = es.filterMap (c.object s₀.src) ∧ left.map Prod.fst = movedHandles es ∧
    List.Forall₂ (WrittenFor made) (es.map (c.object s₀.src)) out
  failure : result ≠ .ok () → ¬ c.Transferable s₀ es ∧ ∀ h, ⟨true, h⟩ ∈ es →
    (h ∈ left.map Prod.fst ↔ s₀.src.getObjectImpl h ≠ none ∧ ¬ c.StaysBehind s₀ es h)

namespace Verdict

theorem nil (hdst : s₀.dst.Valid) : Verdict c s₀ [] [] [] [] (.ok ()) where
  length := rfl
  filter := rfl
  creates := by
    rw [creates_of_transferable (transferable_nil hdst)]
    simp [handleCount]
  leftMem := by simp
  success := fun _ => ⟨transferable_nil hdst, rfl, rfl, rfl, .nil⟩
  failure := fun hne => absurd rfl hne

theorem filter_invalid (v : Verdict c s₀ es made left out result) :
    ((out ++ [Handle.invalid]).filter fun d => d ≠ .invalid) = made.map Prod.fst := by
  rw [List.filter_append, v.filter]
  simp

variable {left' : List (Handle × α)} {result' : IpcResult}

/-- A round that writes the invalid handle and leaves the message refused. -/
theorem refused (v : Verdict c s₀ es made left out result)
    (hresult : result' ≠ .ok ()) (hnot : ¬ c.Transferable s₀ (es ++ [e]))
    (hmem : ∀ p ∈ left', ⟨true, p.1⟩ ∈ es ++ [e])
    (hleft : ∀ h, ⟨true, h⟩ ∈ es ++ [e] → (h ∈ left'.map Prod.fst ↔
      s₀.src.getObjectImpl h ≠ none ∧ ¬ c.StaysBehind s₀ (es ++ [e]) h)) :
    Verdict c s₀ (es ++ [e]) made left' (out ++ [.invalid]) result' where
  length := by simp [v.length]
  filter := v.filter_invalid
  creates := by rw [creates_concat_of_not hnot, v.creates]
  leftMem := hmem
  success := fun hok => absurd hok hresult
  failure := fun _ => ⟨hnot, hleft⟩

/-- A round after a failure: the handle to move leaves the source table. -/
theorem refused_again (v : Verdict c s₀ es made left out result) (hresult : result ≠ .ok ())
    (hmem : ∀ p ∈ left', ⟨true, p.1⟩ ∈ es ++ [e])
    (hsub : ∀ h, h ∈ left'.map Prod.fst ↔ h ∈ left.map Prod.fst ∨ e = ⟨true, h⟩ ∧
      s₀.src.getObjectImpl h ≠ none) :
    Verdict c s₀ (es ++ [e]) made left' (out ++ [.invalid]) result := by
  obtain ⟨hnot, hleft⟩ := v.failure hresult
  refine v.refused hresult (fun ht => hnot (transferable_concat.mp ht).1) hmem fun h hh => ?_
  rw [hsub, staysBehind_concat_of_not hnot]
  constructor
  · rintro (hin | ⟨rfl, hsome⟩)
    · obtain ⟨p, hp, rfl⟩ := List.mem_map.mp hin
      obtain ⟨hsome, hstays⟩ := (hleft p.1 (v.leftMem p hp)).mp hin
      exact ⟨hsome, fun hstays' => hstays hstays'.1⟩
    · exact ⟨hsome, fun hstays => hstays.2 rfl⟩
  · rintro ⟨hsome, hstays⟩
    by_cases he : e = ⟨true, h⟩
    · exact .inr ⟨he, hsome⟩
    · obtain hes | heq := List.mem_append.mp hh
      · refine .inl ((hleft h hes).mpr ⟨hsome, fun hstays' => hstays ⟨hstays', he⟩⟩)
      · exact absurd (List.mem_singleton.mp heq).symm he

/-- A round over the invalid handle. -/
theorem skipped (v : Verdict c s₀ es made left out result) (hhandle : e.handle = .invalid) :
    Verdict c s₀ (es ++ [e]) made left (out ++ [.invalid]) result := by
  have hmem : ∀ p ∈ left, ⟨true, p.1⟩ ∈ es ++ [e] :=
    fun p hp => List.mem_append_left _ (v.leftMem p hp)
  by_cases hresult : result = .ok ()
  · subst hresult
    obtain ⟨ht, hlength, hobjects, hleft, hforall⟩ := v.success rfl
    have ht' : c.Transferable s₀ (es ++ [e]) :=
      transferable_concat.mpr ⟨ht, fun hne => absurd hhandle hne⟩
    refine ⟨by simp [v.length], v.filter_invalid, ?_, hmem, fun _ => ⟨ht', ?_, ?_, ?_, ?_⟩,
      fun hne => absurd rfl hne⟩
    · rw [v.creates, creates_of_transferable ht, creates_of_transferable ht', handleCount_concat,
        if_pos hhandle, Nat.add_zero]
    · rw [hlength, handleCount_concat, if_pos hhandle, Nat.add_zero]
    · rw [hobjects, List.filterMap_append]
      simp [object_invalid hhandle]
    · rw [hleft, movedHandles_concat, if_neg (fun hmove => hmove.2 hhandle), List.append_nil]
    · rw [List.map_append]
      apply List.rel_append hforall
      refine .cons ?_ .nil
      rw [object_invalid hhandle]
      rfl
  · refine v.refused_again hresult hmem fun h => ?_
    refine ⟨.inl, ?_⟩
    rintro (hin | ⟨rfl, hsome⟩)
    · exact hin
    · have hinvalid : h = .invalid := hhandle
      rw [hinvalid] at hsome
      exact absurd (KHandleTable.getObjectImpl_invalid _) hsome

end Verdict

end IpcSource

end Atmosphere.Kern
