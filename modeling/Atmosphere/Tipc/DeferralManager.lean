import Mathlib

/-!
# Resuming deferred requests

`DeferralManagerBase` keeps its deferrable objects in an array. `TriggerResume` walks over the array
by index and re-executes the requests of the objects that wait for a key. A request that fails
closes its session, and the object that is destroyed with it leaves the array.
-/

namespace Atmosphere.Tipc

open Function (update update_of_ne)

/-- `DeferralManagerBase`: its array of objects, and the retry that each object has registered. -/
structure DeferralManagerBase (ι : Type) where
  objects : List ι
  retry : ι → Option ℕ

/-- How a request ends that is executed again. -/
inductive Outcome
  | completes
  | defers (key : ℕ)
  | fails
  deriving DecidableEq

namespace DeferralManagerBase

/-! ### The model -/

variable {ι : Type} [DecidableEq ι]

section Model

variable (m : DeferralManagerBase ι)

/-- `m_resume_key` of an object, which is zero if no retry is registered. -/
def resumeKey (o : ι) : ℕ := (m.retry o).getD 0

/-- `RemoveObject`: the last object takes the place of the one that is removed. -/
def removeObject (o : ι) : DeferralManagerBase ι :=
  match m.objects.getLast? with
  | none => m
  | some last =>
    if o ∈ m.objects then
      { m with objects := (m.objects.set (m.objects.idxOf o) last).dropLast }
    else m

/-- `ProcessDeferredRequest`: a deferred request registers its retry, and a failed one closes the
session, which removes the object. -/
def processDeferredRequest (o : ι) : Outcome → DeferralManagerBase ι
  | .completes => m
  | .defers key => { m with retry := update m.retry o (some key) }
  | .fails => m.removeObject o

/-- `TriggerResume` of an object. -/
def resume (o : ι) (outcome : Outcome) : DeferralManagerBase ι :=
  { m with retry := update m.retry o none }.processDeferredRequest o outcome

end Model

variable (outcome : List ι → ι → Outcome) (key : ℕ)

/-- The loop of `TriggerResume`, with the objects that were executed. The outcome of a request can
depend on them. -/
def triggerResumeLoop : ℕ → ℕ → List ι → DeferralManagerBase ι → List ι × DeferralManagerBase ι
  | 0, _, executed, m => (executed, m)
  | rounds + 1, i, executed, m =>
    match m.objects[i]? with
    | none => (executed, m)
    | some o =>
      if m.resumeKey o = key then
        triggerResumeLoop rounds (i + 1) (executed ++ [o]) (m.resume o (outcome executed o))
      else triggerResumeLoop rounds (i + 1) executed m

/-- `TriggerResume`. The array does not grow, so that its length bounds the rounds. -/
def triggerResume (m : DeferralManagerBase ι) : List ι × DeferralManagerBase ι :=
  triggerResumeLoop outcome key m.objects.length 0 [] m

/-! ### What is re-executed -/

/-- The objects with the key among the first `i` of the array. -/
def waiting (m : DeferralManagerBase ι) (key i : ℕ) : List ι :=
  (m.objects.take i).filter (m.resumeKey · = key)

/-- The number of requests that fail if the objects of a list are executed in order. -/
def failures (outcome : List ι → ι → Outcome) : List ι → List ι → ℕ
  | _, [] => 0
  | done, o :: rest =>
    (if outcome done o = .fails then 1 else 0) + failures outcome (done ++ [o]) rest

variable {outcome key} {m m₀ : DeferralManagerBase ι} {o : ι} {i j : ℕ}

omit [DecidableEq ι] in
theorem failures_append (done l l' : List ι) : failures outcome done (l ++ l') =
    failures outcome done l + failures outcome (done ++ l) l' := by
  induction l generalizing done with
  | nil => simp [failures]
  | cons o l ih => simp [failures, ih, Nat.add_assoc]

omit [DecidableEq ι] in
theorem waiting_succ (ho : m.objects[i]? = some o) : m.waiting key (i + 1) =
    m.waiting key i ++ if m.resumeKey o = key then [o] else [] := by
  rw [waiting, List.take_add_one, ho, List.filter_append]
  split_ifs with hkey <;> simp [waiting, hkey]

omit [DecidableEq ι] in
/-- More objects of the array make no fewer failures. -/
theorem failures_mono (hle : i ≤ j) : failures outcome [] (m.waiting key i) ≤
    failures outcome [] (m.waiting key j) := by
  obtain ⟨rest, hrest⟩ : m.waiting key i <+: m.waiting key j :=
    (List.take_prefix_take_left hle).filter _
  rw [← hrest, failures_append]
  exact Nat.le_add_right _ _

omit [DecidableEq ι] in
theorem resumeKey_of_retry (h : m.retry o = some key) : m.resumeKey o = key := by
  rw [resumeKey, h]
  rfl

theorem removeObject_retry (m : DeferralManagerBase ι) (o : ι) :
    (m.removeObject o).retry = m.retry := by
  unfold removeObject
  split
  · rfl
  · split_ifs <;> rfl

/-- The array loses its last object, which takes the place of the one that is removed. -/
theorem removeObject_objects {l : List ι} {last : ι} (hobjects : m.objects = l ++ [last])
    (hnodup : m.objects.Nodup) (ho : m.objects[i]? = some o) :
    (m.removeObject o).objects = l.set i last := by
  obtain ⟨hi, rfl⟩ := List.getElem?_eq_some_iff.mp ho
  unfold removeObject
  rw [hnodup.idxOf_getElem i hi]
  simp only [hobjects, List.getLast?_concat] at hi ⊢
  rw [if_pos (List.getElem_mem _)]
  obtain hlt | hge := Nat.lt_or_ge i l.length
  · rw [List.set_append_left _ _ hlt, List.dropLast_concat]
  · rw [List.set_append_right _ _ hge, List.set_eq_of_length_le hge]
    rw [List.length_append, List.length_singleton] at hi
    obtain rfl : i = l.length := by omega
    simp

/-- The walk has come to index `i`: the objects with the key before it were executed, the array has
lost an object for each failure, and the objects from there on are as at the beginning. -/
structure Walk (outcome : List ι → ι → Outcome) (key : ℕ) (m₀ : DeferralManagerBase ι) (i : ℕ)
    (m : DeferralManagerBase ι) : Prop where
  nodup : m.objects.Nodup
  length : m.objects.length + failures outcome [] (m₀.waiting key i) = m₀.objects.length
  objects : ∀ k, i ≤ k → k < m.objects.length → m.objects[k]? = m₀.objects[k]?
  keys : ∀ k o, i ≤ k → m₀.objects[k]? = some o → m.resumeKey o = m₀.resumeKey o

omit [DecidableEq ι] in
/-- An object without the key is passed. -/
theorem Walk.pass (h : Walk outcome key m₀ i m) (ho : m₀.objects[i]? = some o)
    (hkey : m₀.resumeKey o ≠ key) : Walk outcome key m₀ (i + 1) m := by
  refine ⟨h.nodup, ?_, fun k hk => h.objects k (by omega), fun k x hk => h.keys k x (by omega)⟩
  rw [waiting_succ ho, if_neg hkey, List.append_nil]
  exact h.length

/-- An object with the key is executed. -/
theorem Walk.execute (h : Walk outcome key m₀ i m) (hnodup : m₀.objects.Nodup)
    (ho : m₀.objects[i]? = some o) (hcur : m.objects[i]? = some o)
    (hkey : m₀.resumeKey o = key) :
    Walk outcome key m₀ (i + 1) (m.resume o (outcome (m₀.waiting key i) o)) := by
  have hother : ∀ k x, i + 1 ≤ k → m₀.objects[k]? = some x → x ≠ o := by
    rintro k x hk hx rfl
    have heq := (List.getElem?_inj (List.getElem?_eq_some_iff.mp hx).1 hnodup).mp (hx.trans ho.symm)
    omega
  have hlength := h.length
  have hsucc : failures outcome [] (m₀.waiting key (i + 1)) =
      failures outcome [] (m₀.waiting key i) +
        if outcome (m₀.waiting key i) o = .fails then 1 else 0 := by
    rw [waiting_succ ho, if_pos hkey, failures_append]
    rfl
  have hkeys : ∀ retry : ι → Option ℕ, (∀ x ≠ o, retry x = m.retry x) →
      ∀ k x, i + 1 ≤ k → m₀.objects[k]? = some x → (retry x).getD 0 = m₀.resumeKey x := by
    intro retry hretry k x hk hx
    rw [hretry x (hother k x hk hx)]
    exact h.keys k x (by omega) hx
  cases hout : outcome (m₀.waiting key i) o with
  | completes =>
    refine ⟨h.nodup, ?_, fun k hk => h.objects k (by omega), hkeys _ fun x hx => ?_⟩
    · rw [hsucc, hout]
      exact hlength
    · exact update_of_ne hx _ _
  | defers key' =>
    refine ⟨h.nodup, ?_, fun k hk => h.objects k (by omega), hkeys _ fun x hx => ?_⟩
    · rw [hsucc, hout]
      exact hlength
    · exact (update_of_ne hx _ _).trans (update_of_ne hx _ _)
  | fails =>
    have hi := (List.getElem?_eq_some_iff.mp hcur).1
    obtain hnil | ⟨l, last, hobjects⟩ := m.objects.eq_nil_or_concat'
    · rw [hnil] at hi
      cases hi
    have hremoved : (m.resume o .fails).objects = l.set i last :=
      removeObject_objects (m := { m with retry := update m.retry o none }) hobjects h.nodup hcur
    have hl := h.nodup
    rw [hobjects, List.nodup_append] at hl
    have hlen : m.objects.length = l.length + 1 := by
      rw [hobjects, List.length_append, List.length_singleton]
    refine ⟨?_, ?_, fun k hk hlt => ?_, hkeys _ fun x hx => ?_⟩
    · rw [hremoved]
      exact hl.1.set fun hmem => hl.2.2 last hmem last (List.mem_singleton_self _) rfl
    · rw [hremoved, List.length_set, hsucc, hout, if_pos rfl]
      omega
    · rw [hremoved, List.length_set] at hlt
      rw [hremoved, List.getElem?_set_ne (by omega), ← h.objects k (by omega) (by omega), hobjects,
        List.getElem?_append_left hlt]
    · exact (congrFun (removeObject_retry _ _) x).trans (update_of_ne hx _ _)

/-- The walk executes the objects with the key before some index, which is the first that has no
object in the array any more. -/
theorem triggerResumeLoop_spec (hnodup : m₀.objects.Nodup) (rounds : ℕ) :
    ∀ (i : ℕ) (m : DeferralManagerBase ι), m₀.objects.length ≤ i + rounds →
      Walk outcome key m₀ i m →
      (∀ j < i, j + failures outcome [] (m₀.waiting key j) < m₀.objects.length) →
      ∃ stop, (triggerResumeLoop outcome key rounds i (m₀.waiting key i) m).1 =
          m₀.waiting key stop ∧
        (∀ j < stop, j + failures outcome [] (m₀.waiting key j) < m₀.objects.length) ∧
        m₀.objects.length ≤ stop + failures outcome [] (m₀.waiting key stop) := by
  induction rounds with
  | zero => exact fun i m hlen _ hbefore => ⟨i, rfl, hbefore, by omega⟩
  | succ rounds ih =>
    intro i m hlen hwalk hbefore
    have hlength := hwalk.length
    unfold triggerResumeLoop
    cases ho : m.objects[i]? with
    | none =>
      have := List.getElem?_eq_none_iff.mp ho
      exact ⟨i, rfl, hbefore, by omega⟩
    | some o =>
      have hi := (List.getElem?_eq_some_iff.mp ho).1
      have ho₀ : m₀.objects[i]? = some o := hwalk.objects i (le_refl i) hi ▸ ho
      have hbefore' : ∀ j < i + 1,
          j + failures outcome [] (m₀.waiting key j) < m₀.objects.length := by
        intro j hj
        obtain hlt | rfl := Nat.lt_succ_iff_lt_or_eq.mp hj
        · exact hbefore j hlt
        · omega
      dsimp only
      rw [hwalk.keys i o (le_refl i) ho₀]
      split_ifs with hkey
      · have hnext := ih (i + 1) _ (by omega) (hwalk.execute hnodup ho₀ ho hkey) hbefore'
        rwa [waiting_succ ho₀, if_pos hkey] at hnext
      · have hnext := ih (i + 1) m (by omega) (hwalk.pass ho₀ hkey) hbefore'
        rwa [waiting_succ ho₀, if_neg hkey, List.append_nil] at hnext

theorem triggerResume_spec (outcome : List ι → ι → Outcome) (key : ℕ)
    (hnodup : m.objects.Nodup) :
    ∃ stop, (m.triggerResume outcome key).1 = m.waiting key stop ∧
      (∀ j < stop, j + failures outcome [] (m.waiting key j) < m.objects.length) ∧
      m.objects.length ≤ stop + failures outcome [] (m.waiting key stop) :=
  triggerResumeLoop_spec hnodup m.objects.length 0 m (Nat.le_of_eq (Nat.zero_add _).symm)
    ⟨hnodup, Nat.add_zero _, fun _ _ _ => rfl, fun _ _ _ _ => rfl⟩
    fun j hj => absurd hj (Nat.not_lt_zero j)

omit [DecidableEq ι] in
theorem mem_waiting (hnodup : m.objects.Nodup) (ho : m.objects[j]? = some o)
    (hkey : m.resumeKey o = key) : o ∈ m.waiting key i ↔ j < i := by
  rw [waiting, List.mem_filter, decide_eq_true hkey, and_iff_left rfl, List.mem_iff_getElem?]
  constructor
  · rintro ⟨k, hk⟩
    rw [List.getElem?_take] at hk
    split_ifs at hk with hlt
    obtain ⟨hj, -⟩ := List.getElem?_eq_some_iff.mp ho
    rwa [(List.getElem?_inj hj hnodup).mp (ho.trans hk.symm)]
  · exact fun hlt => ⟨j, (List.getElem?_take_of_lt hlt).trans ho⟩

/-- The call re-executes the objects that have the key and are still in their place when the walk
comes to them: at least as many objects are behind them as requests fail before them. -/
theorem mem_triggerResume (hnodup : m.objects.Nodup) (ho : m.objects[j]? = some o)
    (hkey : m.resumeKey o = key) : o ∈ (m.triggerResume outcome key).1 ↔
      j + failures outcome [] (m.waiting key j) < m.objects.length := by
  obtain ⟨stop, hexecuted, hbefore, hstop⟩ := triggerResume_spec outcome key hnodup
  rw [hexecuted, mem_waiting hnodup ho hkey]
  refine ⟨hbefore j, fun hlt => not_le.mp fun hle => ?_⟩
  have hmono : failures outcome [] (m.waiting key stop) ≤ failures outcome [] (m.waiting key j) :=
    failures_mono hle
  omega

/-- The call re-executes each object that has registered a retry with the key exactly once, and no
other one, exactly if each of them has at least as many objects behind it in the array as requests
fail before it; and, for the key zero, each object without a retry has fewer. -/
theorem triggerResume_executes_iff (hnodup : m.objects.Nodup) :
    ((m.triggerResume outcome key).1.Nodup ∧
      ∀ o, o ∈ (m.triggerResume outcome key).1 ↔ o ∈ m.objects ∧ m.retry o = some key) ↔
    ∀ j o, m.objects[j]? = some o → m.resumeKey o = key →
      (j + failures outcome [] (m.waiting key j) < m.objects.length ↔
        m.retry o = some key) := by
  constructor
  · rintro ⟨-, hmem⟩ j o ho hkey
    rw [← mem_triggerResume hnodup ho hkey, hmem]
    exact and_iff_right (List.mem_of_getElem? ho)
  · intro hplaces
    obtain ⟨stop, hexecuted, -⟩ := triggerResume_spec outcome key hnodup
    have hsub : (m.triggerResume outcome key).1.Sublist (m.objects.take stop) :=
      hexecuted ▸ List.filter_sublist
    refine ⟨hnodup.sublist (hsub.trans (List.take_sublist _ _)), fun o => ⟨fun ho => ?_, ?_⟩⟩
    · have hobject := (hsub.trans (List.take_sublist _ _)).subset ho
      obtain ⟨j, hj⟩ := List.mem_iff_getElem?.mp hobject
      have hkey : m.resumeKey o = key := by
        rw [hexecuted] at ho
        exact of_decide_eq_true (List.mem_filter.mp ho).2
      exact ⟨hobject, (hplaces j o hj hkey).mp ((mem_triggerResume hnodup hj hkey).mp ho)⟩
    · rintro ⟨hobject, hretry⟩
      obtain ⟨j, hj⟩ := List.mem_iff_getElem?.mp hobject
      have hkey := resumeKey_of_retry hretry
      exact (mem_triggerResume hnodup hj hkey).mpr ((hplaces j o hj hkey).mpr hretry)

/-- Three objects that wait for the key 7. -/
def threeWaiting : DeferralManagerBase ℕ := ⟨[1, 2, 3], fun _ => some 7⟩

theorem triggerResume_executes_threeWaiting : threeWaiting.objects.Nodup ∧
    ∀ o, o ∈ (threeWaiting.triggerResume (fun _ o => if o = 3 then .fails else .defers 7) 7).1 ↔
      o ∈ threeWaiting.objects ∧ threeWaiting.retry o = some 7 := by
  refine ⟨by decide, ((triggerResume_executes_iff (by decide)).mpr fun j o hj _ => ?_).2⟩
  have hlt : j < 3 := (List.getElem?_eq_some_iff.mp hj).1
  refine iff_of_true ?_ rfl
  interval_cases j <;> decide

/-- When the request of the first object fails, the last one takes its place and is passed over;
and the key zero resumes an object that has not registered a retry. -/
theorem triggerResume_passes_over :
    (threeWaiting.triggerResume (fun _ o => if o = 1 then .fails else .completes) 7).1 = [1, 2] ∧
    ((⟨[1], fun _ => none⟩ : DeferralManagerBase ℕ).triggerResume (fun _ _ => .completes) 0).1 =
      [1] := by
  decide

end DeferralManagerBase

end Atmosphere.Tipc
