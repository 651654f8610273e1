import Mathlib

/-!
# Locks that are handed from owner to owner

The word of a lock names its owner and says whether somebody may wait. A thread that finds
the lock taken marks the word and is queued on the owner; the owner hands the lock to one of
the queued threads, which takes the others over. A thread may also give the lock up and sleep
until it is signalled, and then gets the lock or is queued for it.

Nothing is said about how words and queues are stored. The steps are those of one thread or
of a short critical section; any interleaving of them is a run.
-/

namespace HandOffLock

open Function (update update_apply)

variable {α μ : Type*}

/-- How a queued thread asked for the lock. -/
inductive Caller
  | lock
  | condition
  deriving DecidableEq, Repr

/-- What a thread is doing. -/
inductive Phase (α μ : Type*)
  | running
  /-- It looks at the word. -/
  | locking (m : μ)
  /-- It has marked the word, which named this owner. -/
  | arbitrating (m : μ) (owner : α)
  | queued (m : μ) (owner : α) (caller : Caller)
  | sleeping (m : μ)

/-- The lock that a thread asks for. -/
def Phase.wants : Phase α μ → Option μ
  | running => none
  | locking m => some m
  | arbitrating m _ => some m
  | queued m _ _ => some m
  | sleeping m => some m

structure State (α μ : Type*) where
  phase : α → Phase α μ
  word : μ → Option (α × Bool)
  holds : α → μ → Prop

namespace State

/-- Nobody is queued for the lock. -/
def NoneQueued (s : State α μ) (m : μ) : Prop := ∀ t o c, s.phase t ≠ .queued m o c

def acquired (s : State α μ) (t : α) (m : μ) (x : α) (k : μ) : Prop := x = t ∧ k = m ∨ s.holds x k

def released (s : State α μ) (t : α) (m : μ) (x : α) (k : μ) : Prop :=
  s.holds x k ∧ ¬ (x = t ∧ k = m)

end State

/-- The words, the owners and the queues agree. -/
structure Inv (s : State α μ) : Prop where
  queued : ∀ {t m o c}, s.phase t = .queued m o c → s.word m = some (o, true)
  holds : ∀ {t m}, s.holds t m → ∃ b, s.word m = some (t, b)
  word : ∀ {t m b}, s.word m = some (t, b) → s.holds t m ∨ s.phase t = .locking m
  wants : ∀ {t m}, (s.phase t).wants = some m → ¬ s.holds t m
  arbitrating : ∀ {t m o}, s.phase t = .arbitrating m o → o ≠ t

variable {s s' : State α μ} {t owner next : α} {m : μ} {p : Phase α μ}

theorem State.word_unique {o o' : α} {b b' : Bool} (h : s.word m = some (o, b))
    (h' : s.word m = some (o', b')) : o = o' :=
  (Prod.mk.inj (Option.some.inj (h.symm.trans h'))).1

namespace Inv

/-- Only one thread holds a lock. -/
theorem holds_unique {t' : α} (h : Inv s) (ht : s.holds t m) (ht' : s.holds t' m) : t = t' := by
  obtain ⟨b, hb⟩ := h.holds ht
  obtain ⟨b', hb'⟩ := h.holds ht'
  exact s.word_unique hb hb'

/-- The queue of a lock is on its owner. -/
theorem owner_eq {c : Caller} {o : α} (h : Inv s) (hholds : s.holds t m)
    (hphase : s.phase next = .queued m o c) : o = t := by
  obtain ⟨b, hb⟩ := h.holds hholds
  exact s.word_unique (h.queued hphase) hb

/-- A sleeping thread does not own the lock it gave up. -/
theorem sleeping_ne {b : Bool} (h : Inv s) (hphase : s.phase t = .sleeping m)
    (hword : s.word m = some (owner, b)) : owner ≠ t := by
  rintro rfl
  obtain hholds | hlocking := h.word hword
  · exact h.wants (by rw [hphase]; rfl) hholds
  · rw [hphase] at hlocking
    cases hlocking

end Inv

/-- All locks are free and all threads run. -/
def State.start : State α μ := ⟨fun _ => .running, fun _ => none, fun _ _ => False⟩

theorem inv_start : Inv (State.start : State α μ) where
  queued hc := nomatch hc
  holds hc := hc.elim
  word hc := nomatch hc
  wants hc := nomatch hc
  arbitrating hc := nomatch hc

variable [DecidableEq α]

/-- Only the phase of one thread is different. -/
theorem Inv.setPhase (h : Inv s) (hqueued : ∀ m o c, p = .queued m o c → s.word m = some (o, true))
    (hword : ∀ m b, s.word m = some (t, b) → s.phase t = .locking m → p = .locking m)
    (hwants : ∀ m, p.wants = some m → ¬ s.holds t m)
    (harbitrating : ∀ m o, p = .arbitrating m o → o ≠ t) :
    Inv { s with phase := update s.phase t p } := by
  refine ⟨fun {x k o c} hx => ?_, h.holds, fun {x k b} hx => ?_, fun {x k} hx => ?_,
    fun {x k o} hx => ?_⟩ <;> by_cases hxt : x = t
  · subst hxt
    exact hqueued k o c (by simpa using hx)
  · exact h.queued (by simpa [hxt] using hx)
  · subst hxt
    exact (h.word hx).imp_right fun hlocking => by simpa using hword k b hx hlocking
  · simpa [hxt] using h.word hx
  · subst hxt
    exact hwants k (by simpa using hx)
  · exact h.wants (by simpa [hxt] using hx)
  · subst hxt
    exact harbitrating k o (by simpa using hx)
  · exact h.arbitrating (by simpa [hxt] using hx)

/-- A thread turns to a lock that it does not hold. -/
theorem Inv.turn (h : Inv s) (hphase : ∀ k, s.phase t = .locking k → k = m) (hnot : ¬ s.holds t m) :
    Inv { s with phase := update s.phase t (.locking m) } := by
  refine h.setPhase (fun _ _ _ hc => nomatch hc) (fun k _ _ hk => by rw [hphase k hk])
    (fun k hk => ?_) fun _ _ hc => nomatch hc
  cases hk
  exact hnot

variable [DecidableEq μ]

/-- The thread that gets the lock goes on, and the others of the queue are queued on it. -/
def State.handOver (s : State α μ) (m : μ) (next x : α) : Phase α μ :=
  match s.phase x with
  | .queued k o c =>
    if k = m then
      if x = next then (match c with | .lock => .locking m | .condition => .running)
      else .queued m next c
    else .queued k o c
  | p => p

theorem State.handOver_cases (s : State α μ) (m : μ) (next x : α) :
    (∃ o c, s.phase x = .queued m o c ∧ x ≠ next ∧ s.handOver m next x = .queued m next c) ∨
    (∃ o, s.phase x = .queued m o .lock ∧ x = next ∧ s.handOver m next x = .locking m) ∨
    (∃ o, s.phase x = .queued m o .condition ∧ x = next ∧ s.handOver m next x = .running) ∨
    ((∀ o c, s.phase x ≠ .queued m o c) ∧ s.handOver m next x = s.phase x) := by
  unfold State.handOver
  cases hphase : s.phase x with
  | queued k o c =>
    by_cases hkm : k = m
    · subst hkm
      by_cases hx : x = next
      · cases c with
        | lock => exact .inr (.inl ⟨o, rfl, hx, by simp [hx]⟩)
        | condition => exact .inr (.inr (.inl ⟨o, rfl, hx, by simp [hx]⟩))
      · exact .inl ⟨o, c, rfl, hx, by simp [hx]⟩
    · refine .inr (.inr (.inr ⟨fun o' c' hc => ?_, by simp [hkm]⟩))
      cases hc
      exact hkm rfl
  | running | locking | arbitrating | sleeping => simp

/-- The steps. -/
inductive Step : State α μ → State α μ → Prop
  | begin {s : State α μ} {t : α} {m : μ} (hphase : s.phase t = .running) (hnot : ¬ s.holds t m) :
      Step s { s with phase := update s.phase t (.locking m) }
  | acquire {s : State α μ} {t : α} {m : μ} (hphase : s.phase t = .locking m)
      (hword : s.word m = none) :
      Step s
        { phase := update s.phase t .running
          word := update s.word m (some (t, false))
          holds := s.acquired t m }
  | recognise {s : State α μ} {t : α} {m : μ} {b : Bool} (hphase : s.phase t = .locking m)
      (hword : s.word m = some (t, b)) :
      Step s { s with phase := update s.phase t .running, holds := s.acquired t m }
  | mark {s : State α μ} {t owner : α} {m : μ} {b : Bool} (hphase : s.phase t = .locking m)
      (hword : s.word m = some (owner, b)) (hne : owner ≠ t) :
      Step s { s with
          phase := update s.phase t (.arbitrating m owner)
          word := update s.word m (some (owner, true)) }
  | enqueue {s : State α μ} {t owner : α} {m : μ} (hphase : s.phase t = .arbitrating m owner)
      (hword : s.word m = some (owner, true)) :
      Step s { s with phase := update s.phase t (.queued m owner .lock) }
  | retry {s : State α μ} {t owner : α} {m : μ} (hphase : s.phase t = .arbitrating m owner) :
      Step s { s with phase := update s.phase t (.locking m) }
  | release {s : State α μ} {t : α} {m : μ} (hholds : s.holds t m) (hnone : s.NoneQueued m) :
      Step s { s with word := update s.word m none, holds := s.released t m }
  | handOver {s : State α μ} {t next : α} {m : μ} {c : Caller} {b : Bool} (hholds : s.holds t m)
      (hnext : s.phase next = .queued m t c)
      (hmark : ∀ x o c, x ≠ next → s.phase x = .queued m o c → b = true) :
      Step s
        { phase := s.handOver m next
          word := update s.word m (some (next, b))
          holds := fun x k => s.released t m x k ∨ x = next ∧ k = m ∧ c = .condition }
  | sleep {s : State α μ} {t : α} {m : μ} (hphase : s.phase t = .running) (hnot : ¬ s.holds t m) :
      Step s { s with phase := update s.phase t (.sleeping m) }
  | wakeFree {s : State α μ} {t : α} {m : μ} (hphase : s.phase t = .sleeping m)
      (hword : s.word m = none) :
      Step s
        { phase := update s.phase t .running
          word := update s.word m (some (t, false))
          holds := s.acquired t m }
  | wakeQueued {s : State α μ} {t owner : α} {m : μ} {b : Bool} (hphase : s.phase t = .sleeping m)
      (hword : s.word m = some (owner, b)) :
      Step s { s with
          phase := update s.phase t (.queued m owner .condition)
          word := update s.word m (some (owner, true)) }
  | cancel {s : State α μ} {t : α} {m : μ}
      (hphase : (∃ o c, s.phase t = .queued m o c) ∨ s.phase t = .sleeping m) :
      Step s { s with phase := update s.phase t (.locking m) }

namespace Inv

variable (h : Inv s)
include h

omit [DecidableEq α] in
/-- The word of a free lock gets the name of a thread that wants it. -/
theorem setOwner (hphase : s.phase t = .locking m) (hword : s.word m = none) :
    Inv { s with word := update s.word m (some (t, false)) } := by
  have hne : ∀ {k : μ} {o : α} {b : Bool}, s.word k = some (o, b) → k ≠ m := by
    rintro _ o b hk rfl
    rw [hword] at hk
    cases hk
  refine ⟨fun hx => ?_, fun hx => ?_, fun {x k b} hx => ?_, h.wants, h.arbitrating⟩
  · simpa [hne (h.queued hx)] using h.queued hx
  · obtain ⟨b, hb⟩ := h.holds hx
    exact ⟨b, by simpa [hne hb] using hb⟩
  · simp only [update_apply] at hx
    split_ifs at hx with hkm
    · cases hx
      exact .inr (hkm ▸ hphase)
    · exact h.word hx

variable {b : Bool}

omit [DecidableEq α] in
/-- The word of a taken lock is marked. -/
theorem setMark (hword : s.word m = some (owner, b)) :
    Inv { s with word := update s.word m (some (owner, true)) } := by
  refine ⟨fun {x k o c} hx => ?_, fun {x k} hx => ?_, fun {x k b'} hx => ?_, h.wants,
    h.arbitrating⟩ <;> by_cases hkm : k = m
  · subst hkm
    simp [s.word_unique hword (h.queued hx)]
  · simpa [hkm] using h.queued hx
  · subst hkm
    obtain ⟨b', hb'⟩ := h.holds hx
    exact ⟨true, by simp [s.word_unique hword hb']⟩
  · simpa [hkm] using h.holds hx
  · subst hkm
    obtain ⟨rfl, -⟩ : owner = x ∧ true = b' := by simpa using hx
    exact h.word hword
  · exact h.word (b := b') (by simpa [hkm] using hx)

/-- A thread that finds itself in the word has the lock. -/
theorem recognise (hphase : s.phase t = .locking m) (hword : s.word m = some (t, b)) :
    Inv { s with phase := update s.phase t .running, holds := s.acquired t m } := by
  refine ⟨fun {x k o c} hx => ?_, fun {x k} hx => ?_, fun {x k b'} hx => ?_, fun {x k} hx hk => ?_,
    fun {x k o} hx => ?_⟩
  · simp only [update_apply] at hx
    split_ifs at hx
    exact h.queued hx
  · obtain ⟨rfl, rfl⟩ | hx := hx
    · exact ⟨b, hword⟩
    · exact h.holds hx
  · by_cases hxt : x = t ∧ k = m
    · exact .inl (.inl hxt)
    · refine (h.word hx).imp .inr fun hlocking => ?_
      have hne : x ≠ t := by
        rintro rfl
        rw [hphase] at hlocking
        cases hlocking
        exact hxt ⟨rfl, rfl⟩
      simpa [hne] using hlocking
  · simp only [update_apply] at hx
    split_ifs at hx with hxt
    · cases hx
    · exact hk.elim (fun heq => hxt heq.1) (h.wants hx)
  · simp only [update_apply] at hx
    split_ifs at hx
    exact h.arbitrating hx

/-- A thread gets a free lock. -/
theorem take (hphase : (s.phase t).wants = some m) (hword : s.word m = none) :
    Inv { phase := update s.phase t .running
          word := update s.word m (some (t, false))
          holds := s.acquired t m } := by
  have hturn := h.turn (fun k hk => by simpa [hk, Phase.wants] using hphase) (h.wants hphase)
  have howner := hturn.setOwner (t := t) (m := m) (by simp) hword
  have htake := howner.recognise (t := t) (m := m) (b := false) (by simp) (by simp)
  rwa [Function.update_idem] at htake

omit [DecidableEq α] in
/-- The owner gives up a lock that nobody is queued for. -/
theorem release (hholds : s.holds t m) (hnone : s.NoneQueued m) :
    Inv { s with word := update s.word m none, holds := s.released t m } := by
  refine ⟨fun {x k o c} hx => ?_, fun {x k} hx => ?_, fun {x k b} hx => ?_, fun {x k} hx hk => ?_,
    h.arbitrating⟩
  · have hkm : k ≠ m := by
      rintro rfl
      exact hnone x o c hx
    simpa [hkm] using h.queued hx
  · have hkm : k ≠ m := by
      rintro rfl
      exact hx.2 ⟨h.holds_unique hx.1 hholds, rfl⟩
    simpa [hkm] using h.holds hx.1
  · simp only [update_apply] at hx
    split_ifs at hx with hkm
    exact (h.word hx).imp_left fun hxk => ⟨hxk, fun hc => hkm hc.2⟩
  · exact h.wants hx hk.1

/-- The owner hands the lock over. -/
theorem handOver {c : Caller} (hholds : s.holds t m) (hnext : s.phase next = .queued m t c)
    (hmark : ∀ x o c, x ≠ next → s.phase x = .queued m o c → b = true) :
    Inv { phase := s.handOver m next
          word := update s.word m (some (next, b))
          holds := fun x k => s.released t m x k ∨ x = next ∧ k = m ∧ c = .condition } := by
  have hnot : ¬ s.holds next m := h.wants (by rw [hnext]; rfl)
  refine ⟨fun {x k o c'} hx => ?_, fun {x k} hx => ?_, fun {x k b'} hx => ?_, fun {x k} hx hk => ?_,
    fun {x k o} hx => ?_⟩
  · change s.handOver m next x = _ at hx
    obtain ⟨o', c₁, hphase, hne, heq⟩ | ⟨_, _, _, heq⟩ | ⟨_, _, _, heq⟩ | ⟨hother, heq⟩ :=
      s.handOver_cases m next x <;> rw [heq] at hx
    · cases hx
      simp [hmark x o' _ hne hphase]
    · cases hx
    · cases hx
    · have hkm : k ≠ m := by
        rintro rfl
        exact hother o c' hx
      simpa [hkm] using h.queued hx
  · obtain hx | ⟨rfl, rfl, _⟩ := hx
    · have hkm : k ≠ m := by
        rintro rfl
        exact hx.2 ⟨h.holds_unique hx.1 hholds, rfl⟩
      simpa [hkm] using h.holds hx.1
    · exact ⟨b, by simp⟩
  · simp only [update_apply] at hx
    split_ifs at hx with hkm
    · cases hx
      cases c with
      | lock => exact .inr (by simp [State.handOver, hnext, hkm])
      | condition => exact .inl (.inr ⟨rfl, hkm, rfl⟩)
    · refine (h.word hx).imp (fun hold => .inl ⟨hold, fun hc => hkm hc.2⟩) fun hlocking => ?_
      simp [State.handOver, hlocking]
  · change (s.handOver m next x).wants = _ at hx
    obtain ⟨o', c₁, hphase, hne, heq⟩ | ⟨o', hphase, rfl, heq⟩ | ⟨_, _, _, heq⟩ | ⟨hother, heq⟩ :=
      s.handOver_cases m next x <;> rw [heq] at hx
    · cases hx
      obtain hold | ⟨hc, _⟩ := hk
      · exact h.wants (by rw [hphase]; rfl) hold.1
      · exact hne hc
    · cases hx
      obtain hold | ⟨_, _, hc⟩ := hk
      · exact hnot hold.1
      · rw [hphase, hc] at hnext
        cases hnext
    · cases hx
    · obtain hold | ⟨rfl, _⟩ := hk
      · exact h.wants hx hold.1
      · exact hother t c hnext
  · change s.handOver m next x = _ at hx
    obtain ⟨_, _, _, _, heq⟩ | ⟨_, _, _, heq⟩ | ⟨_, _, _, heq⟩ | ⟨_, heq⟩ :=
      s.handOver_cases m next x <;> rw [heq] at hx
    · cases hx
    · cases hx
    · cases hx
    · exact h.arbitrating hx

theorem step (hstep : Step s s') : Inv s' := by
  cases hstep with
  | begin hphase hnot =>
    exact h.turn (fun k hk => absurd (hphase.symm.trans hk) nofun) hnot
  | acquire hphase hword | wakeFree hphase hword => exact h.take (by rw [hphase]; rfl) hword
  | recognise hphase hword => exact h.recognise hphase hword
  | @mark t owner m b hphase hword hne =>
    have hnot : ¬ s.holds t m := h.wants (by rw [hphase]; rfl)
    refine (h.setMark hword).setPhase (fun _ _ _ hc => nomatch hc) (fun k b' hb hk => ?_)
      (fun k hk => ?_) fun k o hc => ?_
    · -- The word names another owner, so it is not this lock that names the thread.
      have hkm : m = k := by
        rw [show s.phase t = .locking k from hk] at hphase
        cases hphase
        rfl
      subst hkm
      have howner : owner = t ∧ true = b' := by simpa using hb
      exact absurd howner.1 hne
    · cases hk
      exact hnot
    · cases hc
      exact hne
  | @enqueue t owner m hphase hword =>
    refine h.setPhase (fun k o c hc => ?_) (fun k _ _ hk => ?_) (fun k hk => ?_)
      fun _ _ hc => nomatch hc
    · cases hc
      exact hword
    · rw [hphase] at hk
      cases hk
    · cases hk
      exact h.wants (by rw [hphase]; rfl)
  | retry hphase =>
    exact h.turn (fun k hk => absurd (hphase.symm.trans hk) nofun)
      (h.wants (by rw [hphase]; rfl))
  | release hholds hnone => exact h.release hholds hnone
  | handOver hholds hnext hmark => exact h.handOver hholds hnext hmark
  | @sleep t m hphase hnot =>
    refine h.setPhase (fun _ _ _ hc => nomatch hc) (fun k _ _ hk => ?_) (fun k hk => ?_)
      fun _ _ hc => nomatch hc
    · rw [hphase] at hk
      cases hk
    · cases hk
      exact hnot
  | @wakeQueued t owner m b hphase hword =>
    refine (h.setMark hword).setPhase (fun k o c hc => ?_) (fun k _ _ hk => ?_) (fun k hk => ?_)
      fun _ _ hc => nomatch hc
    · cases hc
      simp
    · rw [show s.phase t = .locking k from hk] at hphase
      cases hphase
    · cases hk
      exact h.wants (by rw [hphase]; rfl)
  | @cancel t m hphase =>
    have hwants : (s.phase t).wants = some m := by
      obtain ⟨o, c, hphase⟩ | hphase := hphase <;> rw [hphase] <;> rfl
    exact h.turn (fun k hk => by simpa [hk, Phase.wants] using hwants) (h.wants hwants)

theorem steps (hsteps : Relation.ReflTransGen Step s s') : Inv s' := by
  induction hsteps with
  | refl => exact h
  | tail _ hstep ih => exact ih.step hstep

end Inv

end HandOffLock
