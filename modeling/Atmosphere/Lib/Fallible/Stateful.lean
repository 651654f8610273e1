import Mathlib

/-!
# Computations that change a state and can fail

A failed computation keeps the state that it has reached. `Triple` says what holds after a
computation that starts in a given condition, both when it returns and when it fails.
-/

namespace Fallible

/-- A computation over a state, which it changes also when it fails. -/
abbrev Stateful (ε σ α : Type) := ExceptT ε (StateM σ) α

variable {ε σ α β : Type}

/-- Fails unless the condition holds. -/
def check (condition : Prop) [Decidable condition] (e : ε) : Stateful ε σ Unit :=
  if condition then pure () else throw e

/-- From a state with `P` the computation returns with `Q` or fails with `E`. -/
def Triple (P : σ → Prop) (x : Stateful ε σ α) (Q : α → σ → Prop) (E : ε → σ → Prop) : Prop :=
  ∀ s, P s → match x.run s with
    | (.ok a, s') => Q a s'
    | (.error e, s') => E e s'

namespace Triple

variable {P P' : σ → Prop} {Q Q' : α → σ → Prop} {R : β → σ → Prop} {E E' : ε → σ → Prop}
variable {x : Stateful ε σ α} {f : α → Stateful ε σ β}

/-- What a triple says of a computation that returned. -/
theorem of_ok (h : Triple P x Q E) {s s' : σ} {a : α} (hs : P s)
    (hrun : x.run s = (.ok a, s')) : Q a s' := by
  have hx := h s hs
  rw [hrun] at hx
  exact hx

/-- What a triple says of the state if it is the same for both outcomes. -/
theorem of_both {I : σ → Prop} (h : Triple P x (fun _ => I) fun _ => I) {s : σ} (hs : P s) :
    I (x.run s).2 := by
  have hx := h s hs
  generalize x.run s = r at hx ⊢
  obtain ⟨e | a, s'⟩ := r <;> exact hx

theorem mono (h : Triple P x Q E) (pre : ∀ s, P' s → P s) (post : ∀ a s, Q a s → Q' a s)
    (fail : ∀ e s, E e s → E' e s) : Triple P' x Q' E' := by
  intro s hs
  have hx := h s (pre s hs)
  generalize x.run s = r at hx ⊢
  obtain ⟨e | a, s'⟩ := r
  · exact fail e s' hx
  · exact post a s' hx

theorem pure {a : α} (h : ∀ s, P s → Q a s) : Triple P (Pure.pure a : Stateful ε σ α) Q E :=
  fun s hs => h s hs

theorem bind (hx : Triple P x Q E) (hf : ∀ a, Triple (Q a) (f a) R E) :
    Triple P (x >>= f) R E := by
  intro s hs
  have hxs := hx s hs
  change match (match x.run s with | (r, s') => ExceptT.bindCont f r s') with
    | (.ok a, s') => R a s'
    | (.error e, s') => E e s'
  generalize x.run s = r at hxs ⊢
  obtain ⟨e | a, s'⟩ := r
  · exact hxs
  · exact hf a s' hxs

theorem check {condition : Prop} [Decidable condition] {e : ε} (h : ∀ s, P s → E e s) :
    Triple P (Fallible.check condition e) (fun _ => P) E := by
  intro s hs
  unfold Fallible.check
  split_ifs
  · exact hs
  · exact h s hs

end Triple

end Fallible
