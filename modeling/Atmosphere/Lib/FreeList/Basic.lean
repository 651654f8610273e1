import Mathlib

/-!
# Singly linked free lists

The free nodes of a store are linked through a field that other nodes use for
something else. `IsChain next head l` says that following `next` from `head` visits
the nodes `l` and ends, so a chain has no cycle.
-/

namespace FreeList

variable {ι : Type*} {next next' : ι → Option ι} {head : Option ι} {i : ι} {l l' : List ι}

/-- The links from `head` on visit the nodes `l` and end. -/
inductive IsChain (next : ι → Option ι) : Option ι → List ι → Prop
  | nil : IsChain next none []
  | cons {i : ι} {l : List ι} : IsChain next (next i) l → IsChain next (some i) (i :: l)

namespace IsChain

section

variable (h : IsChain next head l)
include h

/-- Only the links of the visited nodes matter. -/
theorem congr (hnext : ∀ j ∈ l, next' j = next j) : IsChain next' head l := by
  induction h with
  | nil => exact .nil
  | cons _ ih =>
    refine .cons ?_
    rw [hnext _ (.head _)]
    exact ih fun j hj => hnext j (.tail _ hj)

theorem unique (h' : IsChain next head l') : l = l' := by
  induction h generalizing l' with
  | nil =>
    cases h'
    rfl
  | cons _ ih =>
    cases h' with
    | cons htail => rw [ih htail]

/-- A chain from one of its nodes is shorter. -/
theorem exists_of_mem (hi : i ∈ l) : ∃ l', l'.length < l.length ∧ IsChain next (next i) l' := by
  induction h with
  | nil => cases hi
  | @cons j l htail ih =>
    rcases List.mem_cons.mp hi with rfl | hmem
    · exact ⟨l, Nat.lt_succ_self _, htail⟩
    · obtain ⟨l', hlt, hchain⟩ := ih hmem
      exact ⟨l', Nat.lt_succ_of_lt hlt, hchain⟩

theorem nodup : l.Nodup := by
  induction h with
  | nil => exact List.nodup_nil
  | @cons j l htail ih =>
    refine List.nodup_cons.mpr ⟨fun hmem => ?_, ih⟩
    obtain ⟨l', hlt, hchain⟩ := htail.exists_of_mem hmem
    rw [htail.unique hchain] at hlt
    exact Nat.lt_irrefl _ hlt

/-- A node that links to itself is on no chain. -/
theorem next_ne (hi : i ∈ l) : next i ≠ some i := by
  intro hself
  obtain ⟨l', -, hchain⟩ := h.exists_of_mem hi
  have hcons : IsChain next (some i) (i :: l') := .cons hchain
  rw [hself] at hchain
  have heq := congrArg List.length (hchain.unique hcons)
  simp at heq

theorem head_eq : head = l.head? := by
  cases h with
  | nil | cons _ => rfl

end

/-- What follows a node is a chain of its own. -/
theorem after {l₁ l₂ : List ι} (h : IsChain next head (l₁ ++ i :: l₂)) :
    IsChain next (next i) l₂ := by
  induction l₁ generalizing head with
  | nil =>
    cases h with
    | cons htail => exact htail
  | cons j l₁ ih =>
    cases h with
    | cons htail => exact ih htail

/-- Another chain follows a node. -/
theorem splice {l₁ l₂ l₂' : List ι} (h : IsChain next head (l₁ ++ i :: l₂))
    (htail : IsChain next' (next' i) l₂') (hnext : ∀ j ∈ l₁, next' j = next j) :
    IsChain next' head (l₁ ++ i :: l₂') := by
  induction l₁ generalizing head with
  | nil =>
    cases h with
    | cons _ => exact .cons htail
  | cons j l₁ ih =>
    cases h with
    | cons hrest =>
      refine .cons ?_
      rw [hnext j (.head _)]
      exact ih hrest fun b hb => hnext b (.tail _ hb)

variable [DecidableEq ι]

/-- A node that is not on the chain goes to its front. -/
theorem push (h : IsChain next head l) (hi : i ∉ l) :
    IsChain (Function.update next i head) (some i) (i :: l) := by
  refine .cons ?_
  rw [Function.update_self]
  refine h.congr fun j hj => Function.update_of_ne ?_ _ _
  rintro rfl
  exact hi hj

end IsChain

end FreeList
