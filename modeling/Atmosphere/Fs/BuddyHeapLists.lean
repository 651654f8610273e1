import Atmosphere.Fs.BuddyHeap
import Atmosphere.Lib.FreeList.Basic

/-!
# The lists of the buddy heap

A page list and the links in memory hold a list of page entries. The operations change the links of
the entries of the list only, so that lists without a common entry can share the memory.
-/

namespace Atmosphere.Fs

open FreeList (IsChain)
open Function (update update_self update_of_ne)

private theorem getLast?_middle {l₁ l₂ : List ℕ} {e : ℕ} (h : l₂ ≠ []) :
    (l₁ ++ e :: l₂).getLast? = l₂.getLast? := by
  rw [List.getLast?_append, List.getLast?_cons]
  simp [List.getLast?_eq_some_getLast h]

namespace PageList

/-- The list has the given page entries. The pointers of an empty list may be anything. -/
structure Holds (l : PageList) (next : PageLinks) (entries : List ℕ) : Prop where
  chain : entries ≠ [] → IsChain next l.firstPageEntry entries
  count : l.entryCount = entries.length
  last : entries ≠ [] → l.lastPageEntry = entries.getLast?

variable {l : PageList} {next : PageLinks} {entries : List ℕ} {e : ℕ}

theorem Holds.congr (h : l.Holds next entries) {next' : PageLinks}
    (hnext : ∀ b ∈ entries, next' b = next b) : l.Holds next' entries :=
  ⟨fun hne => (h.chain hne).congr hnext, h.count, h.last⟩

theorem Holds.nodup (h : l.Holds next entries) : entries.Nodup := by
  by_cases hne : entries = []
  · rw [hne]
    exact .nil
  · exact (h.chain hne).nodup

theorem Holds.isEmpty_iff (h : l.Holds next entries) : l.isEmpty = true ↔ entries = [] := by
  rw [isEmpty, beq_iff_eq, h.count, List.length_eq_zero_iff]

theorem Holds.popFront (h : l.Holds next (e :: entries)) :
    ∃ l' next', l.popFront next = some (e, l', next') ∧ l'.Holds next' entries ∧
      ∀ b, b ∉ e :: entries → next' b = next b := by
  have hold := h.chain (by simp)
  have hfirst : l.firstPageEntry = some e := hold.head_eq
  have htail : IsChain next (next e) entries := @IsChain.after _ _ _ _ [] _ hold
  have hnotMem := (List.nodup_cons.mp hold.nodup).1
  unfold PageList.popFront
  rw [hfirst]
  refine ⟨_, _, rfl, ⟨?_, ?_, ?_⟩, ?_⟩
  · have hchain : IsChain (update next e none) (next e) entries :=
      htail.congr fun b hb => update_of_ne (ne_of_mem_of_not_mem hb hnotMem) _ _
    unfold clearLast
    split_ifs <;> exact fun _ => hchain
  · have hcount := h.count
    rw [List.length_cons] at hcount
    unfold clearLast
    split_ifs
    · change l.entryCount - 1 = _
      omega
    · change l.entryCount - 1 = _
      omega
  · intro hne
    have hlen := List.length_pos_iff.mpr hne
    have hcount := h.count
    rw [List.length_cons] at hcount
    unfold clearLast
    rw [if_neg (by change ¬ l.entryCount - 1 = 0; omega)]
    rw [h.last (by simp)]
    exact @getLast?_middle [] _ _ hne
  · intro b hb
    refine update_of_ne ?_ _ _
    rintro rfl
    exact hb (.head _)

theorem Holds.pushBack (h : l.Holds next entries) (he : e ∉ entries) :
    ∃ l' next', l.pushBack next e = some (l', next') ∧ l'.Holds next' (entries ++ [e]) ∧
      ∀ b, b ∉ entries → b ≠ e → next' b = next b := by
  rcases List.eq_nil_or_concat' entries with rfl | ⟨init, z, rfl⟩
  · have hempty : l.isEmpty = true := h.isEmpty_iff.mpr rfl
    unfold PageList.pushBack linkBack
    rw [if_pos hempty]
    refine ⟨_, _, rfl, ⟨?_, ?_, fun _ => rfl⟩, fun b _ hb => update_of_ne hb _ _⟩
    · refine fun _ => .cons ?_
      rw [update_self]
      exact .nil
    · rw [h.count]
      rfl
  · have hempty : ¬ l.isEmpty = true := fun heq => by simpa using h.isEmpty_iff.mp heq
    have hlast : l.lastPageEntry = some z := by
      rw [h.last (by simp), List.getLast?_concat]
    have hze : z ≠ e := fun heq => he (by simp [heq])
    have hz : z ∉ init := by
      have hnodup := h.nodup
      rw [List.nodup_append] at hnodup
      exact fun hmem => hnodup.2.2 z hmem z (by simp) rfl
    unfold PageList.pushBack linkBack
    rw [if_neg hempty, hlast]
    refine ⟨_, _, rfl, ⟨?_, ?_, fun _ => ?_⟩, fun b hb hbe => ?_⟩
    · intro _
      rw [List.append_assoc]
      refine (h.chain (by simp)).splice ?_ fun b hb => ?_
      · rw [update_of_ne hze, update_self]
        refine .cons ?_
        rw [update_self]
        exact .nil
      · rw [update_of_ne (ne_of_mem_of_not_mem (List.mem_append_left _ hb) he),
          update_of_ne (ne_of_mem_of_not_mem hb hz)]
    · rw [h.count]
      simp
    · rw [List.getLast?_concat]
    · have hbz : b ≠ z := by
        rintro rfl
        exact hb (List.mem_append_right _ (.head _))
      rw [update_of_ne hbe, update_of_ne hbz]

/-- An entry is unlinked from between its neighbours. -/
theorem Holds.unlink {l₁ l₂ : List ℕ} (h : l.Holds next (l₁ ++ e :: l₂)) :
    ∃ l' next', l.unlink next l₁.getLast? e = some (l', next') ∧
      PageList.Holds { l' with entryCount := l'.entryCount - 1 } (update next' e none) (l₁ ++ l₂) ∧
      ∀ b, b ∉ l₁ ++ e :: l₂ → next' b = next b := by
  have hold := h.chain (by simp)
  have hnodup := hold.nodup
  have hcount : l.entryCount - 1 = (l₁ ++ l₂).length := by
    rw [h.count]
    simp
  have hnotMem : e ∉ l₁ ++ l₂ := (List.nodup_middle.mp hnodup) |> List.nodup_cons.mp |>.1
  rcases List.eq_nil_or_concat' l₁ with rfl | ⟨init, p, rfl⟩
  · have hfirst : l.firstPageEntry = some e := hold.head_eq
    unfold PageList.unlink
    rw [if_pos hfirst]
    refine ⟨_, _, rfl, ⟨?_, hcount, fun hne => ?_⟩, fun b _ => rfl⟩
    · exact fun _ => (IsChain.after hold).congr fun b hb =>
        update_of_ne (ne_of_mem_of_not_mem hb (by simpa using hnotMem)) _ _
    · rw [h.last (by simp)]
      exact getLast?_middle hne
  · have hmem : p ∈ init ++ [p] := List.mem_append_right _ (.head _)
    have hpe : p ≠ e := ne_of_mem_of_not_mem (List.mem_append_left l₂ hmem) hnotMem
    have hp : p ∉ init := by
      intro hp
      rw [List.append_assoc, List.nodup_append] at hnodup
      exact hnodup.2.2 p hp p (by simp) rfl
    have hfirst : l.firstPageEntry ≠ some e := by
      rw [hold.head_eq]
      intro heq
      apply hnotMem
      cases init with
      | nil =>
        cases heq
        exact absurd rfl hpe
      | cons a init =>
        cases heq
        exact (.head _)
    have hnext : IsChain next (next e) l₂ := hold.after
    -- in both cases the previous entry is linked to what follows
    have hchain : ∀ next' : PageLinks, next' = update next p (next e) →
        IsChain (update next' e none) l.firstPageEntry (init ++ [p] ++ l₂) := by
      rintro next' rfl
      rw [List.append_assoc] at hold ⊢
      refine hold.splice ?_ fun b hb => ?_
      · rw [update_of_ne hpe, update_self]
        refine hnext.congr fun b hb => ?_
        have hbe : b ≠ e := ne_of_mem_of_not_mem (List.mem_append_right _ hb) hnotMem
        have hbp : b ≠ p := by
          rintro rfl
          rw [List.nodup_append] at hnodup
          exact hnodup.2.2 b hmem b (.tail _ hb) rfl
        rw [update_of_ne hbe, update_of_ne hbp]
      · have hbe : b ≠ e := ne_of_mem_of_not_mem
          (List.mem_append_left l₂ (List.mem_append_left _ hb)) hnotMem
        rw [update_of_ne hbe, update_of_ne (ne_of_mem_of_not_mem hb hp)]
    have hframe : ∀ (v : Option ℕ) (b : ℕ), b ∉ init ++ [p] ++ e :: l₂ →
        update next p v b = next b := by
      intro v b hb
      refine update_of_ne ?_ _ _
      rintro rfl
      exact hb (List.mem_append_left _ hmem)
    unfold PageList.unlink
    rw [if_neg hfirst, List.getLast?_concat]
    by_cases hlast : l.lastPageEntry = some e
    · have hl₂ : l₂ = [] := by
        by_contra hne
        rw [h.last (by simp), getLast?_middle hne] at hlast
        exact hnotMem (List.mem_append_right _ (List.mem_of_getLast? hlast))
      subst hl₂
      rw [if_pos hlast]
      refine ⟨_, _, rfl, ⟨fun _ => hchain _ ?_, hcount, fun _ => ?_⟩, hframe none⟩
      · rw [hnext.head_eq]
        rfl
      · rw [List.append_nil, List.getLast?_concat]
    · have hne : l₂ ≠ [] := by
        rintro rfl
        exact hlast (by rw [h.last (by simp), List.getLast?_concat])
      rw [if_neg hlast]
      refine ⟨_, _, rfl, ⟨fun _ => hchain _ rfl, hcount, fun _ => ?_⟩, hframe _⟩
      rw [h.last (by simp), getLast?_middle hne, List.getLast?_append_of_ne_nil _ hne]

/-- What the search for an entry finds, from some entry of the list on. -/
theorem Holds.removeLoop {l₁ l₂ : List ℕ} {cur rounds : ℕ} (h : l.Holds next (l₁ ++ cur :: l₂))
    (hrounds : l₂.length < rounds) (he : e ∉ l₁) :
    (e ∉ cur :: l₂ → l.removeLoop next e rounds l₁.getLast? cur = some (false, l, next)) ∧
    (e ∈ cur :: l₂ → ∃ l' next',
      l.removeLoop next e rounds l₁.getLast? cur = some (true, l', next') ∧
      l'.Holds next' ((l₁ ++ cur :: l₂).erase e) ∧
      ∀ b, b ∉ l₁ ++ cur :: l₂ → next' b = next b) := by
  obtain ⟨rounds, rfl⟩ := Nat.exists_eq_succ_of_ne_zero (Nat.ne_of_gt (Nat.zero_lt_of_lt hrounds))
  unfold PageList.removeLoop
  by_cases hcur : cur = e
  · subst hcur
    refine ⟨fun hnot => absurd List.mem_cons_self hnot, fun _ => ?_⟩
    obtain ⟨l', next', hunlink, hholds, hframe⟩ := h.unlink
    rw [if_pos rfl, hunlink]
    refine ⟨_, _, rfl, ?_, fun b hb => ?_⟩
    · rw [List.erase_append_right _ he, List.erase_cons_head]
      exact hholds
    · refine (update_of_ne ?_ _ _).trans (hframe b hb)
      rintro rfl
      exact hb (List.mem_append_right _ (.head _))
  · have hnext : next cur = l₂.head? := (h.chain (by simp)).after.head_eq
    rw [if_neg hcur, hnext]
    cases l₂ with
    | nil =>
      refine ⟨fun _ => rfl, fun hmem => ?_⟩
      exact absurd (List.mem_singleton.mp hmem).symm hcur
    | cons b l₂ =>
      have hlist : l₁ ++ cur :: b :: l₂ = l₁ ++ [cur] ++ b :: l₂ := by simp
      have hlast : (l₁ ++ [cur]).getLast? = some cur := List.getLast?_concat
      rw [hlist] at h ⊢
      have hrec := @Holds.removeLoop (l₁ ++ [cur]) l₂ b rounds h
        (by rw [List.length_cons] at hrounds; omega) (by simp [he, Ne.symm hcur])
      rw [hlast] at hrec
      refine ⟨fun hnot => hrec.1 fun hmem => hnot (.tail _ hmem), fun hmem => ?_⟩
      rcases List.mem_cons.mp hmem with rfl | hmem
      · exact absurd rfl hcur
      · exact hrec.2 hmem
termination_by l₂.length

theorem Holds.remove (h : l.Holds next entries) :
    (e ∉ entries → l.remove next e = some (false, l, next)) ∧
    (e ∈ entries → ∃ l' next', l.remove next e = some (true, l', next') ∧
      l'.Holds next' (entries.erase e) ∧ ∀ b, b ∉ entries → next' b = next b) := by
  unfold PageList.remove
  cases entries with
  | nil =>
    rw [if_pos (h.isEmpty_iff.mpr rfl)]
    exact ⟨fun _ => rfl, nofun⟩
  | cons first rest =>
    have hempty : ¬ l.isEmpty = true := fun heq => by simpa using h.isEmpty_iff.mp heq
    have hfirst : l.firstPageEntry = some first := (h.chain (by simp)).head_eq
    rw [if_neg hempty, hfirst]
    exact @Holds.removeLoop l next e [] rest first _ h (by rw [h.count]; simp) (by simp)

end PageList

end Atmosphere.Fs
