import Atmosphere.Kern.Basic

/-!
# Page groups

`KPageGroup` lists the physical pages of an allocation as blocks of consecutive
pages, in the order in which they were added.
-/

namespace Atmosphere.Kern

open Finset

/-- `KBlockInfo`; page indices and counts are below `2 ^ 32` for every physical address. -/
structure KBlockInfo where
  pageIndex : ℕ
  numPages : ℕ
  deriving DecidableEq, Repr

namespace KBlockInfo

variable (b : KBlockInfo)

def getAddress : ℕ := b.pageIndex * pageSize
def getNumPages : ℕ := b.numPages
def getEndAddress : ℕ := (b.pageIndex + b.numPages) * pageSize

def tryConcatenate (addr np : ℕ) : Option KBlockInfo :=
  if addr ≠ 0 ∧ addr = b.getEndAddress then some { b with numPages := b.numPages + np } else none

/-- The pages of the block. -/
def pages : Finset ℕ := Ico b.pageIndex (b.pageIndex + b.numPages)

end KBlockInfo

/-- `KBlockInfoManager`, by what the `i`-th `Allocate` of a group gives. -/
abbrev KBlockInfoManager := ℕ → Bool

/-- `KPageGroup`. -/
abbrev KPageGroup := List KBlockInfo

namespace KPageGroup

/-- The list with its last block replaced. -/
def setLast (g : KPageGroup) (b : KBlockInfo) : KPageGroup := g.dropLast ++ [b]

/-- `AddBlock`. The group has allocated one block information for each of its blocks. -/
def addBlock (g : KPageGroup) (manager : KBlockInfoManager) (addr numPages : ℕ) :
    Except SvcResult KPageGroup :=
  if numPages = 0 then .ok g
  else
    match g.getLast?.bind (·.tryConcatenate addr numPages) with
    | some b => .ok (g.setLast b)
    | none =>
      if manager g.length then .ok (g ++ [{ pageIndex := addr / pageSize, numPages := numPages }])
      else .error .outOfResource

def getNumPages (g : KPageGroup) : ℕ := (g.map KBlockInfo.getNumPages).sum

/-- The pages of the group. -/
def pages : KPageGroup → Finset ℕ
  | [] => ∅
  | b :: rest => b.pages ∪ pages rest

/-- No page is in two blocks. -/
def Apart (g : KPageGroup) : Prop := g.Pairwise fun b b' => Disjoint b.pages b'.pages

variable {g g' : KPageGroup} {b : KBlockInfo} {x k : ℕ} {infos : KBlockInfoManager}

theorem mem_pages : x ∈ pages g ↔ ∃ b ∈ g, x ∈ b.pages := by
  induction g with
  | nil => simp [pages]
  | cons b rest ih => simp [pages, ih]

theorem pages_append (g h : KPageGroup) : pages (g ++ h) = pages g ∪ pages h := by
  ext x
  simp only [mem_pages, mem_union, List.mem_append, or_and_right, exists_or]

theorem getNumPages_append (g h : KPageGroup) :
    getNumPages (g ++ h) = getNumPages g + getNumPages h := by
  simp [getNumPages]

theorem length_le_getNumPages (h : ∀ b ∈ g, 0 < b.numPages) : g.length ≤ getNumPages g := by
  rw [← List.length_map KBlockInfo.getNumPages]
  apply List.length_le_sum_of_one_le
  intro n hn
  obtain ⟨b, hb, rfl⟩ := List.mem_map.mp hn
  exact h b hb

theorem disjoint_pages_iff {s : Finset ℕ} : Disjoint s (pages g) ↔ ∀ b ∈ g, Disjoint s b.pages := by
  simp only [disjoint_left, mem_pages, not_exists, not_and]
  exact ⟨fun h b hb x hx => h hx b hb, fun h x hx b hb => h b hb hx⟩

theorem Apart.card_pages (h : Apart g) : (pages g).card = getNumPages g := by
  induction g with
  | nil => rfl
  | cons b rest ih =>
    obtain ⟨hhead, hrest⟩ := List.pairwise_cons.mp h
    have hcard : b.pages.card = b.getNumPages := by simp [KBlockInfo.pages, KBlockInfo.getNumPages]
    rw [pages, card_union_of_disjoint (disjoint_pages_iff.mpr hhead), ih hrest, hcard]
    rfl

theorem apart_append_singleton : Apart (g ++ [b]) ↔ Apart g ∧ Disjoint b.pages (pages g) := by
  rw [Apart, List.pairwise_append, disjoint_pages_iff]
  simp only [List.pairwise_singleton, List.mem_singleton, forall_eq, true_and]
  exact and_congr_right fun _ => forall₂_congr fun _ _ => disjoint_comm

/-- What `AddBlock` does with the pages from `p` to `p + k`: they are appended to the last
block, or become a block of their own. -/
theorem addBlock_cases (g : KPageGroup) (infos : KBlockInfoManager) (p : ℕ) (hk : 0 < k) :
    (∃ g₀ b, g = g₀ ++ [b] ∧ b.pageIndex + b.numPages = p ∧
        addBlock g infos (p * pageSize) k = .ok (g₀ ++ [⟨b.pageIndex, b.numPages + k⟩])) ∨
      (infos g.length = true ∧ addBlock g infos (p * pageSize) k = .ok (g ++ [⟨p, k⟩])) ∨
      (infos g.length = false ∧ addBlock g infos (p * pageSize) k = .error .outOfResource) := by
  have hindex : p * pageSize / pageSize = p := Nat.mul_div_cancel p pageSize_pos
  rw [addBlock, if_neg hk.ne', hindex]
  cases hlast : g.getLast?.bind (·.tryConcatenate (p * pageSize) k) with
  | none =>
    by_cases hinfo : infos g.length = true
    · exact .inr (.inl ⟨hinfo, if_pos hinfo⟩)
    · exact .inr (.inr ⟨by simpa using hinfo, if_neg hinfo⟩)
  | some b' =>
    obtain ⟨b, hb, hconcat⟩ := Option.bind_eq_some_iff.mp hlast
    obtain ⟨g₀, rfl⟩ := List.getLast?_eq_some_iff.mp hb
    rw [KBlockInfo.tryConcatenate, Option.ite_none_right_eq_some] at hconcat
    obtain ⟨⟨_, hend⟩, hb'⟩ := hconcat
    refine .inl ⟨g₀, b, rfl, ?_, ?_⟩
    · exact (Nat.eq_of_mul_eq_mul_right pageSize_pos hend).symm
    · obtain rfl := Option.some.inj hb'
      simp only [setLast, List.dropLast_concat]

theorem infos_of_addBlock_error {p : ℕ} {e : SvcResult} (hk : 0 < k)
    (hadd : addBlock g infos (p * pageSize) k = .error e) : infos g.length = false := by
  obtain ⟨_, _, _, _, hrun⟩ | ⟨_, hrun⟩ | ⟨hinfo, _⟩ := addBlock_cases g infos p hk
  · simp [hrun] at hadd
  · simp [hrun] at hadd
  · exact hinfo

/-- `AddBlock` of pages that are not in the group. -/
theorem addBlock_spec {p : ℕ} (hk : 0 < k)
    (hg : Apart g) (hnew : Disjoint (Ico p (p + k)) (pages g))
    (hadd : addBlock g infos (p * pageSize) k = .ok g') :
    Apart g' ∧ pages g' = pages g ∪ Ico p (p + k) ∧ getNumPages g' = getNumPages g + k := by
  obtain ⟨g₀, b, rfl, hend, hrun⟩ | ⟨_, hrun⟩ | ⟨_, hrun⟩ :=
    addBlock_cases g infos p hk
  · obtain rfl := Except.ok.inj (hrun.symm.trans hadd)
    have hpages : (⟨b.pageIndex, b.numPages + k⟩ : KBlockInfo).pages = b.pages ∪ Ico p (p + k) := by
      rw [KBlockInfo.pages, KBlockInfo.pages, hend, Ico_union_Ico_eq_Ico (by omega) (by omega)]
      congr 1
      change b.pageIndex + (b.numPages + k) = _
      omega
    obtain ⟨hg₀, hb⟩ := apart_append_singleton.mp hg
    rw [pages_append, disjoint_union_right] at hnew
    refine ⟨apart_append_singleton.mpr ⟨hg₀, ?_⟩, ?_, ?_⟩
    · rw [hpages, disjoint_union_left]
      exact ⟨hb, hnew.1⟩
    · rw [pages_append, pages_append, union_assoc]
      simp only [pages, union_empty, hpages]
    · rw [getNumPages_append, getNumPages_append]
      simp only [getNumPages, List.map_cons, List.map_nil, List.sum_cons, List.sum_nil,
        KBlockInfo.getNumPages]
      omega
  · obtain rfl := Except.ok.inj (hrun.symm.trans hadd)
    refine ⟨apart_append_singleton.mpr ⟨hg, hnew⟩, ?_, ?_⟩
    · rw [pages_append]
      simp only [pages, union_empty, KBlockInfo.pages]
    · simp [getNumPages, KBlockInfo.getNumPages]
  · rw [hrun] at hadd
    cases hadd

/-- What holds of all blocks holds of them after `AddBlock`, if it holds of the new block and
of a block that the new one continues. -/
theorem addBlock_forall {P : KBlockInfo → Prop} {p : ℕ} (hk : 0 < k) (hg : ∀ b ∈ g, P b)
    (hnew : P ⟨p, k⟩)
    (hmerge : ∀ b ∈ g, P b → b.pageIndex + b.numPages = p → P ⟨b.pageIndex, b.numPages + k⟩)
    (hadd : addBlock g infos (p * pageSize) k = .ok g') : ∀ b ∈ g', P b := by
  obtain ⟨g₀, b, rfl, hend, hrun⟩ | ⟨_, hrun⟩ | ⟨_, hrun⟩ := addBlock_cases g infos p hk
  · obtain rfl := Except.ok.inj (hrun.symm.trans hadd)
    have hmem : b ∈ g₀ ++ [b] := List.mem_append_right _ (List.mem_singleton_self b)
    rw [List.forall_mem_append, List.forall_mem_singleton] at hg ⊢
    exact ⟨hg.1, hmerge b hmem hg.2 hend⟩
  · obtain rfl := Except.ok.inj (hrun.symm.trans hadd)
    rw [List.forall_mem_append, List.forall_mem_singleton]
    exact ⟨hg, hnew⟩
  · rw [hrun] at hadd
    cases hadd

end KPageGroup

end Atmosphere.Kern
