import Atmosphere.Kern.MemoryBlockSpec

/-!
# An address space as a function of its addresses

The lock functions are about pages and about the two ends of a range, not about
blocks. A `SpaceView` gives for every address the properties of its page and
the merge-disable state a block boundary there has on either side. A lock is a
function on views. A tree refines a view: `UpdateLock` computes the lock of the
view, as long as coalescing hides no merge-disable state, and a well-formed tree
is determined by its view.
-/

namespace Atmosphere.Kern

open Tiling

/-- What an address space shows at each address. -/
@[ext] structure SpaceView where
  page : ℕ → Option PageProperties
  left : ℕ → LeftMark
  right : ℕ → RightMark

namespace SpaceView

/-- The lock function `f` applied to the range `[a, e)`. -/
def lock (f : MemoryBlockLockFunction) (perm : KMemoryPermission) (a e : ℕ) (s : SpaceView) :
    SpaceView where
  page x := if a ≤ x ∧ x < e then (s.page x).map (f.onPage perm) else s.page x
  left x := if a ≤ x ∧ x < e then
      (s.page x).elim (s.left x) fun v => f.onLeft v (x == a) (s.left x)
    else s.left x
  right x := if a < x ∧ x ≤ e then f.onRight (x == e) (s.right x) else s.right x

/-- A boundary at `x` would be removed by coalescing. -/
def Joinable (s : SpaceView) (x : ℕ) : Prop :=
  s.page (x - 1) = s.page x ∧ (s.right x).Open ∧ (s.left x).Open

/-- Removing a boundary inside `(st, nd)` would hide nothing. -/
def JoinsHideNothing (s : SpaceView) (st nd : ℕ) : Prop :=
  ∀ x, st < x → x < nd → s.Joinable x → s.left x = .clear ∧ s.right x = .clear

variable {f : MemoryBlockLockFunction} {perm : KMemoryPermission} {a e x : ℕ} {s : SpaceView}

theorem lock_page_inside (hx : a ≤ x ∧ x < e) :
    (s.lock f perm a e).page x = (s.page x).map (f.onPage perm) := if_pos hx

theorem lock_page_outside (hx : x < a ∨ e ≤ x) : (s.lock f perm a e).page x = s.page x :=
  if_neg (by omega)

theorem lock_left_inside {v : PageProperties} (hx : a ≤ x ∧ x < e) (hv : s.page x = some v) :
    (s.lock f perm a e).left x = f.onLeft v (x == a) (s.left x) := by
  simp only [lock, if_pos hx, hv, Option.elim_some]

theorem lock_left_outside (hx : x < a ∨ e ≤ x) : (s.lock f perm a e).left x = s.left x :=
  if_neg (by omega)

/-- A lock function that marks only the left end of its range. -/
theorem lock_left_of_ne (hf : ∀ v l, f.onLeft v false l = l) (hx : x ≠ a) :
    (s.lock f perm a e).left x = s.left x := by
  have hne : (x == a) = false := beq_eq_false_iff_ne.mpr hx
  cases hv : s.page x <;>
    simp only [lock, hv, hne, hf, Option.elim_none, Option.elim_some, ite_self]

theorem lock_right_inside (hx : a < x ∧ x ≤ e) :
    (s.lock f perm a e).right x = f.onRight (x == e) (s.right x) := if_pos hx

theorem lock_right_outside (hx : x ≤ a ∨ e < x) : (s.lock f perm a e).right x = s.right x :=
  if_neg (by omega)

end SpaceView

namespace KMemoryBlockManager

variable {m m' : KMemoryBlockManager} {a e x : ℕ} {f : MemoryBlockLockFunction}
variable {perm : KMemoryPermission} {mid : List KMemoryBlockNode}

/-- The view of a tree. -/
def view (m : KMemoryBlockManager) : SpaceView := ⟨m.propertiesAt, m.leftMarkAt, m.rightMarkAt⟩

@[simp] theorem view_left : m.view.left = m.leftMarkAt := by simp [view]
@[simp] theorem view_right : m.view.right = m.rightMarkAt := by simp [view]

theorem WellFormed.exists_page (hwf : m.WellFormed) (hst : m.startAddress ≤ x)
    (hnd : x < m.endAddress) : ∃ v, m.propertiesAt x = some v := by
  obtain ⟨node, hnode, hlo, hhi⟩ := hwf.tiles.exists_block hst hnd
  exact ⟨_, (hwf.tiles.shown hnode).2.2 x hlo hhi⟩

/-- Where no block starts, both sides belong to one block. -/
theorem WellFormed.view_of_not_isBoundary (hwf : m.WellFormed) (hst : m.startAddress < x)
    (hnd : x < m.endAddress) (hx : ¬ m.IsBoundary x) :
    m.propertiesAt (x - 1) = m.propertiesAt x ∧ m.leftMarkAt x = .clear ∧
      m.rightMarkAt x = .clear := by
  have hstart : ¬ blockShape.IsStart m.memoryBlockTree x := fun h => hx (.inl h)
  refine ⟨?_, Shape.Tiles.leftAt_of_not_isStart hstart,
    hwf.tiles.rightAt_of_not_isStart hstart (by omega)⟩
  obtain ⟨node, hnode, hlo, hhi⟩ := hwf.tiles.exists_block hst.le hnd
  have hshown := (hwf.tiles.shown hnode).2.2
  have hne : blockShape.lo node ≠ x := fun h => hstart ⟨node, hnode, h⟩
  rw [propertiesAt, propertiesAt, hshown x hlo hhi, hshown (x - 1) (by omega) (by omega)]

theorem isBoundary_of_leftMarkAt_ne (hx : m.leftMarkAt x ≠ .clear) : m.IsBoundary x := by
  by_contra hno
  exact hx (Shape.Tiles.leftAt_of_not_isStart fun h => hno (.inl h))

/-- Coalescing hides nothing in a view that is finer than that of a well-formed
tree: a boundary that can be removed is either one of the tree, which keeps
its sides apart, or has no mark of the tree. -/
theorem WellFormed.joinsHideNothing {s : SpaceView} {P : ℕ → PageProperties → PageProperties → Prop}
    (hwf : m.WellFormed)
    (hpage : ∀ x v₀, m.propertiesAt x = some v₀ → ∃ v, s.page x = some v ∧ P x v₀ v)
    (hunique : ∀ {x y v₀ w₀ v}, m.propertiesAt x = some v₀ → m.propertiesAt y = some w₀ →
      P x v₀ v → P y w₀ v → v₀ = w₀)
    (hleft : ∀ x, (s.left x).Open → s.left x = m.leftMarkAt x)
    (hright : ∀ x, (s.right x).Open → s.right x = m.rightMarkAt x) :
    s.JoinsHideNothing m.startAddress m.endAddress := by
  intro x hst hnd hjoin
  obtain ⟨hsame, hopenR, hopenL⟩ := hjoin
  have hl := hleft x hopenL
  have hr := hright x hopenR
  rw [hl] at hopenL ⊢
  rw [hr] at hopenR ⊢
  by_cases hx : m.IsBoundary x
  · obtain ⟨v₀, hv₀⟩ := hwf.exists_page (x := x) hst.le hnd
    obtain ⟨w₀, hw₀⟩ := hwf.exists_page (x := x - 1) (by omega) (by omega)
    obtain ⟨v, hv, hn⟩ := hpage x v₀ hv₀
    obtain ⟨w, hw, hn'⟩ := hpage (x - 1) w₀ hw₀
    have hvw : w = v := by simpa [hv, hw] using hsame
    have hsame₀ : m.propertiesAt (x - 1) = m.propertiesAt x := by
      rw [hv₀, hw₀, hunique hw₀ hv₀ hn' (hvw ▸ hn)]
    exact absurd ⟨hsame₀, hopenR, hopenL⟩
      (hwf.tiles.maximal_iff.mp hwf.maximal x (hx.resolve_right (by omega)) hst)
  · exact (hwf.view_of_not_isBoundary hst hnd hx).2

/-- A block is determined by what it shows and where. -/
def blockOfKey (key : ℕ × ℕ × PageProperties × LeftMark × RightMark) : KMemoryBlock :=
  (KMemoryBlock.constantInitialize key.1 ((key.2.1 - key.1) / pageSize) 0 0 0).withParts
    key.2.2.1 key.2.2.2.1 key.2.2.2.2

theorem blockOfKey_key (node : KMemoryBlockNode) :
    blockOfKey (blockShape.key node) = node.block := by
  refine KMemoryBlock.eq_of_parts rfl ?_ rfl rfl rfl
  change (node.block.address + node.block.numPages * pageSize - node.block.address) / pageSize =
    node.block.numPages
  rw [Nat.add_sub_cancel_left, Nat.mul_div_cancel _ pageSize_pos]

/-- A well-formed tree is determined by its view. -/
theorem WellFormed.blocks_eq_of_view (hwf : m.WellFormed) (hwf' : m'.WellFormed)
    (hstart : m'.startAddress = m.startAddress) (hend : m'.endAddress = m.endAddress)
    (hview : m'.view = m.view) :
    m'.memoryBlockTree.map KMemoryBlockNode.block =
      m.memoryBlockTree.map KMemoryBlockNode.block := by
  have htiles' : blockShape.Tiles m.startAddress m'.memoryBlockTree m.endAddress := by
    rw [← hstart, ← hend]
    exact hwf'.tiles
  have hkeys := Shape.map_key_eq_of_views htiles' hwf.tiles hwf'.maximal hwf.maximal
    (congrFun (congrArg SpaceView.page hview)) (congrFun (congrArg SpaceView.left hview))
    (congrFun (congrArg SpaceView.right hview))
  have hblocks := congrArg (List.map blockOfKey) hkeys
  simpa only [List.map_map, Function.comp_def, blockOfKey_key] using hblocks

variable {numPages : ℕ}

theorem IsRange.congr (h : m.IsRange a numPages) (hstart : m'.startAddress = m.startAddress)
    (hend : m'.endAddress = m.endAddress) : m'.IsRange a numPages :=
  ⟨h.aligned, h.pos, hstart ▸ h.start_le, hend ▸ h.le_end⟩

theorem IsRange.lt_end (h : m.IsRange a numPages) : a < a + numPages * pageSize :=
  Nat.lt_add_of_pos_right (Nat.mul_pos h.pos pageSize_pos)

theorem IsRange.exists_page (h : m.IsRange a numPages) (hwf : m.WellFormed) (hlo : a ≤ x)
    (hhi : x < a + numPages * pageSize) : ∃ v, m.propertiesAt x = some v :=
  hwf.exists_page (h.start_le.trans hlo) (hhi.trans_le h.le_end)

/-- `UpdateLock` that returns. -/
theorem locks_of_updateLock {alloc alloc' : KMemoryBlockManagerUpdateAllocator} {ps : List ℕ}
    (hwf : m.WellFormed) (hrange : m.IsRange a numPages) (hps : alloc.Holds ps)
    (hneed : m.blocksNeeded a (a + numPages * pageSize) ≤ ps.length)
    (hok : m.updateLock alloc a numPages f perm = .ok (m', alloc')) :
    m.AdmitsLock a (a + numPages * pageSize) f ∧
      ∃ mid, m.Locks a (a + numPages * pageSize) f perm mid m' := by
  obtain ⟨_, p, herr⟩ | ⟨hadm, n', mid, _, _, hok', hlocks, _⟩ :=
    updateLock_cases hwf hrange hps hneed f perm
  · rw [herr] at hok
    cases hok
  · rw [hok'] at hok
    cases hok
    exact ⟨hadm, mid, hlocks⟩

variable (h : m.Locks a e f perm mid m') (hwf : m.WellFormed) (hst : m.startAddress ≤ a)
  (hnd : e ≤ m.endAddress)
include h hwf hst hnd

/-- `UpdateLock` before coalescing computes the lock of the view. -/
theorem Locks.view_mid :
    (⟨blockShape.valAt mid, blockShape.leftAt mid, blockShape.rightAt mid⟩ : SpaceView) =
      m.view.lock f perm a e := by
  have himage : ∀ b b', Replaces (fun b left right => f.call b perm left right) a e b b' →
      b'.block = f.image perm (b.block.address == a) (b.block.getEndAddress == e) b.block :=
    fun b b' hP => (MemoryBlockLockFunction.call_eq_ok_iff.mp hP.2).2
  ext1
  · funext x
    exact h.paints.valAt (fun _ hb => hb.elim)
      (fun b b' _ hP => by rw [blockShape_val, himage b b' hP]; rfl) x
  · funext x
    by_cases hx : a ≤ x ∧ x < e
    · obtain ⟨v, hv⟩ := hwf.exists_page (x := x) (by omega) (by omega)
      rw [SpaceView.lock_left_inside hx hv]
      exact h.paints.leftAt_inside hwf.tiles
        (fun b b' hP => by rw [blockShape_left, himage b b' hP]; rfl) (f.onLeft_clear ·) hv hx
    · rw [SpaceView.lock_left_outside (by omega)]
      exact h.paints.leftAt_outside hwf.tiles (by omega)
  · funext x
    by_cases hx : a < x ∧ x ≤ e
    · obtain ⟨v, hv⟩ := hwf.exists_page (x := x - 1) (by omega) (by omega)
      rw [SpaceView.lock_right_inside hx]
      exact h.paints.rightAt_inside (f := fun _ => f.onRight) hwf.tiles
        (fun b b' hP => by rw [blockShape_right, himage b b' hP]; rfl) (fun _ => by cases f <;> rfl)
        hv hx
    · rw [SpaceView.lock_right_outside (by omega)]
      exact h.paints.rightAt_outside hwf.tiles (by omega)

/-- `UpdateLock` computes the lock of the view, if coalescing hides nothing. -/
theorem Locks.view_eq
    (hjoins : (m.view.lock f perm a e).JoinsHideNothing m.startAddress m.endAddress) :
    m'.view = m.view.lock f perm a e := by
  have hmid := h.view_mid hwf hst hnd
  have htiles := h.paints.tiles hwf.tiles
  rw [← hmid] at hjoins ⊢
  have hmarks := h.merges.marks_eq htiles fun x hx hlt hm =>
    hjoins x hlt (htiles.isStart_bounds hx).2 hm
  ext1
  · exact funext fun x => h.merges.valAt htiles x
  · exact funext fun x => (hmarks x).1
  · exact funext fun x => (hmarks x).2

end KMemoryBlockManager

end Atmosphere.Kern
