import Atmosphere.Kern.MemoryBlockManager

/-!
# What the update loops do to a tree

A tree of blocks is a tiling: a block shows its page properties at every
position of its extent and its merge-disable state at its two ends. Splitting
a block is a cut, adding a block to its predecessor is a join, so that the loop
of the update functions is a painting pass and the coalescing a joining pass.
-/

namespace Atmosphere.Kern

open Tiling

/-- What a node shows, in the sense of tilings. -/
def blockShape : Shape KMemoryBlockNode PageProperties LeftMark RightMark where
  lo node := node.block.address
  hi node := node.block.getEndAddress
  val node := node.block.properties
  left node := node.block.leftMark
  right node := node.block.rightMark
  noLeft := .clear
  noRight := .clear
  leftOpen := LeftMark.Open
  rightOpen := RightMark.Open
  leftOpen_noLeft := ⟨rfl, rfl, rfl, rfl⟩
  rightOpen_noRight := rfl

section blockShape

variable (node : KMemoryBlockNode)

@[simp] theorem blockShape_lo : blockShape.lo node = node.block.address := rfl
@[simp] theorem blockShape_hi : blockShape.hi node = node.block.getEndAddress := rfl
@[simp] theorem blockShape_val : blockShape.val node = node.block.properties := rfl
@[simp] theorem blockShape_left : blockShape.left node = node.block.leftMark := rfl
@[simp] theorem blockShape_right : blockShape.right node = node.block.rightMark := rfl
end blockShape

theorem mergeable_iff (p q : KMemoryBlockNode) :
    blockShape.Mergeable p q ↔ p.block.canMergeWith q.block = true :=
  (KMemoryBlock.canMergeWith_iff p.block q.block).symm

/-- `Split` at a page boundary inside the block cuts it. -/
theorem split_isCut {node : KMemoryBlockNode} {x p : ℕ} (hlo : node.block.address < x)
    (hhi : x < node.block.getEndAddress) (hd : pageSize ∣ x - node.block.address) :
    blockShape.IsCut node x ⟨p, (node.block.split x).1⟩ ⟨node.pointer, (node.block.split x).2⟩ := by
  have hdiv : (x - node.block.address) / pageSize * pageSize = x - node.block.address :=
    Nat.div_mul_cancel hd
  refine ⟨hlo, hhi, rfl, ?_, rfl, ?_, rfl, rfl, ?_, ?_, ?_, ?_⟩
  · change node.block.address + (x - node.block.address) / pageSize * pageSize = x
    omega
  · change x + (node.block.numPages - (x - node.block.address) / pageSize) * pageSize =
      node.block.address + node.block.numPages * pageSize
    change x < node.block.address + node.block.numPages * pageSize at hhi
    rw [Nat.sub_mul]
    omega
  · simp only [KMemoryBlock.split, KMemoryBlockDisableMergeAttribute.and_allLeft, blockShape_left,
      KMemoryBlock.leftMark]
  · simp only [KMemoryBlock.split, KMemoryBlockDisableMergeAttribute.and_allLeft, blockShape_right]
    rfl
  · simp only [KMemoryBlock.split, KMemoryBlockDisableMergeAttribute.and_allRight, blockShape_left]
    rfl
  · simp only [KMemoryBlock.split, KMemoryBlockDisableMergeAttribute.and_allRight, blockShape_right,
      KMemoryBlock.rightMark]

/-- `Add` of a mergeable successor joins the two blocks. -/
theorem add_isJoin {p q : KMemoryBlockNode} (hm : p.block.canMergeWith q.block = true)
    (hadj : q.block.address = p.block.getEndAddress) :
    blockShape.IsJoin p q ⟨p.pointer, p.block.add q.block⟩ := by
  have hmerge := (mergeable_iff p q).mpr hm
  obtain ⟨_, hr, hn, hd, hi, hlk⟩ := hmerge
  simp only [blockShape_right, blockShape_left, KMemoryBlock.leftMark] at hr hn hd hi hlk
  change p.block.disableMergeAttribute.deviceRight = false at hr
  refine ⟨(mergeable_iff p q).mpr hm, rfl, ?_, rfl, ?_, ?_⟩
  · change p.block.address + (p.block.numPages + q.block.numPages) * pageSize =
      q.block.address + q.block.numPages * pageSize
    rw [hadj, Nat.add_mul, ← Nat.add_assoc]
    rfl
  · simp [KMemoryBlock.add, KMemoryBlock.leftMark, HOr.hOr, OrOp.or, hn, hd, hi, hlk]
  · simp [KMemoryBlock.add, KMemoryBlock.rightMark, HOr.hOr, OrOp.or, hr]

/-! ## The blocks an update allocator holds -/

namespace KMemoryBlockManagerUpdateAllocator

variable {a : KMemoryBlockManagerUpdateAllocator} {ps : List ℕ}

/-- The allocator holds exactly the blocks `ps`, the next one to be given first. -/
def Holds (a : KMemoryBlockManagerUpdateAllocator) (ps : List ℕ) : Prop :=
  a.index + ps.length = maxBlocks ∧ a.blocks = List.replicate a.index none ++ ps.map some

theorem Holds.allocate {p : ℕ} (h : a.Holds (p :: ps)) :
    ∃ a', a.allocate = .ok (p, a') ∧ a'.Holds ps ∧ a'.slabManager = a.slabManager := by
  obtain ⟨hlen, hblocks⟩ := h
  rw [List.length_cons] at hlen
  have hget : a.blocks[a.index]? = some (some p) := by
    rw [hblocks]
    simp
  refine ⟨{ a with blocks := a.blocks.set a.index none, index := a.index + 1 }, ?_, ⟨?_, ?_⟩, rfl⟩
  · rw [KMemoryBlockManagerUpdateAllocator.allocate, if_pos (by omega), hget]
  · change a.index + 1 + ps.length = maxBlocks
    omega
  · rw [hblocks, List.replicate_succ']
    simp

/-- Nothing is lost when a block is freed to the allocator: it is stashed, or
goes back to the slab when the stash is full. -/
theorem Holds.free (h : a.Holds ps) (p : ℕ) :
    ∃ ps', (a.free p).Holds ps' ∧ ∀ x, (ps' ++ (a.free p).slabManager.pointers).count x =
      [p].count x + (ps ++ a.slabManager.pointers).count x := by
  obtain ⟨hlen, hblocks⟩ := h
  rw [KMemoryBlockManagerUpdateAllocator.free]
  by_cases h0 : a.index = 0
  · rw [if_pos h0]
    refine ⟨ps, ⟨hlen, hblocks⟩, fun x => ?_⟩
    simp only [KMemoryBlockSlabManager.free, KMemoryBlockSlabManager.pointers, List.count_append,
      List.count_cons, List.count_nil]
    omega
  · rw [if_neg h0]
    obtain ⟨k, hk⟩ := Nat.exists_eq_succ_of_ne_zero h0
    refine ⟨p :: ps, ⟨?_, ?_⟩, fun x => ?_⟩
    · change a.index - 1 + (p :: ps).length = maxBlocks
      rw [List.length_cons]
      omega
    · rw [hblocks, hk, List.replicate_succ']
      simp
    · simp only [List.count_append, List.count_cons, List.count_nil]
      omega

end KMemoryBlockManagerUpdateAllocator

/-! ## The update loop -/

namespace KMemoryBlockManager

/-- The blocks of a run of nodes. -/
def pointers (nodes : List KMemoryBlockNode) : List ℕ := nodes.map KMemoryBlockNode.pointer

@[simp] theorem pointers_cons (node : KMemoryBlockNode) (nodes : List KMemoryBlockNode) :
    pointers (node :: nodes) = node.pointer :: pointers nodes := by simp [pointers]

@[simp] theorem pointers_append (l₁ l₂ : List KMemoryBlockNode) :
    pointers (l₁ ++ l₂) = pointers l₁ ++ pointers l₂ := List.map_append

variable {node : KMemoryBlockNode} {rest : List KMemoryBlockNode} {m n a e cur rem : ℕ}
variable {alloc : KMemoryBlockManagerUpdateAllocator} {ps : List ℕ}

/-- The first split leaves a block that starts at the current address. It takes a
block from the allocator only if there was none. -/
theorem splitBefore_spec (hlo : node.block.address ≤ cur) (hhi : cur < node.block.getEndAddress)
    (hd : pageSize ∣ cur - node.block.address) (hps : alloc.Holds ps)
    (hneed : (if node.block.address = cur then 0 else 1) ≤ ps.length) :
    ∃ before node' alloc' ps', splitBefore node cur alloc = .ok (before, node', alloc') ∧
      alloc'.Holds ps' ∧ alloc'.slabManager = alloc.slabManager ∧
      (∀ x, (pointers before).count x + [node'.pointer].count x + ps'.count x =
        [node.pointer].count x + ps.count x) ∧
      (if node.block.address = cur then 0 else 1) + ps'.length = ps.length ∧
      node'.block.address = cur ∧ node'.block.getEndAddress = node.block.getEndAddress ∧
      (before = [] ∧ node' = node ∨ ∃ c, before = [c] ∧ blockShape.IsCut node cur c node') := by
  by_cases heq : node.block.address = cur
  · refine ⟨[], node, alloc, ps, if_neg fun h => h heq, hps, rfl, fun x => ?_, ?_, heq, rfl,
      .inl ⟨rfl, rfl⟩⟩
    · simp [pointers]
    · rw [if_pos heq, Nat.zero_add]
  · rw [if_neg heq] at hneed ⊢
    cases ps with
    | nil => cases hneed
    | cons p ps =>
      obtain ⟨alloc', halloc, hps', hslab⟩ := hps.allocate
      have hcut := split_isCut (p := p) (by omega) hhi hd
      refine ⟨_, _, alloc', ps, ?_, hps', hslab, fun x => ?_, Nat.add_comm _ _, hcut.lo_snd,
        hcut.hi_snd, .inr ⟨_, rfl, hcut⟩⟩
      · rw [splitBefore, if_pos heq, halloc]
        rfl
      · simp only [pointers, List.map_cons, List.map_nil, List.count_cons, List.count_nil]
        omega

/-- The second split leaves a block that ends inside the range. -/
theorem splitAfter_spec (node : KMemoryBlockNode) {size : ℕ} (hsize : 0 < size)
    (hd : pageSize ∣ size) (hps : alloc.Holds ps)
    (hneed : node.block.getEndAddress ≤ node.block.address + size ∨ 0 < ps.length) :
    ∃ node' after alloc' ps', splitAfter node node.block.address size alloc =
        .ok (node', after, alloc') ∧
      alloc'.Holds ps' ∧ alloc'.slabManager = alloc.slabManager ∧
      (∀ x, [node'.pointer].count x + (pointers after).count x + ps'.count x =
        [node.pointer].count x + ps.count x) ∧
      (after = [] ∧ node' = node ∧ ps' = ps ∧ node.block.getEndAddress ≤ node.block.address + size ∨
        ∃ c, after = [c] ∧ blockShape.IsCut node (node.block.address + size) node' c) := by
  have hend : node.block.getEndAddress = node.block.address + node.block.getSize := rfl
  by_cases hlt : size < node.block.getSize
  · cases ps with
    | nil => exact absurd hneed (by simp; omega)
    | cons p ps =>
      obtain ⟨alloc', halloc, hps', hslab⟩ := hps.allocate
      refine ⟨⟨p, (node.block.split (node.block.address + size)).1⟩,
        [⟨node.pointer, (node.block.split (node.block.address + size)).2⟩], alloc', ps, ?_, hps',
        hslab, fun x => ?_, .inr ⟨_, rfl, ?_⟩⟩
      · rw [splitAfter, if_pos hlt, halloc]
        rfl
      · simp only [pointers, List.map_cons, List.map_nil, List.count_cons, List.count_nil]
        omega
      · refine split_isCut (by omega) (by omega) ?_
        rw [Nat.add_sub_cancel_left]
        exact hd
  · refine ⟨node, [], alloc, ps, if_neg hlt, hps, rfl, fun x => ?_, .inl ⟨rfl, rfl, rfl, ?_⟩⟩
    · simp [pointers]
    · omega

variable {skip : KMemoryBlock → Bool} {apply : KMemoryBlock → Bool → Bool → Run KMemoryBlock}

theorem updateLoop_zero (it : List KMemoryBlockNode) :
    updateLoop skip apply a e it cur 0 alloc = .ok (it, alloc) := by
  cases it <;> rfl

/-- What the loop may be asked to do with a block: depend only on the properties
of its pages when it decides, and keep its extent. -/
structure Respects (skip : KMemoryBlock → Bool)
    (apply : KMemoryBlock → Bool → Bool → Run KMemoryBlock) : Prop where
  skip_congr : ∀ b c : KMemoryBlock, b.properties = c.properties → skip b = skip c
  address : ∀ b l r c, apply b l r = .ok c → c.address = b.address
  numPages : ∀ b l r c, apply b l r = .ok c → c.numPages = b.numPages

/-- The replacement of one node: `apply`, told where the node lies in `[a, e)`. -/
def Replaces (apply : KMemoryBlock → Bool → Bool → Run KMemoryBlock) (a e : ℕ)
    (b b' : KMemoryBlockNode) : Prop :=
  b'.pointer = b.pointer ∧
    apply b.block (b.block.address == a) (b.block.getEndAddress == e) = .ok b'.block

/-- How the loop can end on the nodes `it`, which start at `m`. Either `apply`
stopped the kernel on a piece of the tree inside the range, or the nodes were
painted and the blocks of the tree and of the allocator were only moved. -/
inductive LoopOutcome (skip : KMemoryBlock → Bool)
    (apply : KMemoryBlock → Bool → Bool → Run KMemoryBlock) (a e m : ℕ)
    (it : List KMemoryBlockNode) (alloc : KMemoryBlockManagerUpdateAllocator) (ps : List ℕ) :
    Run (List KMemoryBlockNode × KMemoryBlockManagerUpdateAllocator) → Prop
  | failed {p : Panic} {node : KMemoryBlockNode} (hm : m ≤ node.block.address)
      (ha : a ≤ node.block.address) (hlt : node.block.address < node.block.getEndAddress)
      (he : node.block.getEndAddress ≤ e) (hshows : blockShape.Shows it node)
      (hfail : apply node.block (node.block.address == a) (node.block.getEndAddress == e) =
        .error p) : LoopOutcome skip apply a e m it alloc ps (.error p)
  | done {it' : List KMemoryBlockNode} {alloc' : KMemoryBlockManagerUpdateAllocator} {ps' : List ℕ}
      (hpaints : blockShape.Paints a e (fun node => skip node.block = true) (Replaces apply a e)
        it it')
      (hps' : alloc'.Holds ps') (hslab : alloc'.slabManager = alloc.slabManager)
      (hcount : ∀ x, (pointers it').count x + ps'.count x = (pointers it).count x + ps.count x) :
      LoopOutcome skip apply a e m it alloc ps (.ok (it', alloc'))

/-- Behind the range nothing happens. -/
theorem LoopOutcome.unchanged (ht : blockShape.Tiles m rest n) (he : e ≤ m)
    (hps : alloc.Holds ps) : LoopOutcome skip apply a e m rest alloc ps (.ok (rest, alloc)) :=
  .done (.refl_of_le fun _ hb => he.trans (ht.bounds hb).1) hps rfl fun _ => rfl

/-- A node that is passed over. -/
theorem LoopOutcome.skipped {r : Run (List KMemoryBlockNode × KMemoryBlockManagerUpdateAllocator)}
    (ht : blockShape.Tiles m (node :: rest) n) (hskip : skip node.block = true)
    (h : LoopOutcome skip apply a e node.block.getEndAddress rest alloc ps r) :
    LoopOutcome skip apply a e m (node :: rest) alloc ps
      (do let (rest, alloc) ← r; .ok (node :: rest, alloc)) := by
  obtain ⟨hlo, hpos, _⟩ := ht
  simp only [blockShape_lo, blockShape_hi] at hlo hpos
  cases h with
  | failed hm ha hlt he hshows hfail =>
    exact .failed (by omega) ha hlt he ((Shape.shows_cons_iff hpos hlt hm).mpr hshows) hfail
  | done hpaints hps' hslab hcount =>
    refine .done (.keep (.inr (.inr hskip)) hpaints) hps' hslab fun x => ?_
    have := hcount x
    simp only [pointers_cons, List.count_cons]
    omega

/-- `node₂` is what is left of `node` after a cut at `a` and a cut at `e`, either
of which may not have been needed. -/
structure IsTrim (a e : ℕ) (node : KMemoryBlockNode) (before : List KMemoryBlockNode)
    (node₁ node₂ : KMemoryBlockNode) (after : List KMemoryBlockNode) : Prop where
  before : before = [] ∧ node₁ = node ∨ ∃ c, before = [c] ∧ blockShape.IsCut node a c node₁
  after : after = [] ∧ node₂ = node₁ ∨ ∃ c, after = [c] ∧ blockShape.IsCut node₁ e node₂ c

namespace IsTrim

variable {before after : List KMemoryBlockNode} {node₁ node₂ : KMemoryBlockNode}

variable (h : IsTrim a e node before node₁ node₂ after)
include h

theorem tiles (ht : blockShape.Tiles m (node :: rest) n) :
    ∃ m', m ≤ m' ∧ blockShape.Tiles m' (node₁ :: rest) n := by
  rcases h.before with ⟨_, rfl⟩ | ⟨c, _, hcut⟩
  · exact ⟨m, le_rfl, ht⟩
  · have := hcut.tiles ht
    refine ⟨_, ?_, this.2.2⟩
    have h₁ := this.1
    have h₂ := this.2.1
    omega

theorem properties : node₂.block.properties = node.block.properties := by
  have h₁ : node₁.block.properties = node.block.properties := by
    rcases h.before with ⟨_, rfl⟩ | ⟨c, _, hcut⟩
    · rfl
    · exact hcut.val_snd
  rcases h.after with ⟨_, rfl⟩ | ⟨c, _, hcut⟩
  · exact h₁
  · exact hcut.val_fst.trans h₁

theorem lt (ht : blockShape.Tiles m (node :: rest) n) :
    node₂.block.address < node₂.block.getEndAddress := by
  obtain ⟨m', _, ht₁⟩ := h.tiles ht
  rcases h.after with ⟨_, rfl⟩ | ⟨c, _, hcut⟩
  · exact ht₁.2.1
  · exact (hcut.tiles ht₁).2.1

theorem shows (ht : blockShape.Tiles m (node :: rest) n) :
    blockShape.Shows (node :: rest) node₂ := by
  obtain ⟨m', _, ht₁⟩ := h.tiles ht
  have h₁ : blockShape.Shows (node₁ :: rest) node₂ := by
    rcases h.after with ⟨_, rfl⟩ | ⟨c, _, hcut⟩
    · exact Shape.shows_head
    · exact (hcut.shows ht₁ _).mp Shape.shows_head
  rcases h.before with ⟨_, rfl⟩ | ⟨c, _, hcut⟩
  · exact h₁
  · have hlo₂ : blockShape.lo node₂ = blockShape.lo node₁ := by
      rcases h.after with ⟨_, rfl⟩ | ⟨d, _, hcut'⟩
      · rfl
      · exact hcut'.lo_fst
    refine (hcut.shows ht _).mp ((Shape.shows_cons_iff (hcut.tiles ht).2.1 (h.lt ht) ?_).mpr h₁)
    rw [hlo₂, hcut.lo_snd, hcut.hi_fst]

/-- Painting the trimmed node and whatever comes behind it. -/
theorem paints {K : KMemoryBlockNode → Prop} {P : KMemoryBlockNode → KMemoryBlockNode → Prop}
    {node' : KMemoryBlockNode} {rest' : List KMemoryBlockNode} (hlo : a ≤ node₂.block.address)
    (hhi : node₂.block.getEndAddress ≤ e) (hK : ¬ K node₂) (hP : P node₂ node')
    (lo_eq : node'.block.address = node₂.block.address)
    (hi_eq : node'.block.getEndAddress = node₂.block.getEndAddress)
    (hrest : blockShape.Paints a e K P rest rest') :
    blockShape.Paints a e K P (node :: rest) (before ++ node' :: (after ++ rest')) := by
  have h₁ : blockShape.Paints a e K P (node₁ :: rest) (node' :: (after ++ rest')) := by
    rcases h.after with ⟨rfl, rfl⟩ | ⟨c, rfl, hcut⟩
    · exact .paint hlo hhi hK hP lo_eq hi_eq hrest
    · exact .cut (.inr rfl) hcut
        (.paint hlo hhi hK hP lo_eq hi_eq (.keep (.inr (.inl hcut.lo_snd.symm.le)) hrest))
  rcases h.before with ⟨rfl, rfl⟩ | ⟨c, rfl, hcut⟩
  · exact h₁
  · exact .cut (.inl rfl) hcut (.keep (.inl hcut.hi_fst.le) h₁)

end IsTrim

/-- The loop, from an address inside the first node. It needs a block for each end
of the range at which no node ends. The induction is on the nodes from the
iterator on; only the first of them can start before the current address. -/
theorem updateLoop_outcome (hr : Respects skip apply) {it : List KMemoryBlockNode}
    (ht : blockShape.Tiles m it n) (hal : ∀ x, blockShape.IsStart it x → pageSize ∣ x)
    (hm : m ≤ cur) (hhead : ∀ node ∈ it.head?, cur < node.block.getEndAddress)
    (hcur : pageSize ∣ cur) (hac : cur = a ∨ cur = m ∧ a ≤ m) (hrem : 0 < rem)
    (he : cur + rem * pageSize = e) (hen : e ≤ n) (hps : alloc.Holds ps)
    (hneed : (if m = cur then 0 else 1) + (if blockShape.IsStart it e ∨ e = n then 0 else 1) ≤
      ps.length) :
    LoopOutcome skip apply a e m it alloc ps (updateLoop skip apply a e it cur rem alloc) := by
  induction it generalizing m cur rem alloc ps with
  | nil =>
    -- the range would end behind the tree
    have := Nat.mul_pos hrem pageSize_pos
    rw [Shape.tiles_nil] at ht
    omega
  | cons node rest ih =>
    have htiles := ht
    obtain ⟨hlo, hpos, hrest⟩ := ht
    simp only [blockShape_lo, blockShape_hi] at hlo hpos hrest
    subst hlo
    have hhi : cur < node.block.getEndAddress := hhead node rfl
    have hrn := hrest.le
    have hsize := Nat.mul_pos hrem pageSize_pos
    have hlodvd : pageSize ∣ node.block.address := hal _ ⟨node, List.mem_cons_self, rfl⟩
    have hhidvd : pageSize ∣ node.block.getEndAddress :=
      (Nat.dvd_add_right hlodvd).mpr (Nat.dvd_mul_left _ _)
    -- past the start of this node the range has the same far end
    have hbound : blockShape.IsStart (node :: rest) e ∨ e = n ↔
        blockShape.IsStart rest e ∨ e = n := by
      rw [Shape.isStart_cons, blockShape_lo]
      exact or_congr_left (or_iff_right (by omega))
    simp only [hbound] at hneed
    -- the loop goes on behind this node, or it ends here
    have hnext : ∀ {cur' rem' alloc ps}, alloc.Holds ps →
        rem' * pageSize = e - node.block.getEndAddress →
        (0 < rem' → cur' = node.block.getEndAddress ∧
          (if blockShape.IsStart rest e ∨ e = n then 0 else 1) ≤ ps.length) →
        LoopOutcome skip apply a e node.block.getEndAddress rest alloc ps
          (updateLoop skip apply a e rest cur' rem' alloc) := by
      intro cur' rem' alloc ps hps hleft hgo
      rcases Nat.eq_zero_or_pos rem' with rfl | hpos'
      · rw [updateLoop_zero]
        exact .unchanged hrest (by omega) hps
      · obtain ⟨rfl, hneed⟩ := hgo hpos'
        have := Nat.mul_pos hpos' pageSize_pos
        refine ih hrest (fun x hx => hal x ((Shape.isStart_cons _ _ _ _).mpr (.inr hx)))
          le_rfl (fun c hc => ?_) hhidvd (.inr ⟨rfl, by omega⟩) hpos' (by omega) hps ?_
        · cases rest with
          | nil => cases hc
          | cons d rest =>
            cases hc
            exact hrest.1 ▸ hrest.2.1
        · rwa [if_pos rfl, Nat.zero_add]
    rw [updateLoop, if_neg hrem.ne']
    simp only [he]
    by_cases hskip : skip node.block = true
    · rw [if_pos hskip]
      split
      · exact LoopOutcome.skipped htiles hskip (hnext hps (by omega) nofun)
      · refine LoopOutcome.skipped htiles hskip
          (hnext hps (Nat.div_mul_cancel (Nat.dvd_sub ?_ hhidvd)) fun _ => ⟨rfl, by omega⟩)
        rw [← he]
        exact (Nat.dvd_add_right hcur).mpr (Nat.dvd_mul_left _ _)
    · rw [if_neg hskip]
      obtain ⟨before, node₁, alloc₁, ps₁, hsplit₁, hps₁, hslab₁, hcount₁, hlength, hlo₁, hhi₁,
        hbefore⟩ := splitBefore_spec hm hhi (Nat.dvd_sub hcur hlodvd) hps (by omega)
      have hneed₁ := Nat.le_of_add_le_add_left (hlength ▸ hneed)
      -- a node that reaches beyond the range has no boundary at its end
      have hback : node.block.getEndAddress ≤ e ∨ 0 < ps₁.length := by
        refine or_iff_not_imp_left.mpr fun h => ?_
        rwa [if_neg] at hneed₁
        rintro (h' | h')
        · have := (hrest.isStart_bounds h').1
          omega
        · omega
      obtain ⟨node₂, after, alloc₂, ps₂, hsplit₂, hps₂, hslab₂, hcount₂, hafter⟩ :=
        splitAfter_spec node₁ hsize (Nat.dvd_mul_left _ _) hps₁ (by omega)
      rw [hlo₁, he] at hafter
      have htrim : IsTrim a e node before node₁ node₂ after := by
        refine ⟨hbefore.imp_right ?_, hafter.imp_left fun h => ⟨h.1, h.2.1⟩⟩
        rintro ⟨c, h, hcut⟩
        have hca : cur = a := hac.resolve_right fun h => hcut.lo_lt.ne' h.1
        exact ⟨c, h, hca ▸ hcut⟩
      have hlo₂ : node₂.block.address = cur := by
        rcases hafter with ⟨_, rfl, _⟩ | ⟨c, _, hcut⟩
        · exact hlo₁
        · exact hcut.lo_fst.trans hlo₁
      -- the second split was at the end of the range, or was not needed
      have hhi₂ : node₂.block.getEndAddress = e ∧ e < node.block.getEndAddress ∨
          node₂.block.getEndAddress = node.block.getEndAddress ∧ ps₂ = ps₁ ∧
            node.block.getEndAddress ≤ e := by
        rcases hafter with ⟨_, rfl, rfl, h⟩ | ⟨c, _, hcut⟩
        · exact .inr ⟨hhi₁, rfl, hhi₁ ▸ h⟩
        · exact .inl ⟨hcut.hi_fst, hhi₁ ▸ hcut.lt_hi⟩
      simp only [hsplit₁, hsplit₂, bind, Except.bind]
      cases happly : apply node₂.block (node₂.block.address == a)
          (node₂.block.getEndAddress == e) with
      | error p =>
        exact .failed (by omega) (by omega) (htrim.lt htiles) (by omega) (htrim.shows htiles) happly
      | ok block =>
        have hend₂ : cur + node₂.block.numPages * pageSize = node₂.block.getEndAddress := by
          rw [← hlo₂]
          rfl
        have hrestOutcome := @hnext (node₁.block.address + node₂.block.getSize)
          (rem - node₂.block.numPages) _ _ hps₂ (by rw [Nat.sub_mul]; omega) fun hpos' => by
            have := Nat.mul_pos hpos' pageSize_pos
            rw [Nat.sub_mul] at this
            obtain ⟨_, _⟩ | ⟨hhi₂, rfl, _⟩ := hhi₂
            · omega
            · exact ⟨by rw [hlo₁, ← hhi₂, ← hend₂]; rfl, hneed₁⟩
        cases hres : updateLoop skip apply a e rest (node₁.block.address + node₂.block.getSize)
            (rem - node₂.block.numPages) alloc₂ with
        | error p =>
          rw [hres] at hrestOutcome
          cases hrestOutcome with
          | failed hm' ha' hlt' he' hshows hfail =>
            exact .failed (by omega) ha' hlt' he'
              ((Shape.shows_cons_iff hpos hlt' hm').mpr hshows) hfail
        | ok res =>
          rw [hres] at hrestOutcome
          cases hrestOutcome with
          | done hpaints hps' hslab hcount =>
            have haddress := hr.address _ _ _ _ happly
            refine .done (htrim.paints (by omega) (by omega) ?_ ⟨rfl, happly⟩ haddress ?_ hpaints)
              hps' (hslab.trans (hslab₂.trans hslab₁)) fun x => ?_
            · rw [hr.skip_congr _ _ htrim.properties]
              exact hskip
            · rw [KMemoryBlock.getEndAddress, KMemoryBlock.getSize, haddress,
                hr.numPages _ _ _ _ happly]
              rfl
            · have h₁ := hcount₁ x
              have h₂ := hcount₂ x
              have h₃ := hcount x
              simp only [pointers_append, pointers_cons, List.count_append, List.count_cons,
                List.count_nil] at h₁ h₂ h₃ ⊢
              omega

/-! ## Coalescing -/

/-- The blocks of the tree, the allocator and the slab together. -/
theorem coalesceLoop_spec {prev : KMemoryBlockNode} (ht : blockShape.Tiles m (prev :: rest) n)
    (hps : alloc.Holds ps) :
    ∃ nodes alloc' ps', coalesceLoop e prev rest alloc = (nodes, alloc') ∧
      blockShape.Merges (prev :: rest) nodes ∧ blockShape.MaximalOn (fun x => x ≤ e) nodes ∧
      alloc'.Holds ps' ∧
      ∀ x, (pointers nodes).count x + (ps' ++ alloc'.slabManager.pointers).count x =
        (pointers (prev :: rest)).count x + (ps ++ alloc.slabManager.pointers).count x := by
  induction rest generalizing prev m alloc ps with
  | nil =>
    exact ⟨[prev], alloc, ps, rfl, .refl _, List.isChain_singleton _, hps, fun x => rfl⟩
  | cons it rest ih =>
    have htiles := ht
    obtain ⟨hlo, hpos, hadj, hpos', hrest⟩ := ht
    rw [coalesceLoop]
    by_cases hmerge : prev.block.canMergeWith it.block = true
    · rw [if_pos hmerge]
      have hjoin := add_isJoin hmerge hadj
      have hjt := Shape.Merges.join_tiles hjoin htiles
      obtain ⟨ps₁, hps₁, hcount₁⟩ := hps.free it.pointer
      by_cases hstop : e < (prev.block.add it.block).getEndAddress
      · rw [if_pos hstop]
        refine ⟨_, _, ps₁, rfl, .join hjoin (.refl _),
          hjt.maximalOn_of_lt_hi fun x hx => hx.trans_lt hstop, hps₁, fun x => ?_⟩
        have := hcount₁ x
        simp only [pointers_cons, List.count_cons, List.count_nil] at this ⊢
        omega
      · rw [if_neg hstop]
        obtain ⟨nodes, alloc', ps', heq, hmerges, hmax, hps', hcount⟩ := ih hjt hps₁
        refine ⟨nodes, alloc', ps', heq, .join hjoin hmerges, hmax, hps', fun x => ?_⟩
        have h₁ := hcount₁ x
        have h₂ := hcount x
        simp only [pointers_cons, List.count_cons, List.count_nil] at h₁ h₂ ⊢
        omega
    · rw [if_neg hmerge]
      have hno : ¬ blockShape.Mergeable prev it := fun h => hmerge ((mergeable_iff _ _).mp h)
      by_cases hstop : e < it.block.getEndAddress
      · rw [if_pos hstop]
        refine ⟨_, alloc, ps, rfl, .refl _, ?_, hps, fun x => rfl⟩
        exact List.isChain_cons_cons.mpr ⟨fun _ => hno,
          htiles.2.2.maximalOn_of_lt_hi (Q := (· ≤ e)) fun x hx => hx.trans_lt hstop⟩
      · rw [if_neg hstop]
        obtain ⟨nodes, alloc', ps', heq, hmerges, hmax, hps', hcount⟩ := ih htiles.2.2 hps
        refine ⟨prev :: nodes, alloc', ps', by rw [heq], .keep hmerges, ?_, hps', fun x => ?_⟩
        · -- the first node behind `prev` shows what `it` shows
          obtain ⟨c, u, rfl, hclo, hcval, hcleft⟩ := hmerges.head
          refine List.isChain_cons_cons.mpr ⟨fun _ h => hno ?_, hmax⟩
          exact ⟨h.1.trans hcval, h.2.1, hcleft ▸ h.2.2⟩
        · have := hcount x
          simp only [pointers_cons, List.count_cons] at this ⊢
          omega

/-- `FindIterator` finds the node that covers an address of the tree. -/
theorem findIterator_spec {t : List KMemoryBlockNode} {x : ℕ} (ht : blockShape.Tiles m t n)
    (hm : m ≤ x) (hn : x < n) :
    ∃ before node after, findIterator t x = (before, node :: after) ∧
      t = before ++ node :: after ∧ blockShape.Tiles m before node.block.address ∧
      blockShape.Tiles node.block.address (node :: after) n ∧
      node.block.address ≤ x ∧ x < node.block.getEndAddress := by
  induction t generalizing m with
  | nil => rw [Shape.tiles_nil] at ht; omega
  | cons c t ih =>
    obtain ⟨hlo, hpos, hrest⟩ := ht
    simp only [blockShape_lo, blockShape_hi] at hlo hpos hrest
    by_cases hin : x < c.block.getEndAddress
    · have hcmp : KMemoryBlock.compare x c.block = .eq := by
        rw [KMemoryBlock.compare, if_neg (by omega), if_pos]
        rw [KMemoryBlock.getLastAddress]
        omega
      refine ⟨[], c, t, ?_, rfl, hlo ▸ rfl, ⟨rfl, hpos, hrest⟩, by omega, hin⟩
      simp [findIterator, hcmp]
    · have hcmp : KMemoryBlock.compare x c.block = .gt := by
        rw [KMemoryBlock.compare, if_neg (by omega), if_neg]
        rw [KMemoryBlock.getLastAddress]
        omega
      obtain ⟨before, node, after, hfind, happ, hb, ha, h₁, h₂⟩ := ih hrest (by omega)
      refine ⟨c :: before, node, after, ?_, by rw [happ]; rfl, ⟨hlo, hpos, hb⟩, ha, h₁, h₂⟩
      simp only [findIterator, Prod.mk.injEq] at hfind ⊢
      simp [hcmp, hfind]

end KMemoryBlockManager

end Atmosphere.Kern
