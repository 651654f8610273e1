import Atmosphere.Kern.MemoryManager
import Atmosphere.Kern.PageHeapRun

/-!
# What the memory manager does to the pages

The managers together show a set of free pages and a reference count for every
page. Each function is described by what it does to the two: `Open` adds one to the
counts of a range, `Close` takes one away and frees the pages that reach zero, an
allocation takes free pages.
-/

namespace Atmosphere.Kern

open KPageHeap
open Function (update update_self update_of_ne)
open Finset

namespace Impl

/-! ## One manager -/

variable (m : Impl)

def first : ℕ := m.heap.heapAddress / pageSize

def last : ℕ := m.heap.getEndAddress / pageSize

/-- The page is in the region of the manager. -/
def Covers (x : ℕ) : Prop := m.first ≤ x ∧ x < m.last

/-- What the functions of a manager leave alone. -/
def region : ℕ × ℕ × Pool := (m.heap.heapAddress, m.heap.heapSize, m.pool)

/-- The bit of a page in the bitmap of the optimized process. -/
def isTracked (offset : ℕ) : Bool := (m.optimizeMap (offset / 64)).getLsbD (offset % 64)

/-- The manager shows the free pages `F`, the counts `c` and the tracked pages `t` in its
region. -/
structure Shows (m : Impl) (F : Finset ℕ) (c : ℕ → BitVec 16) (t : ℕ → Bool) : Prop where
  pos : 0 < m.first
  le : m.first ≤ m.last
  address : m.heap.heapAddress = m.first * pageSize
  endAddress : m.heap.getEndAddress = m.last * pageSize
  pages : HoldsPages m.first m.last m.heap.blocks (F ∩ Ico m.first m.last)
  counts : ∀ x, m.Covers x → m.pageReferenceCounts (x - m.first) = c x
  tracked : ∀ x, m.Covers x → m.isTracked (x - m.first) = t x

variable {m m' : Impl} {F F' : Finset ℕ} {c c' : ℕ → BitVec 16} {t t' : ℕ → Bool} {p n x : ℕ}
variable {mark : BitVec 64 → BitVec 64 → BitVec 64} {counts : ℕ → BitVec 16}

theorem pool_eq_of_region (h : m'.region = m.region) : m'.pool = m.pool := congrArg (·.2.2) h

theorem first_eq_of_region (h : m'.region = m.region) : m'.first = m.first := by
  simp only [region, Prod.mk.injEq] at h
  rw [first, first, h.1]

theorem last_eq_of_region (h : m'.region = m.region) : m'.last = m.last := by
  simp only [region, Prod.mk.injEq] at h
  rw [last, last, KPageHeap.getEndAddress, KPageHeap.getEndAddress, h.1, h.2.1]

theorem covers_of_region (h : m'.region = m.region) : m'.Covers x ↔ m.Covers x := by
  rw [Covers, Covers, first_eq_of_region h, last_eq_of_region h]

namespace Shows

variable (h : m.Shows F c t)
include h

theorem congr (hF : ∀ x, m.Covers x → (x ∈ F' ↔ x ∈ F)) (hc : ∀ x, m.Covers x → c' x = c x)
    (ht : ∀ x, m.Covers x → t' x = t x) :
    m.Shows F' c' t' where
  pos := h.pos
  le := h.le
  address := h.address
  endAddress := h.endAddress
  pages := by
    have heq : F' ∩ Ico m.first m.last = F ∩ Ico m.first m.last := by
      ext x
      simp only [mem_inter, mem_Ico]
      exact and_congr_left (hF x)
    rw [heq]
    exact h.pages
  counts x hx := (h.counts x hx).trans (hc x hx).symm
  tracked x hx := (h.tracked x hx).trans (ht x hx).symm

/-- The offset of a page of the region. -/
theorem getPageOffset (p : ℕ) : m.heap.getPageOffset (p * pageSize) = p - m.first := by
  rw [KPageHeap.getPageOffset, h.address, ← Nat.sub_mul, Nat.mul_div_cancel _ pageSize_pos]

theorem getPageOffsetToEnd (p : ℕ) : m.heap.getPageOffsetToEnd (p * pageSize) = m.last - p := by
  rw [KPageHeap.getPageOffsetToEnd, h.endAddress, ← Nat.sub_mul, Nat.mul_div_cancel _ pageSize_pos]

theorem contains_iff (p : ℕ) :
    (m.heap.heapAddress ≤ p * pageSize ∧ p * pageSize < m.heap.getEndAddress) ↔ m.Covers p := by
  rw [h.address, h.endAddress, Nat.mul_le_mul_right_iff pageSize_pos,
    Nat.mul_lt_mul_right pageSize_pos, Covers]

/-- Another heap with the same region. -/
theorem withHeap {heap : KPageHeap} (haddr : heap.heapAddress = m.heap.heapAddress)
    (hsize : heap.heapSize = m.heap.heapSize)
    (hpages : HoldsPages m.first m.last heap.blocks (F' ∩ Ico m.first m.last)) :
    Impl.Shows { m with heap := heap } F' c t := by
  obtain ⟨address, size, blocks⟩ := heap
  obtain rfl : address = m.heap.heapAddress := haddr
  obtain rfl : size = m.heap.heapSize := hsize
  exact ⟨h.pos, h.le, h.address, h.endAddress, hpages, h.counts, h.tracked⟩

/-- `Free` of pages of the region. -/
theorem free (hin : ∀ x, p ≤ x → x < p + n → m.Covers x ∧ x ∉ F) :
    (m.free (p * pageSize) n).Shows (F ∪ Ico p (p + n)) c t := by
  refine h.withHeap rfl rfl ?_
  have hfree := h.pages.freePages h.pos fun x hx hx' =>
    ⟨(hin x hx hx').1.1, (hin x hx hx').1.2, fun hmem => (hin x hx hx').2 (mem_inter.mp hmem).1⟩
  have hsub : Ico p (p + n) ∩ Ico m.first m.last = Ico p (p + n) := by
    rw [inter_eq_left]
    intro x hx
    rw [mem_Ico] at hx ⊢
    exact (hin x hx.1 hx.2).1
  rwa [union_inter_distrib_right, hsub]

/-- `AllocateBlock` of a manager: null where the region has no free block of the size,
or a block of free pages of the region. -/
theorem allocateBlock {k : ℕ} (hk : k < 7) (random : Bool) :
    ((m.heap.allocateBlock k random).1 = 0 ∧ (¬ ∃ p, pageLadder.size k ∣ p ∧
          Ico p (p + pageLadder.size k) ⊆ F ∩ Ico m.first m.last) ∧
        Impl.Shows { m with heap := (m.heap.allocateBlock k random).2 } F c t) ∨
      ∃ p, (m.heap.allocateBlock k random).1 = p * pageSize ∧
        (m.heap.allocateBlock k random).1 ≠ 0 ∧ pageLadder.size k ∣ p ∧
        (∀ x, p ≤ x → x < p + pageLadder.size k → x ∈ F ∧ m.Covers x) ∧
        Impl.Shows { m with heap := (m.heap.allocateBlock k random).2 }
          (F \ Ico p (p + pageLadder.size k)) c t := by
  obtain ⟨hnull, hnone, hholds⟩ | ⟨hne, hdvd, hsub, hholds⟩ :=
    h.pages.allocateBlock h.pos hk random
  · refine .inl ⟨hnull, ?_, h.withHeap rfl rfl hholds⟩
    rintro ⟨p, hp, hsub⟩
    refine hnone ⟨p * pageSize, ?_, ?_⟩
    · rw [getBlockSize_eq]
      exact Nat.mul_dvd_mul_right hp _
    · rwa [blockPages_mul]
  · obtain ⟨q, hq⟩ := exists_number hdvd
    rw [hq, blockPages_mul] at hsub hholds
    refine .inr ⟨q * pageLadder.size k, hq, hne, Nat.dvd_mul_left _ _, fun x hx hx' => ?_,
      h.withHeap rfl rfl ?_⟩
    · have hmem := mem_inter.mp (hsub (mem_Ico.mpr ⟨hx, hx'⟩))
      exact ⟨hmem.1, mem_Ico.mp hmem.2⟩
    · rwa [sdiff_inter_right_comm]

end Shows

/-! ## Reference counts of one manager -/

/-- The counts with those of the pages from `p` to `e` changed. -/
def changeCounts (f : BitVec 16 → BitVec 16) (c : ℕ → BitVec 16) (p e x : ℕ) : BitVec 16 :=
  if p ≤ x ∧ x < e then f (c x) else c x

@[simp] theorem changeCounts_self (f : BitVec 16 → BitVec 16) : changeCounts f c p p = c :=
  funext fun _ => if_neg (by omega)

/-- The first count of a range is changed before the others. -/
theorem changeCounts_update (f : BitVec 16 → BitVec 16) :
    changeCounts f (update c p (f (c p))) (p + 1) (p + 1 + n) =
      changeCounts f c p (p + (n + 1)) := by
  funext x
  simp only [changeCounts]
  by_cases hx : x = p
  · subst hx
    rw [if_neg (by omega), if_pos (by omega), update_self]
  · rw [update_of_ne hx]
    exact if_congr (by omega) rfl rfl

theorem openLoop_eq_ok {valid : BitVec 16 → Bool} {index : ℕ} {counts' : ℕ → BitVec 16} :
    openLoop valid n index counts = .ok counts' ↔
      (∀ j, index ≤ j → j < index + n → valid (counts j + 1) = true) ∧
        counts' = changeCounts (· + 1) counts index (index + n) := by
  induction n generalizing index counts with
  | zero =>
    rw [openLoop, Except.ok.injEq, eq_comm, Nat.add_zero, changeCounts_self]
    exact ⟨fun h => ⟨fun j hj hj' => absurd hj' (by omega), h⟩, And.right⟩
  | succ n ih =>
    rw [openLoop]
    have hrest : ∀ j, index + 1 ≤ j → update counts index (counts index + 1) j = counts j :=
      fun j hj => update_of_ne (by omega) _ _
    by_cases hvalid : valid (counts index + 1) = true
    · rw [if_pos hvalid, ih, changeCounts_update (· + 1)]
      refine and_congr_left fun _ => ⟨fun h j hj hj' => ?_, fun h j hj hj' => ?_⟩
      · by_cases heq : j = index
        · exact heq ▸ hvalid
        · rw [← hrest j (by omega)]
          exact h j (by omega) (by omega)
      · rw [hrest j hj]
        exact h j (by omega) (by omega)
    · rw [if_neg hvalid]
      refine iff_of_false (by simp) fun h => hvalid (h.1 index le_rfl (by omega))

namespace Shows

/-- Other counts for the pages of a range. -/
theorem withCounts (h : m.Shows F c t) (hc : ∀ x, m.Covers x → counts (x - m.first) = c' x) :
    Impl.Shows { m with pageReferenceCounts := counts } F c' t :=
  ⟨h.pos, h.le, h.address, h.endAddress, h.pages, hc, h.tracked⟩

/-- `OpenFirst` and `Open` count one more reference to each page of a range. -/
theorem openWith_eq_ok (h : m.Shows F c t) {v : BitVec 16 → Bool}
    (hin : ∀ x, p ≤ x → x < p + n → m.Covers x) (hp : m.first ≤ p) :
    (∀ m', openWith v m (p * pageSize) n = .ok m' → (∀ x, p ≤ x → x < p + n → v (c x + 1) = true) ∧
        m'.Shows F (changeCounts (· + 1) c p (p + n)) t ∧ m'.region = m.region) ∧
    ((∀ x, p ≤ x → x < p + n → v (c x + 1) = true) →
      ∃ m', openWith v m (p * pageSize) n = .ok m') := by
  rw [openWith, h.getPageOffset]
  have hvalid : (∀ j, p - m.first ≤ j → j < p - m.first + n →
      v (m.pageReferenceCounts j + 1) = true) ↔
      ∀ x, p ≤ x → x < p + n → v (c x + 1) = true := by
    constructor
    · intro hj x hx hx'
      rw [← h.counts x (hin x hx hx')]
      exact hj (x - m.first) (by omega) (by omega)
    · intro hx j hj hj'
      have hcov := hin (m.first + j) (by omega) (by omega)
      have hcount := h.counts _ hcov
      rw [Nat.add_sub_cancel_left] at hcount
      rw [hcount]
      exact hx _ (by omega) (by omega)
  constructor
  · intro m' hok
    obtain ⟨counts, hloop, hret⟩ := bind_eq_ok.mp hok
    obtain ⟨hall, rfl⟩ := openLoop_eq_ok.mp hloop
    obtain rfl := Except.ok.inj hret
    refine ⟨hvalid.mp hall, h.withCounts fun x hx => ?_, rfl⟩
    rw [changeCounts, h.counts x hx]
    refine if_congr ?_ rfl rfl
    have := hx.1
    omega
  · intro hall
    rw [openLoop_eq_ok.mpr ⟨hvalid.mpr hall, rfl⟩]
    exact ⟨_, rfl⟩

end Shows

theorem changeCounts_changeCounts {q e : ℕ} (f : BitVec 16 → BitVec 16) (hpq : p ≤ q)
    (hqe : q ≤ e) :
    changeCounts f (changeCounts f c p q) q e = changeCounts f c p e := by
  funext x
  simp only [changeCounts]
  split_ifs <;> first | rfl | omega

/-- One count of a manager is written. -/
theorem Shows.setCount (h : m.Shows F c t) {q : ℕ} (hq : m.Covers q) (r : BitVec 16) :
    (m.setReferenceCount (q - m.first) r).Shows F (update c q r) t := by
  refine h.withCounts fun x hx => ?_
  by_cases hxq : x = q
  · subst hxq
    rw [update_self, update_self]
  · have := hx.1
    have := hq.1
    rw [update_of_ne (by omega), update_of_ne hxq, h.counts x hx]

theorem closeLoop_start (n index a b : ℕ) (m : Impl) :
    closeLoop n index a 0 m = closeLoop n index b 0 m := by
  induction n generalizing index m with
  | zero => simp [closeLoop]
  | succ n ih => simp [closeLoop, ih _ _]

/-- One round of the loop of `Close` after a row of `k` pages: the page joins it or ends it. -/
theorem closeLoop_succ {a k : ℕ} {r : BitVec 16} (hr : m.pageReferenceCounts (a + k) = r)
    (hne : r ≠ 0) : closeLoop (n + 1) (a + k) a k m =
      if r = 1 then closeLoop n (a + (k + 1)) a (k + 1) (m.setReferenceCount (a + k) (r - 1))
      else closeLoop n (a + k + 1 + 0) (a + k + 1) 0
        ((m.setReferenceCount (a + k) (r - 1)).free (m.heap.heapAddress + a * pageSize) k) := by
  have hone : r - 1 = 0 ↔ r = 1 := by bv_omega
  rw [closeLoop, hr, if_neg hne, closeLoop_start n (a + k + 1 + 0) _ a]
  simp only [hone]
  cases k with
  | zero | succ k => rfl

/-- What the loop of `Close` may start from: the row of `k` pages from `a` on, which
ends at the current page `q`, has count zero and is not free yet. -/
structure CloseInv (m : Impl) (F : Finset ℕ) (c : ℕ → BitVec 16) (t : ℕ → Bool) (q a k n : ℕ) :
    Prop where
  shows : m.Shows F c t
  first_le : m.first ≤ a
  row_end : 0 < k → a + k = q
  row : ∀ x, a ≤ x → x < a + k → m.Covers x ∧ x ∉ F
  rest : ∀ x, q ≤ x → x < q + n → m.Covers x ∧ x ∉ F
  nonzero : ∀ x, q ≤ x → x < q + n → c x ≠ 0

/-- The loop of `Close` frees the current row and the pages whose last reference is
closed, and no others. -/
theorem closeLoop_spec {a k : ℕ} (h : CloseInv m F c t (p + a + k) (p + a) k n) (hp : m.first = p) :
    ∃ m' F', closeLoop n (a + k) a k m = .ok m' ∧
      m'.Shows F' (changeCounts (· - 1) c (p + a + k) (p + a + k + n)) t ∧ m'.region = m.region ∧
      ∀ x, x ∈ F' ↔ x ∈ F ∨ (p + a ≤ x ∧ x < p + a + k) ∨
        p + a + k ≤ x ∧ x < p + a + k + n ∧ c x = 1 := by
  induction n generalizing m F c a k with
  | zero =>
    have hend : closeLoop 0 (a + k) a k m = .ok (m.free ((p + a) * pageSize) k) := by
      rw [closeLoop, h.shows.address, ← Nat.add_mul, hp]
      cases k with
      | zero | succ k => rfl
    rw [hend, Nat.add_zero, changeCounts_self]
    refine ⟨_, _, rfl, h.shows.free h.row, rfl, fun x => ?_⟩
    rw [mem_union, mem_Ico]
    exact or_congr_right ⟨.inl, fun hx => hx.resolve_right (by omega)⟩
  | succ n ih =>
    obtain ⟨q, hq⟩ : ∃ q, p + a + k = q := ⟨_, rfl⟩
    rw [hq] at h ⊢
    have hqin := h.rest q le_rfl (by omega)
    have hcount := h.shows.counts q hqin.1
    have hset := h.shows.setCount hqin.1 (c q - 1)
    rw [show q - m.first = a + k by omega] at hcount hset
    have hc : ∀ x, q + 1 ≤ x → update c q (c q - 1) x = c x :=
      fun x hx => update_of_ne (by omega) _ _
    have hrest : ∀ x, q + 1 ≤ x → x < q + 1 + n → m.Covers x ∧ x ∉ F :=
      fun x hx hx' => h.rest x (by omega) (by omega)
    have hnonzero : ∀ x, q + 1 ≤ x → x < q + 1 + n → update c q (c q - 1) x ≠ 0 := by
      intro x hx hx'
      rw [hc x hx]
      exact h.nonzero x (by omega) (by omega)
    rw [closeLoop_succ hcount (h.nonzero q le_rfl (by omega)),
      h.shows.address, ← Nat.add_mul, hp]
    by_cases hone : c q = 1
    · -- the page joins the row
      have hinv : CloseInv (m.setReferenceCount (a + k) (c q - 1)) F (update c q (c q - 1)) t
          (q + 1) (p + a) (k + 1) n := by
        refine ⟨hset, h.first_le, fun _ => by omega, fun x hx hx' => ?_, hrest, hnonzero⟩
        by_cases hxq : x = q
        · exact hxq ▸ hqin
        · exact h.row x hx (by omega)
      have hnext : q + 1 = p + a + (k + 1) := by omega
      rw [hnext] at hinv
      obtain ⟨m', F', hrun, hshows, hregion, hmem⟩ := ih hinv hp
      rw [← hnext, changeCounts_update (· - 1)] at hshows
      rw [if_pos hone]
      exact ⟨m', F', hrun, hshows, hregion, fun x => by grind⟩
    · -- the row ends before the page
      have hinv : CloseInv ((m.setReferenceCount (a + k) (c q - 1)).free ((p + a) * pageSize) k)
          (F ∪ Ico (p + a) (p + a + k)) (update c q (c q - 1)) t (q + 1) (q + 1) 0 n := by
        refine ⟨hset.free h.row, h.first_le.trans (by omega), nofun, fun x hx hx' => by omega,
          fun x hx hx' => ?_, hnonzero⟩
        rw [mem_union, mem_Ico, not_or]
        exact ⟨(hrest x hx hx').1, (hrest x hx hx').2, by omega⟩
      have hnext : q + 1 = p + (a + k + 1) := by omega
      rw [hnext] at hinv
      obtain ⟨m', F', hrun, hshows, hregion, hmem⟩ := ih (a := a + k + 1) (k := 0) hinv hp
      rw [Nat.add_zero, ← hnext, changeCounts_update (· - 1)] at hshows
      rw [if_neg hone]
      exact ⟨m', F', hrun, hshows, hregion, fun x => by grind⟩

theorem closeLoop_nonzero {a k : ℕ} (hok : closeLoop n (a + k) a k m = .ok m') {j : ℕ}
    (hj : a + k ≤ j) (hj' : j < a + k + n) : m.pageReferenceCounts j ≠ 0 := by
  induction n generalizing a k m with
  | zero => omega
  | succ n ih =>
    by_cases hzero : m.pageReferenceCounts (a + k) = 0
    · simp [closeLoop, hzero] at hok
    · by_cases heq : j = a + k
      · exact heq ▸ hzero
      · have hrest : (m.setReferenceCount (a + k)
            (m.pageReferenceCounts (a + k) - 1)).pageReferenceCounts j ≠ 0 := by
          rw [closeLoop_succ rfl hzero] at hok
          split_ifs at hok
          · exact ih hok (by omega) (by omega)
          · exact ih (m := Impl.free _ _ _) hok (by omega) (by omega)
        change update m.pageReferenceCounts (a + k) _ j ≠ 0 at hrest
        rwa [update_of_ne heq] at hrest

theorem Shows.closePages_eq (h : m.Shows F c t) :
    m.closePages (p * pageSize) n = closeLoop n (p - m.first + 0) (p - m.first) 0 m := by
  rw [Impl.closePages, h.getPageOffset]
  exact closeLoop_start _ _ _ _ _

/-- `Close` of a range: no page reaches zero and stays, none is freed that does not. -/
theorem Shows.closePages (h : m.Shows F c t) (hp : m.first ≤ p)
    (hin : ∀ x, p ≤ x → x < p + n → m.Covers x ∧ x ∉ F)
    (hnonzero : ∀ x, p ≤ x → x < p + n → c x ≠ 0) :
    ∃ m', m.closePages (p * pageSize) n = .ok m' ∧ m'.region = m.region ∧
      m'.Shows (F ∪ (Ico p (p + n)).filter fun x => c x = 1)
        (changeCounts (· - 1) c p (p + n)) t := by
  have hinv : CloseInv m F c t p p 0 n :=
    ⟨h, hp, nofun, fun x hx hx' => by omega, hin, hnonzero⟩
  have hoff : p = m.first + (p - m.first) := (Nat.add_sub_cancel' hp).symm
  rw [hoff] at hinv
  obtain ⟨m', F', hrun, hshows, hregion, hmem⟩ := closeLoop_spec (k := 0) hinv rfl
  rw [Nat.add_zero, ← hoff] at hshows
  refine ⟨m', h.closePages_eq.trans hrun, hregion,
    hshows.congr (fun x _ => ?_) (fun _ _ => rfl) fun _ _ => rfl⟩
  rw [hmem, ← hoff, mem_union, mem_filter, mem_Ico, and_assoc]
  exact or_congr_right ⟨.inr, fun hx => hx.resolve_left (by omega)⟩

/-! ## The bitmap of the optimized process -/

/-- The function writes `v` to the bit and leaves the others. -/
def Writes (mark : BitVec 64 → BitVec 64 → BitVec 64) (v : Bool) : Prop :=
  ∀ (word : BitVec 64) (k j : ℕ), k < 64 →
    (mark word (1#64 <<< k)).getLsbD j = if j = k then v else word.getLsbD j

theorem writes_clear : Writes (fun word bit => word &&& ~~~bit) false :=
  fun _ _ _ _ => BitScan.getLsbD_clear

theorem trackLoop_spec {v : Bool} (hmark : Writes mark v)
    (n offset : ℕ) (map : ℕ → BitVec 64) (j : ℕ) :
    (trackLoop mark n offset map (j / 64)).getLsbD (j % 64) =
      if offset ≤ j ∧ j < offset + n then v else (map (j / 64)).getLsbD (j % 64) := by
  induction n generalizing offset map with
  | zero => rw [trackLoop, if_neg (by omega)]
  | succ n ih =>
    rw [trackLoop, ih]
    by_cases hj : offset + 1 ≤ j ∧ j < offset + 1 + n
    · rw [if_pos hj, if_pos (by omega)]
    · rw [if_neg hj]
      by_cases hword : j / 64 = offset / 64
      · rw [hword, update_self, hmark _ _ _ (Nat.mod_lt _ (by decide))]
        by_cases heq : j % 64 = offset % 64
        · obtain rfl : j = offset := by
            rw [← Nat.div_add_mod j 64, ← Nat.div_add_mod offset 64, hword, heq]
          rw [if_pos rfl, if_pos (by omega)]
        · rw [if_neg heq, if_neg fun hj' => heq (by rw [show j = offset by omega])]
      · rw [update_of_ne hword, if_neg fun hj' => hword (by rw [show j = offset by omega])]

/-- The tracked pages with the value `v` for a range of pages. -/
def setTracked (v : Bool) (t : ℕ → Bool) (G : Finset ℕ) (x : ℕ) : Bool := if x ∈ G then v else t x

@[simp] theorem setTracked_empty (v : Bool) : setTracked v t ∅ = t :=
  funext fun x => if_neg (notMem_empty x)

theorem Shows.track (h : m.Shows F c t) {v : Bool} (hmark : Writes mark v) (hp : m.first ≤ p) :
    (m.track mark (p * pageSize) n).Shows F c (setTracked v t (Ico p (p + n))) := by
  refine ⟨h.pos, h.le, h.address, h.endAddress, h.pages, h.counts, fun x hx => ?_⟩
  change (trackLoop mark n (m.heap.getPageOffset (p * pageSize)) m.optimizeMap
    ((x - m.first) / 64)).getLsbD ((x - m.first) % 64) = _
  rw [trackLoop_spec hmark, h.getPageOffset, setTracked, ← h.tracked x hx]
  refine if_congr ?_ rfl rfl
  rw [mem_Ico]
  have : m.first ≤ x := hx.1
  omega

end Impl

namespace KMemoryManager

open Impl

/-! ## All managers -/

/-- The managers show the free pages `F` and the counts `c`, and have disjoint regions. -/
structure ShowsAll (managers : List Impl) (F : Finset ℕ) (c : ℕ → BitVec 16) (t : ℕ → Bool) :
    Prop where
  each : ∀ {i : ℕ} {m : Impl}, managers[i]? = some m → m.Shows F c t
  apart : ∀ {i j : ℕ} {m m' : Impl} {x : ℕ}, managers[i]? = some m → managers[j]? = some m' →
    m.Covers x → m'.Covers x → i = j

/-- A page of some manager. -/
def Managed (managers : List Impl) (x : ℕ) : Prop := ∃ m ∈ managers, m.Covers x

variable {managers managers' : List Impl} {F F' : Finset ℕ} {c c' : ℕ → BitVec 16}
  {t t' : ℕ → Bool} {p n x i : ℕ} {m m' : Impl}

namespace ShowsAll

variable (h : ShowsAll managers F c t)
include h

/-- One manager is replaced. -/
theorem set (hi : managers[i]? = some m) (hm' : m'.Shows F' c' t') (hregion : m'.region = m.region)
    (hframe : ∀ x, ¬ m.Covers x → (x ∈ F' ↔ x ∈ F) ∧ c' x = c x ∧ t' x = t x) :
    ShowsAll (managers.set i m') F' c' t' := by
  have hget : ∀ {j : ℕ} {m₁ : Impl}, (managers.set i m')[j]? = some m₁ →
      (j = i ∧ m₁ = m') ∨ (j ≠ i ∧ managers[j]? = some m₁) := by
    intro j m₁ hj
    by_cases hji : j = i
    · subst hji
      rw [List.getElem?_set_self (List.getElem?_eq_some_iff.mp hi).1] at hj
      exact .inl ⟨rfl, (Option.some.inj hj).symm⟩
    · rw [List.getElem?_set_ne (Ne.symm hji)] at hj
      exact .inr ⟨hji, hj⟩
  have hcov : ∀ {j : ℕ} {m₁ : Impl}, (managers.set i m')[j]? = some m₁ →
      ∃ m₂ : Impl, managers[j]? = some m₂ ∧ ∀ x, m₁.Covers x → m₂.Covers x := by
    intro j m₁ hj
    obtain ⟨rfl, rfl⟩ | ⟨_, hj⟩ := hget hj
    · exact ⟨m, hi, fun x => (covers_of_region hregion).mp⟩
    · exact ⟨m₁, hj, fun x hx => hx⟩
  constructor
  · intro j m₁ hj
    obtain ⟨rfl, rfl⟩ | ⟨hne, hj⟩ := hget hj
    · exact hm'
    · have hout : ∀ x, m₁.Covers x → ¬ m.Covers x := fun x hx hx' => hne (h.apart hj hi hx hx')
      exact (h.each hj).congr (fun x hx => (hframe x (hout x hx)).1)
        (fun x hx => (hframe x (hout x hx)).2.1) fun x hx => (hframe x (hout x hx)).2.2
  · intro j k m₁ m₂ x hj hk hx hx'
    obtain ⟨m₃, hj, hsub⟩ := hcov hj
    obtain ⟨m₄, hk, hsub'⟩ := hcov hk
    exact h.apart hj hk (hsub x hx) (hsub' x hx')

theorem shows_of_mem (hm : m ∈ managers) : m.Shows F c t := by
  obtain ⟨i, hi⟩ := List.getElem?_of_mem hm
  exact h.each hi

/-- A page has one manager. -/
theorem eq_of_covers (hm : m ∈ managers) (hm' : m' ∈ managers) (hx : m.Covers x)
    (hx' : m'.Covers x) : m = m' := by
  obtain ⟨i, hi⟩ := List.getElem?_of_mem hm
  obtain ⟨j, hj⟩ := List.getElem?_of_mem hm'
  obtain rfl := h.apart hi hj hx hx'
  exact Option.some.inj (hi.symm.trans hj)

/-- `GetManager` finds the manager of a page. -/
theorem getManager_eq (hi : managers[i]? = some m) (hx : m.Covers p) :
    getManager managers (p * pageSize) = some i := by
  rw [getManager, List.findIdx?_eq_some_iff_getElem]
  obtain ⟨hlt, hget⟩ := List.getElem?_eq_some_iff.mp hi
  refine ⟨hlt, ?_, fun j hj => ?_⟩
  · rw [hget, decide_eq_true_eq, (h.each hi).contains_iff]
    exact hx
  · have hjget : managers[j]? = some managers[j] := List.getElem?_eq_getElem _
    rw [decide_eq_true_eq, (h.each hjget).contains_iff]
    intro hcov
    have := h.apart hjget hi hcov hx
    omega

theorem exists_of_getManager (hget : getManager managers (p * pageSize) = some i) :
    ∃ m, managers[i]? = some m ∧ m.Covers p := by
  rw [getManager, List.findIdx?_eq_some_iff_getElem] at hget
  obtain ⟨hlt, hcov, _⟩ := hget
  have hi : managers[i]? = some managers[i] := List.getElem?_eq_getElem hlt
  rw [decide_eq_true_eq, (h.each hi).contains_iff] at hcov
  exact ⟨_, hi, hcov⟩

end ShowsAll

/-! ## Ranges over several managers -/

section Parts

variable {σ : Type} {f : σ → Impl → ℕ → ℕ → Run (σ × Impl)} {I : ℕ → σ → List Impl → Prop} {e : ℕ}
variable {fuel : ℕ}

/-- What holds at the start of a range and is kept from each part to the next holds at
its end. -/
theorem forParts_rule (hshows : ∀ {q s ms}, I q s ms → ∃ F c t, ShowsAll ms F c t)
    (hstep : ∀ {q s ms i m k s' m'}, I q s ms → ms[i]? = some m → m.first ≤ q →
      0 < k → q + k ≤ m.last → q + k ≤ e ∧ (q + k < e → q + k = m.last) →
      f s m (q * pageSize) k = .ok (s', m') → I (q + k) s' (ms.set i m'))
    {s s' : σ} {ms ms' : List Impl} (hpe : p + n = e) (hinv : I p s ms)
    (hok : forParts f fuel (p * pageSize) n s ms = .ok (s', ms')) : I e s' ms' := by
  induction fuel generalizing p n s ms with
  | zero =>
    cases n with
    | zero =>
      obtain ⟨rfl, rfl⟩ := Prod.mk.inj (Except.ok.inj hok)
      rwa [← hpe]
    | succ n => simp [forParts] at hok
  | succ fuel ih =>
    cases n with
    | zero =>
      obtain ⟨rfl, rfl⟩ := Prod.mk.inj (Except.ok.inj hok)
      rwa [← hpe]
    | succ n =>
      obtain ⟨F, c, t, hsh⟩ := hshows hinv
      rw [forParts] at hok
      cases hget : getManager ms (p * pageSize) with
      | none => simp [hget] at hok
      | some i =>
        obtain ⟨m, hi, hcov⟩ := hsh.exists_of_getManager hget
        simp only [hget, hi, (hsh.each hi).getPageOffsetToEnd] at hok
        obtain ⟨⟨s₁, m₁⟩, hbody, hrest⟩ := bind_eq_ok.mp hok
        have hlast := hcov.2
        rw [← Nat.add_mul] at hrest
        exact ih (by omega) (hstep hinv hi hcov.1 (by omega) (by omega) (by omega) hbody) hrest

/-- The loop returns where the body returns on every part of a managed range. -/
theorem forParts_total (hshows : ∀ {q s ms}, I q s ms → ∃ F c t, ShowsAll ms F c t)
    (hmanaged : ∀ {q s ms}, I q s ms → q < e → Managed ms q)
    (hstep : ∀ {q s ms i m k}, I q s ms → ms[i]? = some m → m.first ≤ q →
      0 < k → q + k ≤ m.last → q + k ≤ e →
      ∃ s' m', f s m (q * pageSize) k = .ok (s', m') ∧ I (q + k) s' (ms.set i m'))
    {s : σ} {ms : List Impl} (hpe : p + n = e) (hn : n ≤ fuel) (hinv : I p s ms) :
    ∃ s' ms', forParts f fuel (p * pageSize) n s ms = .ok (s', ms') ∧ I e s' ms' := by
  induction fuel generalizing p n s ms with
  | zero =>
    obtain rfl : n = 0 := by omega
    exact ⟨s, ms, rfl, by rwa [← hpe]⟩
  | succ fuel ih =>
    cases n with
    | zero => exact ⟨s, ms, rfl, by rwa [← hpe]⟩
    | succ n =>
      obtain ⟨F, c, t, hsh⟩ := hshows hinv
      obtain ⟨m, hm, hcov⟩ := hmanaged hinv (by omega)
      obtain ⟨i, hi⟩ := List.getElem?_of_mem hm
      have hlast := hcov.2
      obtain ⟨s₁, m₁, hbody, hinv₁⟩ := hstep (k := min (n + 1) (m.last - p)) hinv hi hcov.1
        (by omega) (by omega) (by omega)
      obtain ⟨s', ms', hrest, hinv'⟩ := ih (by omega) (by omega) hinv₁
        (n := n + 1 - min (n + 1) (m.last - p))
      refine ⟨s', ms', ?_, hinv'⟩
      rw [forParts, hsh.getManager_eq hi hcov]
      simp only [hi, (hsh.each hi).getPageOffsetToEnd, hbody, ← Nat.add_mul]
      exact hrest

end Parts

/-- What no function changes: the regions and the pools. -/
def regions (managers : List Impl) : List (ℕ × ℕ × Pool) := managers.map Impl.region

theorem regions_set (hi : managers[i]? = some m) (hregion : m'.region = m.region) :
    regions (managers.set i m') = regions managers := by
  obtain ⟨hlt, rfl⟩ := List.getElem?_eq_some_iff.mp hi
  rw [regions, regions, List.map_set, hregion, ← List.map_set, List.set_getElem_self]

theorem mem_of_regions (h : regions managers' = regions managers) (hm : m' ∈ managers') :
    ∃ m ∈ managers, m.region = m'.region := by
  have hmem : m'.region ∈ regions managers := h ▸ List.mem_map_of_mem hm
  exact List.mem_map.mp hmem

theorem managed_of_regions (h : regions managers' = regions managers) :
    Managed managers' x ↔ Managed managers x := by
  have hmem : ∀ {ms ms' : List Impl}, regions ms' = regions ms → Managed ms' x → Managed ms x := by
    rintro ms ms' heq ⟨m, hm, hx⟩
    obtain ⟨m₁, hm₁, hregion⟩ := mem_of_regions heq hm
    exact ⟨m₁, hm₁, (covers_of_region hregion).mpr hx⟩
  exact ⟨hmem h, hmem h.symm⟩

theorem mem_managed (hi : managers[i]? = some m) (hx : m.Covers x) : Managed managers x :=
  ⟨m, List.mem_of_getElem? hi, hx⟩

theorem changeCounts_outside {f : BitVec 16 → BitVec 16} {e : ℕ} (hx : ¬ (p ≤ x ∧ x < e)) :
    changeCounts f c p e x = c x := if_neg hx

/-- The body of `mapParts`. -/
theorem mapParts_body_ok {f : Impl → ℕ → ℕ → Run Impl} {u : Unit} {k q : ℕ} :
    (do let m₁ ← f m q k; return ((), m₁) : Run (Unit × Impl)) = .ok (u, m') ↔
      f m q k = .ok m' := by
  rw [bind_eq_ok]
  constructor
  · rintro ⟨m₁, hm₁, hret⟩
    rw [hm₁, (Prod.mk.inj (Except.ok.inj hret)).2]
  · intro h
    exact ⟨m', h, rfl⟩

namespace ShowsAll

variable {valid : BitVec 16 → Bool}

/-- One part of a range is opened. -/
theorem openPart (h : ShowsAll managers F (changeCounts (· + 1) c p x) t) (hpx : p ≤ x)
    {k : ℕ} (hi : managers[i]? = some m) (hfirst : m.first ≤ x)
    (hlast : x + k ≤ m.last) (hok : openWith valid m (x * pageSize) k = .ok m') :
    (∀ y, x ≤ y → y < x + k → valid (c y + 1) = true) ∧
      ShowsAll (managers.set i m') F (changeCounts (· + 1) c p (x + k)) t ∧
      m'.region = m.region := by
  have hin : ∀ y, x ≤ y → y < x + k → m.Covers y := fun y hy hy' => ⟨by omega, by omega⟩
  obtain ⟨hvalid, hshows, hregion⟩ := ((h.each hi).openWith_eq_ok hin hfirst).1 m' hok
  rw [changeCounts_changeCounts _ hpx (Nat.le_add_right x k)] at hshows
  refine ⟨fun y hy hy' => ?_, h.set hi hshows hregion fun y hy => ⟨Iff.rfl, ?_, rfl⟩, hregion⟩
  · have := hvalid y hy hy'
    rwa [changeCounts_outside (by omega)] at this
  · refine if_congr ?_ rfl rfl
    have : ¬ (x ≤ y ∧ y < x + k) := fun hxy => hy (hin y hxy.1 hxy.2)
    omega

variable (h : ShowsAll managers F c t)
include h

/-- `Open` of a range of pages. -/
theorem openPages (hok : mapParts (openWith valid) managers (p * pageSize) n = .ok managers') :
    (∀ x, p ≤ x → x < p + n → Managed managers x ∧ valid (c x + 1) = true) ∧
      ShowsAll managers' F (changeCounts (· + 1) c p (p + n)) t ∧
      regions managers' = regions managers := by
  obtain ⟨⟨_, ms⟩, hrun, hret⟩ := bind_eq_ok.mp hok
  obtain rfl := Except.ok.inj hret
  refine (forParts_rule (I := fun q (_ : Unit) ms => p ≤ q ∧
    (∀ x, p ≤ x → x < q → Managed managers x ∧ valid (c x + 1) = true) ∧
    ShowsAll ms F (changeCounts (· + 1) c p q) t ∧ regions ms = regions managers)
    (fun hinv => ⟨_, _, _, hinv.2.2.1⟩) ?_ rfl ?_ hrun).2
  · rintro q _ ms i m k _ m' ⟨hpq, hdone, hsh, hreg⟩ hi hfirst _ hlast _ hbody
    obtain ⟨hvalid, hsh', hregion⟩ := hsh.openPart hpq hi hfirst hlast (mapParts_body_ok.mp hbody)
    refine ⟨by omega, fun x hx hx' => ?_, hsh', (regions_set hi hregion).trans hreg⟩
    by_cases hxq : x < q
    · exact hdone x hx hxq
    · exact ⟨(managed_of_regions hreg).mp (mem_managed hi ⟨by omega, by omega⟩),
        hvalid x (by omega) hx'⟩
  · exact ⟨le_rfl, fun x hx hx' => by omega, by rwa [changeCounts_self], rfl⟩

/-- `OpenFirst` of managed pages without references returns. -/
theorem openFirst (hzero : ∀ x, p ≤ x → x < p + n → Managed managers x ∧ c x = 0) :
    ∃ managers', mapParts Impl.openFirst managers (p * pageSize) n = .ok managers' ∧
      ShowsAll managers' F (changeCounts (· + 1) c p (p + n)) t ∧
      regions managers' = regions managers := by
  obtain ⟨_, ms, hrun, _, hsh, hreg⟩ := forParts_total
    (f := fun (_ : Unit) m address numPages => do
      let m ← Impl.openFirst m address numPages
      return ((), m))
    (I := fun q _ ms => p ≤ q ∧ ShowsAll ms F (changeCounts (· + 1) c p q) t ∧
      regions ms = regions managers)
    (fun hinv => ⟨_, _, _, hinv.2.1⟩)
    (fun hinv hlt => (managed_of_regions hinv.2.2).mpr (hzero _ hinv.1 hlt).1)
    (by
      rintro q _ ms i m k ⟨hpq, hsh, hreg⟩ hi hfirst _ hlast hqe
      have hin : ∀ y, q ≤ y → y < q + k → m.Covers y := fun y hy hy' => ⟨by omega, by omega⟩
      obtain ⟨m', hm'⟩ := ((hsh.each hi).openWith_eq_ok (v := fun refCount => refCount == 1)
        hin hfirst).2 fun x hx hx' => by
          rw [changeCounts_outside (by omega), (hzero x (by omega) (by omega)).2]
          rfl
      obtain ⟨_, hsh', hregion⟩ := hsh.openPart hpq hi hfirst hlast hm'
      exact ⟨(), m', mapParts_body_ok.mpr hm', by omega, hsh', (regions_set hi hregion).trans hreg⟩)
    rfl le_rfl ⟨le_rfl, by rwa [changeCounts_self], rfl⟩
  exact ⟨ms, bind_eq_ok.mpr ⟨_, hrun, rfl⟩, hsh, hreg⟩

/-- `Close` of a range of pages. The managed free pages have no references. -/
theorem closePages (hzero : ∀ x ∈ F, Managed managers x → c x = 0)
    (hok : KMemoryManager.closePages managers (p * pageSize) n = .ok managers') :
    (∀ x, p ≤ x → x < p + n → Managed managers x ∧ c x ≠ 0) ∧
      ShowsAll managers' (F ∪ (Ico p (p + n)).filter fun x => c x = 1)
        (changeCounts (· - 1) c p (p + n)) t ∧
      regions managers' = regions managers := by
  obtain ⟨⟨_, ms⟩, hrun, hret⟩ := bind_eq_ok.mp hok
  obtain rfl := Except.ok.inj hret
  refine (forParts_rule (I := fun q (_ : Unit) ms => p ≤ q ∧
    (∀ x, p ≤ x → x < q → Managed managers x ∧ c x ≠ 0) ∧
    ShowsAll ms (F ∪ (Ico p q).filter fun x => c x = 1) (changeCounts (· - 1) c p q) t ∧
    regions ms = regions managers) (fun hinv => ⟨_, _, _, hinv.2.2.1⟩) ?_ rfl ?_ hrun).2
  · rintro q _ ms i m k _ m' ⟨hpq, hdone, hsh, hreg⟩ hi hfirst hk hlast _ hbody
    have hbody := mapParts_body_ok.mp hbody
    have hcov : ∀ x, q ≤ x → x < q + k → m.Covers x := fun x hx hx' => ⟨by omega, by omega⟩
    have hman : ∀ x, q ≤ x → x < q + k → Managed managers x := fun x hx hx' =>
      (managed_of_regions hreg).mp (mem_managed hi (hcov x hx hx'))
    have hcount : ∀ x, q ≤ x → changeCounts (· - 1) c p q x = c x :=
      fun x hx => changeCounts_outside (by omega)
    have hnonzero : ∀ x, q ≤ x → x < q + k → c x ≠ 0 := by
      intro x hx hx'
      have hloop := hbody
      rw [(hsh.each hi).closePages_eq] at hloop
      have := closeLoop_nonzero hloop (j := x - m.first) (by omega) (by omega)
      rwa [(hsh.each hi).counts x (hcov x hx hx'), hcount x hx] at this
    have hnot : ∀ x, q ≤ x → x < q + k → x ∉ F ∪ (Ico p q).filter fun x => c x = 1 := by
      intro x hx hx' hmem
      obtain hF | hI := mem_union.mp hmem
      · exact hnonzero x hx hx' (hzero x hF (hman x hx hx'))
      · have := (mem_Ico.mp (mem_filter.mp hI).1).2
        omega
    obtain ⟨m₁, hclose, hregion, hshows⟩ := (hsh.each hi).closePages hfirst
      (fun x hx hx' => ⟨hcov x hx hx', hnot x hx hx'⟩)
      fun x hx hx' => hcount x hx ▸ hnonzero x hx hx'
    obtain rfl := Except.ok.inj (hclose.symm.trans hbody)
    rw [changeCounts_changeCounts _ hpq (Nat.le_add_right q k)] at hshows
    refine ⟨by omega, fun x hx hx' => ?_, ?_, (regions_set hi hregion).trans hreg⟩
    · by_cases hxq : x < q
      · exact hdone x hx hxq
      · exact ⟨hman x (by omega) hx', hnonzero x (by omega) hx'⟩
    · have hfree : (F ∪ (Ico p q).filter fun x => c x = 1) ∪
          (Ico q (q + k)).filter (fun x => changeCounts (· - 1) c p q x = 1) =
            F ∪ (Ico p (q + k)).filter fun x => c x = 1 := by
        rw [filter_congr (s := Ico q (q + k)) fun x hx => by rw [hcount x (mem_Ico.mp hx).1],
          union_assoc, ← filter_union, Ico_union_Ico_eq_Ico hpq (Nat.le_add_right q k)]
      rw [hfree] at hshows
      refine hsh.set hi hshows hregion fun x hx => ?_
      have hout : ¬ (q ≤ x ∧ x < q + k) := fun hxq => hx (hcov x hxq.1 hxq.2)
      rw [← hfree, changeCounts]
      refine ⟨?_, if_congr (by omega) rfl rfl, rfl⟩
      simp only [mem_union, mem_filter, mem_Ico, hout, false_and, or_false]
  · refine ⟨le_rfl, fun x hx hx' => by omega, ?_, rfl⟩
    rwa [changeCounts_self, Ico_self, filter_empty, union_empty]

end ShowsAll

end KMemoryManager

end Atmosphere.Kern
