import Atmosphere.Lib.Tiling.Basic

/-!
# Passes over a tiling

A painting pass over `[a, e)` cuts blocks at the two ends of the range and
replaces blocks inside it; a joining pass replaces neighbours that may be
joined by one block. Both are relations between the tiling before and after,
with one constructor for each thing the pass may do, so that every consequence
is one induction. The consequences are stated position by position.
-/

namespace Tiling.Shape

variable {B V L R : Type*} {s : Shape B V L R}
variable {a e m n x : ℕ} {b p q : B} {t t' u : List B}

/-- `p` and `q` are the two parts of `b` cut at `x`: the left part keeps the
left mark, the right part the right mark, and no mark is shown at the cut. -/
structure IsCut (s : Shape B V L R) (b : B) (x : ℕ) (p q : B) : Prop where
  lo_lt : s.lo b < x
  lt_hi : x < s.hi b
  lo_fst : s.lo p = s.lo b
  hi_fst : s.hi p = x
  lo_snd : s.lo q = x
  hi_snd : s.hi q = s.hi b
  val_fst : s.val p = s.val b
  val_snd : s.val q = s.val b
  left_fst : s.left p = s.left b
  right_fst : s.right p = s.noRight
  left_snd : s.left q = s.noLeft
  right_snd : s.right q = s.right b

/-- `c` joins the neighbours `p` and `q`, dropping the two open marks between them. -/
structure IsJoin (s : Shape B V L R) (p q c : B) : Prop where
  mergeable : s.Mergeable p q
  lo : s.lo c = s.lo p
  hi : s.hi c = s.hi q
  val : s.val c = s.val p
  left : s.left c = s.left p
  right : s.right c = s.right q

/-- `b` is a piece of a tiling: what it shows at its ends and inside is what the
tiling shows there. -/
structure Shows (s : Shape B V L R) (t : List B) (b : B) : Prop where
  val : ∀ x, s.lo b ≤ x → x < s.hi b → s.valAt t x = some (s.val b)
  left : s.leftAt t (s.lo b) = s.left b
  right : s.rightAt t (s.hi b) = s.right b

/-- A block is a piece of every tiling that shows the same where it lies. -/
theorem shows_congr (hv : ∀ x, s.lo p ≤ x → s.valAt t x = s.valAt u x)
    (hl : s.leftAt t (s.lo p) = s.leftAt u (s.lo p))
    (hr : s.rightAt t (s.hi p) = s.rightAt u (s.hi p)) : s.Shows t p ↔ s.Shows u p := by
  constructor
  · rintro ⟨h₁, h₂, h₃⟩
    exact ⟨fun x hlo hhi => hv x hlo ▸ h₁ x hlo hhi, hl ▸ h₂, hr ▸ h₃⟩
  · rintro ⟨h₁, h₂, h₃⟩
    exact ⟨fun x hlo hhi => (hv x hlo).trans (h₁ x hlo hhi), hl.trans h₂, hr.trans h₃⟩

/-- Pieces behind the first block are pieces of the rest. -/
theorem shows_cons_iff (hb : s.lo b < s.hi b) (hp : s.lo p < s.hi p) (hle : s.hi b ≤ s.lo p) :
    s.Shows (b :: t) p ↔ s.Shows t p := by
  refine shows_congr (fun x hx => ?_) ?_ ?_
  · rw [valAt_cons, if_neg (by omega)]
  · rw [leftAt_cons, if_neg (by omega)]
  · rw [rightAt_cons, if_neg (by omega)]

/-- Pieces behind a run of blocks are pieces of what follows it. -/
theorem shows_append_iff (ht : s.Tiles m t n) (hp : s.lo p < s.hi p)
    (hle : n ≤ s.lo p) : s.Shows (t ++ u) p ↔ s.Shows u p := by
  induction t generalizing m with
  | nil => exact Iff.rfl
  | cons b t ih =>
    obtain ⟨_, hb, ht⟩ := ht
    have := ht.le
    exact (shows_cons_iff hb hp (by omega)).trans (ih ht)

theorem shows_head : s.Shows (b :: t) b :=
  ⟨fun _ hlo hhi => if_pos ⟨hlo, hhi⟩, if_pos rfl, if_pos rfl⟩

namespace IsCut

variable (h : s.IsCut b x p q)
include h

theorem tiles (ht : s.Tiles m (b :: t) n) : s.Tiles m (p :: q :: t) n := by
  obtain ⟨hlo, _, ht⟩ := ht
  refine ⟨h.lo_fst.trans hlo, ?_, h.lo_snd.trans h.hi_fst.symm, ?_, ?_⟩
  · rw [h.lo_fst, h.hi_fst]; exact h.lo_lt
  · rw [h.lo_snd, h.hi_snd]; exact h.lt_hi
  · rw [h.hi_snd]; exact ht

theorem valAt (y : ℕ) : s.valAt (p :: q :: t) y = s.valAt (b :: t) y := by
  have h₁ := h.lo_lt
  have h₂ := h.lt_hi
  rw [valAt_cons, valAt_cons, valAt_cons, h.lo_fst, h.hi_fst, h.lo_snd, h.hi_snd, h.val_fst,
    h.val_snd]
  split <;> split <;> first | rfl | (split <;> first | rfl | omega) | omega

theorem isStart (y : ℕ) : s.IsStart (p :: q :: t) y ↔ y = x ∨ s.IsStart (b :: t) y := by
  rw [isStart_cons, isStart_cons, isStart_cons, h.lo_fst, h.lo_snd, eq_comm (a := x)]
  exact or_left_comm

variable (ht : s.Tiles m (b :: t) n)
include ht

theorem leftAt (y : ℕ) : s.leftAt (p :: q :: t) y = s.leftAt (b :: t) y := by
  have h₂ := h.lt_hi
  rw [leftAt_cons, leftAt_cons, leftAt_cons, h.lo_fst, h.lo_snd, h.left_fst, h.left_snd]
  split
  · rfl
  · split
    · rw [ht.2.2.leftAt_eq_noLeft (by omega)]
    · rfl

theorem rightAt (y : ℕ) : s.rightAt (p :: q :: t) y = s.rightAt (b :: t) y := by
  have h₂ := h.lt_hi
  rw [rightAt_cons, rightAt_cons, rightAt_cons, h.hi_fst, h.hi_snd, h.right_fst, h.right_snd]
  split
  · rw [if_neg (by omega), ht.2.2.rightAt_eq_noRight (by omega)]
  · rfl

theorem shows (c : B) : s.Shows (p :: q :: t) c ↔ s.Shows (b :: t) c :=
  shows_congr (fun y _ => h.valAt y) (h.leftAt ht _) (h.rightAt ht _)

end IsCut

/-- A painting pass over `[a, e)`: blocks are cut at `a` and `e` only, a block
outside the range or satisfying `K` is kept, and a block inside the range that
does not satisfy `K` is replaced by one related to it by `P`. -/
inductive Paints (s : Shape B V L R) (a e : ℕ) (K : B → Prop) (P : B → B → Prop) :
    List B → List B → Prop
  | nil : Paints s a e K P [] []
  | keep {b : B} {t t' : List B} (hkeep : s.hi b ≤ a ∨ e ≤ s.lo b ∨ K b)
      (h : Paints s a e K P t t') : Paints s a e K P (b :: t) (b :: t')
  | cut {b p q : B} {x : ℕ} {t t' : List B} (hx : x = a ∨ x = e) (hcut : s.IsCut b x p q)
      (h : Paints s a e K P (p :: q :: t) t') : Paints s a e K P (b :: t) t'
  | paint {b b' : B} {t t' : List B} (hlo : a ≤ s.lo b) (hhi : s.hi b ≤ e) (hK : ¬ K b)
      (hP : P b b') (lo_eq : s.lo b' = s.lo b) (hi_eq : s.hi b' = s.hi b)
      (h : Paints s a e K P t t') : Paints s a e K P (b :: t) (b' :: t')

namespace Paints

variable {K : B → Prop} {P : B → B → Prop}

/-- Blocks outside the range may be put in front of a pass. -/
theorem append_left (h : s.Paints a e K P t t') (hu : ∀ b ∈ u, s.hi b ≤ a) :
    s.Paints a e K P (u ++ t) (u ++ t') := by
  induction u with
  | nil => exact h
  | cons b u ih =>
    exact .keep (.inl (hu b (.head _))) (ih fun c hc => hu c (.tail _ hc))

theorem refl_of_le (ht : ∀ b ∈ t, e ≤ s.lo b) : s.Paints a e K P t t := by
  induction t with
  | nil => exact .nil
  | cons b t ih =>
    exact .keep (.inr (.inl (ht b (.head _))))
      (ih fun c hc => ht c (.tail _ hc))

section

variable (h : s.Paints a e K P t t')
include h

theorem congr_keep {J : B → Prop} (hK : ∀ b, K b ↔ J b) : s.Paints a e J P t t' := by
  have : K = J := funext fun b => propext (hK b)
  exact this ▸ h

theorem tiles (ht : s.Tiles m t n) : s.Tiles m t' n := by
  induction h generalizing m with
  | nil => exact ht
  | keep _ _ ih => exact ⟨ht.1, ht.2.1, ih ht.2.2⟩
  | cut _ hcut _ ih => exact ih (hcut.tiles ht)
  | paint _ _ _ _ lo_eq hi_eq _ ih =>
    rw [tiles_cons, lo_eq, hi_eq]
    exact ⟨ht.1, ht.2.1, ih ht.2.2⟩

/-- The only new block starts are the two ends of the range. -/
theorem isStart_bound (hx : s.IsStart t' x) : s.IsStart t x ∨ x = a ∨ x = e := by
  induction h with
  | nil => exact .inl hx
  | keep _ _ ih =>
    rw [isStart_cons] at hx ⊢
    rcases hx with hx | hx
    · exact .inl (.inl hx)
    · exact (ih hx).imp_left .inr
  | cut hc hcut _ ih =>
    rcases ih hx with hx | hx
    · rcases (hcut.isStart x).mp hx with rfl | hx
      · exact .inr hc
      · exact .inl hx
    · exact .inr hx
  | paint _ _ _ _ lo_eq _ _ ih =>
    rw [isStart_cons, lo_eq] at hx
    rw [isStart_cons]
    rcases hx with hx | hx
    · exact .inl (.inl hx)
    · exact (ih hx).imp_left .inr

/-- A block that is not exempt and covers the start of the range is cut there. -/
theorem isStart_left (hK : ∀ b c, s.val b = s.val c → (K b ↔ K c)) (hae : a < e) (hb : b ∈ t)
    (hlo : s.lo b ≤ a) (hhi : a < s.hi b) (hKb : ¬ K b) : s.IsStart t' a := by
  induction h generalizing b with
  | nil => cases hb
  | keep hkeep _ ih =>
    rcases List.mem_cons.mp hb with rfl | hb
    · rcases hkeep with h | h | h
      · omega
      · omega
      · exact absurd h hKb
    · exact (isStart_cons _ _ _ _).mpr (.inr (ih hb hlo hhi hKb))
  | @cut c p q x u u' hx hcut _ ih =>
    rcases List.mem_cons.mp hb with rfl | hb
    · by_cases hax : a < x
      · exact ih (.head _) (by rw [hcut.lo_fst]; exact hlo) (by rw [hcut.hi_fst]; exact hax)
          (by rw [hK _ _ hcut.val_fst]; exact hKb)
      · exact ih (.tail _ (.head _)) (by rw [hcut.lo_snd]; omega)
          (by rw [hcut.hi_snd]; exact hhi) (by rw [hK _ _ hcut.val_snd]; exact hKb)
    · exact ih (.tail _ (.tail _ hb)) hlo hhi hKb
  | @paint c c' u u' hlo' _ _ _ lo_eq _ _ ih =>
    rcases List.mem_cons.mp hb with rfl | hb
    · exact (isStart_cons _ _ _ _).mpr (.inl (by omega))
    · exact (isStart_cons _ _ _ _).mpr (.inr (ih hb hlo hhi hKb))

/-- The pass applies `f` to the value of exactly the positions of the range. -/
theorem valAt {f : V → V} (hK : ∀ b, K b → f (s.val b) = s.val b)
    (hP : ∀ b b', ¬ K b → P b b' → s.val b' = f (s.val b)) (x : ℕ) :
    s.valAt t' x = if a ≤ x ∧ x < e then (s.valAt t x).map f else s.valAt t x := by
  induction h with
  | nil => simp
  | @keep b t t' hkeep _ ih =>
    rw [valAt_cons, valAt_cons, ih]
    by_cases hin : s.lo b ≤ x ∧ x < s.hi b
    · rw [if_pos hin]
      split
      · rcases hkeep with h | h | h
        · omega
        · omega
        · rw [Option.map_some, hK _ h]
      · rfl
    · rw [if_neg hin, if_neg hin]
  | cut _ hcut _ ih => rw [ih, hcut.valAt]
  | @paint b b' t t' hlo hhi hKb hp lo_eq hi_eq _ ih =>
    rw [valAt_cons, valAt_cons, ih, lo_eq, hi_eq]
    by_cases hin : s.lo b ≤ x ∧ x < s.hi b
    · rw [if_pos hin, if_pos hin, if_pos (by omega), Option.map_some, hP _ _ hKb hp]
    · rw [if_neg hin, if_neg hin]

theorem valAt_outside (hx : x < a ∨ e ≤ x) : s.valAt t' x = s.valAt t x := by
  induction h with
  | nil => rfl
  | keep _ _ ih => rw [valAt_cons, valAt_cons, ih]
  | cut _ hcut _ ih => rw [ih, hcut.valAt]
  | paint hlo hhi _ _ lo_eq hi_eq _ ih =>
    rw [valAt_cons, valAt_cons, ih, if_neg (by omega), if_neg (by omega)]

variable (ht : s.Tiles m t n)
include ht

theorem leftAt_outside (hx : x < a ∨ e ≤ x) : s.leftAt t' x = s.leftAt t x := by
  induction h generalizing m with
  | nil => rfl
  | keep _ _ ih => rw [leftAt_cons, leftAt_cons, ih ht.2.2]
  | cut _ hcut _ ih => rw [ih (hcut.tiles ht), hcut.leftAt ht]
  | paint hlo hhi _ _ lo_eq _ _ ih =>
    have := ht.2.1
    rw [leftAt_cons, leftAt_cons, ih ht.2.2, if_neg (by omega), if_neg (by omega)]

theorem rightAt_outside (hx : x ≤ a ∨ e < x) : s.rightAt t' x = s.rightAt t x := by
  induction h generalizing m with
  | nil => rfl
  | keep _ _ ih => rw [rightAt_cons, rightAt_cons, ih ht.2.2]
  | cut _ hcut _ ih => rw [ih (hcut.tiles ht), hcut.rightAt ht]
  | paint hlo hhi _ _ _ hi_eq _ ih =>
    have := ht.2.1
    rw [rightAt_cons, rightAt_cons, ih ht.2.2, if_neg (by omega), if_neg (by omega)]

theorem mergeableAt_outside (hx : x < a ∨ e < x) : s.MergeableAt t' x ↔ s.MergeableAt t x := by
  unfold MergeableAt
  rw [h.valAt_outside (by omega), h.valAt_outside (by omega), h.leftAt_outside ht (by omega),
    h.rightAt_outside ht (by omega)]

end

section

variable (h : s.Paints a e (fun _ => False) P t t') (ht : s.Tiles m t n)
include h ht

/-- When no block is exempt, the left marks inside the range change position
by position. A position where no block starts shows no mark before or after. -/
theorem leftAt_inside {f : V → Bool → L → L}
    (hP : ∀ b b', P b b' → s.left b' = f (s.val b) (s.lo b = a) (s.left b))
    (hf : ∀ v, f v false s.noLeft = s.noLeft) {v : V} (hv : s.valAt t x = some v)
    (hx : a ≤ x ∧ x < e) : s.leftAt t' x = f v (x = a) (s.leftAt t x) := by
  induction h generalizing m with
  | nil => simp at hv
  | @keep b t t' hkeep _ ih =>
    have hb : ¬ (s.lo b ≤ x ∧ x < s.hi b) := by
      rw [or_false] at hkeep
      omega
    have := ht.2.1
    rw [valAt_cons, if_neg hb] at hv
    rw [leftAt_cons, leftAt_cons, if_neg (by omega), if_neg (by omega), ih ht.2.2 hv]
  | cut _ hcut _ ih =>
    rw [ih (hcut.tiles ht) (by rw [hcut.valAt]; exact hv), hcut.leftAt ht]
  | @paint b b' t t' hlo hhi _ hp lo_eq hi_eq htail ih =>
    by_cases hin : s.lo b ≤ x ∧ x < s.hi b
    · rw [valAt_cons, if_pos hin, Option.some_inj] at hv
      subst hv
      rw [leftAt_cons, leftAt_cons, lo_eq]
      by_cases hbx : s.lo b = x
      · rw [if_pos hbx, if_pos hbx, hP b b' hp, hbx]
      · -- strictly inside the block: neither tiling shows a mark
        rw [if_neg hbx, if_neg hbx, (htail.tiles ht.2.2).leftAt_eq_noLeft (.inl hin.2),
          ht.2.2.leftAt_eq_noLeft (.inl hin.2), decide_eq_false (by omega), hf]
    · have := ht.2.1
      rw [valAt_cons, if_neg hin] at hv
      have hne : s.lo b ≠ x := fun heq => hin (by omega)
      rw [leftAt_cons, leftAt_cons, lo_eq, if_neg hne, if_neg hne, ih ht.2.2 hv]

theorem rightAt_inside {f : V → Bool → R → R}
    (hP : ∀ b b', P b b' → s.right b' = f (s.val b) (s.hi b = e) (s.right b))
    (hf : ∀ v, f v false s.noRight = s.noRight) {v : V} (hv : s.valAt t (x - 1) = some v)
    (hx : a < x ∧ x ≤ e) : s.rightAt t' x = f v (x = e) (s.rightAt t x) := by
  induction h generalizing m with
  | nil => simp at hv
  | @keep b t t' hkeep _ ih =>
    have hb : ¬ (s.lo b ≤ x - 1 ∧ x - 1 < s.hi b) := by
      rw [or_false] at hkeep
      omega
    have := ht.2.1
    rw [valAt_cons, if_neg hb] at hv
    rw [rightAt_cons, rightAt_cons, if_neg (by omega), if_neg (by omega), ih ht.2.2 hv]
  | cut _ hcut _ ih =>
    rw [ih (hcut.tiles ht) (by rw [hcut.valAt]; exact hv), hcut.rightAt ht]
  | @paint b b' t t' hlo hhi _ hp lo_eq hi_eq htail ih =>
    have hlt := ht.2.1
    by_cases hin : s.lo b ≤ x - 1 ∧ x - 1 < s.hi b
    · rw [valAt_cons, if_pos hin, Option.some_inj] at hv
      subst hv
      rw [rightAt_cons, rightAt_cons, hi_eq]
      by_cases hbx : s.hi b = x
      · rw [if_pos hbx, if_pos hbx, hP b b' hp, hbx]
      · rw [if_neg hbx, if_neg hbx, (htail.tiles ht.2.2).rightAt_eq_noRight (.inl (by omega)),
          ht.2.2.rightAt_eq_noRight (.inl (by omega)), decide_eq_false (by omega), hf]
    · rw [valAt_cons, if_neg hin] at hv
      have hne : s.hi b ≠ x := fun heq => hin (by omega)
      rw [rightAt_cons, rightAt_cons, hi_eq, if_neg hne, if_neg hne, ih ht.2.2 hv]

/-- When no block is exempt, every position of the range lies in a piece that
was painted. -/
theorem exists_painted (hx : a ≤ x ∧ x < e) (hm : m ≤ x) (hn : x < n) :
    ∃ b b', P b b' ∧ m ≤ s.lo b ∧ a ≤ s.lo b ∧ s.lo b ≤ x ∧ x < s.hi b ∧ s.hi b ≤ e ∧
      s.Shows t b := by
  induction h generalizing m with
  | nil => rw [tiles_nil] at ht; omega
  | @keep b t t' hkeep _ ih =>
    have hb := ht.2.1
    have hlo := ht.1
    have hnot : s.hi b ≤ x := by
      rw [or_false] at hkeep
      omega
    obtain ⟨c, c', hP, hmc, hac, hcx, hxc, hce, hs⟩ := ih ht.2.2 hnot
    exact ⟨c, c', hP, by omega, hac, hcx, hxc, hce, (shows_cons_iff hb (by omega) hmc).mpr hs⟩
  | cut _ hcut _ ih =>
    obtain ⟨c, c', hP, hmc, hac, hcx, hxc, hce, hs⟩ := ih (hcut.tiles ht) hm
    exact ⟨c, c', hP, hmc, hac, hcx, hxc, hce, (hcut.shows ht c).mp hs⟩
  | @paint b b' t t' hlo hhi _ hp lo_eq hi_eq htail ih =>
    have hb := ht.2.1
    have hlo' := ht.1
    by_cases hin : x < s.hi b
    · exact ⟨b, b', hp, by omega, hlo, by omega, hin, hhi, shows_head⟩
    · obtain ⟨c, c', hP, hmc, hac, hcx, hxc, hce, hs⟩ := ih ht.2.2 (by omega)
      exact ⟨c, c', hP, by omega, hac, hcx, hxc, hce, (shows_cons_iff hb (by omega) hmc).mpr hs⟩

end

/-- A property of what a block shows that cutting and painting respect holds
of every block after the pass. -/
theorem forall_blocks (h : s.Paints a e K P t t') {I : V → L → R → Prop}
    (hl : ∀ v l r, I v l r → I v l s.noRight) (hr : ∀ v l r, I v l r → I v s.noLeft r)
    (hP : ∀ b b', P b b' → I (s.val b) (s.left b) (s.right b) →
      I (s.val b') (s.left b') (s.right b'))
    (ht : ∀ b ∈ t, I (s.val b) (s.left b) (s.right b)) :
    ∀ b ∈ t', I (s.val b) (s.left b) (s.right b) := by
  induction h with
  | nil => exact ht
  | keep _ _ ih =>
    simp only [List.mem_cons, forall_eq_or_imp] at ht ⊢
    exact ⟨ht.1, ih ht.2⟩
  | cut _ hcut _ ih =>
    apply ih
    simp only [List.mem_cons, forall_eq_or_imp] at ht ⊢
    rw [hcut.val_fst, hcut.left_fst, hcut.right_fst, hcut.val_snd, hcut.left_snd, hcut.right_snd]
    exact ⟨hl _ _ _ ht.1, hr _ _ _ ht.1, ht.2⟩
  | paint _ _ _ hp _ _ _ ih =>
    simp only [List.mem_cons, forall_eq_or_imp] at ht ⊢
    exact ⟨hP _ _ hp ht.1, ih ht.2⟩

end Paints

/-- A joining pass: neighbours that may be joined are, in any places and number. -/
inductive Merges (s : Shape B V L R) : List B → List B → Prop
  | nil : Merges s [] []
  | keep {b : B} {t t' : List B} (h : Merges s t t') : Merges s (b :: t) (b :: t')
  | join {p q c : B} {t t' : List B} (hjoin : s.IsJoin p q c) (h : Merges s (c :: t) t') :
      Merges s (p :: q :: t) t'

namespace Merges

theorem refl (t : List B) : s.Merges t t := by
  induction t with
  | nil => exact .nil
  | cons b t ih => exact .keep ih

theorem append_left (u : List B) (h : s.Merges t t') : s.Merges (u ++ t) (u ++ t') := by
  induction u with
  | nil => exact h
  | cons b u ih => exact .keep ih

theorem join_tiles {c : B} (hjoin : s.IsJoin p q c) (ht : s.Tiles m (p :: q :: t) n) :
    s.Tiles m (c :: t) n := by
  obtain ⟨hlo, hp, hq, hq', ht⟩ := ht
  rw [tiles_cons, hjoin.lo, hjoin.hi]
  exact ⟨hlo, by omega, ht⟩

theorem tiles (h : s.Merges t t') (ht : s.Tiles m t n) : s.Tiles m t' n := by
  induction h generalizing m with
  | nil => exact ht
  | keep _ ih => exact ⟨ht.1, ht.2.1, ih ht.2.2⟩
  | join hjoin _ ih => exact ih (join_tiles hjoin ht)

theorem join_valAt {c : B} (hjoin : s.IsJoin p q c) (ht : s.Tiles m (p :: q :: t) n) (x : ℕ) :
    s.valAt (c :: t) x = s.valAt (p :: q :: t) x := by
  obtain ⟨_, hp, hq, hq', _⟩ := ht
  rw [valAt_cons, valAt_cons, valAt_cons, hjoin.lo, hjoin.hi, hjoin.val, ← hjoin.mergeable.1]
  split <;> split <;> first | rfl | (split <;> first | rfl | omega) | omega

theorem valAt (h : s.Merges t t') (ht : s.Tiles m t n) (x : ℕ) : s.valAt t' x = s.valAt t x := by
  induction h generalizing m with
  | nil => rfl
  | keep _ ih => rw [valAt_cons, valAt_cons, ih ht.2.2]
  | join hjoin _ ih => rw [ih (join_tiles hjoin ht), join_valAt hjoin ht]

/-- The first block keeps its value and its left mark. -/
theorem head (h : s.Merges (b :: t) t') :
    ∃ c u, t' = c :: u ∧ s.lo c = s.lo b ∧ s.val c = s.val b ∧ s.left c = s.left b := by
  generalize hw : b :: t = w at h
  induction h generalizing b t with
  | nil => cases hw
  | @keep d u u' h _ =>
    cases hw
    exact ⟨d, u', rfl, rfl, rfl, rfl⟩
  | @join p q c u u' hjoin _ ih =>
    cases hw
    obtain ⟨d, w, hw, hlo, hval, hleft⟩ := ih rfl
    exact ⟨d, w, hw, hlo.trans hjoin.lo, hval.trans hjoin.val, hleft.trans hjoin.left⟩

variable (h : s.Merges t t')
include h

/-- At every position the pass either changes nothing or removes a boundary at
which the two neighbours could be joined. -/
theorem marks (ht : s.Tiles m t n) (x : ℕ) :
    (s.leftAt t' x = s.leftAt t x ∧ s.rightAt t' x = s.rightAt t x ∧
        (s.IsStart t' x ↔ s.IsStart t x)) ∨
      (¬ s.IsStart t' x ∧ s.IsStart t x ∧ m < x ∧ s.MergeableAt t x) := by
  induction h generalizing m with
  | nil => exact .inl ⟨rfl, rfl, Iff.rfl⟩
  | @keep b t t' h ih =>
    have htiles := ht
    obtain ⟨rfl, hb, ht⟩ := ht
    rcases ih ht with ⟨hl, hr, hs⟩ | ⟨h₁, h₂, hlt, hm⟩
    · refine .inl ⟨?_, ?_, ?_⟩
      · rw [leftAt_cons, leftAt_cons, hl]
      · rw [rightAt_cons, rightAt_cons, hr]
      · rw [isStart_cons, isStart_cons, hs]
    · refine .inr ⟨?_, ?_, by omega, ?_⟩
      · rw [isStart_cons, not_or]
        exact ⟨by omega, h₁⟩
      · rw [isStart_cons]
        exact .inr h₂
      · exact (htiles.mergeableAt_cons hlt).mpr hm
  | @join p q c t t' hjoin h ih =>
    have hval := fun y => join_valAt hjoin ht y
    have htiles := join_tiles hjoin ht
    have hpair := ht.mergeableAt_hi.mpr hjoin.mergeable
    obtain ⟨rfl, hp, hq, hq', ht⟩ := ht
    by_cases hx : x = s.hi p
    · subst hx
      have hnot : ¬ s.IsStart (c :: t) (s.hi p) := fun hstart =>
        hp.ne' (htiles.eq_of_isStart_lt hstart (by rw [hjoin.hi]; omega))
      have hstart : s.IsStart (p :: q :: t) (s.hi p) := by simp [hq]
      refine .inr ⟨?_, hstart, hp, hpair⟩
      rcases ih htiles with ⟨_, _, hs⟩ | ⟨h₁, _⟩
      · rw [hs]; exact hnot
      · exact h₁
    · have hleft : s.leftAt (c :: t) x = s.leftAt (p :: q :: t) x := by
        rw [leftAt_cons, leftAt_cons, leftAt_cons, hjoin.lo, hjoin.left, hq, if_neg (Ne.symm hx)]
      have hright : s.rightAt (c :: t) x = s.rightAt (p :: q :: t) x := by
        rw [rightAt_cons, rightAt_cons, rightAt_cons, hjoin.hi, hjoin.right, if_neg (Ne.symm hx)]
      have hstart : s.IsStart (c :: t) x ↔ s.IsStart (p :: q :: t) x := by
        rw [isStart_cons, isStart_cons, isStart_cons, hjoin.lo, hq]
        simp [Ne.symm hx]
      have hm : s.MergeableAt (c :: t) x ↔ s.MergeableAt (p :: q :: t) x := by
        unfold MergeableAt
        rw [hval, hval, hleft, hright]
      rw [← hleft, ← hright, ← hstart, ← hm]
      exact ih htiles

theorem isStart_sub (ht : s.Tiles m t n) (hx : s.IsStart t' x) : s.IsStart t x := by
  rcases h.marks ht x with ⟨_, _, hs⟩ | ⟨h₁, _⟩
  · exact hs.mp hx
  · exact absurd hx h₁

/-- Positions where a block still starts are mergeable after the pass exactly
when they were before. -/
theorem mergeableAt_iff (ht : s.Tiles m t n) (hx : s.IsStart t' x) :
    s.MergeableAt t' x ↔ s.MergeableAt t x := by
  rcases h.marks ht x with ⟨hl, hr, _⟩ | ⟨h₁, _⟩
  · unfold MergeableAt
    rw [h.valAt ht, h.valAt ht, hl, hr]
  · exact absurd hx h₁

/-- If every boundary that may be joined shows no mark, the pass hides nothing. -/
theorem marks_eq (ht : s.Tiles m t n) (hno : ∀ x, s.IsStart t x → m < x → s.MergeableAt t x →
      s.leftAt t x = s.noLeft ∧ s.rightAt t x = s.noRight) (x : ℕ) :
    s.leftAt t' x = s.leftAt t x ∧ s.rightAt t' x = s.rightAt t x := by
  rcases h.marks ht x with ⟨hl, hr, _⟩ | ⟨h₁, h₂, hlt, hm⟩
  · exact ⟨hl, hr⟩
  · obtain ⟨hl, hr⟩ := hno x h₂ hlt hm
    have hne : x ≠ n := Nat.ne_of_lt (ht.isStart_bounds h₂).2
    rw [hl, hr, Tiles.leftAt_of_not_isStart h₁, (h.tiles ht).rightAt_of_not_isStart h₁ hne]
    exact ⟨rfl, rfl⟩

theorem forall_blocks {I : V → L → R → Prop}
    (hI : ∀ v l r l' r', s.rightOpen r → s.leftOpen l' → I v l r → I v l' r' → I v l r')
    (ht : ∀ b ∈ t, I (s.val b) (s.left b) (s.right b)) :
    ∀ b ∈ t', I (s.val b) (s.left b) (s.right b) := by
  induction h with
  | nil => exact ht
  | keep _ ih =>
    simp only [List.mem_cons, forall_eq_or_imp] at ht ⊢
    exact ⟨ht.1, ih ht.2⟩
  | join hjoin _ ih =>
    apply ih
    simp only [List.mem_cons, forall_eq_or_imp] at ht ⊢
    obtain ⟨hv, hr, hl⟩ := hjoin.mergeable
    refine ⟨?_, ht.2.2⟩
    rw [hjoin.val, hjoin.left, hjoin.right]
    exact hI _ _ _ _ _ hr hl ht.1 (hv ▸ ht.2.1)

end Merges

/-- Painting a range of a maximal tiling and joining again leaves a maximal
tiling, if nothing is left to join from one end of the range to the other. -/
theorem maximal_of_passes {K : B → Prop} {P : B → B → Prop} (hae : a ≤ e)
    (ht : s.Tiles m t n) (hmax : s.Maximal t) (hp : s.Paints a e K P t u) (hj : s.Merges u t')
    (hon : s.MaximalOn (fun x => a ≤ x ∧ x ≤ e) t') : s.Maximal t' := by
  have hu := hp.tiles ht
  have ht' := hj.tiles hu
  rw [ht'.maximal_iff]
  intro x hx hlt
  by_cases hin : a ≤ x ∧ x ≤ e
  · exact ht'.maximalOn_iff.mp hon x hx hlt hin
  · rw [hj.mergeableAt_iff hu hx, hp.mergeableAt_outside ht (by omega)]
    rcases hp.isStart_bound (hj.isStart_sub hu hx) with h | h
    · exact ht.maximal_iff.mp hmax x h hlt
    · omega

/-- A tiling in which nothing can be joined is determined by what it shows. The
induction compares first blocks: were one shorter, the position where it ends
would show the same value on both sides and no mark, as it lies inside the
other tiling's block. -/
theorem map_key_eq_of_views (h : s.Tiles a t e) (h' : s.Tiles a t' e) (hm : s.Maximal t)
    (hm' : s.Maximal t') (hv : ∀ x, s.valAt t x = s.valAt t' x)
    (hl : ∀ x, s.leftAt t x = s.leftAt t' x) (hr : ∀ x, s.rightAt t x = s.rightAt t' x) :
    t.map s.key = t'.map s.key := by
  have shorter : ∀ {a : ℕ} {b b' : B} {t t' : List B}, s.Tiles a (b :: t) e →
      s.Tiles a (b' :: t') e → s.Maximal (b :: t) →
      (∀ x, s.valAt (b :: t) x = s.valAt (b' :: t') x) →
      (∀ x, s.leftAt (b :: t) x = s.leftAt (b' :: t') x) →
      (∀ x, s.rightAt (b :: t) x = s.rightAt (b' :: t') x) → ¬ s.hi b < s.hi b' := by
    intro a b b' t t' h h' hm hv hl hr hlt
    have hstart : s.IsStart (b :: t) (s.hi b) := by
      have := h'.2.2.le
      exact (isStart_cons _ _ _ _).mpr (.inr (h.2.2.isStart_first (by omega)))
    have hlo := h.1
    have hlo' := h'.1
    have hb := h.2.1
    refine h.maximal_iff.mp hm (s.hi b) hstart (by omega) ⟨?_, ?_, ?_⟩
    · rw [hv, hv, valAt_cons, if_pos (by omega), valAt_cons, if_pos (by omega)]
    · rw [hr, rightAt_cons, if_neg (by omega), h'.2.2.rightAt_eq_noRight (.inl (by omega))]
      exact s.rightOpen_noRight
    · rw [hl, leftAt_cons, if_neg (by omega), h'.2.2.leftAt_eq_noLeft (.inl hlt)]
      exact s.leftOpen_noLeft
  induction t generalizing a t' with
  | nil =>
    cases t' with
    | nil => rfl
    | cons b' t' =>
      have := h'.2.2.le
      have := h'.2.1
      have := h'.1
      rw [tiles_nil] at h
      omega
  | cons b t ih =>
    cases t' with
    | nil =>
      have := h.2.2.le
      have := h.2.1
      have := h.1
      rw [tiles_nil] at h'
      omega
    | cons b' t' =>
      have hhi : s.hi b = s.hi b' := Nat.le_antisymm
        (Nat.le_of_not_lt (shorter h' h hm' (fun x => (hv x).symm) (fun x => (hl x).symm)
          fun x => (hr x).symm))
        (Nat.le_of_not_lt (shorter h h' hm hv hl hr))
      have hlo : s.lo b = s.lo b' := h.1.trans h'.1.symm
      have hb := h.2.1
      have hval : s.val b = s.val b' := by
        have := hv (s.lo b)
        rw [valAt_cons, if_pos (by omega), valAt_cons, if_pos (by omega)] at this
        exact Option.some_inj.mp this
      have hleft : s.left b = s.left b' := by
        have := hl (s.lo b)
        rwa [leftAt_cons, if_pos rfl, leftAt_cons, if_pos hlo.symm] at this
      have hright : s.right b = s.right b' := by
        have := hr (s.hi b)
        rwa [rightAt_cons, if_pos rfl, rightAt_cons, if_pos hhi.symm] at this
      have htail : s.Tiles (s.hi b) t' e := by rw [hhi]; exact h'.2.2
      rw [List.map_cons, List.map_cons, key, key, hlo, hhi, hval, hleft, hright,
        ih h.2.2 htail (List.IsChain.tail hm) (List.IsChain.tail hm')]
      · intro x
        by_cases hx : x < s.hi b
        · rw [h.2.2.valAt_eq_none (.inl hx), htail.valAt_eq_none (.inl hx)]
        · have := hv x
          rwa [valAt_cons, if_neg (by omega), valAt_cons, if_neg (by omega)] at this
      · intro x
        by_cases hx : x < s.hi b
        · rw [h.2.2.leftAt_eq_noLeft (.inl hx), htail.leftAt_eq_noLeft (.inl hx)]
        · have := hl x
          rwa [leftAt_cons, if_neg (by omega), leftAt_cons, if_neg (by omega)] at this
      · intro x
        by_cases hx : x ≤ s.hi b
        · rw [h.2.2.rightAt_eq_noRight (.inl hx), htail.rightAt_eq_noRight (.inl hx)]
        · have := hr x
          rwa [rightAt_cons, if_neg (by omega), rightAt_cons, if_neg (by omega)] at this

end Tiling.Shape
