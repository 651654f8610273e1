import Mathlib

/-!
# Tilings of an interval by marked blocks

A list of blocks tiles `[a, e)` when each block starts where its predecessor
ends. A block shows one value at every position it covers, a left mark at its
first position and a right mark at its end. Two neighbours may be joined when
they show the same value and neither mark between them is closed.

A tiling is described by what it shows at each position, so that cutting,
painting and joining blocks are statements about positions and not about list
surgery. Cutting a block shows nothing new, joining two blocks hides nothing
but open marks, and a tiling in which no two neighbours can be joined is
determined by what it shows.
-/

namespace Tiling

/-- The observations of a block type. `noLeft` and `noRight` are shown at every
position inside a block; an open mark does not keep neighbours apart. -/
structure Shape (B V L R : Type*) where
  lo : B → ℕ
  hi : B → ℕ
  val : B → V
  left : B → L
  right : B → R
  noLeft : L
  noRight : R
  leftOpen : L → Prop
  rightOpen : R → Prop
  leftOpen_noLeft : leftOpen noLeft
  rightOpen_noRight : rightOpen noRight

variable {B V L R : Type*} (s : Shape B V L R)

namespace Shape

/-- The blocks are non-empty, sorted and gap free over `[a, e)`. -/
def Tiles : ℕ → List B → ℕ → Prop
  | a, [], e => a = e
  | a, b :: t, e => s.lo b = a ∧ s.lo b < s.hi b ∧ Tiles (s.hi b) t e

instance decidableTiles : ∀ (a : ℕ) (t : List B) (e : ℕ), Decidable (s.Tiles a t e)
  | a, [], e => inferInstanceAs (Decidable (a = e))
  | a, b :: t, e =>
    have := decidableTiles (s.hi b) t e
    inferInstanceAs (Decidable (s.lo b = a ∧ s.lo b < s.hi b ∧ s.Tiles (s.hi b) t e))

/-- The value shown at a position, if any block covers it. -/
def valAt : List B → ℕ → Option V
  | [], _ => none
  | b :: t, x => if s.lo b ≤ x ∧ x < s.hi b then some (s.val b) else valAt t x

/-- The left mark shown at a position: that of the block starting there. -/
def leftAt : List B → ℕ → L
  | [], _ => s.noLeft
  | b :: t, x => if s.lo b = x then s.left b else leftAt t x

/-- The right mark shown at a position: that of the block ending there. -/
def rightAt : List B → ℕ → R
  | [], _ => s.noRight
  | b :: t, x => if s.hi b = x then s.right b else rightAt t x

/-- Some block starts at `x`. -/
def IsStart (t : List B) (x : ℕ) : Prop := ∃ b ∈ t, s.lo b = x

instance decidableIsStart (t : List B) (x : ℕ) : Decidable (s.IsStart t x) :=
  inferInstanceAs (Decidable (∃ b ∈ t, s.lo b = x))

/-- The left block `p` and the right block `q` may be joined. -/
def Mergeable (p q : B) : Prop :=
  s.val p = s.val q ∧ s.rightOpen (s.right p) ∧ s.leftOpen (s.left q)

/-- The same question asked of a position. -/
def MergeableAt (t : List B) (x : ℕ) : Prop :=
  s.valAt t (x - 1) = s.valAt t x ∧ s.rightOpen (s.rightAt t x) ∧ s.leftOpen (s.leftAt t x)

/-- No two neighbours whose common position satisfies `Q` may be joined. -/
def MaximalOn (Q : ℕ → Prop) (t : List B) : Prop :=
  t.IsChain fun p q => Q (s.lo q) → ¬ s.Mergeable p q

/-- No two neighbours may be joined. -/
def Maximal (t : List B) : Prop := t.IsChain fun p q => ¬ s.Mergeable p q

/-- Everything a block shows, with its extent. -/
def key (b : B) : ℕ × ℕ × V × L × R := (s.lo b, s.hi b, s.val b, s.left b, s.right b)

@[simp] theorem valAt_nil (x : ℕ) : s.valAt [] x = none := by simp [valAt]

theorem valAt_cons (b : B) (t : List B) (x : ℕ) :
    s.valAt (b :: t) x = if s.lo b ≤ x ∧ x < s.hi b then some (s.val b) else s.valAt t x := rfl

theorem leftAt_cons (b : B) (t : List B) (x : ℕ) :
    s.leftAt (b :: t) x = if s.lo b = x then s.left b else s.leftAt t x := rfl

theorem rightAt_cons (b : B) (t : List B) (x : ℕ) :
    s.rightAt (b :: t) x = if s.hi b = x then s.right b else s.rightAt t x := rfl

@[simp] theorem isStart_nil (x : ℕ) : ¬ s.IsStart [] x := by simp [IsStart]

@[simp] theorem isStart_cons (b : B) (t : List B) (x : ℕ) :
    s.IsStart (b :: t) x ↔ s.lo b = x ∨ s.IsStart t x := by simp [IsStart]

theorem isStart_append (t u : List B) (x : ℕ) :
    s.IsStart (t ++ u) x ↔ s.IsStart t x ∨ s.IsStart u x := by
  simp only [IsStart, List.mem_append, or_and_right, exists_or]

/-! What is shown is shown by some block. -/

theorem forall_valAt {P : V → Prop} {t : List B} {x : ℕ} {v : V} (h : ∀ b ∈ t, P (s.val b))
    (hv : s.valAt t x = some v) : P v := by
  induction t with
  | nil => cases hv
  | cons b t ih =>
    rw [List.forall_mem_cons] at h
    rw [valAt_cons] at hv
    split at hv
    · exact Option.some_inj.mp hv ▸ h.1
    · exact ih h.2 hv

theorem forall_leftAt {P : L → Prop} {t : List B} (hno : P s.noLeft) (h : ∀ b ∈ t, P (s.left b))
    (x : ℕ) : P (s.leftAt t x) := by
  induction t with
  | nil => exact hno
  | cons b t ih =>
    rw [List.forall_mem_cons] at h
    rw [leftAt_cons]
    split
    · exact h.1
    · exact ih h.2

theorem forall_rightAt {P : R → Prop} {t : List B} (hno : P s.noRight)
    (h : ∀ b ∈ t, P (s.right b)) (x : ℕ) : P (s.rightAt t x) := by
  induction t with
  | nil => exact hno
  | cons b t ih =>
    rw [List.forall_mem_cons] at h
    rw [rightAt_cons]
    split
    · exact h.1
    · exact ih h.2

variable {s} {a m e x : ℕ} {b : B} {t u : List B}

theorem tiles_nil : s.Tiles a [] e ↔ a = e := Iff.rfl

theorem tiles_cons :
    s.Tiles a (b :: t) e ↔ s.lo b = a ∧ s.lo b < s.hi b ∧ s.Tiles (s.hi b) t e := Iff.rfl

namespace Tiles

theorem le (h : s.Tiles a t e) : a ≤ e := by
  induction t generalizing a with
  | nil => exact Nat.le_of_eq h
  | cons b t ih =>
    obtain ⟨rfl, hb, ht⟩ := h
    exact Nat.le_trans hb.le (ih ht)

theorem append (h : s.Tiles a t m) (hu : s.Tiles m u e) : s.Tiles a (t ++ u) e := by
  induction t generalizing a with
  | nil => cases h; exact hu
  | cons b t ih =>
    obtain ⟨ha, hb, ht⟩ := h
    exact ⟨ha, hb, ih ht⟩

theorem of_append (h : s.Tiles a (t ++ u) e) : ∃ m, s.Tiles a t m ∧ s.Tiles m u e := by
  induction t generalizing a with
  | nil => exact ⟨a, rfl, h⟩
  | cons b t ih =>
    obtain ⟨ha, hb, ht⟩ := h
    obtain ⟨m, hl, hr⟩ := ih ht
    exact ⟨m, ⟨ha, hb, hl⟩, hr⟩

section

variable (h : s.Tiles a t e)
include h

/-- Extents of the members: inside the tiled interval and not empty. -/
theorem bounds (hb : b ∈ t) : a ≤ s.lo b ∧ s.lo b < s.hi b ∧ s.hi b ≤ e := by
  induction t generalizing a with
  | nil => cases hb
  | cons c t ih =>
    obtain ⟨rfl, hc, ht⟩ := h
    rcases List.mem_cons.mp hb with rfl | hb
    · exact ⟨le_rfl, hc, ht.le⟩
    · obtain ⟨h₁, h₂, h₃⟩ := ih ht hb
      exact ⟨by omega, h₂, h₃⟩

theorem valAt_eq_none (hx : x < a ∨ e ≤ x) : s.valAt t x = none := by
  induction t generalizing a with
  | nil => rfl
  | cons b t ih =>
    obtain ⟨rfl, hb, ht⟩ := h
    have := ht.le
    rw [valAt_cons, if_neg (by omega), ih ht (by omega)]

theorem leftAt_eq_noLeft (hx : x < a ∨ e ≤ x) : s.leftAt t x = s.noLeft := by
  induction t generalizing a with
  | nil => rfl
  | cons b t ih =>
    obtain ⟨rfl, hb, ht⟩ := h
    have := ht.le
    rw [leftAt_cons, if_neg (by omega), ih ht (by omega)]

theorem rightAt_eq_noRight (hx : x ≤ a ∨ e < x) : s.rightAt t x = s.noRight := by
  induction t generalizing a with
  | nil => rfl
  | cons b t ih =>
    obtain ⟨rfl, hb, ht⟩ := h
    have := ht.le
    rw [rightAt_cons, if_neg (by omega), ih ht (by omega)]

theorem isStart_bounds (hx : s.IsStart t x) : a ≤ x ∧ x < e := by
  obtain ⟨b, hb, rfl⟩ := hx
  obtain ⟨h₁, h₂, h₃⟩ := h.bounds hb
  exact ⟨h₁, by omega⟩

theorem isStart_first (hlt : a < e) : s.IsStart t a := by
  cases t with
  | nil => cases h; omega
  | cons b t => exact ⟨b, List.mem_cons_self, h.1⟩

/-- No block starts inside another. -/
theorem not_isStart_inside (hb : b ∈ t) (hlo : s.lo b < x) (hhi : x < s.hi b) :
    ¬ s.IsStart t x := by
  induction t generalizing a with
  | nil => cases hb
  | cons c t ih =>
    obtain ⟨rfl, hc, ht⟩ := h
    rw [isStart_cons]
    rcases List.mem_cons.mp hb with rfl | hb
    · rintro (hx | hx)
      · omega
      · have := (ht.isStart_bounds hx).1
        omega
    · have := (ht.bounds hb).1
      exact not_or.mpr ⟨by omega, ih ht hb⟩

/-- Where a block ends the next one starts, or the tiling ends. -/
theorem isStart_hi (hb : b ∈ t) : s.IsStart t (s.hi b) ∨ s.hi b = e := by
  induction t generalizing a with
  | nil => cases hb
  | cons c t ih =>
    obtain ⟨rfl, hc, ht⟩ := h
    rw [isStart_cons]
    rcases List.mem_cons.mp hb with rfl | hb
    · rcases Nat.eq_or_lt_of_le ht.le with heq | hlt
      · exact .inr heq
      · exact .inl (.inr (ht.isStart_first hlt))
    · exact (ih ht hb).imp_left .inr

/-- The marks of a block are shown at its own ends. -/
theorem shown (hb : b ∈ t) : s.leftAt t (s.lo b) = s.left b ∧ s.rightAt t (s.hi b) = s.right b ∧
      ∀ x, s.lo b ≤ x → x < s.hi b → s.valAt t x = some (s.val b) := by
  induction t generalizing a with
  | nil => cases hb
  | cons c t ih =>
    obtain ⟨rfl, hc, ht⟩ := h
    rcases List.mem_cons.mp hb with rfl | hb
    · refine ⟨if_pos rfl, if_pos rfl, fun x hlo hhi => if_pos ⟨hlo, hhi⟩⟩
    · obtain ⟨h₁, h₂, _⟩ := ht.bounds hb
      obtain ⟨hl, hr, hv⟩ := ih ht hb
      refine ⟨?_, ?_, fun x hlo hhi => ?_⟩
      · rw [leftAt_cons, if_neg (by omega), hl]
      · rw [rightAt_cons, if_neg (by omega), hr]
      · rw [valAt_cons, if_neg (by omega), hv x hlo hhi]

theorem exists_block (hlo : a ≤ x) (hhi : x < e) : ∃ b ∈ t, s.lo b ≤ x ∧ x < s.hi b := by
  induction t generalizing a with
  | nil => cases h; omega
  | cons b t ih =>
    obtain ⟨rfl, hb, ht⟩ := h
    by_cases hx : x < s.hi b
    · exact ⟨b, List.mem_cons_self, hlo, hx⟩
    · obtain ⟨c, hc, hcx⟩ := ih ht (by omega)
      exact ⟨c, .tail _ hc, hcx⟩

end

/-- The only start before the end of the first block is its own. -/
theorem eq_of_isStart_lt (h : s.Tiles a (b :: t) e) (hx : s.IsStart (b :: t) x)
    (hlt : x < s.hi b) : x = a := by
  rcases (isStart_cons _ _ _ _).mp hx with rfl | hx
  · exact h.1
  · have := (h.2.2.isStart_bounds hx).1
    omega

/-- No mark is shown where no block starts. -/
theorem leftAt_of_not_isStart (hx : ¬ s.IsStart t x) : s.leftAt t x = s.noLeft := by
  induction t with
  | nil => rfl
  | cons b t ih =>
    simp only [isStart_cons, not_or] at hx
    rw [leftAt_cons, if_neg hx.1, ih hx.2]

theorem rightAt_of_not_isStart (h : s.Tiles a t e) (hx : ¬ s.IsStart t x) (hne : x ≠ e) :
    s.rightAt t x = s.noRight := by
  induction t generalizing a with
  | nil => rfl
  | cons b t ih =>
    obtain ⟨rfl, hb, ht⟩ := h
    simp only [isStart_cons, not_or] at hx
    by_cases hbx : s.hi b = x
    · -- the block ending at `x` is followed by one starting there, unless it is the last
      subst hbx
      cases t with
      | nil => exact absurd ht hne
      | cons c t => exact absurd (by simp [ht.1]) hx.2
    · rw [rightAt_cons, if_neg hbx, ih ht hx.2]

section

variable (h : s.Tiles a t m) (hu : s.Tiles m u e)
include h hu

theorem valAt_append : s.valAt (t ++ u) x = if x < m then s.valAt t x else s.valAt u x := by
  induction t generalizing a with
  | nil =>
    split
    · exact hu.valAt_eq_none (.inl ‹_›)
    · rfl
  | cons b t ih =>
    obtain ⟨rfl, hb, ht⟩ := h
    have := ht.le
    rw [List.cons_append, valAt_cons, ih ht, valAt_cons]
    split <;> split <;> first | rfl | omega

theorem leftAt_append : s.leftAt (t ++ u) x = if x < m then s.leftAt t x else s.leftAt u x := by
  induction t generalizing a with
  | nil =>
    split
    · exact hu.leftAt_eq_noLeft (.inl ‹_›)
    · rfl
  | cons b t ih =>
    obtain ⟨rfl, hb, ht⟩ := h
    have := ht.le
    rw [List.cons_append, leftAt_cons, ih ht, leftAt_cons]
    split <;> split <;> first | rfl | omega

theorem rightAt_append : s.rightAt (t ++ u) x = if x ≤ m then s.rightAt t x else s.rightAt u x := by
  induction t generalizing a with
  | nil =>
    split
    · exact hu.rightAt_eq_noRight (.inl ‹_›)
    · rfl
  | cons b t ih =>
    obtain ⟨rfl, hb, ht⟩ := h
    have := ht.le
    rw [List.cons_append, rightAt_cons, ih ht, rightAt_cons]
    split <;> split <;> first | rfl | omega

theorem mergeableAt_append (hx : m < x) : s.MergeableAt (t ++ u) x ↔ s.MergeableAt u x := by
  unfold MergeableAt
  rw [h.valAt_append hu, h.valAt_append hu, h.rightAt_append hu, h.leftAt_append hu,
    if_neg (by omega), if_neg (by omega), if_neg (by omega), if_neg (by omega)]

end

/-- Beyond the first boundary a tiling shows what its tail shows. -/
theorem mergeableAt_cons (h : s.Tiles a (b :: t) e) (hx : s.hi b < x) :
    s.MergeableAt (b :: t) x ↔ s.MergeableAt t x := by
  have := h.2.1
  unfold MergeableAt
  rw [valAt_cons, if_neg (by omega), valAt_cons _ b, if_neg (by omega), rightAt_cons,
    if_neg (by omega), leftAt_cons, if_neg (by omega)]

/-- The first boundary is that of the first two blocks. -/
theorem mergeableAt_hi {c : B} (h : s.Tiles a (b :: c :: t) e) :
    s.MergeableAt (b :: c :: t) (s.hi b) ↔ s.Mergeable b c := by
  obtain ⟨_, hb, hc, hc', _⟩ := h
  unfold MergeableAt Mergeable
  rw [valAt_cons, if_pos (by omega), valAt_cons _ b, if_neg (by omega), valAt_cons,
    if_pos (by omega), rightAt_cons, if_pos rfl, leftAt_cons, if_neg (by omega),
    leftAt_cons, if_pos hc, Option.some_inj]

variable {Q : ℕ → Prop}

/-- Maximality is a property of positions: the neighbours `p`, `q` meeting at
`x` may be joined exactly when the position `x` says so. -/
theorem maximalOn_iff (h : s.Tiles a t e) :
    s.MaximalOn Q t ↔ ∀ x, s.IsStart t x → a < x → Q x → ¬ s.MergeableAt t x := by
  induction t generalizing a with
  | nil => simp [MaximalOn]
  | cons p t ih =>
    have htiles := h
    obtain ⟨rfl, hp, ht⟩ := h
    cases t with
    | nil =>
      have hfalse : ∀ x, s.lo p = x → s.lo p < x → False := by omega
      simp only [MaximalOn, List.isChain_singleton, isStart_cons, isStart_nil, or_false, true_iff]
      exact fun x hx hlt => (hfalse x hx hlt).elim
    | cons q t =>
      have hq := ht.1
      have ih' := ih ht
      unfold MaximalOn at ih' ⊢
      rw [List.isChain_cons_cons, ih', hq]
      constructor
      · rintro ⟨h₁, h₂⟩ x hx hlt hQ
        rcases (isStart_cons s p (q :: t) x).mp hx with rfl | hx
        · omega
        · have hle := (ht.isStart_bounds hx).1
          rcases Nat.eq_or_lt_of_le hle with rfl | hlt'
          · rw [htiles.mergeableAt_hi]
            exact h₁ hQ
          · rw [htiles.mergeableAt_cons hlt']
            exact h₂ x hx hlt' hQ
      · intro hall
        refine ⟨fun hQ => ?_, fun x hx hlt hQ => ?_⟩
        · rw [← htiles.mergeableAt_hi]
          exact hall _ ((isStart_cons _ _ _ _).mpr
            (.inr (ht.isStart_first (ht.2.1.trans_le ht.2.2.le |>.trans_eq' hq))))
            hp hQ
        · rw [← htiles.mergeableAt_cons hlt]
          exact hall x ((isStart_cons _ _ _ _).mpr (.inr hx)) (by omega) hQ

/-- There is nothing to join where the first block covers the positions in question. -/
theorem maximalOn_of_lt_hi (h : s.Tiles a (b :: t) e) (hQ : ∀ x, Q x → x < s.hi b) :
    s.MaximalOn Q (b :: t) := by
  rw [h.maximalOn_iff]
  intro x hx hlt hQx
  exact absurd (h.eq_of_isStart_lt hx (hQ x hQx)) hlt.ne'

/-- Maximality behind the first block of a second run does not look at the first run. -/
theorem maximalOn_append (h : s.Tiles a t m) (hu : s.Tiles m u e)
    (hQ : ∀ x, Q x → m < x) (hmax : s.MaximalOn Q u) : s.MaximalOn Q (t ++ u) := by
  rw [(h.append hu).maximalOn_iff]
  intro x hx _ hQx
  rw [h.mergeableAt_append hu (hQ x hQx)]
  rcases (isStart_append s t u x).mp hx with hx | hx
  · have := (h.isStart_bounds hx).2
    have := hQ x hQx
    omega
  · exact (hu.maximalOn_iff.mp hmax) x hx (hQ x hQx) hQx

theorem maximal_iff (h : s.Tiles a t e) :
    s.Maximal t ↔ ∀ x, s.IsStart t x → a < x → ¬ s.MergeableAt t x := by
  have := h.maximalOn_iff (Q := fun _ => True)
  simpa [MaximalOn, Maximal] using this

end Tiles

end Shape

end Tiling
