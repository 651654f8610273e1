import Atmosphere.Kern.Basic

/-!
# Resource limits

`KResourceLimit` counts how much of each resource is in use. Beside the current value it
keeps a hint of the value that will remain once the releases under way are finished: a
caller may release the hint first and the value later, so that a thread in `Reserve` knows
that it is worth waiting.

The lock is given up only while a thread in `Reserve` waits, so what a thread does between
two waits is one step. A waiting thread may wake at any time, whether it was signalled or
timed out.
-/

namespace Atmosphere.Kern

open Function (update update_self update_of_ne)
open Finset

/-- `ams::svc::LimitableResource`. -/
inductive LimitableResource
  | physicalMemoryMax
  | threadCountMax
  | eventCountMax
  | transferMemoryCountMax
  | sessionCountMax
  deriving DecidableEq, Repr

/-- A sum of `s64` values; the build has it wrap. -/
def wrap64 (z : ℤ) : ℤ := z.bmod (2 ^ 64)

/-- The values of type `s64`. -/
def IsS64 (z : ℤ) : Prop := -2 ^ 63 ≤ z ∧ z < 2 ^ 63

/-- The entries of the four arrays for one resource. -/
structure ResourceAmounts where
  limitValue : ℤ
  currentValue : ℤ
  currentHint : ℤ
  peakValue : ℤ
  deriving DecidableEq, Repr

structure KResourceLimit where
  amounts : LimitableResource → ResourceAmounts
  waiterCount : ℤ

/-- How a step of `Reserve` ends. -/
inductive ReserveOutcome
  | returned (result : Bool)
  | waits
  deriving DecidableEq, Repr

namespace KResourceLimit

/-- `Initialize`. -/
def initializeLimit : KResourceLimit := ⟨fun _ => ⟨0, 0, 0, 0⟩, 0⟩

variable (l : KResourceLimit) (which : LimitableResource)

def setAmounts (a : ResourceAmounts) :
    KResourceLimit :=
  { l with amounts := update l.amounts which a }

/-- `SetLimitValue`. -/
def setLimitValue (value : ℤ) : Except SvcResult KResourceLimit :=
  let a := l.amounts which
  if a.currentValue ≤ value then
    .ok (l.setAmounts which { a with limitValue := value, peakValue := a.currentValue })
  else
    .error .invalidState

/-- `Add`. -/
def add (value : ℤ) : Run KResourceLimit :=
  let a := l.amounts which
  let increasedLimit := wrap64 (a.limitValue + value)
  let increasedCurrent := wrap64 (a.currentValue + value)
  let increasedHint := wrap64 (a.currentHint + value)
  if 0 < value ∧ a.currentValue ≤ a.peakValue ∧ a.peakValue ≤ a.limitValue ∧
      a.currentHint ≤ a.currentValue ∧ a.limitValue < increasedLimit ∧
      a.currentValue < increasedCurrent ∧ a.currentHint < increasedHint then
    .ok (l.setAmounts which
      { limitValue := increasedLimit
        currentValue := increasedCurrent
        currentHint := increasedHint
        peakValue := max a.peakValue increasedCurrent })
  else
    .error .abortUnless

variable (value timeout tick : ℤ)

/-- The loop of `Reserve` up to its end or to the next wait, at the time `tick`. -/
def reserveLoop : ReserveOutcome × KResourceLimit :=
  let a := l.amounts which
  let newCurrent := wrap64 (a.currentValue + value)
  if newCurrent ≤ a.currentValue then
    (.returned false, l)
  else if newCurrent ≤ a.limitValue then
    (.returned true, l.setAmounts which { a with
        currentValue := newCurrent
        currentHint := wrap64 (a.currentHint + value)
        peakValue := max a.peakValue newCurrent })
  else if wrap64 (a.currentHint + value) ≤ a.limitValue ∧ (timeout < 0 ∨ tick < timeout) then
    (.waits, { l with waiterCount := l.waiterCount + 1 })
  else
    (.returned false, l)

/-- `Reserve` up to its end or to its first wait. -/
def reserve : ReserveOutcome × KResourceLimit :=
  let a := l.amounts which
  if a.limitValue ≤ a.currentHint then (.returned false, l)
  else l.reserveLoop which value timeout tick

/-- `Reserve` after a wait. -/
def reserveAwake (terminationRequested : Bool) : ReserveOutcome × KResourceLimit :=
  let l := { l with waiterCount := l.waiterCount - 1 }
  if terminationRequested then (.returned false, l)
  else l.reserveLoop which value timeout tick

/-- `Release`. The flag says that the waiters are signalled. -/
def release (value hint : ℤ) : Bool × KResourceLimit :=
  let a := l.amounts which
  (l.waiterCount != 0, l.setAmounts which { a with
      currentValue := wrap64 (a.currentValue - value)
      currentHint := wrap64 (a.currentHint - hint) })

end KResourceLimit

/-- The loop of `Reserve` gives up, waits, or succeeds within the limit. -/
theorem KResourceLimit.reserveLoop_cases (l : KResourceLimit) (which : LimitableResource)
    (value timeout tick : ℤ) :
    l.reserveLoop which value timeout tick = (.returned false, l) ∨
    l.reserveLoop which value timeout tick = (.waits, { l with waiterCount := l.waiterCount + 1 }) ∨
    (l.amounts which).currentValue < wrap64 ((l.amounts which).currentValue + value) ∧
      wrap64 ((l.amounts which).currentValue + value) ≤ (l.amounts which).limitValue ∧
      l.reserveLoop which value timeout tick = (.returned true, l.setAmounts which
        { l.amounts which with
          currentValue := wrap64 ((l.amounts which).currentValue + value)
          currentHint := wrap64 ((l.amounts which).currentHint + value)
          peakValue := max (l.amounts which).peakValue
            (wrap64 ((l.amounts which).currentValue + value)) }) := by
  unfold reserveLoop
  dsimp only
  split_ifs with hover hlimit hwait
  · exact .inl rfl
  · exact .inr (.inr ⟨by omega, hlimit, rfl⟩)
  · exact .inr (.inl rfl)
  · exact .inl rfl

theorem wrap64_eq {z : ℤ} (h : IsS64 z) : wrap64 z = z := by
  obtain ⟨hlow, hhigh⟩ := h
  exact Int.bmod_eq_of_le (by omega) (by omega)

theorem isS64_wrap64 (z : ℤ) : IsS64 (wrap64 z) := by
  have hlow : -(((2 ^ 64 : ℕ) : ℤ) / 2) ≤ z.bmod (2 ^ 64) := Int.le_bmod (by decide)
  have hhigh : z.bmod (2 ^ 64) < (((2 ^ 64 : ℕ) : ℤ) + 1) / 2 := Int.bmod_lt (by decide)
  unfold IsS64 wrap64
  omega

/-- A sum that wrapped is not above a term that is not negative. -/
theorem wrap64_add_eq {a b : ℤ} (ha : 0 ≤ a) (ha' : IsS64 a) (hb : IsS64 b)
    (h : a < wrap64 (a + b)) : wrap64 (a + b) = a + b := by
  obtain ⟨-, ha'⟩ := ha'
  obtain ⟨hb, hb'⟩ := hb
  refine wrap64_eq ⟨by omega, ?_⟩
  by_contra hover
  have hwrap : wrap64 (a + b) = a + b - 2 ^ 64 := by
    unfold wrap64
    rw [Int.bmod_def]
    omega
  omega

/-! ### Callers and runs -/

/-- What a caller has reserved and not released yet. -/
structure Balance where
  value : ℤ
  hint : ℤ

/-- A call of `Reserve` on behalf of a caller. -/
structure ReserveCall (κ : Type) where
  caller : κ
  which : LimitableResource
  value : ℤ
  timeout : ℤ

/-- A resource limit, the threads that wait in `Reserve`, and what every caller holds. -/
structure LimitState (ι κ : Type) where
  limit : KResourceLimit
  waiting : ι → Option (ReserveCall κ)
  held : κ → LimitableResource → Balance

namespace LimitState

variable {ι κ : Type} {s s' : LimitState ι κ}

def start : LimitState ι κ := ⟨.initializeLimit, fun _ => none, fun _ _ => ⟨0, 0⟩⟩

section Operations

variable [DecidableEq ι] [DecidableEq κ] (s : LimitState ι κ)

/-- A caller's balance of a resource is changed. -/
def setHeld (c : κ) (which : LimitableResource) (b : Balance) : LimitState ι κ :=
  { s with held := update s.held c (update (s.held c) which b) }

/-- A caller holds `value` more. -/
def hold (c : κ) (which : LimitableResource) (value : ℤ) : LimitState ι κ :=
  s.setHeld c which ⟨(s.held c which).value + value, (s.held c which).hint + value⟩

/-- The state after a step of `Reserve` by the thread `i`. -/
def afterReserve (i : ι) (call : ReserveCall κ) : ReserveOutcome × KResourceLimit → LimitState ι κ
  | (.waits, l) => { s with limit := l, waiting := update s.waiting i (some call) }
  | (.returned false, l) => { s with limit := l, waiting := update s.waiting i none }
  | (.returned true, l) =>
    { s with limit := l, waiting := update s.waiting i none }.hold call.caller call.which call.value

/-- A caller may release `value` and `hint`: it holds them, and it does not keep the hint of a
value that it gives up. -/
structure MayRelease (b : Balance) (value hint : ℤ) : Prop where
  value_nonneg : 0 ≤ value
  hint_nonneg : 0 ≤ hint
  value_le : value ≤ b.value
  hint_le : hint ≤ b.hint
  hint_first : b.hint - hint ≤ b.value - value

/-- One step of some thread. -/
inductive Step : LimitState ι κ → LimitState ι κ → Prop
  | reserve {s : LimitState ι κ} {i : ι} (call : ReserveCall κ) (tick : ℤ)
      (hidle : s.waiting i = none) (hvalue : IsS64 call.value) :
      Step s (s.afterReserve i call (s.limit.reserve call.which call.value call.timeout tick))
  | wake {s : LimitState ι κ} {i : ι} {call : ReserveCall κ} (tick : ℤ) (terminate : Bool)
      (hwait : s.waiting i = some call) :
      Step s (s.afterReserve i call
        (s.limit.reserveAwake call.which call.value call.timeout tick terminate))
  | release {s : LimitState ι κ} (c : κ) (which : LimitableResource) {value hint : ℤ}
      (hmay : MayRelease (s.held c which) value hint) :
      Step s ({ s with limit := (s.limit.release which value hint).2 }.setHeld c which
        ⟨(s.held c which).value - value, (s.held c which).hint - hint⟩)
  | add {s : LimitState ι κ} {l : KResourceLimit} (c : κ) (which : LimitableResource) {value : ℤ}
      (hvalue : IsS64 value) (hadd : s.limit.add which value = .ok l) :
      Step s ({ s with limit := l }.hold c which value)
  | setLimitValue {s : LimitState ι κ} {l : KResourceLimit} (which : LimitableResource) {value : ℤ}
      (hvalue : IsS64 value) (hset : s.limit.setLimitValue which value = .ok l) :
      Step s { s with limit := l }

/-- The states that the threads can reach. -/
inductive Reaches : LimitState ι κ → Prop
  | start : Reaches start
  | step {s s' : LimitState ι κ} (hrun : Reaches s) (hstep : Step s s') : Reaches s'

end Operations

section Invariant

variable [Fintype κ]

/-- The amounts in use are those the callers hold, and the bounds are kept. -/
structure LimitInv (s : LimitState ι κ) : Prop where
  current : ∀ which, (s.limit.amounts which).currentValue = ∑ c, (s.held c which).value
  hint : ∀ which, (s.limit.amounts which).currentHint = ∑ c, (s.held c which).hint
  held : ∀ c which, 0 ≤ (s.held c which).hint ∧ (s.held c which).hint ≤ (s.held c which).value
  peak : ∀ which, (s.limit.amounts which).currentValue ≤ (s.limit.amounts which).peakValue ∧
    (s.limit.amounts which).peakValue ≤ (s.limit.amounts which).limitValue
  limit : ∀ which, IsS64 (s.limit.amounts which).limitValue
  call : ∀ i call, s.waiting i = some call → IsS64 call.value

theorem limitInv_start : (start : LimitState ι κ).LimitInv where
  current := fun _ => sum_const_zero.symm
  hint := fun _ => sum_const_zero.symm
  held := fun _ _ => ⟨le_rfl, le_rfl⟩
  peak := fun _ => ⟨le_rfl, le_rfl⟩
  limit := fun _ => by simp [IsS64, start, KResourceLimit.initializeLimit]
  call := by simp [start]

namespace LimitInv

variable (inv : s.LimitInv)
include inv

theorem hint_nonneg (which : LimitableResource) : 0 ≤ (s.limit.amounts which).currentHint := by
  rw [inv.hint]
  exact sum_nonneg fun c _ => (inv.held c which).1

theorem hint_le_current (which : LimitableResource) :
    (s.limit.amounts which).currentHint ≤ (s.limit.amounts which).currentValue := by
  rw [inv.hint, inv.current]
  exact sum_le_sum fun c _ => (inv.held c which).2

/-- What one caller holds is part of what is in use. -/
theorem held_le (c : κ) (which : LimitableResource) :
    (s.held c which).value ≤ (s.limit.amounts which).currentValue ∧
      (s.held c which).hint ≤ (s.limit.amounts which).currentHint := by
  rw [inv.current, inv.hint]
  constructor
  · refine single_le_sum (f := fun c => (s.held c which).value) (fun d _ => ?_) (mem_univ c)
    have := inv.held d which
    omega
  · exact single_le_sum
      (fun d _ => (inv.held d which).1) (mem_univ c)

theorem isS64_current (which : LimitableResource) :
    0 ≤ (s.limit.amounts which).currentValue ∧ IsS64 (s.limit.amounts which).currentValue := by
  have hhint := inv.hint_nonneg which
  have hle := inv.hint_le_current which
  obtain ⟨hpeak, hlimit⟩ := inv.peak which
  obtain ⟨-, hmax⟩ := inv.limit which
  exact ⟨by omega, by omega, by omega⟩

/-- The threads that wait and the number of waiters do not matter for the amounts. -/
theorem of_amounts (hamounts : s'.limit.amounts = s.limit.amounts) (hheld : s'.held = s.held)
    (hcall : ∀ i call, s'.waiting i = some call → IsS64 call.value) : s'.LimitInv := by
  refine ⟨?_, ?_, ?_, ?_, ?_, hcall⟩
  · rw [hamounts, hheld]
    exact inv.current
  · rw [hamounts, hheld]
    exact inv.hint
  · rw [hheld]
    exact inv.held
  · rw [hamounts]
    exact inv.peak
  · rw [hamounts]
    exact inv.limit

/-- A reservation that succeeds does not wrap and stays within the limit. -/
theorem reserved {which : LimitableResource} {value : ℤ} (hvalue : IsS64 value)
    (hover : (s.limit.amounts which).currentValue <
      wrap64 ((s.limit.amounts which).currentValue + value))
    (hlimit : wrap64 ((s.limit.amounts which).currentValue + value) ≤
      (s.limit.amounts which).limitValue) :
    0 < value ∧ wrap64 ((s.limit.amounts which).currentValue + value) =
      (s.limit.amounts which).currentValue + value ∧
      wrap64 ((s.limit.amounts which).currentHint + value) =
        (s.limit.amounts which).currentHint + value := by
  obtain ⟨hnonneg, hcurrent⟩ := inv.isS64_current which
  have hhint := inv.hint_nonneg which
  have hle := inv.hint_le_current which
  obtain ⟨-, hmax⟩ := inv.limit which
  have heq := wrap64_add_eq hnonneg hcurrent hvalue hover
  exact ⟨by omega, heq, wrap64_eq ⟨by omega, by omega⟩⟩

theorem call_update [DecidableEq ι] {i : ι} {call : Option (ReserveCall κ)}
    (hvalue : ∀ c, call = some c → IsS64 c.value) :
    ∀ j c, update s.waiting i call j = some c → IsS64 c.value := by
  intro j c hj
  by_cases heq : j = i
  · subst heq
    rw [update_self] at hj
    exact hvalue c hj
  · rw [update_of_ne heq] at hj
    exact inv.call j c hj

theorem setLimitValue {l : KResourceLimit} (which : LimitableResource) {value : ℤ}
    (hvalue : IsS64 value) (hset : s.limit.setLimitValue which value = .ok l) :
    LimitInv { s with limit := l } := by
  unfold KResourceLimit.setLimitValue at hset
  dsimp only at hset
  split_ifs at hset with hle
  injection hset with hset
  subst hset
  refine ⟨?_, ?_, inv.held, ?_, ?_, inv.call⟩
  · exact (Function.forall_update_iff s.limit.amounts fun w a =>
      a.currentValue = ∑ c, (s.held c w).value).mpr
      ⟨inv.current which, fun w _ => inv.current w⟩
  · exact (Function.forall_update_iff s.limit.amounts fun w a =>
      a.currentHint = ∑ c, (s.held c w).hint).mpr
      ⟨inv.hint which, fun w _ => inv.hint w⟩
  · exact (Function.forall_update_iff s.limit.amounts fun _ a =>
      a.currentValue ≤ a.peakValue ∧ a.peakValue ≤ a.limitValue).mpr
        ⟨⟨le_rfl, hle⟩, fun w _ => inv.peak w⟩
  · exact (Function.forall_update_iff s.limit.amounts fun _ a => IsS64 a.limitValue).mpr
      ⟨hvalue, fun w _ => inv.limit w⟩

/-- A loop that ends with success has put the value into use, within the limit. -/
theorem current_of_reserveLoop {l l' : KResourceLimit} (hl : l.amounts = s.limit.amounts)
    {which : LimitableResource} {value timeout tick : ℤ} (hvalue : IsS64 value)
    (hout : l.reserveLoop which value timeout tick = (.returned true, l')) :
    (l'.amounts which).currentValue = (s.limit.amounts which).currentValue + value ∧
      (l'.amounts which).currentValue ≤ (s.limit.amounts which).limitValue := by
  rcases l.reserveLoop_cases which value timeout tick with hcase | hcase | ⟨hover, hlimit, hcase⟩
  · rw [hcase] at hout
    cases hout
  · rw [hcase] at hout
    cases hout
  · rw [hl] at hover hlimit
    obtain ⟨-, hcurrent, -⟩ := inv.reserved hvalue hover hlimit
    rw [hcase, hl] at hout
    obtain rfl := (Prod.mk.inj hout).2
    simp [KResourceLimit.setAmounts, hcurrent, hcurrent ▸ hlimit]

end LimitInv

end Invariant

section Change

variable [DecidableEq κ] [Fintype κ]

/-- The sum over the callers when one balance changes. -/
theorem sum_update (g : Balance → ℤ) (held : κ → LimitableResource → Balance) (c : κ)
    (which w : LimitableResource) (b : Balance) :
    ∑ d, g (update held c (update (held c) which b) d w) =
      ∑ d, g (held d w) + if w = which then g b - g (held c which) else 0 := by
  have hfun : (fun d => g (update held c (update (held c) which b) d w)) =
      update (fun d => g (held d w)) c (if w = which then g b else g (held c w)) := by
    funext d
    by_cases hd : d = c
    · subst hd
      by_cases hw : w = which <;> simp [hw]
    · simp [hd]
  have hsplit := sum_eq_add_sum_sdiff_singleton_of_mem (mem_univ c) fun d => g (held d w)
  rw [hfun, sum_update_of_mem (mem_univ c)]
  split_ifs with hw
  · subst hw
    omega
  · omega

namespace LimitInv

variable (inv : s.LimitInv)
include inv

/-- A caller's balance changes together with the amounts in use. -/
theorem change {c : κ} {which : LimitableResource} {a : ResourceAmounts} {b : Balance}
    (hamounts : s'.limit.amounts = update s.limit.amounts which a)
    (hheld : s'.held = update s.held c (update (s.held c) which b))
    (hcall : ∀ i call, s'.waiting i = some call → IsS64 call.value) (hcurrent : a.currentValue =
      (s.limit.amounts which).currentValue + (b.value - (s.held c which).value))
    (hhint : a.currentHint = (s.limit.amounts which).currentHint + (b.hint - (s.held c which).hint))
    (hbalance : 0 ≤ b.hint ∧ b.hint ≤ b.value)
    (hpeak : a.currentValue ≤ a.peakValue ∧ a.peakValue ≤ a.limitValue)
    (hlimit : IsS64 a.limitValue) : s'.LimitInv := by
  refine ⟨fun w => ?_, fun w => ?_, fun d w => ?_, fun w => ?_, fun w => ?_, hcall⟩
  · rw [hamounts, hheld, sum_update (·.value), ← inv.current]
    by_cases hw : w = which
    · subst hw
      simp [hcurrent]
    · simp [hw]
  · rw [hamounts, hheld, sum_update (·.hint), ← inv.hint]
    by_cases hw : w = which
    · subst hw
      simp [hhint]
    · simp [hw]
  · rw [hheld]
    by_cases hd : d = c
    · subst hd
      by_cases hw : w = which
      · subst hw
        simpa using hbalance
      · simpa [hw] using inv.held d w
    · simpa [hd] using inv.held d w
  · rw [hamounts]
    by_cases hw : w = which
    · subst hw
      simpa using hpeak
    · simpa [hw] using inv.peak w
  · rw [hamounts]
    by_cases hw : w = which
    · subst hw
      simpa using hlimit
    · simpa [hw] using inv.limit w

variable {value : ℤ} {call : ReserveCall κ}

/-- A caller gets `value` more, within the limit. -/
theorem hold {c : κ} {which : LimitableResource} {limitValue : ℤ}
    (hamounts : s'.limit.amounts = update s.limit.amounts which
      { limitValue := limitValue
        currentValue := (s.limit.amounts which).currentValue + value
        currentHint := (s.limit.amounts which).currentHint + value
        peakValue := max (s.limit.amounts which).peakValue
          ((s.limit.amounts which).currentValue + value) })
    (hheld : s'.held = (s.hold c which value).held)
    (hcall : ∀ i call, s'.waiting i = some call → IsS64 call.value) (hpos : 0 < value)
    (hle : (s.limit.amounts which).currentValue + value ≤ limitValue)
    (hgrow : (s.limit.amounts which).limitValue ≤ limitValue) (hlimit : IsS64 limitValue) :
    s'.LimitInv := by
  obtain ⟨hpeak, hpeakle⟩ := inv.peak which
  have hbalance := inv.held c which
  refine inv.change hamounts hheld hcall ?_ ?_ ?_ ?_ hlimit
  all_goals
    dsimp only
    omega

theorem release (c : κ) (which : LimitableResource) {hint : ℤ}
    (hmay : MayRelease (s.held c which) value hint) :
    ({ s with limit := (s.limit.release which value hint).2 }.setHeld c which
      ⟨(s.held c which).value - value, (s.held c which).hint - hint⟩).LimitInv := by
  obtain ⟨hvalue, hhint, hvaluele, hhintle, hfirst⟩ := hmay
  obtain ⟨hheld, hheldhint⟩ := inv.held_le c which
  obtain ⟨-, -, hmax⟩ := inv.isS64_current which
  obtain ⟨hpeak, hpeakle⟩ := inv.peak which
  have hle := inv.hint_le_current which
  have hcurrent := wrap64_eq (z := (s.limit.amounts which).currentValue - value)
    ⟨by omega, by omega⟩
  have hcurrenthint := wrap64_eq (z := (s.limit.amounts which).currentHint - hint)
    ⟨by omega, by omega⟩
  refine inv.change rfl rfl inv.call ?_ ?_ ?_ ?_ (inv.limit which)
  all_goals
    dsimp only
    omega

theorem add {l : KResourceLimit} (c : κ) (which : LimitableResource)
    (hvalue : IsS64 value) (hadd : s.limit.add which value = .ok l) :
    ({ s with limit := l }.hold c which value).LimitInv := by
  unfold KResourceLimit.add at hadd
  dsimp only at hadd
  split_ifs at hadd with hcond
  obtain ⟨hpos, hpeak, hpeakle, -, hlimit, -, -⟩ := hcond
  injection hadd with hadd
  have hhint := inv.hint_nonneg which
  have hle := inv.hint_le_current which
  have heq := wrap64_add_eq (by omega) (inv.limit which) hvalue hlimit
  have hsum : IsS64 ((s.limit.amounts which).limitValue + value) := heq ▸ isS64_wrap64 _
  -- The limit is the largest of the three, so the other sums do not wrap either.
  have heqcurrent := wrap64_eq (z := (s.limit.amounts which).currentValue + value)
    ⟨by omega, by have := hsum.2; omega⟩
  have heqhint := wrap64_eq (z := (s.limit.amounts which).currentHint + value)
    ⟨by omega, by have := hsum.2; omega⟩
  rw [heq, heqcurrent, heqhint] at hadd
  subst hadd
  exact inv.hold rfl rfl inv.call hpos (by omega) (by omega) hsum

variable [DecidableEq ι]

/-- The loop of `Reserve`; the number of waiters may just have changed. -/
theorem reserveLoop {l : KResourceLimit}
    (hl : l.amounts = s.limit.amounts) (i : ι) (hvalue : IsS64 call.value) (tick : ℤ) :
    (s.afterReserve i call (l.reserveLoop call.which call.value call.timeout tick)).LimitInv := by
  have hnone : ∀ c, (none : Option (ReserveCall κ)) = some c → IsS64 c.value := by simp
  rcases l.reserveLoop_cases call.which call.value call.timeout tick with hout | hout |
    ⟨hover, hlimit, hout⟩
  · rw [hout]
    exact inv.of_amounts hl rfl (inv.call_update hnone)
  · rw [hout]
    refine inv.of_amounts hl rfl (inv.call_update fun c hc => ?_)
    injection hc with hc
    exact hc ▸ hvalue
  · rw [hl] at hover hlimit
    obtain ⟨hpos, hcurrent, hhint⟩ := inv.reserved hvalue hover hlimit
    rw [hcurrent] at hlimit
    rw [hl, hcurrent, hhint] at hout
    rw [hout]
    exact inv.hold (congrArg (fun f => update f call.which _) hl) rfl
      (inv.call_update hnone) hpos hlimit le_rfl (inv.limit call.which)

theorem reserve (i : ι) (hvalue : IsS64 call.value) (tick : ℤ) :
    (s.afterReserve i call (s.limit.reserve call.which call.value call.timeout tick)).LimitInv := by
  unfold KResourceLimit.reserve
  dsimp only
  split_ifs with hhint
  · exact inv.of_amounts rfl rfl (inv.call_update (by simp))
  · exact inv.reserveLoop rfl i hvalue tick

theorem wake {i : ι} (hwait : s.waiting i = some call) (tick : ℤ)
    (terminate : Bool) : (s.afterReserve i call
      (s.limit.reserveAwake call.which call.value call.timeout tick terminate)).LimitInv := by
  unfold KResourceLimit.reserveAwake
  split_ifs with hterm
  · exact inv.of_amounts rfl rfl (inv.call_update (by simp))
  · exact inv.reserveLoop (l := { s.limit with waiterCount := s.limit.waiterCount - 1 }) rfl i
      (inv.call i call hwait) tick

theorem step (hstep : Step s s') : s'.LimitInv := by
  cases hstep with
  | reserve call tick hidle hvalue => exact inv.reserve _ hvalue tick
  | wake tick terminate hwait => exact inv.wake hwait tick terminate
  | release c which hmay => exact inv.release c which hmay
  | add c which hvalue hadd => exact inv.add c which hvalue hadd
  | setLimitValue which hvalue hset => exact inv.setLimitValue which hvalue hset

end LimitInv

variable [DecidableEq ι]

theorem Reaches.inv (hrun : Reaches s) : s.LimitInv := by
  induction hrun with
  | start => exact limitInv_start
  | step _ hstep ih => exact ih.step hstep

/-- In every interleaving in which the callers release only what they hold, and the hint of a
value no later than the value, the bounds are kept, the current value is what the callers hold,
and a reservation succeeds only within the limit. -/
theorem reaches_within_limit (hrun : Reaches s) :
    (∀ which, 0 ≤ (s.limit.amounts which).currentHint ∧
      (s.limit.amounts which).currentHint ≤ (s.limit.amounts which).currentValue ∧
      (s.limit.amounts which).currentValue ≤ (s.limit.amounts which).peakValue ∧
      (s.limit.amounts which).peakValue ≤ (s.limit.amounts which).limitValue ∧
      (s.limit.amounts which).currentValue = ∑ c, (s.held c which).value) ∧
    (∀ which value timeout tick l, IsS64 value →
      s.limit.reserve which value timeout tick = (.returned true, l) →
      (l.amounts which).currentValue = (s.limit.amounts which).currentValue + value ∧
        (l.amounts which).currentValue ≤ (s.limit.amounts which).limitValue) ∧
    (∀ i call tick terminate l, s.waiting i = some call →
      s.limit.reserveAwake call.which call.value call.timeout tick terminate = (.returned true, l) →
      (l.amounts call.which).currentValue = (s.limit.amounts call.which).currentValue + call.value ∧
        (l.amounts call.which).currentValue ≤ (s.limit.amounts call.which).limitValue) := by
  have inv := hrun.inv
  refine ⟨fun which => ?_, fun which value timeout tick l hvalue hout => ?_,
    fun i call tick terminate l hwait hout => ?_⟩
  · exact ⟨inv.hint_nonneg which, inv.hint_le_current which, (inv.peak which).1,
      (inv.peak which).2, inv.current which⟩
  · unfold KResourceLimit.reserve at hout
    dsimp only at hout
    split_ifs at hout with hhint
    · cases hout
    · exact inv.current_of_reserveLoop rfl hvalue hout
  · unfold KResourceLimit.reserveAwake at hout
    split_ifs at hout with hterm
    · cases hout
    · exact inv.current_of_reserveLoop
        (l := { s.limit with waiterCount := s.limit.waiterCount - 1 }) rfl
        (inv.call i call hwait) hout

end Change

/-- Two threads are allowed. -/
def twoThreads : LimitState Unit Unit :=
  { start with
    limit := KResourceLimit.initializeLimit.setAmounts .threadCountMax ⟨2, 0, 0, 0⟩ }

/-- A call that reserves one thread. -/
def reserveThread : ReserveCall Unit := ⟨(), .threadCountMax, 1, 0⟩

/-- One caller has reserved one of the two threads. -/
def oneThread : LimitState Unit Unit :=
  twoThreads.afterReserve () reserveThread (twoThreads.limit.reserve .threadCountMax 1 0 0)

theorem oneThread_reaches : Reaches oneThread := by
  have hset : Step (start : LimitState Unit Unit) twoThreads :=
    @Step.setLimitValue _ _ _ _ _ _ .threadCountMax 2 ⟨by decide, by decide⟩ rfl
  exact (Reaches.start.step hset).step (.reserve reserveThread 0 rfl ⟨by decide, by decide⟩)

theorem oneThread_within_limit : (oneThread.limit.amounts .threadCountMax).currentHint = 1 ∧
      (oneThread.limit.amounts .threadCountMax).currentHint ≤
        (oneThread.limit.amounts .threadCountMax).currentValue ∧
      (oneThread.limit.amounts .threadCountMax).currentValue =
        ∑ c, (oneThread.held c .threadCountMax).value := by
  obtain ⟨-, hhint, -, -, hsum⟩ := (reaches_within_limit oneThread_reaches).1 .threadCountMax
  exact ⟨by decide, hhint, hsum⟩

/-- A caller that releases its value and never the hint leaves a hint above the current value. -/
theorem release_without_hint : ∃ s : LimitState Unit Unit, Reaches s ∧
      1 ≤ (s.held () .threadCountMax).value ∧ 0 ≤ (s.held () .threadCountMax).hint ∧
      ((s.limit.release .threadCountMax 1 0).2.amounts .threadCountMax).currentValue <
        ((s.limit.release .threadCountMax 1 0).2.amounts .threadCountMax).currentHint :=
  ⟨oneThread, oneThread_reaches, by decide, by decide, by decide⟩

end LimitState

end Atmosphere.Kern
