import Atmosphere.Fs.Storage

/-!
# Frozen addresses

The cheat process manager keeps values at frozen addresses, which its virtual machine thread writes
to the process over and over. A write to the process updates the values it overlaps. The range of a
write that succeeds lies in the address space, so that its end does not wrap around.
-/

namespace Atmosphere.Dmnt

open Fs (Bytes)

/-- `FrozenAddressMapEntry`: `width` of the eight bytes of the value are kept. -/
structure FrozenAddress where
  address : ℕ
  value : Bytes
  width : ℕ
  width_le : width ≤ 8

/-- The memory of the process and the map, which is ordered by address. -/
structure CheatProcess where
  memory : Bytes
  frozen : List FrozenAddress

namespace CheatProcess

/-! ### The model -/

section Model

variable (stored : ℕ → ℕ → ℕ) (procAddr : ℕ) (data : Bytes) (size : ℕ)

/-- `svc::WriteDebugProcessMemory` at an address: it fails if it cannot store all of the data. -/
def writeDebugProcessMemory (memory : Bytes) : Bytes :=
  memory.write procAddr (min size (stored procAddr size)) data

/-- The loop over the map. -/
def updateFrozen : List FrozenAddress → List FrozenAddress
  | [] => []
  | entry :: rest =>
    if procAddr + size ≤ entry.address then entry :: rest
    else
      let offset := entry.address - procAddr
      let copySize := min 8 (size - offset)
      (if procAddr ≤ entry.address then
        { entry with value := entry.value.write 0 copySize (data.drop offset) }
      else entry) :: updateFrozen rest

/-- `WriteCheatProcessMemoryUnsafe`, with its success. -/
def writeCheatProcessMemoryUnsafe (s : CheatProcess) : Bool × CheatProcess :=
  let memory := writeDebugProcessMemory stored procAddr data size s.memory
  if stored procAddr size < size then (false, { s with memory := memory })
  else (true, ⟨memory, updateFrozen procAddr data size s.frozen⟩)

/-- `VirtualMachineThread` writes the frozen values, whether that succeeds or not. -/
def applyFrozenAddresses (frozen : List FrozenAddress) (memory : Bytes) : Bytes :=
  frozen.foldl (fun memory entry =>
    writeDebugProcessMemory stored entry.address entry.value entry.width memory) memory

end Model

/-! ### What a write does to the frozen values -/

/-- The entry is the same up to the bytes of its value in the range, which are those written. -/
def Updated (procAddr : ℕ) (data : Bytes) (size : ℕ) (e e' : FrozenAddress) : Prop :=
  e'.address = e.address ∧ e'.width = e.width ∧ ∀ j < e.width, e'.value j =
    if procAddr ≤ e.address + j ∧ e.address + j < procAddr + size then
      data (e.address + j - procAddr)
    else e.value j

/-- The bytes of the value in the range are those written, before the write. -/
def Agrees (procAddr : ℕ) (data : Bytes) (size : ℕ) (e : FrozenAddress) : Prop :=
  ∀ j < e.width, procAddr ≤ e.address + j → e.address + j < procAddr + size →
    e.value j = data (e.address + j - procAddr)

variable {stored : ℕ → ℕ → ℕ} {procAddr size : ℕ} {data : Bytes} {l : List FrozenAddress}

/-- A value that is left alone is right exactly if it agrees with the write. -/
theorem updated_self {e : FrozenAddress} :
    Updated procAddr data size e e ↔ Agrees procAddr data size e := by
  refine ⟨fun h j hj hle hlt => (h.2.2 j hj).trans (if_pos ⟨hle, hlt⟩),
    fun h => ⟨rfl, rfl, fun j hj => ?_⟩⟩
  split_ifs with hin
  · exact h j hj hin.1 hin.2
  · rfl

/-- A value that begins behind the range agrees with every write. -/
theorem agrees_of_le {e : FrozenAddress} (h : procAddr + size ≤ e.address) :
    Agrees procAddr data size e := by
  intro j _ _ hlt
  omega

theorem updateFrozen_iff (hsorted : l.Pairwise (·.address < ·.address)) :
    l.Forall₂ (Updated procAddr data size) (updateFrozen procAddr data size l) ↔
      ∀ e ∈ l, e.address < procAddr → Agrees procAddr data size e := by
  induction l with
  | nil => simp [updateFrozen]
  | cons e rest ih =>
    obtain ⟨hlt, hsorted⟩ := List.pairwise_cons.mp hsorted
    unfold updateFrozen
    split_ifs with hend hle
    -- The map is ordered: the entries that are not visited lie behind the range.
    · have hbehind : ∀ x ∈ e :: rest, Agrees procAddr data size x := by
        refine List.forall_mem_cons.mpr ⟨agrees_of_le hend, fun x hx => agrees_of_le ?_⟩
        exact hend.trans (hlt x hx).le
      exact iff_of_true (List.forall₂_same.mpr fun x hx => updated_self.mpr (hbehind x hx))
        fun x hx _ => hbehind x hx
    · rw [List.forall₂_cons, ih hsorted, List.forall_mem_cons]
      refine and_congr_left fun _ => iff_of_true ⟨rfl, rfl, fun j hj => ?_⟩
        fun hbefore => absurd hle (not_le.mpr hbefore)
      have hwidth := e.width_le
      split_ifs with hin
      · refine (Bytes.write_of_mem (by omega) (by omega)).trans ?_
        rw [Bytes.drop]
        congr 1
        omega
      · exact Bytes.write_of_notMem (by omega)
    · rw [List.forall₂_cons, ih hsorted, List.forall_mem_cons, updated_self]
      exact and_congr_left fun _ => ⟨fun h _ => h, fun h => h (not_le.mp hle)⟩

theorem applyFrozenAddresses_keeps {l' : List FrozenAddress} {memory : Bytes} {i : ℕ}
    (h : l.Forall₂ (Updated procAddr data size) l') (hi : i < size)
    (hmemory : memory (procAddr + i) = data i) :
    applyFrozenAddresses stored l' memory (procAddr + i) = data i := by
  induction h generalizing memory with
  | nil => exact hmemory
  | @cons e e' _ _ hupdated _ ih =>
    obtain ⟨haddress, hwidth, hvalue⟩ := hupdated
    refine ih ?_
    by_cases hin : e'.address ≤ procAddr + i ∧
        procAddr + i < e'.address + min e'.width (stored e'.address e'.width)
    · refine (Bytes.write_of_mem hin.1 hin.2).trans ?_
      rw [hvalue _ (by omega), if_pos (by omega)]
      congr 1
      omega
    · exact (Bytes.write_of_notMem hin).trans hmemory

/-- A successful write puts its bytes into the frozen values, and the next application of these
leaves them in place, exactly if each frozen value that begins before the range has the written
bytes in it already. -/
theorem writeCheatProcessMemory_updates_iff {s s' : CheatProcess}
    (hsorted : s.frozen.Pairwise (·.address < ·.address))
    (hrun : writeCheatProcessMemoryUnsafe stored procAddr data size s = (true, s')) :
    (s.frozen.Forall₂ (Updated procAddr data size) s'.frozen ∧
      ∀ stored', ∀ i < size,
        applyFrozenAddresses stored' s'.frozen s'.memory (procAddr + i) = data i) ↔
    ∀ e ∈ s.frozen, e.address < procAddr → Agrees procAddr data size e := by
  unfold writeCheatProcessMemoryUnsafe at hrun
  split_ifs at hrun with hfail
  · cases hrun
  obtain rfl := (Prod.mk.inj hrun).2
  rw [← updateFrozen_iff hsorted, and_iff_left_iff_imp]
  intro hupdated stored' i hi
  refine applyFrozenAddresses_keeps hupdated hi ?_
  refine (Bytes.write_of_mem (by omega) (by omega)).trans ?_
  rw [Nat.add_sub_cancel_left]

/-- Four bytes are frozen at the address 4. -/
def fourFrozen : CheatProcess := ⟨fun _ => 0, [⟨4, fun _ => 0, 4, by decide⟩]⟩

theorem writeCheatProcessMemory_updates_fourFrozen :
    ∃ s', writeCheatProcessMemoryUnsafe (fun _ n => n) 2 (fun _ => 1) 4 fourFrozen = (true, s') ∧
      fourFrozen.frozen.Forall₂ (Updated 2 (fun _ => 1) 4) s'.frozen :=
  ⟨_, rfl, ((@writeCheatProcessMemory_updates_iff (fun _ n => n) 2 4 (fun _ => 1) fourFrozen _
    (List.pairwise_singleton _ _) rfl).mpr (by simp [fourFrozen])).1⟩

/-- A write that begins inside a frozen value does not reach it, and is undone. -/
theorem writeCheatProcessMemory_undone :
    ∃ s', writeCheatProcessMemoryUnsafe (fun _ n => n) 5 (fun _ => 1) 1 fourFrozen = (true, s') ∧
      applyFrozenAddresses (fun _ n => n) s'.frozen s'.memory 5 = 0 :=
  ⟨_, rfl, by decide⟩

end CheatProcess

end Atmosphere.Dmnt
