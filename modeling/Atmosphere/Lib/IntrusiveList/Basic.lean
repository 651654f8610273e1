import Mathlib

/-!
# Intrusive doubly linked lists

The nodes of the list carry the links, and a root has the links to both ends.
Nothing is said about how the nodes are stored: the links of all nodes are one
function, so that several lists can share it as long as they have no node in
common. `IsList` says that the links are those of a given list.
-/

namespace IntrusiveList

open Function (update update_self update_of_ne)

variable {α : Type*}

/-- The links of a node. In a root, `next` is the front and `prev` the back. -/
structure Entry (α : Type*) where
  prev : Option α
  next : Option α
  deriving DecidableEq, Repr

/-- An entry without neighbours. -/
def Entry.empty : Entry α := ⟨none, none⟩

/-- A root and the links of all nodes. -/
structure Links (α : Type*) where
  root : Entry α
  entry : α → Entry α

namespace Links

variable [DecidableEq α] (c : Links α)

def setEntry (a : α) (e : Entry α) : Links α :=
  { c with entry := update c.entry a e }

/-- Sets the link to the next node, in a node or, for none, in the root. -/
def setNext (node next : Option α) : Links α :=
  match node with
  | none => { c with root := { c.root with next := next } }
  | some a => c.setEntry a { c.entry a with next := next }

/-- Sets the link to the previous node, in a node or, for none, in the root. -/
def setPrev (node prev : Option α) : Links α :=
  match node with
  | none => { c with root := { c.root with prev := prev } }
  | some a => c.setEntry a { c.entry a with prev := prev }

def pushBack (a : α) : Links α :=
  let tail := c.root.prev
  ((c.setEntry a ⟨tail, none⟩).setNext tail (some a)).setPrev none (some a)

def pushFront (a : α) : Links α :=
  let head := c.root.next
  ((c.setEntry a ⟨none, head⟩).setPrev head (some a)).setNext none (some a)

def remove (a : α) : Links α :=
  let prev := (c.entry a).prev
  let next := (c.entry a).next
  (c.setNext prev next).setPrev next prev

end Links

/-! ## Segments -/

/-- The nodes of the segment are linked to each other, the first one back to `p` and the
last one on to `n`. -/
def Seg (entry : α → Entry α) : Option α → List α → Option α → Prop
  | _, [], _ => True
  | p, a :: l, n => entry a = ⟨p, l.head?.or n⟩ ∧ Seg entry (some a) l n

variable {entry entry' : α → Entry α} {p n : Option α} {a : α} {l l₁ l₂ : List α}

theorem seg_append : Seg entry p (l₁ ++ l₂) n ↔
      Seg entry p l₁ (l₂.head?.or n) ∧ Seg entry (l₁.getLast?.or p) l₂ n := by
  induction l₁ generalizing p with
  | nil => simp [Seg]
  | cons b l₁ ih =>
    have hhead : (l₁ ++ l₂).head?.or n = l₁.head?.or (l₂.head?.or n) := by
      cases l₁ with
      | nil => simp
      | cons c l₁ => simp
    have hlast : (b :: l₁).getLast?.or p = l₁.getLast?.or (some b) := by
      cases l₁ with
      | nil => simp
      | cons c l₁ => simp [List.getLast?_cons]
    rw [List.cons_append, Seg, Seg, ih, hhead, hlast, and_assoc]

theorem Seg.congr (h : Seg entry p l n) (heq : ∀ b ∈ l, entry' b = entry b) : Seg entry' p l n := by
  induction l generalizing p with
  | nil => trivial
  | cons b l ih =>
    obtain ⟨hb, hl⟩ := h
    exact ⟨(heq b (.head _)).trans hb,
      ih hl fun c hc => heq c (List.mem_cons_of_mem b hc)⟩

/-- The last node is linked on to another node. -/
theorem Seg.snoc (h : Seg entry p (l ++ [a]) n) {n' : Option α}
    (hnew : entry' a = ⟨(entry a).prev, n'⟩) (heq : ∀ b ∈ l, entry' b = entry b) :
    Seg entry' p (l ++ [a]) n' := by
  rw [seg_append] at h ⊢
  obtain ⟨hl, hlast, _⟩ := h
  refine ⟨hl.congr heq, ?_, trivial⟩
  rw [hnew, hlast]
  rfl

/-- The first node is linked back to another node. -/
theorem Seg.cons (h : Seg entry p (a :: l) n) {p' : Option α}
    (hnew : entry' a = ⟨p', (entry a).next⟩) (heq : ∀ b ∈ l, entry' b = entry b) :
    Seg entry' p' (a :: l) n := by
  obtain ⟨ha, hl⟩ := h
  refine ⟨?_, hl.congr heq⟩
  rw [hnew, ha]

/-! ## Lists -/

/-- The links are those of the list. -/
structure IsList (c : Links α) (l : List α) : Prop where
  front : c.root.next = l.head?
  back : c.root.prev = l.getLast?
  seg : Seg c.entry none l none
  nodup : l.Nodup

namespace IsList

variable {c c' : Links α}

theorem empty : IsList ⟨Entry.empty, entry⟩ ([] : List α) :=
  ⟨rfl, rfl, trivial, List.nodup_nil⟩

/-- A list does not depend on the links of other nodes. -/
theorem congr (h : IsList c l) (hroot : c'.root = c.root)
    (heq : ∀ b ∈ l, c'.entry b = c.entry b) : IsList c' l :=
  ⟨hroot ▸ h.front, hroot ▸ h.back, h.seg.congr heq, h.nodup⟩

theorem root_next_eq_none (h : IsList c l) : c.root.next = none ↔ l = [] := by
  rw [h.front, List.head?_eq_none_iff]

/-- The links of a node of the list. -/
theorem entry_eq (h : IsList c (l₁ ++ a :: l₂)) : c.entry a = ⟨l₁.getLast?, l₂.head?⟩ := by
  obtain ⟨_, hmid⟩ := seg_append.mp h.seg
  simpa using hmid.1

variable [DecidableEq α]

theorem pushBack (h : IsList c l) (ha : a ∉ l) : IsList (c.pushBack a) (l ++ [a]) := by
  have hnodup : (l ++ [a]).Nodup := by
    refine List.nodup_append.mpr ⟨h.nodup, List.nodup_singleton a, fun b hb d hd => ?_⟩
    exact fun heq => ha (List.mem_singleton.mp hd ▸ heq ▸ hb)
  obtain rfl | ⟨init, z, rfl⟩ := List.eq_nil_or_concat' l
  · have hback : c.root.prev = none := h.back
    refine ⟨?_, ?_, ?_, hnodup⟩
    all_goals simp [Links.pushBack, hback, Links.setNext, Links.setPrev, Links.setEntry, Seg]
  · have hback : c.root.prev = some z := by simpa using h.back
    have hza : z ≠ a := fun heq => ha (by simp [heq])
    have hzinit : z ∉ init := fun hz => (List.nodup_append.mp h.nodup).2.2 z hz z (by simp) rfl
    have hentry : (c.pushBack a).entry = update (update c.entry a ⟨some z, none⟩) z
        ⟨(c.entry z).prev, some a⟩ := by
      simp only [Links.pushBack, hback, Links.setNext, Links.setPrev, Links.setEntry,
        update_of_ne hza]
    have hroot : (c.pushBack a).root = ⟨some a, c.root.next⟩ := by
      simp only [Links.pushBack, hback, Links.setNext, Links.setPrev, Links.setEntry]
    refine ⟨?_, ?_, ?_, hnodup⟩
    · rw [hroot, h.front]
      cases init with
      | nil | cons y init => rfl
    · rw [hroot, List.getLast?_append, List.getLast?_singleton, Option.some_or]
    · rw [seg_append]
      refine ⟨h.seg.snoc ?_ fun b hb => ?_, ?_, trivial⟩
      · rw [hentry, update_self]
        rfl
      · rw [hentry, update_of_ne (ne_of_mem_of_not_mem hb hzinit),
          update_of_ne (ne_of_mem_of_not_mem (List.mem_append_left _ hb) ha)]
      · rw [hentry, update_of_ne hza.symm]
        simp

theorem pushFront (h : IsList c l) (ha : a ∉ l) : IsList (c.pushFront a) (a :: l) := by
  have hnodup : (a :: l).Nodup := List.nodup_cons.mpr ⟨ha, h.nodup⟩
  cases l with
  | nil =>
    have hfront : c.root.next = none := h.front
    refine ⟨?_, ?_, ?_, hnodup⟩
    all_goals simp [Links.pushFront, hfront, Links.setNext, Links.setPrev, Links.setEntry, Seg]
  | cons z l =>
    have hfront : c.root.next = some z := h.front
    have hza : z ≠ a := fun heq => ha (by simp [heq])
    have hentry : (c.pushFront a).entry = update
        (update c.entry a ⟨none, some z⟩) z ⟨some a, (c.entry z).next⟩ := by
      simp only [Links.pushFront, hfront, Links.setNext, Links.setPrev, Links.setEntry,
        update_of_ne hza]
    have hroot : (c.pushFront a).root = ⟨c.root.prev, some a⟩ := by
      simp only [Links.pushFront, hfront, Links.setNext, Links.setPrev, Links.setEntry]
    refine ⟨?_, ?_, ⟨?_, h.seg.cons ?_ fun b hb => ?_⟩, hnodup⟩
    · rfl
    · rw [hroot, h.back, List.getLast?_cons_cons]
    · rw [hentry, update_of_ne hza.symm]
      simp
    · rw [hentry, update_self]
    · rw [hentry, update_of_ne (ne_of_mem_of_not_mem hb (List.nodup_cons.mp h.nodup).1),
        update_of_ne (ne_of_mem_of_not_mem (List.mem_cons_of_mem z hb) ha)]

/-- The links after a removal: the neighbours of the node are linked to each other. -/
theorem remove_links (h : IsList c (l₁ ++ a :: l₂)) :
    c.remove a = (c.setNext l₁.getLast? l₂.head?).setPrev l₂.head? l₁.getLast? := by
  rw [Links.remove, h.entry_eq]

theorem remove_append (h : IsList c (l₁ ++ a :: l₂)) : IsList (c.remove a) (l₁ ++ l₂) := by
  have hnodup : (l₁ ++ l₂).Nodup :=
    h.nodup.sublist ((List.Sublist.refl l₁).append (List.sublist_cons_self a l₂))
  obtain ⟨hseg₁, _, hseg₂⟩ := seg_append.mp h.seg
  have hfront := h.front
  have hback := h.back
  obtain rfl | ⟨init, y, rfl⟩ := List.eq_nil_or_concat' l₁
  · cases l₂ with
    | nil =>
      refine ⟨?_, ?_, trivial, hnodup⟩
      all_goals simp [h.remove_links, Links.setNext, Links.setPrev]
    | cons z l₂ =>
      have hentry : (c.remove a).entry = update c.entry z ⟨none, (c.entry z).next⟩ := by
        simp [h.remove_links, Links.setNext, Links.setPrev, Links.setEntry]
      have hroot : (c.remove a).root = ⟨c.root.prev, some z⟩ := by
        simp [h.remove_links, Links.setNext, Links.setPrev, Links.setEntry]
      refine ⟨?_, ?_, hseg₂.cons ?_ fun b hb => ?_, hnodup⟩
      · rw [hroot]
        rfl
      · rw [hroot, hback]
        rfl
      · rw [hentry, update_self]
      · rw [hentry, update_of_ne (ne_of_mem_of_not_mem hb (List.nodup_cons.mp hnodup).1)]
  · have hyinit : y ∉ init := fun hy =>
      (List.nodup_append.mp (List.nodup_append.mp hnodup).1).2.2 y hy y (by simp) rfl
    cases l₂ with
    | nil =>
      have hentry : (c.remove a).entry = update c.entry y ⟨(c.entry y).prev, none⟩ := by
        simp [h.remove_links, Links.setNext, Links.setPrev, Links.setEntry]
      have hroot : (c.remove a).root = ⟨some y, c.root.next⟩ := by
        simp [h.remove_links, Links.setNext, Links.setPrev, Links.setEntry]
      refine ⟨?_, ?_, ?_, hnodup⟩
      · rw [hroot, hfront]
        cases init with
        | nil => rfl
        | cons x init => rfl
      · rw [hroot]
        simp
      · rw [List.append_nil]
        refine hseg₁.snoc ?_ fun b hb => ?_
        · rw [hentry, update_self]
        · rw [hentry, update_of_ne (ne_of_mem_of_not_mem hb hyinit)]
    | cons z l₂ =>
      have hyz : y ≠ z := fun heq => (List.nodup_append.mp hnodup).2.2 y (by simp) z (by simp) heq
      have hentry : (c.remove a).entry = update
          (update c.entry y ⟨(c.entry y).prev, some z⟩) z ⟨some y, (c.entry z).next⟩ := by
        simp [h.remove_links, Links.setNext, Links.setPrev, Links.setEntry, update_of_ne hyz.symm]
      have hroot : (c.remove a).root = c.root := by
        simp [h.remove_links, Links.setNext, Links.setPrev, Links.setEntry]
      have hdisj := (List.nodup_append.mp hnodup).2.2
      refine ⟨?_, ?_, ?_, hnodup⟩
      · rw [hroot, hfront]
        cases init with
        | nil => rfl
        | cons x init => rfl
      · rw [hroot, hback]
        simp [List.getLast?_cons]
      · rw [seg_append]
        refine ⟨hseg₁.snoc ?_ fun b hb => ?_, ?_⟩
        · rw [hentry, update_of_ne hyz, update_self]
          rfl
        · rw [hentry, update_of_ne, update_of_ne (ne_of_mem_of_not_mem hb hyinit)]
          exact fun heq => hdisj b (List.mem_append_left _ hb) z (by simp) heq
        · simp only [List.getLast?_append, List.getLast?_singleton, Option.some_or]
          refine hseg₂.cons ?_ fun b hb => ?_
          · rw [hentry, update_self]
          · rw [hentry, update_of_ne, update_of_ne]
            · exact fun heq => hdisj y (by simp) b (List.mem_cons_of_mem z hb) heq.symm
            · exact fun heq => (List.nodup_cons.mp (List.nodup_append.mp hnodup).2.1).1 (heq ▸ hb)

variable (h : IsList c l) {b : α}
include h

theorem remove (ha : a ∈ l) : IsList (c.remove a) (l.erase a) := by
  obtain ⟨l₁, l₂, hnot, rfl, herase⟩ := List.exists_erase_eq ha
  rw [herase]
  exact h.remove_append

/-! ## Frames -/

theorem pushBack_entry (hb : b ∉ l) (hba : b ≠ a) : (c.pushBack a).entry b = c.entry b := by
  have hprev : ∀ z, c.root.prev = some z → z ∈ l := fun z hz =>
    List.mem_of_getLast? (h.back.symm.trans hz)
  rw [Links.pushBack]
  cases htail : c.root.prev with
  | none => exact update_of_ne hba _ _
  | some z =>
    have hbz : b ≠ z := fun heq => hb (heq ▸ hprev z htail)
    exact (update_of_ne hbz _ _).trans (update_of_ne hba _ _)

theorem pushFront_entry (hb : b ∉ l) (hba : b ≠ a) :
    (c.pushFront a).entry b = c.entry b := by
  have hnext : ∀ z, c.root.next = some z → z ∈ l := fun z hz =>
    List.mem_of_mem_head? (h.front.symm.trans hz)
  rw [Links.pushFront]
  cases hhead : c.root.next with
  | none => exact update_of_ne hba _ _
  | some z =>
    have hbz : b ≠ z := fun heq => hb (heq ▸ hnext z hhead)
    exact (update_of_ne hbz _ _).trans (update_of_ne hba _ _)

theorem remove_entry (ha : a ∈ l) (hb : b ∉ l) : (c.remove a).entry b = c.entry b := by
  obtain ⟨l₁, l₂, rfl⟩ := List.append_of_mem ha
  rw [h.remove_links]
  have hlast : ∀ z, l₁.getLast? = some z → b ≠ z := fun z hz heq =>
    hb (List.mem_append_left _ (heq ▸ List.mem_of_getLast? hz))
  have hhead : ∀ z, l₂.head? = some z → b ≠ z := fun z hz heq =>
    hb (List.mem_append_right _ (List.mem_cons_of_mem a (heq ▸ List.mem_of_mem_head? hz)))
  cases hy : l₁.getLast? with
  | none =>
    cases hz : l₂.head? with
    | none => rfl
    | some z => exact update_of_ne (hhead z hz) _ _
  | some y =>
    cases hz : l₂.head? with
    | none => exact update_of_ne (hlast y hy) _ _
    | some z =>
      exact (update_of_ne (hhead z hz) _ _).trans (update_of_ne (hlast y hy) _ _)

end IsList

end IntrusiveList
