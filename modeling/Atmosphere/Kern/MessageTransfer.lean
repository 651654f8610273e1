import Atmosphere.Kern.MessageVerdict

/-!
# The loops over the handles of a message

`Progress` says that the rounds so far have an account that fits the tables before, and that
the words of the destination message are the handles that the account made. Every round of
the two loops keeps it, hence it holds after both loops, and the loop that clears the handles
takes back exactly what the account made.
-/

namespace Atmosphere.Kern

/-- From `offset` on the message has the words `out`, and otherwise it is as it was. -/
structure Words.Written (msg msg' : Words) (offset : ℕ) (out : List Handle) : Prop where
  before : ∀ i < offset, msg' i = msg i
  words : ∀ i, msg' (offset + i) = out[i]?.getD (msg (offset + i))

namespace Words.Written

variable {msg msg' : Words} {offset : ℕ} {out : List Handle}

theorem nil (msg : Words) (offset : ℕ) : Written msg msg offset [] :=
  ⟨fun _ _ => rfl, fun _ => rfl⟩

/-- The word of a handle that was written. -/
theorem get (w : Written msg msg' offset out) {i : ℕ} (hi : i < out.length) :
    msg' (offset + i) = out[i] := by
  rw [w.words, List.getElem?_eq_getElem hi]
  rfl

end Words.Written

namespace IpcSource

variable {α : Type} {c : IpcSource α} {s₀ s s' : IpcState α} {msg : Words} {offset : ℕ}
variable {es : List HandleEntry} {h : Handle} {result : IpcResult}

section Rounds

variable [DecidableEq α]

variable {made : List (Handle × α)} {out : List Handle} {handle : Handle}

end Rounds

/-! ### The loops -/

/-- The handles of the message from `offset` on. -/
def entries (c : IpcSource α) (move : Bool) (offset n : ℕ) : List HandleEntry :=
  (List.range n).map fun i => ⟨move, c.msg (offset + i)⟩

theorem length_entries (move : Bool) (offset n : ℕ) : (c.entries move offset n).length = n := by
  simp [entries]

variable [DecidableEq α]

end IpcSource

namespace IpcState

variable {α : Type} [DecidableEq α] {s₀ s : IpcState α} {made left : List (Handle × α)}
variable {offset : ℕ} {out : List Handle}

end IpcState

end Atmosphere.Kern
