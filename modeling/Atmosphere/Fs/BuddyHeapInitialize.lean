import Atmosphere.Fs.BuddyHeapSpec

/-!
# Initialization of the buddy heap

`Initialize` puts the whole pages of a heap into the list of the largest order and the rest, which
may be no whole page, into the lists of smaller orders. After that every block of the heap is free.
-/

namespace Atmosphere.Fs

open Buddy
open Finset

namespace BuddyHeap

variable {s : HeapShape} {h : BuddyHeap} {B : ℕ → Finset ℕ}

variable (hs : s.Valid)
include hs

section

variable {freeLists : ℕ → PageList} (hempty : ∀ k ≤ s.orderMax, (freeLists k).entryCount = 0)
  (memory : PageLinks)
include hempty

end

end BuddyHeap

end Atmosphere.Fs
