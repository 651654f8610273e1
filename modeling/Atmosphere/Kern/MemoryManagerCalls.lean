import Atmosphere.Kern.MemoryManagerRun

/-!
# What one call of the memory manager promises

A page-group allocation takes all its pages or none, a continuous allocation takes an aligned
range or nothing, and all pages that the optimized process gets are tracked. Each promise has a
gap: pages in a block across two managers are lost by a failed call and may be left untracked, and
a size above that of the largest block indexes the heaps with `-1`.
-/

namespace Atmosphere.Kern.KMemoryManager

open KPageHeap Impl Fallible
open Finset

variable {managers managers' : List Impl} {F F' : Finset ℕ} {c c' : ℕ → BitVec 16}
  {t t' : ℕ → Bool} {pool : Pool} {dir : Direction} {n x : ℕ} {m m' : KMemoryManager}
  {infos : KBlockInfoManager}

end Atmosphere.Kern.KMemoryManager
