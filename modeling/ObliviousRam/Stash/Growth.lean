import ObliviousRam.Engine
import ObliviousRam.Stash

namespace ObliviousRam.Stash

variable {w : Nat} {σ : Type}

def keep (s : Stash w) (block : Block w) : Engine σ (Stash w) := do
  if s.isFull then Engine.tell (.overflowGrown (s.capacity + growth))
  return s.insert block

end ObliviousRam.Stash
