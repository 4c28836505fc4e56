import ObliviousRam.Bucket
import ObliviousRam.Sorting.Network

namespace ObliviousRam

/-- The blocks on their way between two accesses: a copy of the path that is being accessed, and
an overflow region for the blocks that found no place in the tree. -/
structure Stash (w : Nat) where
  network : SortNetwork
  /-- One bucket for each level, the leaf's first. -/
  path : List (Bucket w)
  overflow : List (Block w)

namespace Stash

variable {w : Nat}

def growth : Nat := 20

def levels (s : Stash w) : Nat := s.path.length

def create (network : SortNetwork) (levels overflowSize : Nat) : Except Fault (Stash w) := do
  let _ ← Word.fits (Bucket.capacity * levels + overflowSize)
  return ⟨network, List.replicate levels Bucket.empty, List.replicate overflowSize Block.empty⟩

def capacity (s : Stash w) : Nat := s.overflow.length

def overflowCount (s : Stash w) : Nat := s.overflow.countP fun b => !b.isEmpty

/-- One past the last overflow slot that is taken. -/
def overflowBound (s : Stash w) : Nat := (s.overflow.reverse.dropWhile Block.isEmpty).length

/-- Trades `slot` for `target` if it holds block `id`. The target is then still empty, because a
block has one copy. The results are the slot and the target. -/
def extract (id : Word) (slot target : Block w) : Except Fault (Block w × Block w) :=
  if slot.id = id then
    if target.isEmpty then .ok (target, slot) else .error .duplicateBlock
  else .ok (slot, target)

def extractAll (id : Word) : List (Block w) → Block w → Except Fault (List (Block w) × Block w)
  | [], target => .ok ([], target)
  | slot :: rest, target => do
    let (slot, target) ← extract id slot target
    let (rest, target) ← extractAll id rest target
    return (slot :: rest, target)

def load (s : Stash w) (level : Nat) (bucket : Bucket w) (id : Word) (target : Block w) :
    Except Fault (Stash w × Block w) := do
  unless level < s.levels do throw (.levelOutOfRange level)
  let (blocks, target) ← extractAll id bucket.toList target
  return ({ s with path := s.path.set level (Bucket.ofList blocks) }, target)

def takeOverflow (s : Stash w) (id : Word) (target : Block w) :
    Except Fault (Stash w × Block w) := do
  let (blocks, target) ← extractAll id (s.overflow.take s.overflowBound) target
  return ({ s with overflow := blocks ++ s.overflow.drop s.overflowBound }, target)

def isFull (s : Stash w) : Bool := s.overflow.all fun b => !b.isEmpty

def place (block : Block w) : List (Block w) → List (Block w)
  | [] => block :: List.replicate (growth - 1) Block.empty
  | slot :: rest => if slot.isEmpty then block :: rest else slot :: place block rest

def insert (s : Stash w) (block : Block w) : Stash w :=
  { s with overflow := place block s.overflow }

def bucketAt (s : Stash w) (level : Nat) : Except Fault (Bucket w) :=
  match s.path[level]? with
  | some bucket => .ok bucket
  | none => .error (.levelOutOfRange level)

def clear (s : Stash w) : Stash w :=
  { s with
    path := List.replicate s.levels Bucket.empty
    overflow := List.replicate s.capacity Block.empty }

end Stash

end ObliviousRam
