import ObliviousRam.Stash
import ObliviousRam.Tree.Path

namespace ObliviousRam.Stash

variable {w : Nat}

/-- A level of a path that is being refilled: the positions it takes, and how many blocks it has. -/
structure Tier where
  low : Word
  high : Word
  filled : Nat

namespace Tier

def ofNode (node : Word) : Except Fault Tier := do
  let low ← Node.lowerBound node
  let high ← Node.upperBound node
  return ⟨low, high, 0⟩

def covers (t : Tier) (position : Word) : Bool := t.low ≤ position && position ≤ t.high

def hasRoom (t : Tier) : Bool := t.filled < Bucket.capacity

def accepts (t : Tier) (position : Word) : Bool := t.covers position && t.hasRoom

def fill (t : Tier) : Tier := { t with filled := t.filled + 1 }

end Tier

def settle (suits : Tier → Bool) (reach : Nat) (tiers : List Tier) : Option Nat × List Tier :=
  match (tiers.take reach).findIdx? suits with
  | some level => (some level, tiers.modify level Tier.fill)
  | none => (none, tiers)

/-- Gives each block the lowest level within its reach that covers its position and has room. Empty
slots and blocks that find no level get none. -/
def assign : List (Nat × Block w) → List Tier → List (Block w × Option Nat) × List Tier
  | [], tiers => ([], tiers)
  | (reach, block) :: rest, tiers =>
    let (level, tiers) :=
      if block.isEmpty then (none, tiers) else settle (·.accepts block.position) reach tiers
    let (placed, tiers) := assign rest tiers
    ((block, level) :: placed, tiers)

def pad : List (Block w × Option Nat) → List Tier → List (Block w × Option Nat) × List Tier
  | [], tiers => ([], tiers)
  | (block, level) :: rest, tiers =>
    let (level, tiers) :=
      if block.isEmpty then settle Tier.hasRoom tiers.length tiers else (level, tiers)
    let (placed, tiers) := pad rest tiers
    ((block, level) :: placed, tiers)

def levelAfter : Option Nat → Option Nat → Bool
  | some a, some b => b < a
  | none, some _ => true
  | _, none => false

/-- The order of an eviction: by level, and by position within a level. -/
def evictedAfter (a b : Block w × Option Nat) : Bool :=
  levelAfter a.2 b.2 || a.2 == b.2 && b.1.position < a.1.position

/-- The slots that take part in an eviction, each with the number of levels in its reach. A block
may not rise above the level it was read from. -/
def candidates (s : Stash w) : List (Nat × Block w) :=
  s.path.zipIdx.flatMap (fun (bucket, level) => bucket.toList.map (level + 1, ·)) ++
    (s.overflow.take s.overflowBound).map (s.levels, ·)

def regroup : Nat → List (Block w) → List (Bucket w)
  | 0, _ => []
  | count + 1, blocks => Bucket.ofList blocks :: regroup count (blocks.drop Bucket.capacity)

/-- The slots that take part in an eviction, as it leaves them, with the levels they are sent to. -/
def arrange (s : Stash w) (p : Path) : Except Fault (List (Block w × Option Nat)) := do
  unless p.length = s.levels do throw (.pathLengthMismatch s.levels p.length)
  let tiers ← p.nodes.mapM Tier.ofNode
  let (placed, tiers) := assign s.candidates tiers
  let (placed, tiers) := pad placed tiers
  unless tiers.all (fun t => t.filled == Bucket.capacity) do throw .levelNotFull
  return (s.network.sort evictedAfter placed.toArray.toVector).toList

/-- Moves blocks as far down the path as they may go, so that the buckets can be written back. What
does not fit stays in the overflow region. -/
def evict (s : Stash w) (p : Path) : Except Fault (Stash w) := do
  let blocks := (← s.arrange p).map Prod.fst
  return { s with
    path := regroup s.levels blocks
    overflow := blocks.drop (Bucket.capacity * s.levels) ++ s.overflow.drop s.overflowBound }

end ObliviousRam.Stash
