import ObliviousRam.Footprint
import ObliviousRam.Oram

namespace ObliviousRam.Oram

variable {w : Nat} {σ : Type} [LeafSource σ]

def build (config : Config) (levels blocks : Nat) : Creation σ (Oram w) := do
  if blocks = 0 ∨ config.scanThreshold = 0 then throw .invalidConfiguration
  let tree ← BucketTree.create levels
  let positions ← PositionMap.create config blocks tree.leaves
  let layer ← (Layer.assemble config tree blocks positions.depth : Engine σ (Layer w))
  return ⟨layer, positions⟩

def create (config : Config) (words : Nat) : Creation σ (Oram w) :=
  if words = 0 ∨ w = 0 then throw .invalidConfiguration
  else
    let blocks := ceilDiv words w
    build config (levelsFor blocks) blocks

def blocksFor (loadFactor : Float) (levels : Nat) : Nat :=
  (Float.ofNat (2 ^ (levels - 1)) * loadFactor).toUInt64.toNat

/-- The greatest number of levels, up to the given one, with which the memory fits. -/
def fitting (w : Nat) (config : Config) (available : Nat) (loadFactor : Float) :
    Nat → Except Fault (Option Nat)
  | 0 => .ok none
  | levels + 1 => do
    let size ← Footprint.oram? w config (levels + 1) (blocksFor loadFactor (levels + 1))
    if size ≤ available then return some (levels + 1)
    else fitting w config available loadFactor levels

/-- The largest memory that fits in a number of bytes, with one to three blocks to a leaf. -/
def createWithin (config : Config) (available : Nat) (loadFactor : Float) :
    Creation σ (Oram w) := do
  unless 1.0 ≤ loadFactor ∧ loadFactor ≤ 3.0 ∧ w ≠ 0 do throw .invalidConfiguration
  let buckets := available / Footprint.bucket w
  if buckets = 0 then throw .invalidConfiguration
  let levels? ← (fitting w config available loadFactor (buckets + 1).log2 : Engine σ (Option Nat))
  match levels? with
  | some levels => build config levels (blocksFor loadFactor levels)
  | none => throw .invalidConfiguration

end ObliviousRam.Oram
