import ObliviousRam.PositionMap

namespace ObliviousRam

def levelsFor (blocks : Nat) : Nat := max 1 (ceilLog2 blocks)

theorem ceilDiv_lt {n size : Nat} (hn : 1 < n) (hsize : 2 ≤ size) : ceilDiv n size < n := by
  unfold ceilDiv
  rw [Nat.div_lt_iff_lt_mul (by omega)]
  calc n + size - 1 < n + size := by omega
    _ ≤ n * size := by
      obtain ⟨a, rfl⟩ := Nat.exists_eq_add_of_le (show 2 ≤ n by omega)
      obtain ⟨b, rfl⟩ := Nat.exists_eq_add_of_le hsize
      grind

namespace PositionMap

variable {w : Nat} {σ : Type} [LeafSource σ]

def fill (positions : Word) : Nat → Word → Layer w → PositionMap w →
    Engine σ (Except Refusal (Layer w × PositionMap w))
  | 0, _, layer, below => return .ok (layer, below)
  | count + 1, id, layer, below => do
    let entries ← Engine.drawMany positions w
    let data : Vector Word w := Vector.ofFn fun i => entries.getD i 0
    match ← layer.access below below.relocate id fun _ => (.ok (), data) with
    | (.ok (), layer, below) => fill positions count (id + 1) layer below
    | (.error refusal, _, _) => return .error refusal

/-- A map of `size` entries, each of them drawn below `positions`. It is packed into blocks until
it is small enough to be scanned. -/
def create (config : Config) (size : Nat) (positions : Word) : Creation σ (PositionMap w) :=
  if positions = 0 ∨ w = 0 then throw .invalidConfiguration
  else if size ≤ config.scanThreshold then do
    (Engine.tell (.scanMapCreated size) : Engine σ Unit)
    return scan (← ScanMap.create size positions)
  else if w < 2 then throw .invalidConfiguration
  else do
    (Engine.tell (.packedMapCreated size w) : Engine σ Unit)
    if config.scanThreshold = 0 then throw .invalidConfiguration
    else
      let count := ceilDiv size w
      let tree ← BucketTree.create (levelsFor count)
      let below ← create config count tree.leaves
      let layer ← (Layer.assemble config tree count below.depth : Engine σ (Layer w))
      match layer.allocate count with
      | (some first, layer) =>
        let (layer, below) ← ExceptT.mk (fill positions count first layer below)
        return packed layer below first size
      | (none, _) => throw .invalidConfiguration
termination_by size
decreasing_by exact ceilDiv_lt (by omega) (by omega)

end PositionMap

end ObliviousRam
