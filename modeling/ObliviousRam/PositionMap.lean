import ObliviousRam.Layer
import ObliviousRam.PositionMap.Scan
import ObliviousRam.Window

namespace ObliviousRam

inductive PositionMap (w : Nat) where
  | scan (map : ScanMap)
  /-- Entry `i` is word `i % w` of block `first + i / w` of a layer, whose positions are kept by
  the map below. -/
  | packed (layer : Layer w) (below : PositionMap w) (first : Word) (size : Nat)

namespace PositionMap

variable {w : Nat} {σ : Type}

def size : PositionMap w → Nat
  | scan map => map.size
  | packed _ _ _ size => size

def depth : PositionMap w → Nat
  | scan _ => 1
  | packed _ below _ _ => below.depth + 1

def occupancy : PositionMap w → Occupancy
  | scan _ => .zero
  | packed layer _ _ _ => layer.statistics.stash

def report? : PositionMap w → Option Statistics.Report
  | scan _ => none
  | packed layer below _ _ => some ⟨layer.statistics, below.occupancy⟩

def exchangeWord (i : Nat) (x : Word) : Accessor w Word := fun data =>
  (.ok ((Window.read i 1 data [0]).headD 0), Window.write i [x] data)

def readWord (i : Nat) : Accessor w Word := fun data => (.ok (Scan.pick i data.toList), data)

def blockOf (w : Nat) (first id : Word) : Word := first + UInt64.ofNat (id.toNat / w)

variable [LeafSource σ]

/-- Stores a position and answers the one it replaces. -/
def relocate : PositionMap w → Word → Word → Engine σ (Except Refusal Word × PositionMap w)
  | scan map, id, position =>
    let (answer, map) := map.relocate id position
    return (answer, scan map)
  | packed layer below first size, id, position => do
    if id.toNat < size then
      let (answer, layer, below) ← layer.access below (fun i p => relocate below i p)
        (blockOf w first id) (exchangeWord (id.toNat % w) position)
      return (answer, packed layer below first size)
    else return (.error .addressOutOfBounds, packed layer below first size)

def get : PositionMap w → Word → Engine σ (Except Refusal Word × PositionMap w)
  | scan map, id => return (map.get id, scan map)
  | packed layer below first size, id => do
    if id.toNat < size then
      let (answer, layer, below) ← layer.access below below.relocate
        (blockOf w first id) (readWord (id.toNat % w))
      return (answer, packed layer below first size)
    else return (.error .addressOutOfBounds, packed layer below first size)

end PositionMap

end ObliviousRam
