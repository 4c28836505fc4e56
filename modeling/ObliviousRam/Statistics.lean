namespace ObliviousRam

structure Occupancy where
  current : Nat
  peak : Nat
  total : Nat
  /-- A moving average in which a sample loses half its weight in ten thousand accesses. -/
  average : Float

namespace Occupancy

def decay : Float := 0.99993068768415357

def zero : Occupancy := ⟨0, 0, 0, 0⟩

def record (o : Occupancy) (size : Nat) : Occupancy where
  current := size
  peak := max o.peak size
  total := o.total + size
  average := (1.0 - decay) * Float.ofNat size + decay * o.average

end Occupancy

structure Statistics where
  accesses : Nat
  stash : Occupancy
  depth : Nat

namespace Statistics

def start (depth : Nat) : Statistics := ⟨0, .zero, depth⟩

def record (s : Statistics) (size : Nat) : Statistics :=
  { s with accesses := s.accesses + 1, stash := s.stash.record size }

def reset (s : Statistics) : Statistics := start s.depth

/-- The statistics of a layer beside the stash of the layer that holds its positions. -/
structure Report where
  layer : Statistics
  positions : Occupancy

end Statistics

end ObliviousRam
