import ObliviousRam.Proofs.Layer.Counters

namespace ObliviousRam

variable {w : Nat}

/-- An occupancy is that of a region which now holds `count` blocks, and which held the noted
numbers of blocks after the accesses that are counted, the latest first. -/
structure Occupancy.Tells (o : Occupancy) (count : Nat) (noted : List Nat) : Prop where
  current : o.current = count
  peak : o.peak = noted.foldr max 0
  total : o.total = noted.sum

theorem Occupancy.tells_zero : zero.Tells 0 [] := ⟨rfl, rfl, rfl⟩

theorem Occupancy.Tells.record {o : Occupancy} {count : Nat} {noted : List Nat}
    (h : o.Tells count noted) (size : Nat) : (o.record size).Tells size (size :: noted) where
  current := rfl
  peak := by rw [Occupancy.record, h.peak, List.foldr_cons, Nat.max_comm]
  total := by rw [Occupancy.record, h.total, List.sum_cons, Nat.add_comm]

namespace Layer

structure Tells (layer : Layer w) (noted : List Nat) : Prop where
  accesses : layer.statistics.accesses = noted.length
  stash : layer.statistics.stash.Tells layer.stash.overflowCount noted

theorem tells_of_empty {layer : Layer w} {n depth : Nat}
    (hslots : layer.slots = List.replicate n Block.empty)
    (hstatistics : layer.statistics = .start depth) : layer.Tells [] := by
  constructor
  · rw [hstatistics]
    rfl
  · rw [hstatistics, overflowCount_of_slots hslots]
    exact Occupancy.tells_zero

theorem Fresh.tells {layer : Layer w} {levels capacity : Nat} (h : layer.Fresh levels capacity)
    (allocated : Nat) : ({ layer with allocated } : Layer w).Tells [] := by
  obtain ⟨n, hslots⟩ := h.slots
  obtain ⟨depth, hstatistics⟩ := h.statistics
  exact tells_of_empty hslots hstatistics

theorem tells_clear (layer : Layer w) : layer.clear.Tells [] := by
  obtain ⟨n, hslots⟩ := layer.exists_slots_clear
  exact tells_of_empty hslots rfl

theorem Tells.visited {layer layer' : Layer w} {previous : Word} {block : Block w} {noted : List Nat}
    (h : layer.Tells noted) (hv : layer.Visited previous block layer') :
    layer'.Tells (layer'.stash.overflowCount :: noted) where
  accesses := by rw [hv.accesses_eq, h.accesses, List.length_cons]
  stash := by
    rw [hv.statistics]
    exact h.stash.record _

end Layer

end ObliviousRam
