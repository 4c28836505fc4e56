import ObliviousRam.Proofs.Layer.Fresh
import ObliviousRam.Proofs.Layer.Visit

namespace ObliviousRam

open Slots

variable {w : Nat}

theorem Path.countP_touches (p : Path) {kind : Touch → Bool}
    (hkind : ∀ n, kind (.write n) = !kind (.read n)) : p.touches.countP kind = p.length := by
  have hwrites : kind ∘ Touch.write = fun n => !(kind ∘ Touch.read) n := funext hkind
  have hsplit := p.nodes.length_eq_countP_add_countP (kind ∘ Touch.read)
  rw [touches, List.countP_append, List.countP_map, List.countP_map, hwrites, ← p.length_nodes, hsplit]
  simp only [Bool.not_eq_true, Bool.decide_eq_false]

namespace Layer

/-- Since it was made, a layer has counted all its accesses, each of which read and wrote one path. -/
structure Counted (layer : Layer w) : Prop where
  reads : layer.tree.reads = layer.tree.levels * layer.statistics.accesses
  writes : layer.tree.writes = layer.tree.levels * layer.statistics.accesses
  current : layer.statistics.stash.current = layer.stash.overflowCount

theorem overflowCount_of_slots {layer : Layer w} {n : Nat}
    (h : layer.slots = List.replicate n Block.empty) : layer.stash.overflowCount = 0 := by
  rw [Stash.overflowCount, List.countP_eq_zero]
  intro b hb
  have hslot : b ∈ layer.slots := List.mem_append_right _ hb
  rw [h] at hslot
  rw [List.eq_of_mem_replicate hslot, Block.isEmpty_empty]
  decide

theorem Fresh.counted {layer : Layer w} {levels capacity : Nat} (h : layer.Fresh levels capacity)
    (allocated : Nat) : ({ layer with allocated } : Layer w).Counted := by
  obtain ⟨depth, hstatistics⟩ := h.statistics
  obtain ⟨n, hslots⟩ := h.slots
  constructor
  case reads =>
    rw [BucketTree.reads, h.history, hstatistics]
    rfl
  case writes =>
    rw [BucketTree.writes, h.history, hstatistics]
    rfl
  case current =>
    rw [overflowCount_of_slots hslots, hstatistics]
    rfl

namespace Visited

variable {layer layer' : Layer w} {previous : Word} {block : Block w}
  (hv : layer.Visited previous block layer')
include hv

theorem countP_history {kind : Touch → Bool} (hkind : ∀ n, kind (.write n) = !kind (.read n)) :
    layer'.tree.history.countP kind = layer.tree.history.countP kind + layer.tree.levels := by
  rw [hv.history, List.countP_append, List.countP_reverse, Path.countP_touches _ hkind,
    BucketTree.length_pathTo, Nat.add_comm]

theorem reads_eq : layer'.tree.reads = layer.tree.reads + layer.tree.levels :=
  hv.countP_history fun _ => rfl

theorem writes_eq : layer'.tree.writes = layer.tree.writes + layer.tree.levels :=
  hv.countP_history fun _ => rfl

theorem accesses_eq : layer'.statistics.accesses = layer.statistics.accesses + 1 := by
  rw [hv.statistics]
  rfl

theorem current_eq : layer'.statistics.stash.current = layer'.stash.overflowCount := by
  rw [hv.statistics]
  rfl

theorem counted (h : layer.Counted) : layer'.Counted where
  reads := by rw [hv.reads_eq, h.reads, hv.levels, hv.accesses_eq, Nat.mul_succ]
  writes := by rw [hv.writes_eq, h.writes, hv.levels, hv.accesses_eq, Nat.mul_succ]
  current := hv.current_eq

end Visited

end Layer

end ObliviousRam
