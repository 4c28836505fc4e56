import ObliviousRam.Proofs.Layer.Fetch

namespace ObliviousRam.Layer

open Slots

variable {w : Nat}

/-- The slots of the tree and of the overflow region. What the path region holds between two
accesses is a copy. -/
def slots (layer : Layer w) : List (Block w) := layer.tree.slots ++ layer.stash.overflow

def contents (layer : Layer w) (id : Word) : Vector Word w := (pick id layer.slots).data

structure Sound (layer : Layer w) (entry : Nat → Word) : Prop where
  stash_levels : layer.stash.levels = layer.tree.levels
  path_length : layer.path.length = layer.tree.levels
  allocated_le : layer.allocated ≤ layer.capacity
  capacity_lt : layer.capacity < 2 ^ 64
  ids_nodup : (ids layer.slots).Nodup
  ids_lt : ∀ b ∈ stored layer.slots, b.id.toNat < layer.allocated
  routed : layer.tree.Routed
  position : ∀ b ∈ stored layer.slots, b.position.toNat = 2 * (entry b.id.toNat).toNat
  entry_lt : ∀ i < layer.capacity, entry i < layer.tree.leaves
  clean : Clean layer.slots
  compact : Compact layer.stash.overflow

namespace Sound

variable {layer : Layer w} {entry : Nat → Word} (h : layer.Sound entry)
include h

theorem ne_allOnes {id : Word} (hid : id.toNat < layer.allocated) : id ≠ Word.allOnes := by
  rintro rfl
  have := h.allocated_le
  have := h.capacity_lt
  rw [Word.toNat_allOnes] at hid
  omega

theorem toNat_entry_lt {i : Nat} (hi : i < layer.allocated) :
    (entry i).toNat < 2 ^ (layer.tree.levels - 1) := by
  have hlt := h.entry_lt i (Nat.lt_of_lt_of_le hi h.allocated_le)
  rwa [UInt64.lt_iff_toNat_lt, layer.tree.toNat_leaves] at hlt

theorem position_ne {b : Block w} (hb : b ∈ stored layer.slots) : b.position ≠ Word.allOnes := by
  have hlt := h.toNat_entry_lt (h.ids_lt b hb)
  have hpos := h.position b hb
  have hle := layer.tree.two_pow_levels_le
  rw [layer.tree.two_pow_levels] at hle
  intro heq
  rw [heq, Word.toNat_allOnes] at hpos
  omega

theorem countP_le_one {id : Word} (hid : id ≠ Word.allOnes) :
    layer.slots.countP (fun b => b.id == id) ≤ 1 := countP_id_le_one hid h.ids_nodup

end Sound

end ObliviousRam.Layer
