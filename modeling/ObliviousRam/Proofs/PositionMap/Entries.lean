import Mathlib.Data.List.Forall2
import ObliviousRam.PositionMap.Creation
import ObliviousRam.Proofs.Layer.Counters
import ObliviousRam.Proofs.PositionMap.Scan
import ObliviousRam.Proofs.Window

namespace ObliviousRam.PositionMap

open LeafSource

variable {w : Nat}

def entry : PositionMap w → Nat → Word
  | scan map, i => map.entries.getD i 0
  | packed layer _ first _, i =>
    (layer.contents (first + UInt64.ofNat (i / w))).toList.getD (i % w) 0

/-- The number of leaves of each layer down to the map that is scanned. A relocation draws one of
the leaves of each. -/
def leafCounts : PositionMap w → List Word
  | scan _ => []
  | packed layer below _ _ => layer.tree.leaves :: below.leafCounts

/-- Each layer down to the map that is scanned is sound, and all its blocks are allocated. -/
def Sound : PositionMap w → Prop
  | scan _ => True
  | packed layer below first size =>
    2 ≤ w ∧ first = 0 ∧ layer.capacity = ceilDiv size w ∧ layer.allocated = layer.capacity ∧
      below.size = layer.capacity ∧ layer.Sound below.entry ∧ below.Sound

def layers : PositionMap w → List (Layer w)
  | scan _ => []
  | packed layer below _ _ => layer :: below.layers

def Counted (m : PositionMap w) : Prop := ∀ layer ∈ m.layers, layer.Counted

theorem counted_packed {layer : Layer w} {below : PositionMap w} {first : Word} {size : Nat} :
    (packed layer below first size).Counted ↔ layer.Counted ∧ below.Counted := List.forall_mem_cons

theorem div_lt_ceilDiv {i size : Nat} (hw : 0 < w) (hi : i < size) : i / w < ceilDiv size w := by
  rw [lt_ceilDiv _ _ _ hw]
  exact Nat.lt_of_le_of_lt (Nat.mul_div_le i w) hi

theorem toNat_blockOf (id : Word) : (blockOf w 0 id).toNat = id.toNat / w := by
  rw [blockOf, UInt64.zero_add, UInt64.toNat_ofNat', Nat.mod_eq_of_lt]
  exact Nat.lt_of_le_of_lt (Nat.div_le_self _ _) id.toNat_lt

theorem getD_toList (data : Vector Word w) (i : Nat) (hi : i < w) :
    data.toList.getD i 0 = data[i] := by
  rw [List.getD_eq_getElem?_getD, List.getElem?_eq_getElem (by simpa using hi), Option.getD_some,
    Vector.getElem_toList]

theorem getD_write (k j : Nat) (x : Word) (data : Vector Word w) (hj : j < w) :
    (Window.write k [x] data).toList.getD j 0 = if j = k then x else data.toList.getD j 0 := by
  rw [getD_toList _ j hj, getD_toList _ j hj, Window.getElem_write, List.length_singleton]
  by_cases h : j = k
  · rw [if_pos (by omega), if_pos h, h, Nat.sub_self]
    rfl
  · rw [if_neg (by omega), if_neg h]

/-- Position `position` was stored as entry `id`, and the blocks that were accessed on the way were
sent to the leaves that were drawn. -/
inductive Relocated : PositionMap w → Word → Word → List Word → PositionMap w → Prop
  | scan (map : ScanMap) (id position : Word) :
    Relocated (scan map) id position [] (scan ⟨map.entries.setIfInBounds id.toNat position⟩)
  | packed {layer layer' : Layer w} {below below' : PositionMap w} {block first id position next : Word}
      {size : Nat} {rest : List Word} (hblock : block = blockOf w first id)
      (hbelow : Relocated below block next rest below')
      (hlayer : layer.Visited (below.entry block.toNat)
        ⟨block, 2 * next, Window.write (id.toNat % w) [position] (layer.contents block)⟩ layer') :
    Relocated (packed layer below first size) id position (next :: rest)
      (packed layer' below' first size)

namespace Relocated

variable {m m' : PositionMap w} {id position : Word} {draws : List Word}

theorem size_eq (h : Relocated m id position draws m') : m'.size = m.size := by
  cases h with
  | scan map => exact Array.size_setIfInBounds
  | packed => rfl

theorem leafCounts_eq (h : Relocated m id position draws m') : m'.leafCounts = m.leafCounts := by
  induction h with
  | scan => rfl
  | packed hblock hbelow hlayer ih =>
    rw [leafCounts, leafCounts, ih, BucketTree.leaves, hlayer.levels, BucketTree.leaves]

theorem counted (h : Relocated m id position draws m') (hm : m.Counted) : m'.Counted := by
  induction h with
  | scan => exact fun _ h => absurd h List.not_mem_nil
  | packed hblock hbelow hlayer ih =>
    rw [counted_packed] at hm ⊢
    exact ⟨hlayer.counted hm.1, ih hm.2⟩

theorem entry_eq (h : Relocated m id position draws m') (hm : m.Sound) (hid : id.toNat < m.size)
    {i : Nat} (hi : i < m.size) : m'.entry i = if i = id.toNat then position else m.entry i := by
  cases h with
  | scan map =>
    have hlt : i < map.entries.size := hi
    rw [entry, entry, Array.getD_eq_getD_getElem?, Array.getElem?_setIfInBounds,
      Array.getD_eq_getD_getElem?]
    by_cases h : i = id.toNat
    · rw [if_pos h.symm, if_pos h, if_pos (h ▸ hlt), Option.getD_some]
    · rw [if_neg (Ne.symm h), if_neg h]
  | @packed layer layer' below below' block first _ _ next size rest hblock hbelow hlayer =>
    obtain ⟨hw, rfl, hcapacity, hallocated, hsize, hsound, -⟩ := hm
    have hi' : i / w < layer.allocated := by
      rw [hallocated, hcapacity]
      exact div_lt_ceilDiv (by omega) hi
    have hlt : i / w < 2 ^ 64 :=
      Nat.lt_trans (Nat.lt_of_lt_of_le hi' hsound.allocated_le) hsound.capacity_lt
    have htoNat : (0 + UInt64.ofNat (i / w) : Word).toNat = i / w := by
      rw [UInt64.zero_add, UInt64.toNat_ofNat', Nat.mod_eq_of_lt hlt]
    have hne := hsound.ne_allOnes (htoNat.symm ▸ hi' :
      (0 + UInt64.ofNat (i / w) : Word).toNat < layer.allocated)
    have hblockNat : block.toNat = id.toNat / w := by rw [hblock, toNat_blockOf]
    have hsame : 0 + UInt64.ofNat (i / w) = block ↔ i / w = id.toNat / w := by
      rw [← UInt64.toNat_inj, htoNat, hblockNat]
    rw [entry, entry, hlayer.contents_eq hsound.ids_nodup hne]
    by_cases h : i / w = id.toNat / w
    · rw [if_pos (hsame.2 h), getD_write _ _ _ _ (Nat.mod_lt _ (by omega))]
      have hiff : i % w = id.toNat % w ↔ i = id.toNat := by
        have hsplit := Nat.div_add_mod i w
        have hsplit' := Nat.div_add_mod id.toNat w
        rw [h] at hsplit
        omega
      rw [hsame.2 h]
      simp only [hiff]
    · rw [if_neg fun h' => h (hsame.1 h'), if_neg fun h' => h (by rw [h'])]

theorem sound (h : Relocated m id position draws m') (hm : m.Sound) (hid : id.toNat < m.size)
    (hdraws : List.Forall₂ (· < ·) draws m.leafCounts) : m'.Sound := by
  induction h with
  | scan => trivial
  | @packed layer layer' below below' block first id position next size rest hblock hbelow hlayer ih =>
    obtain ⟨hw, rfl, hcapacity, hallocated, hsize, hsound, hbelowSound⟩ := hm
    rw [leafCounts, List.forall₂_cons, UInt64.lt_iff_toNat_lt, BucketTree.toNat_leaves] at hdraws
    have hblockNat : block.toNat = id.toNat / w := by rw [hblock, toNat_blockOf]
    have hblockLt : block.toNat < layer.allocated := by
      rw [hblockNat, hallocated, hcapacity]
      exact div_lt_ceilDiv (by omega) hid
    have hblockLt' : block.toNat < below.size := by rw [hsize, ← hallocated]; exact hblockLt
    refine ⟨hw, rfl, by rw [hlayer.capacity, hcapacity],
      by rw [hlayer.allocated, hlayer.capacity, hallocated],
      by rw [hbelow.size_eq, hsize, hlayer.capacity], ?_, ih hbelowSound hblockLt' hdraws.2⟩
    exact hlayer.sound hsound hblockLt hdraws.1 fun i hi =>
      hbelow.entry_eq hbelowSound hblockLt' (hsize ▸ hi)

end Relocated

end ObliviousRam.PositionMap
